import OLog.Alert
import OLog.Context

/-!
What can be seen of a call of `exec` apart from its outcome: what it does to
the mutex and the members of a context, the sums of timestamps that it takes,
and what each alert is about. A `Probe` says what becomes of that, so that the
body of `exec` is written once for whatever is to be watched.
-/

namespace OLog

/-- The members of a `Context` that its mutex protects. -/
inductive Member where
  | queue
  | expectTimestamp
  | preValue
  | preVolume
  deriving DecidableEq, Repr

inductive Effect where
  | lock
  | unlock
  | read (member : Member)
  | write (member : Member)
  /-- A sum or difference of timestamps, before it is stored in 64 bits. -/
  | computes (value : Int)
  deriving DecidableEq, Repr

inductive Subject where
  | feed (sf : StatisticsFeed)
  | tick (feedcode : String) (timestamp : Int)
  deriving DecidableEq, Repr

/-- An alert with the feed or the tick that it is about. Where several feeds with the
least timestamp wait, the heap decides which of them is the top; an alert about the
top then lists them all. -/
structure Report where
  subjects : List Subject
  alert : Alert
  deriving DecidableEq, Repr

structure Probe (m : Type → Type) where
  /-- A fault ends the execution. -/
  lift : {α : Type} → Except Fault α → m α
  effect : Effect → m Unit
  report : Report → m Unit
  /-- What is stored of a sum of timestamps. -/
  fit : Int → Int

end OLog
