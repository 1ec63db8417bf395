import OLog.Passes

/-!
The feeds that wait to be resent. Each was sent before, with the delay due, and
has been put aside with its schedules; the one for delays has moved on, so that
the lines of the feed are written when it is resent.
-/

namespace OLog.Generator

/-- The feeds differ in their schedules at most. -/
structure Feed.Alike (feed other : Feed) : Prop where
  statistics : feed.statisticsFeed = other.statisticsFeed
  price : feed.priceFeed = other.priceFeed
  id : feed.feedCodeId = other.feedCodeId

/-- A feed in the queue: its own schedule has moved on, so that its lines are
written when it is resent. -/
structure Feed.Waits (feedCodeId : Int) (delayed : Feed) : Prop where
  id : delayed.feedCodeId = feedCodeId
  price : delayed.priceFeed.exchangeTimestamp = delayed.timestamp
  moved : delayed.timestamp / 100000000 ≠ delayed.delay.next

theorem Feed.Waits.not_faulty {feedCodeId : Int} {delayed : Feed} (h : delayed.Waits feedCodeId)
    (conf : Conf) : ¬ delayed.Faulty conf .delay := by
  intro hfaulty
  exact h.moved hfaulty.2.2

namespace ThreadState

def QueueWaits (s : ThreadState) : Prop :=
  ∀ delayed ∈ s.delayQueue, delayed.Waits s.feed.feedCodeId

section QueueWaits

variable {s : ThreadState} {conf : Conf} (hinterval : 0 < conf.delay.interval)
  (h : s.QueueWaits)

include hinterval h

theorem QueueWaits.counted (inputs : PassInputs) :
    ∀ delayed ∈ (s.counted conf inputs).delayQueue, delayed.Waits s.feed.feedCodeId := by
  rw [counted_queue]
  intro delayed hdelayed
  rcases List.mem_append.mp hdelayed with hold | hnew
  · exact h delayed hold
  · split_ifs at hnew with hfaulty
    · rw [List.mem_singleton.mp hnew, counted_feed]
      refine ⟨rfl, rfl, ?_⟩
      have hdue := hfaulty.2.2
      have hmoved : (s.next conf inputs).delay.advance conf.delay (s.next conf inputs).feedCodeId
          (s.next conf inputs).timestamp =
            ⟨(s.next conf inputs).delay.next + conf.delay.interval * 10,
              (s.next conf inputs).delay.current + 1⟩ := if_pos hfaulty
      rw [hmoved]
      change (s.next conf inputs).timestamp / 100000000 ≠
        (s.next conf inputs).delay.next + conf.delay.interval * 10
      change (s.next conf inputs).timestamp / 100000000 = (s.next conf inputs).delay.next at hdue
      omega
    · cases hnew

theorem QueueWaits.pass (randomLogSet : List String) (nowTime : Int) (inputs : PassInputs) :
    (s.pass conf randomLogSet nowTime inputs).QueueWaits := by
  by_cases hsends : s.Sends nowTime
  · have hcounted := h.counted hinterval inputs
    have hid := (pass_feed s conf randomLogSet nowTime inputs hsends).2
    unfold QueueWaits
    rw [hid, pass_of_sends s conf randomLogSet nowTime inputs hsends, resend_eq]
    intro delayed hdelayed
    apply hcounted
    change delayed ∈ if (s.counted conf inputs).ResendsNow conf then
      (s.counted conf inputs).delayQueue.tail else (s.counted conf inputs).delayQueue at hdelayed
    split_ifs at hdelayed
    · exact List.mem_of_mem_tail hdelayed
    · exact hdelayed
  · rw [pass_of_not_sends s conf randomLogSet nowTime inputs hsends]
    exact h

end QueueWaits

/-- Whatever waits to be resent was sent before, but for its schedules. -/
def Recalls (conf : Conf) (before : List Feed) (s : ThreadState) : Prop :=
  ∀ delayed ∈ s.delayQueue, ∃ feed ∈ before, feed.Faulty conf .delay ∧ delayed.Alike feed

section Recalls

variable {s : ThreadState} {conf : Conf} {before : List Feed} (h : s.Recalls conf before)

include h

theorem Recalls.counted (inputs : PassInputs) :
    (s.counted conf inputs).Recalls conf (before ++ [s.next conf inputs]) := by
  intro delayed hdelayed
  rw [s.counted_queue conf inputs, List.mem_append] at hdelayed
  rcases hdelayed with hold | hnew
  · obtain ⟨feed, hfeed, hrecalled⟩ := h delayed hold
    exact ⟨feed, List.mem_append_left _ hfeed, hrecalled⟩
  · split_ifs at hnew with hfaulty
    · refine ⟨s.next conf inputs, List.mem_append_right _ List.mem_cons_self, hfaulty, ?_⟩
      rw [List.mem_singleton.mp hnew, counted_feed]
      exact ⟨rfl, rfl, rfl⟩
    · cases hnew

theorem Recalls.pass (randomLogSet : List String) (nowTime : Int) (inputs : PassInputs) :
    (s.pass conf randomLogSet nowTime inputs).Recalls conf
      (before ++ (s.passLog conf randomLogSet nowTime inputs).sent.toList) := by
  by_cases hsends : s.Sends nowTime
  · rw [(passLog_of_sends s conf randomLogSet nowTime inputs hsends).1]
    intro delayed hdelayed
    apply h.counted inputs delayed
    rw [pass_delayQueue s conf randomLogSet nowTime inputs hsends] at hdelayed
    split_ifs at hdelayed
    · exact List.mem_of_mem_tail hdelayed
    · exact hdelayed
  · rw [(passLog_of_not_sends s conf randomLogSet nowTime inputs hsends).1,
      pass_of_not_sends s conf randomLogSet nowTime inputs hsends, Option.toList_none,
      List.append_nil]
    exact h

end Recalls

end ThreadState

end OLog.Generator
