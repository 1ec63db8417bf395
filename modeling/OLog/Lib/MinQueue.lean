import Mathlib.Data.List.Sort
import Mathlib.Order.RelIso.Set

/-!
A priority queue that yields an element of least key first. The invariant is
carried by the representation: the elements are kept sorted by key, so the
first one is a minimum. Nothing is promised about the order of elements with
equal keys beyond this, and the lemmas below never depend on it.
-/

namespace OLog.Lib

variable {α κ : Type*} [LinearOrder κ]

/-- The order in which elements leave the queue. -/
abbrev KeyLE (key : α → κ) : α → α → Prop := Order.Preimage key (· ≤ ·)

structure MinQueue (α : Type*) {κ : Type*} [LinearOrder κ] (key : α → κ) where
  toList : List α
  sorted : toList.Pairwise (KeyLE key)

namespace MinQueue

variable {key : α → κ}

def empty : MinQueue α key := ⟨[], List.Pairwise.nil⟩

def size (q : MinQueue α key) : Nat := q.toList.length

def push (q : MinQueue α key) (a : α) : MinQueue α key :=
  ⟨q.toList.orderedInsert (KeyLE key) a, q.sorted.orderedInsert a _⟩

theorem push_perm (q : MinQueue α key) (a : α) :
    (q.push a).toList.Perm (a :: q.toList) :=
  List.perm_orderedInsert _ a q.toList

theorem mem_push (q : MinQueue α key) (a b : α) :
    b ∈ (q.push a).toList ↔ b = a ∨ b ∈ q.toList := by
  rw [(q.push_perm a).mem_iff, List.mem_cons]

/-- The head of a sorted list bounds every key below it. -/
theorem head_le {a : α} {rest : List α}
    (hsorted : (a :: rest).Pairwise (KeyLE key)) {b : α} (hb : b ∈ rest) :
    key a ≤ key b :=
  List.rel_of_pairwise_cons hsorted hb

end MinQueue

end OLog.Lib
