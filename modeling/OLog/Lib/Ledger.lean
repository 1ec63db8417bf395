import Mathlib.Logic.Relation
import OLog.Lib.Progression

/-!
An accounting of the terms of a progression. Keys arrive in any order; the
ledger holds the next term it waits for and moves past it in one of two ways:
it *passes* a term that has arrived, or it *skips* one that has not and notes
it as missed. The ledger's books balance: the passed and the missed terms
together are exactly the terms below the next one, each of them once.
-/

namespace OLog.Lib

variable {α : Type*} [AddCommGroup α]

structure Ledger (α : Type*) where
  next : α
  received : Set α
  passed : List α
  missed : List α

namespace Ledger

def opened (a : α) : Ledger α := ⟨a, ∅, [], []⟩

def arrive (L : Ledger α) (t : α) : Ledger α :=
  {L with received := insert t L.received}

def pass (d : α) (L : Ledger α) : Ledger α :=
  {L with next := L.next + d, passed := L.passed ++ [L.next]}

def skip (d : α) (L : Ledger α) : Ledger α :=
  {L with next := L.next + d, missed := L.missed ++ [L.next]}

inductive Move (d : α) : Ledger α → Ledger α → Prop
  | pass (L : Ledger α) (h : L.next ∈ L.received) : Move d L (L.pass d)
  | skip (L : Ledger α) (h : L.next ∉ L.received) : Move d L (L.skip d)

/-- One arrival and the moves made in answer to it. -/
def Turn (d : α) (L : Ledger α) (t : α) (L' : Ledger α) : Prop :=
  Relation.ReflTransGen (Move d) (L.arrive t) L'

/-- The books balance at term `n`. -/
structure Balanced (a d : α) (n : ℕ) (L : Ledger α) : Prop where
  next_eq : L.next = tick a d n
  booked : (L.passed ++ L.missed).Perm ((List.range n).map (tick a d))

theorem opened_balanced (a d : α) : (opened a).Balanced a d 0 :=
  ⟨by simp [opened], by simp [opened]⟩

theorem Balanced.arrive {a d : α} {n : ℕ} {L : Ledger α} (h : L.Balanced a d n)
    (t : α) : (L.arrive t).Balanced a d n :=
  ⟨h.next_eq, h.booked⟩

theorem Balanced.move {a d : α} {n : ℕ} {L L' : Ledger α}
    (h : L.Balanced a d n) (hmove : Move d L L') : L'.Balanced a d (n + 1) := by
  have hrange : ((List.range (n + 1)).map (tick a d)).Perm
      (L.next :: (L.passed ++ L.missed)) := by
    rw [List.range_succ, List.map_append, h.next_eq]
    simp only [List.map_cons, List.map_nil]
    exact (List.perm_append_singleton _ _).trans (h.booked.symm.cons _)
  cases hmove with
  | pass _ =>
      refine ⟨by simp [pass, h.next_eq, tick_succ], ?_⟩
      refine List.Perm.trans ?_ hrange.symm
      simp only [pass, List.append_assoc, List.singleton_append]
      exact List.perm_middle
  | skip _ =>
      refine ⟨by simp [skip, h.next_eq, tick_succ], ?_⟩
      refine List.Perm.trans ?_ hrange.symm
      simp only [skip, ← List.append_assoc]
      exact List.perm_append_singleton _ _

theorem Balanced.turn {a d t : α} {n : ℕ} {L L' : Ledger α}
    (h : L.Balanced a d n) (hturn : Turn d L t L') :
    ∃ n', n ≤ n' ∧ L'.Balanced a d n' := by
  induction hturn with
  | refl => exact ⟨n, le_rfl, h.arrive t⟩
  | tail _ hmove ih =>
      obtain ⟨n', hle, hbal⟩ := ih
      exact ⟨n' + 1, by omega, hbal.move hmove⟩

/-- Passing a stretch of arrived terms. -/
theorem pass_moves {d : α} {L : Ledger α} (n : ℕ)
    (hin : ∀ j < n, tick L.next d j ∈ L.received) :
    Relation.ReflTransGen (Move d) L
      {L with next := tick L.next d n
              passed := L.passed ++ (List.range n).map (tick L.next d)} := by
  induction n with
  | zero =>
      simp only [tick_zero, List.range_zero, List.map_nil, List.append_nil]
      exact Relation.ReflTransGen.refl
  | succ n ih =>
      refine (ih (fun j hj => hin j (by omega))).tail ?_
      have hmove := Move.pass (d := d)
        {L with next := tick L.next d n
                passed := L.passed ++ (List.range n).map (tick L.next d)}
        (hin n (by omega))
      simpa [pass, tick_succ, List.range_succ] using hmove

section Order

variable [LinearOrder α] [IsOrderedAddMonoid α]

/-- A term below the next one is booked exactly once, on exactly one side. -/
theorem Balanced.booked_once {a d : α} (hd : 0 < d) {n j : ℕ} {L : Ledger α}
    (h : L.Balanced a d n) (hj : tick a d j < L.next) :
    L.passed.count (tick a d j) + L.missed.count (tick a d j) = 1 := by
  have hlt : j < n := (tick_strictMono a hd).lt_iff_lt.mp (h.next_eq ▸ hj)
  have hnodup : ((List.range n).map (tick a d)).Nodup :=
    (List.nodup_range).map (tick_strictMono a hd).injective
  rw [← List.count_append, h.booked.count_eq]
  exact List.count_eq_one_of_mem hnodup
    (List.mem_map.mpr ⟨j, List.mem_range.mpr hlt, rfl⟩)

/-- Only terms below the next one are booked. -/
theorem Balanced.booked_below {a d : α} (hd : 0 < d) {n : ℕ} {L : Ledger α}
    (h : L.Balanced a d n) {t : α} (ht : t ∈ L.passed ++ L.missed) :
    ∃ j, t = tick a d j ∧ t < L.next := by
  obtain ⟨j, hj, rfl⟩ := List.mem_map.mp (h.booked.mem_iff.mp ht)
  refine ⟨j, rfl, ?_⟩
  rw [h.next_eq]
  exact tick_strictMono a hd (List.mem_range.mp hj)

/-- What one turn books lies between the old and the new next term. -/
theorem Turn.next_le {d t : α} (hd : 0 < d) {L L' : Ledger α} (hturn : Turn d L t L') :
    L.next ≤ L'.next := by
  induction hturn with
  | refl => exact le_rfl
  | tail _ hmove ih =>
      cases hmove with
      | pass _ => exact ih.trans (le_add_of_nonneg_right hd.le)
      | skip _ => exact ih.trans (le_add_of_nonneg_right hd.le)

/-- What a turn adds to the books: terms from the old next one on; those that
it passes have arrived by then, those that it misses have not. -/
theorem Turn.books {d t : α} (hd : 0 < d) {L L' : Ledger α} (hturn : Turn d L t L') :
    L'.received = insert t L.received ∧
      ∃ ps ms, L'.passed = L.passed ++ ps ∧ L'.missed = L.missed ++ ms ∧
        (∀ p ∈ ps, p ∈ L'.received ∧ L.next ≤ p) ∧
        ∀ m ∈ ms, m ∉ L'.received ∧ L.next ≤ m := by
  induction hturn with
  | refl => exact ⟨rfl, [], [], by simp [arrive], by simp [arrive], by simp, by simp⟩
  | @tail before _ hturn hmove ih =>
      obtain ⟨hrec, ps, ms, hps, hms, hin, hout⟩ := ih
      have hle : L.next ≤ before.next := Turn.next_le hd hturn
      cases hmove with
      | pass hnext =>
          refine ⟨hrec, ps ++ [before.next], ms, by simp [pass, hps], hms, ?_, hout⟩
          intro p hp
          rcases List.mem_append.mp hp with hp | hp
          · exact hin p hp
          · rw [List.mem_singleton.mp hp]
            exact ⟨hnext, hle⟩
      | skip hnext =>
          refine ⟨hrec, ps, ms ++ [before.next], hps, by simp [skip, hms], hin, ?_⟩
          intro m hm
          rcases List.mem_append.mp hm with hm | hm
          · exact hout m hm
          · rw [List.mem_singleton.mp hm]
            exact ⟨hnext, hle⟩

end Order

end Ledger

section History

variable {ι β : Type*} [LinearOrder β] {level : List ι → Option β} {key : ι → β}

/-- A run shows a `level` after each history, possibly none at first. Here it moves
past `t` with entry `n`. -/
structure MovesPast (level : List ι → Option β) (xs : List ι) (t : β) (n : ℕ) : Prop where
  lt_length : n < xs.length
  before : ∀ e ∈ level (xs.take n), e ≤ t
  after : ∃ e ∈ level (xs.take (n + 1)), t < e

/-- The key is among those that have arrived when the level moves past it. -/
def InTime (level : List ι → Option β) (key : ι → β) (xs : List ι) (t : β) : Prop :=
  ∃ n, MovesPast level xs t n ∧ t ∈ (xs.take (n + 1)).map key

/-- Once the level is past `t`, later entries do not matter. -/
theorem inTime_concat_of_lt {xs : List ι} {x : ι} {t : β} (hpast : ∃ e ∈ level xs, t < e) :
    InTime level key (xs ++ [x]) t ↔ InTime level key xs t := by
  have htake : ∀ n, n < xs.length →
      (xs ++ [x]).take n = xs.take n ∧ (xs ++ [x]).take (n + 1) = xs.take (n + 1) := by
    intro n hn
    exact ⟨List.take_append_of_le_length (by omega), List.take_append_of_le_length (by omega)⟩
  constructor
  · rintro ⟨n, hn, hmem⟩
    have hlt : n < xs.length := by
      by_contra hge
      have heq : n = xs.length := by
        have := hn.lt_length
        simp only [List.length_append, List.length_singleton] at this
        omega
      obtain ⟨e, he, hte⟩ := hpast
      have hle := hn.before e (by rw [heq, List.take_left']; exacts [he, rfl])
      exact absurd hte (not_lt.mpr hle)
    obtain ⟨h1, h2⟩ := htake n hlt
    refine ⟨n, ⟨hlt, ?_, ?_⟩, ?_⟩
    · exact h1 ▸ hn.before
    · exact h2 ▸ hn.after
    · exact h2 ▸ hmem
  · rintro ⟨n, hn, hmem⟩
    obtain ⟨h1, h2⟩ := htake n hn.lt_length
    refine ⟨n, ⟨?_, ?_, ?_⟩, ?_⟩
    · have := hn.lt_length
      simp only [List.length_append, List.length_singleton]
      omega
    · rw [h1]
      exact hn.before
    · rw [h2]
      exact hn.after
    · rw [h2]
      exact hmem

/-- If the level moves past `t` with the last entry, `t` is in time exactly if
it has arrived at all. -/
theorem inTime_concat_of_le {xs : List ι} {x : ι} {t : β}
    (hbefore : ∀ ys, ys <+: xs → ∀ e ∈ level ys, e ≤ t)
    (hafter : ∃ e ∈ level (xs ++ [x]), t < e) :
    InTime level key (xs ++ [x]) t ↔ t ∈ (xs ++ [x]).map key := by
  have hall : (xs ++ [x]).take (xs.length + 1) = xs ++ [x] := by
    apply List.take_of_length_le
    simp
  constructor
  · rintro ⟨n, _, hmem⟩
    exact List.map_subset key (List.take_subset _ _) hmem
  · intro hmem
    refine ⟨xs.length, ⟨by simp, ?_, ?_⟩, ?_⟩
    · rw [List.take_left' rfl]
      exact hbefore xs (List.prefix_rfl)
    · rw [hall]
      exact hafter
    · rw [hall]
      exact hmem

theorem InTime.congr {ι' : Type*} {level' : List ι' → Option β} {key' : ι' → β}
    (f : ι → ι') (hlevel : ∀ xs, level xs = level' (xs.map f)) (hkey : ∀ x, key x = key' (f x))
    (xs : List ι) (t : β) : InTime level key xs t ↔ InTime level' key' (xs.map f) t := by
  have hkeys : ∀ ys : List ι, ys.map key = (ys.map f).map key' := by
    intro ys
    rw [List.map_map]
    exact List.map_congr_left (fun x _ => hkey x)
  constructor
  · rintro ⟨n, hn, hmem⟩
    refine ⟨n, ⟨by simpa using hn.lt_length, ?_, ?_⟩, ?_⟩
    · rw [← List.map_take, ← hlevel]
      exact hn.before
    · rw [← List.map_take, ← hlevel]
      exact hn.after
    · rw [← List.map_take, ← hkeys]
      exact hmem
  · rintro ⟨n, hn, hmem⟩
    rw [← List.map_take, ← hkeys] at hmem
    refine ⟨n, ⟨by simpa using hn.lt_length, ?_, ?_⟩, hmem⟩
    · rw [hlevel, List.map_take]
      exact hn.before
    · rw [hlevel, List.map_take]
      exact hn.after

end History

end OLog.Lib
