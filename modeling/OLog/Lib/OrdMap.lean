import Mathlib.Data.List.Basic
import Mathlib.Order.Lattice
import Mathlib.Tactic.Common

/-!
A finite map kept as an association list in strictly increasing key order, so
that iterating over it visits the keys in order and two maps with the same
bindings are the same value. Bindings are read with `get?`; every lemma about
an update says what `get?` answers afterwards.
-/

namespace OLog.Lib

variable {κ ν : Type*} [LinearOrder κ]

structure OrdMap (κ ν : Type*) [LinearOrder κ] where
  entries : List (κ × ν)
  sorted : entries.Pairwise (fun a b => a.1 < b.1)

namespace OrdMap

def lookup (k : κ) : List (κ × ν) → Option ν
  | [] => none
  | (k', v) :: rest => if k = k' then some v else lookup k rest

def insertEntry (k : κ) (v : ν) : List (κ × ν) → List (κ × ν)
  | [] => [(k, v)]
  | (k', v') :: rest =>
      if k < k' then (k, v) :: (k', v') :: rest
      else if k = k' then (k, v) :: rest
      else (k', v') :: insertEntry k v rest

theorem mem_insertEntry {k : κ} {v : ν} {l : List (κ × ν)} {e : κ × ν}
    (he : e ∈ insertEntry k v l) : e = (k, v) ∨ e ∈ l := by
  induction l with
  | nil => simpa [insertEntry] using he
  | cons head rest ih =>
      obtain ⟨k', v'⟩ := head
      simp only [insertEntry] at he
      split_ifs at he with hlt heq
      · simpa using he
      · rcases List.mem_cons.mp he with h | h
        · exact Or.inl h
        · exact Or.inr (List.mem_cons_of_mem _ h)
      · rcases List.mem_cons.mp he with h | h
        · exact Or.inr (h ▸ List.mem_cons_self)
        · exact (ih h).imp_right (List.mem_cons_of_mem _)

theorem insertEntry_sorted (k : κ) (v : ν) {l : List (κ × ν)}
    (hl : l.Pairwise (fun a b => a.1 < b.1)) :
    (insertEntry k v l).Pairwise (fun a b => a.1 < b.1) := by
  induction l with
  | nil => simp [insertEntry]
  | cons head rest ih =>
      obtain ⟨k', v'⟩ := head
      obtain ⟨hhead, hrest⟩ := List.pairwise_cons.mp hl
      simp only [insertEntry]
      split_ifs with hlt heq
      · refine List.pairwise_cons.mpr ⟨?_, hl⟩
        intro e he
        rcases List.mem_cons.mp he with rfl | h
        · exact hlt
        · exact hlt.trans (hhead e h)
      · subst heq
        exact List.pairwise_cons.mpr ⟨hhead, hrest⟩
      · refine List.pairwise_cons.mpr ⟨?_, ih hrest⟩
        intro e he
        rcases mem_insertEntry he with rfl | h
        · exact lt_of_le_of_ne (not_lt.mp hlt) (Ne.symm heq)
        · exact hhead e h

theorem lookup_insertEntry (k : κ) (v : ν) (l : List (κ × ν)) (q : κ) :
    lookup q (insertEntry k v l) = if q = k then some v else lookup q l := by
  induction l with
  | nil => simp [insertEntry, lookup]
  | cons head rest ih =>
      obtain ⟨k', v'⟩ := head
      simp only [insertEntry]
      by_cases hlt : k < k'
      · simp only [hlt, if_true, lookup]
      · by_cases heq : k = k'
        · subst heq
          simp only [hlt, if_false, if_true, lookup]
          split_ifs <;> rfl
        · simp only [hlt, heq, if_false, lookup, ih]
          split_ifs with h1 h2
          · exact absurd (h2.symm.trans h1) heq
          · rfl
          · rfl
          · rfl

theorem lookup_eq_none_of_lt {k : κ} {l : List (κ × ν)}
    (h : ∀ e ∈ l, k < e.1) : lookup k l = none := by
  induction l with
  | nil => rfl
  | cons head rest ih =>
      obtain ⟨k', v'⟩ := head
      have hne : k ≠ k' := (h (k', v') List.mem_cons_self).ne
      simp only [lookup, hne, if_false]
      exact ih (fun e he => h e (List.mem_cons_of_mem _ he))

theorem mem_iff_lookup {l : List (κ × ν)}
    (hl : l.Pairwise (fun a b => a.1 < b.1)) (k : κ) (v : ν) :
    (k, v) ∈ l ↔ lookup k l = some v := by
  induction l with
  | nil => simp [lookup]
  | cons head rest ih =>
      obtain ⟨k', v'⟩ := head
      obtain ⟨hhead, hrest⟩ := List.pairwise_cons.mp hl
      by_cases hk : k = k'
      · subst hk
        have hnone : lookup k rest = none := lookup_eq_none_of_lt hhead
        have hnot : (k, v) ∉ rest := by
          rw [ih hrest, hnone]
          simp
        simp [lookup, hnot, eq_comm]
      · simp [lookup, hk, ih hrest]

theorem lookup_map {ν' : Type*} (f : ν → ν') (k : κ) (l : List (κ × ν)) :
    lookup k (l.map (fun e => (e.1, f e.2))) = (lookup k l).map f := by
  induction l with
  | nil => rfl
  | cons head rest ih =>
      simp only [List.map_cons, lookup, ih]
      split_ifs <;> rfl

theorem lookup_filter_ne (k q : κ) (l : List (κ × ν)) :
    lookup q (l.filter (fun e => e.1 ≠ k)) =
      if q = k then none else lookup q l := by
  induction l with
  | nil => simp [lookup]
  | cons head rest ih =>
      obtain ⟨k', v'⟩ := head
      by_cases hk : k' = k
      · subst hk
        simp only [ne_eq, decide_not, List.filter_cons, decide_true,
          Bool.not_true, Bool.false_eq_true, if_false, lookup]
        simp only [ne_eq, decide_not] at ih
        rw [ih]
        split_ifs <;> rfl
      · simp only [ne_eq, decide_not, List.filter_cons, hk, decide_false,
          Bool.not_false, if_true, lookup]
        simp only [ne_eq, decide_not] at ih
        rw [ih]
        split_ifs with h1 h2 h3
        · exact absurd (h1 ▸ h2) hk
        · rfl
        · rfl
        · rfl

def empty : OrdMap κ ν := ⟨[], List.Pairwise.nil⟩

def get? (m : OrdMap κ ν) (k : κ) : Option ν := lookup k m.entries

def insert (m : OrdMap κ ν) (k : κ) (v : ν) : OrdMap κ ν :=
  ⟨insertEntry k v m.entries, insertEntry_sorted k v m.sorted⟩

def erase (m : OrdMap κ ν) (k : κ) : OrdMap κ ν :=
  ⟨m.entries.filter (fun e => e.1 ≠ k), m.sorted.filter _⟩

/-- The keys, in the order in which an iteration over the map visits them. -/
def keys (m : OrdMap κ ν) : List κ := m.entries.map Prod.fst

theorem get?_insert (m : OrdMap κ ν) (k q : κ) (v : ν) :
    (m.insert k v).get? q = if q = k then some v else m.get? q :=
  lookup_insertEntry k v m.entries q

@[simp] theorem get?_insert_self (m : OrdMap κ ν) (k : κ) (v : ν) :
    (m.insert k v).get? k = some v := by
  simp [get?_insert]

theorem get?_insert_of_ne (m : OrdMap κ ν) {k q : κ} (v : ν) (h : q ≠ k) :
    (m.insert k v).get? q = m.get? q := by
  simp [get?_insert, h]

theorem get?_erase (m : OrdMap κ ν) (k q : κ) :
    (m.erase k).get? q = if q = k then none else m.get? q :=
  lookup_filter_ne k q m.entries

theorem mem_keys_iff (m : OrdMap κ ν) (k : κ) :
    k ∈ m.keys ↔ ∃ v, m.get? k = some v := by
  simp only [keys, List.mem_map, get?]
  constructor
  · rintro ⟨⟨k', v⟩, hmem, rfl⟩
    exact ⟨v, (mem_iff_lookup m.sorted k' v).mp hmem⟩
  · rintro ⟨v, hv⟩
    exact ⟨(k, v), (mem_iff_lookup m.sorted k v).mpr hv, rfl⟩

theorem keys_nodup (m : OrdMap κ ν) : m.keys.Nodup := by
  refine List.pairwise_map.mpr (m.sorted.imp ?_)
  intro a b hab
  exact hab.ne

end OrdMap

end OLog.Lib
