import Mathlib.Data.List.Basic
import Mathlib.Data.List.Forall2
import Mathlib.Data.List.Induction
import Mathlib.Tactic.Common

/-!
Runs of a fallible step function over a list of inputs, with invariants that
may mention the inputs consumed so far. A run is `List.foldlM` in `Except`,
so a theorem that a run returns `.ok` also says that no step failed.
-/

namespace OLog.Lib

variable {ε σ ι : Type}

theorem bind_eq_ok {α β : Type} {x : Except ε α} {f : α → Except ε β} {b : β} :
    x >>= f = .ok b ↔ ∃ a, x = .ok a ∧ f a = .ok b := by
  cases x with
  | error e =>
      constructor
      · intro h
        cases h
      · rintro ⟨a, h, _⟩
        cases h
  | ok a =>
      constructor
      · intro h
        exact ⟨a, rfl, h⟩
      · rintro ⟨a', h, hf⟩
        cases h
        exact hf

theorem map_eq_ok {α β : Type} {x : Except ε α} {f : α → β} {b : β} :
    x.map f = .ok b ↔ ∃ a, x = .ok a ∧ f a = b := by
  cases x <;> simp [Except.map]

theorem ok_bind {α β : Type} (a : α) (f : α → Except ε β) :
    (Except.ok a >>= f) = f a := rfl

/-- A computation can be carried out to see what holds of its result. -/
theorem exists_ok_of_check {α : Type} {x : Except ε α} {P : α → Prop} [DecidablePred P]
    (h : x.toOption.any (fun a => P a) = true) : ∃ a, x = .ok a ∧ P a := by
  cases x with
  | error e => cases h
  | ok a => exact ⟨a, rfl, of_decide_eq_true h⟩

/-- The same for a computation that fails. -/
theorem eq_error_of_check {α : Type} [DecidableEq ε] {x : Except ε α} {e : ε}
    (h : (match x with | .ok _ => false | .error f => f == e) = true) : x = .error e := by
  cases x with
  | error f => rw [eq_of_beq h]
  | ok a => cases h

/-- A traversal succeeds with the list of the single results. -/
theorem mapM_eq_ok {α β : Type} {f : α → Except ε β} {xs : List α} {ys : List β} :
    xs.mapM f = .ok ys ↔ List.Forall₂ (fun x y => f x = .ok y) xs ys := by
  induction xs generalizing ys with
  | nil =>
      rw [List.mapM_nil, List.forall₂_nil_left_iff]
      constructor
      · rintro ⟨⟩
        rfl
      · rintro rfl
        rfl
  | cons x xs ih =>
      rw [List.mapM_cons, bind_eq_ok, List.forall₂_cons_left_iff]
      constructor
      · rintro ⟨y, hy, hrest⟩
        obtain ⟨rest, hxs, hys⟩ := bind_eq_ok.mp hrest
        exact ⟨y, rest, hy, ih.mp hxs, (Except.ok.inj hys).symm⟩
      · rintro ⟨y, rest, hy, hxs, rfl⟩
        exact ⟨y, hy, bind_eq_ok.mpr ⟨rest, ih.mpr hxs, rfl⟩⟩

theorem exists_mapM_eq_ok {α β : Type} {f : α → Except ε β} {xs : List α} :
    (∃ ys, xs.mapM f = .ok ys) ↔ ∀ x ∈ xs, ∃ y, f x = .ok y := by
  simp only [mapM_eq_ok]
  induction xs with
  | nil => simp
  | cons x xs ih =>
      rw [List.forall_mem_cons, ← ih]
      constructor
      · rintro ⟨ys, hys⟩
        obtain ⟨y, rest, hy, hrest, _⟩ := List.forall₂_cons_left_iff.mp hys
        exact ⟨⟨y, hy⟩, rest, hrest⟩
      · rintro ⟨⟨y, hy⟩, rest, hrest⟩
        exact ⟨y :: rest, List.Forall₂.cons hy hrest⟩

theorem foldlM_concat (step : σ → ι → Except ε σ) (s : σ) (xs : List ι) (x : ι) :
    (xs ++ [x]).foldlM step s = xs.foldlM step s >>= fun t => step t x := by
  rw [List.foldlM_append]
  cases xs.foldlM step s with
  | error e => rfl
  | ok t =>
      simp only [List.foldlM_cons, List.foldlM_nil, ok_bind]
      cases step t x <;> rfl

/-- An input of a run, by its position. -/
theorem exists_getElem_of_concat {xs all : List ι} {x : ι} (h : xs ++ [x] <+: all) :
    ∃ n, ∃ hn : n < all.length, xs = all.take n ∧ x = all[n] := by
  obtain ⟨rest, rfl⟩ := h
  exact ⟨xs.length, by simp, by simp, by simp⟩

/-- Invariant rule with history. If the invariant holds at the start and each
input of the run, applied to a state that satisfies it, yields a state that
satisfies it again, then the run cannot fail and ends in such a state. -/
theorem foldlM_history (step : σ → ι → Except ε σ) {s : σ}
    {I : List ι → σ → Prop} (all : List ι) (hinit : I [] s)
    (hstep : ∀ xs x t, xs ++ [x] <+: all → I xs t →
      ∃ u, step t x = .ok u ∧ I (xs ++ [x]) u) :
    ∃ t, all.foldlM step s = .ok t ∧ I all t := by
  induction all using List.reverseRecOn with
  | nil => exact ⟨s, rfl, hinit⟩
  | append_singleton xs x ih =>
      obtain ⟨t, ht, hinv⟩ := ih (by
        intro ys y u hpre hu
        exact hstep ys y u (hpre.trans (List.prefix_append xs [x])) hu)
      obtain ⟨u, hu, hinvu⟩ := hstep xs x t (List.prefix_refl _) hinv
      refine ⟨u, ?_, hinvu⟩
      rw [foldlM_concat, ht]
      exact hu

/-- The rule for a run that is known to have ended well. -/
theorem foldlM_ok_history {step : σ → ι → Except ε σ} {s t : σ} {I : List ι → σ → Prop}
    {all : List ι} (hrun : all.foldlM step s = .ok t) (hinit : I [] s)
    (hstep : ∀ xs x u v, xs ++ [x] <+: all → I xs u → step u x = .ok v → I (xs ++ [x]) v) :
    I all t := by
  induction all using List.reverseRecOn generalizing t with
  | nil =>
      cases hrun
      exact hinit
  | append_singleton xs x ih =>
      rw [foldlM_concat] at hrun
      obtain ⟨u, hu, hx⟩ := bind_eq_ok.mp hrun
      have hxs : I xs u := ih hu fun ys y v w hpre =>
        hstep ys y v w (hpre.trans (List.prefix_append _ _))
      exact hstep xs x u t List.prefix_rfl hxs hx

/-- The first rule for an invariant of the state alone. -/
theorem foldlM_invariant (step : σ → ι → Except ε σ) {s : σ} {I : σ → Prop}
    (all : List ι) (hinit : I s)
    (hstep : ∀ x t, x ∈ all → I t → ∃ u, step t x = .ok u ∧ I u) :
    ∃ t, all.foldlM step s = .ok t ∧ I t := by
  apply foldlM_history step (I := fun _ t => I t) all hinit
  intro xs x t hpre ht
  exact hstep x t (hpre.subset (by simp)) ht

/-- A property of histories that holds at first, and that a step keeps exactly
if it meets a condition, holds all along a run exactly if all its steps meet
the condition. -/
theorem forall_take_iff {P : List ι → Prop} {C : List ι → ι → Prop} (all : List ι) (hnil : P [])
    (hstep : ∀ xs x, xs ++ [x] <+: all → P xs → (P (xs ++ [x]) ↔ C xs x)) :
    (∀ n ≤ all.length, P (all.take n)) ↔
      ∀ n (hn : n < all.length), C (all.take n) all[n] := by
  have hsucc : ∀ n (hn : n < all.length), all.take (n + 1) = all.take n ++ [all[n]] := by
    intro n hn
    exact (List.take_append_getElem hn).symm
  have hfront : ∀ n (hn : n < all.length), all.take n ++ [all[n]] <+: all := by
    intro n hn
    rw [← hsucc n hn]
    exact List.take_prefix _ _
  constructor
  · intro hall n hn
    rw [← hstep _ _ (hfront n hn) (hall n (Nat.le_of_lt hn)), ← hsucc n hn]
    exact hall (n + 1) hn
  · intro hC n
    induction n with
    | zero =>
        intro _
        simpa using hnil
    | succ n ih =>
        intro hn
        rw [hsucc n hn, hstep _ _ (hfront n hn) (ih (by omega))]
        exact hC n hn

/-- Which runs go well. If, under an invariant, a step meets `Q` and keeps the
invariant as soon as `C` holds before it, and meets `Q` only then, then every
step of a run meets `Q` exactly if `C` holds before every step that is reached. -/
theorem forall_step_iff (step : σ → ι → Except ε σ) {s : σ} {I : σ → Prop} {C : σ → ι → Prop}
    {Q : σ → ι → σ → Prop} (all : List ι) (hinit : I s)
    (hstep : ∀ t, ∀ x ∈ all, I t → (C t x → ∃ u, step t x = .ok u ∧ Q t x u ∧ I u) ∧
      ∀ u, step t x = .ok u → Q t x u → C t x) :
    (∀ n (hn : n < all.length), ∃ t u, (all.take n).foldlM step s = .ok t ∧
        step t all[n] = .ok u ∧ Q t all[n] u) ↔
      ∀ n (hn : n < all.length), ∀ t, (all.take n).foldlM step s = .ok t → C t all[n] := by
  -- as long as the condition has been met, the run goes on and the invariant holds
  have hreach : ∀ n ≤ all.length,
      (∀ m (hm : m < all.length), m < n → ∀ t, (all.take m).foldlM step s = .ok t → C t all[m]) →
        ∃ t, (all.take n).foldlM step s = .ok t ∧ I t := by
    intro n
    induction n with
    | zero => exact fun _ _ => ⟨s, rfl, hinit⟩
    | succ n ih =>
        intro hn hC
        obtain ⟨t, ht, hI⟩ := ih (by omega) (fun m hm hlt => hC m hm (by omega))
        obtain ⟨u, hu, _, hIu⟩ :=
          (hstep t all[n] (List.getElem_mem hn) hI).1 (hC n hn (by omega) t ht)
        refine ⟨u, ?_, hIu⟩
        rw [← List.take_append_getElem hn, foldlM_concat, ht, ok_bind, hu]
  constructor
  · intro hall n
    induction n using Nat.strongRecOn with
    | ind n ih =>
        intro hn t ht
        obtain ⟨t', ht', hI⟩ := hreach n (Nat.le_of_lt hn) (fun m hm hlt => ih m hlt hm)
        obtain ⟨t'', u, ht'', hu, hQ⟩ := hall n hn
        rw [ht] at ht' ht''
        cases ht'
        cases ht''
        exact (hstep t all[n] (List.getElem_mem hn) hI).2 u hu hQ
  · intro hC n hn
    obtain ⟨t, ht, hI⟩ := hreach n (Nat.le_of_lt hn) (fun m hm _ => hC m hm)
    obtain ⟨u, hu, hQ, _⟩ := (hstep t all[n] (List.getElem_mem hn) hI).1 (hC n hn t ht)
    exact ⟨t, u, ht, hu, hQ⟩

end OLog.Lib
