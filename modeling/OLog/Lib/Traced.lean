import OLog.Lib.Runs

/-!
Computations that emit events on the way. The events up to a failure are kept,
so what a computation has done when it fails can still be asked. Forgetting
the events is a homomorphism to `Except`: an instrumented program can be
compared with the plain one by rewriting.
-/

namespace OLog.Lib

structure Traced (E ε α : Type) where
  events : List E
  result : Except ε α

namespace Traced

variable {E ε α β : Type}

instance : Monad (Traced E ε) where
  pure a := ⟨[], .ok a⟩
  bind x f :=
    match x.result with
    | .error e => ⟨x.events, .error e⟩
    | .ok a => ⟨x.events ++ (f a).events, (f a).result⟩

def emit (e : E) : Traced E ε Unit := ⟨[e], .ok ()⟩

/-- A plain computation emits nothing. -/
def lift (x : Except ε α) : Traced E ε α := ⟨[], x⟩

@[simp] theorem result_pure (a : α) : (pure a : Traced E ε α).result = .ok a := rfl

@[simp] theorem result_emit (e : E) : (emit e : Traced E ε Unit).result = .ok () := rfl

@[simp] theorem result_lift (x : Except ε α) : (lift x : Traced E ε α).result = x := rfl

@[simp] theorem result_bind (x : Traced E ε α) (f : α → Traced E ε β) :
    (x >>= f).result = x.result >>= fun a => (f a).result := by
  obtain ⟨events, result⟩ := x
  cases result <;> rfl

@[simp] theorem result_ite (c : Prop) [Decidable c] (x y : Traced E ε α) :
    (if c then x else y).result = if c then x.result else y.result :=
  apply_ite result c x y

@[simp] theorem lift_ok_bind (a : α) (f : α → Traced E ε β) : (lift (.ok a) >>= f) = f a := rfl

@[simp] theorem pure_bind (a : α) (f : α → Traced E ε β) : (pure a >>= f) = f a := rfl

@[simp] theorem events_pure (a : α) : (pure a : Traced E ε α).events = [] := rfl

@[simp] theorem emit_bind_events (e : E) (f : Unit → Traced E ε β) :
    (emit e >>= f).events = e :: (f ()).events := rfl

@[simp] theorem lift_error_bind (e : ε) (f : α → Traced E ε β) :
    (lift (.error e) >>= f) = ⟨[], .error e⟩ := rfl

theorem bind_of_ok {x : Traced E ε α} {a : α} (h : x.result = .ok a) (f : α → Traced E ε β) :
    x >>= f = ⟨x.events ++ (f a).events, (f a).result⟩ := by
  obtain ⟨events, result⟩ := x
  cases h
  rfl

theorem bind_of_error {x : Traced E ε α} {e : ε} (h : x.result = .error e)
    (f : α → Traced E ε β) : x >>= f = ⟨x.events, .error e⟩ := by
  obtain ⟨events, result⟩ := x
  cases h
  rfl

theorem result_foldlM {ι σ : Type} (step : σ → ι → Traced E ε σ) (s : σ) (xs : List ι) :
    (xs.foldlM step s).result = xs.foldlM (fun t x => (step t x).result) s := by
  induction xs generalizing s with
  | nil => rfl
  | cons x xs ih =>
      rw [List.foldlM_cons, List.foldlM_cons, result_bind]
      simp only [ih]

/-- A run that has ended well goes on with the next step. -/
theorem events_foldlM_concat {ι σ : Type} (step : σ → ι → Traced E ε σ) {s t : σ} {xs : List ι}
    (h : (xs.foldlM step s).result = .ok t) (x : ι) :
    ((xs ++ [x]).foldlM step s).events = (xs.foldlM step s).events ++ (step t x).events := by
  induction xs generalizing s with
  | nil =>
      cases h
      rw [List.nil_append, List.foldlM_cons]
      cases hstep : (step t x).result with
      | error e => rw [bind_of_error hstep, List.foldlM_nil, events_pure, List.nil_append]
      | ok u => rw [bind_of_ok hstep, List.foldlM_nil, List.foldlM_nil, events_pure, events_pure,
          List.append_nil, List.nil_append]
  | cons y ys ih =>
      rw [List.foldlM_cons] at h
      rw [List.cons_append, List.foldlM_cons, List.foldlM_cons]
      cases hstep : (step s y).result with
      | error e =>
          rw [bind_of_error hstep] at h
          cases h
      | ok u =>
          rw [bind_of_ok hstep] at h
          rw [bind_of_ok hstep, bind_of_ok hstep]
          simp only [ih h, List.append_assoc]

end Traced

end OLog.Lib
