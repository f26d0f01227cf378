import ContractVerifier.Wp.Generator

/-!
# Running the generator

`Gen.Spec T x st Q` says what a run of `x` from `st` does: if it returns, then with a result and a
state that satisfy `Q`; and it fails only where `T` does not hold.  So one proof gives both that
results are right, for any `T`, and that there are results, for a true one.
-/

namespace ContractVerifier.Wp

variable {α β : Type}

def Gen.Spec (T : Prop) (x : Gen α) (st : State) (Q : α → State → Prop) : Prop :=
  match x.exec st with
  | (.ok a, st') => Q a st'
  | (.error _, _) => ¬ T

namespace Gen

variable {T : Prop} {st : State} {Q : α → State → Prop}

theorem exec_bind (x : Gen β) (f : β → Gen α) (st : State) :
    (x >>= f).exec st = match x.exec st with
      | (.ok a, st') => (f a).exec st'
      | (.error e, st') => (.error e, st') := by
  show (ExceptT.bindCont f (x.exec st).1) (x.exec st).2 = _
  rcases x.exec st with ⟨a | e, st'⟩ <;> rfl

@[simp] theorem spec_bind {x : Gen β} {f : β → Gen α} :
    Spec T (x >>= f) st Q ↔ Spec T x st fun a st' => Spec T (f a) st' Q := by
  unfold Spec
  rw [exec_bind]
  rcases x.exec st with ⟨a | e, st'⟩ <;> rfl

@[simp] theorem spec_pure {a : α} : Spec T (pure a) st Q ↔ Q a st := Iff.rfl

@[simp] theorem spec_throw {e : Failure} : Spec T (throw e : Gen α) st Q ↔ ¬ T := Iff.rfl

@[simp] theorem spec_raise {e : Error} : Spec T (raise e : Gen α) st Q ↔ ¬ T := Iff.rfl

@[simp] theorem spec_get {Q : State → State → Prop} : Spec T get st Q ↔ Q st st := Iff.rfl

@[simp] theorem spec_modify {f : State → State} {Q : Unit → State → Prop} :
    Spec T (modify f) st Q ↔ Q () (f st) := Iff.rfl

@[simp] theorem spec_note {s : Step} {Q : Unit → State → Prop} :
    Spec T (note s) st Q ↔ Q () { st with steps := s :: st.steps } := Iff.rfl

@[simp] theorem spec_freshVar {v : Var} {Q : Var → State → Prop} :
    Spec T (freshVar v) st Q ↔
      Q (Fresh.var st.counters v).1 { st with counters := (Fresh.var st.counters v).2 } := Iff.rfl

@[simp] theorem spec_freshVars {vs : List Var} {Q : List Var → State → Prop} :
    Spec T (freshVars vs) st Q ↔
      Q (Fresh.vars st.counters vs).1 { st with counters := (Fresh.vars st.counters vs).2 } := Iff.rfl

theorem Spec.mono {x : Gen α} {P : α → State → Prop} (h : Spec T x st P)
    (hq : ∀ a st', P a st' → Q a st') :
    Spec T x st Q := by
  unfold Spec at h ⊢
  cases hx : x.exec st with
  | mk r st' =>
    rw [hx] at h
    cases r with
    | ok a => exact hq a st' h
    | error e => exact h

/-- What a run that returned gave. -/
theorem Spec.ok {x : Gen α} {a : α} {st' : State} (h : Spec T x st Q) (hx : x.exec st = (.ok a, st')) : Q a st' := by
  unfold Spec at h
  rw [hx] at h
  exact h

theorem Spec.exists_ok {x : Gen α} (h : Spec T x st Q) (hT : T) : ∃ a st', x.exec st = (.ok a, st') ∧ Q a st' := by
  unfold Spec at h
  cases hx : x.exec st with
  | mk r st' =>
    rw [hx] at h
    cases r with
    | ok a => exact ⟨a, st', rfl, h⟩
    | error e => exact absurd hT h

end Gen

end ContractVerifier.Wp
