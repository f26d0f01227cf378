import ContractVerifier.Proofs.Store
import ContractVerifier.Source.Preprocess

/-!
# Running a body

Expressions and statements as the language runs them.  Truth values count as integers, `and` and
`or` give one of their operands and look no further than they must, a chained comparison stops at
the first part that fails, and only one arm of a conditional expression is looked at.  Callees are
functions of their arguments, and `z` gives the quotients by zero.

* `Exp.eval` : the value of an expression; `none` outside of the supported fragment;
* `Stmt.exec n` : the effect of a statement whose loops make at most `n` rounds;
* `Finishes` : a body comes to an end, with or without a value;
* `exec_mono` : more rounds do not change what is finished.
-/

namespace ContractVerifier.Source

/-! ## operators -/

def Arith.result? (z : Int → Int) (op : Arith) (l r : Value) : Option Value :=
  match op with
  | add => some (.int (l.toInt + r.toInt))
  | sub => some (.int (l.toInt - r.toInt))
  | mult => some (.int (l.toInt * r.toInt))
  | floorDiv => some (.int (floorQuot z l.toInt r.toInt))
  | mod => some (.int (floorRem l.toInt r.toInt))
  | _ => none

def Sign.result? (op : Sign) (v : Value) : Option Value :=
  match op with
  | not => some (.bool !v.toBool)
  | plus => some (.int v.toInt)
  | minus => some (.int (-v.toInt))
  | invert => none

def Comparison.holds? (op : Comparison) (l r : Value) : Option Bool :=
  match op with
  | eq => some (l.toInt == r.toInt)
  | notEq => some (l.toInt != r.toInt)
  | lt => some (l.toInt < r.toInt)
  | ltE => some (l.toInt ≤ r.toInt)
  | gt => some (r.toInt < l.toInt)
  | gtE => some (r.toInt ≤ l.toInt)
  | _ => none

/-- The truth of an operand behind which the next one is looked at. -/
def Logic.goesOn : Logic → Bool
  | and => true
  | or => false

/-! ## expressions -/

section

variable (z : Int → Int) (I : Callees) (s : Store)

mutual

def Exp.eval : Exp → Option Value
  | .constant _ c =>
    match c with
    | .bool b => some (.bool b)
    | .int n => some (.int n)
    | _ => none
  | .name _ x => some (s x)
  | .unary _ op e => do op.result? (← e.eval)
  | .binary _ l op r => do op.result? z (← l.eval) (← r.eval)
  | .logic _ op es => Exp.evalLogic op es
  | .compare _ l ops rs => do Exp.evalChain (← l.eval) rs ops
  | .ifElse _ t a b => do if (← t.eval).toBool then a.eval else b.eval
  | .call _ f args keywords =>
    match f, keywords with
    | .name _ id, [] => do some (I id (← Exp.evalL args))
    | _, _ => none
  | .other .. => none

def Exp.evalL : List Exp → Option (List Value)
  | [] => some []
  | e :: es => do
    let v ← e.eval
    let vs ← Exp.evalL es
    some (v :: vs)

/-- The first operand that settles it, or the last one. -/
def Exp.evalLogic (op : Logic) : List Exp → Option Value
  | [] => some (.bool op.goesOn)
  | e :: es => do
    let v ← e.eval
    if es.isEmpty || v.toBool != op.goesOn then some v else Exp.evalLogic op es

/-- Compares `l` with the first operand, and so on. -/
def Exp.evalChain (l : Value) : List Exp → List Comparison → Option Value
  | [], _ => some (.bool true)
  | r :: rs, ops =>
    match ops with
    | [] => some (.bool true)
    | op :: ops => do
      let v ← r.eval
      if ← op.holds? l v then Exp.evalChain v rs ops else some (.bool false)

end

end

/-! ## statements -/

/-- Where control goes behind a statement. -/
inductive Signal where
  | next
  | brk
  | cont
  | ret (v : Option Value)
deriving DecidableEq

/-- A body that comes to its end returns nothing. -/
def Signal.outcome? : Signal → Option (Option Value)
  | next => some none
  | ret v => some v
  | _ => none

/-- What a statement does to a store, if it comes to an end. -/
abbrev Effect := Store → Option (Signal × Store)

namespace Effect

def skip : Effect := fun s => some (.next, s)

/-- `g` behind `f`, unless `f` leaves. -/
def andThen (f g : Effect) : Effect := fun s => do
  match ← f s with
  | (.next, s) => g s
  | r => some r

/-- At most `n` rounds; `other` is what a loop does that is not left by `brk`. -/
def rounds (test : Store → Option Bool) (body other : Effect) : Nat → Effect
  | 0, _ => none
  | n + 1, s => do
    if ← test s then
      match ← body s with
      | (.next, s) | (.cont, s) => rounds test body other n s
      | (.brk, s) => some (.next, s)
      | (.ret v, s) => some (.ret v, s)
    else other s

end Effect

def Exp.name? : Exp → Option String
  | .name _ x => some x
  | _ => none

/-- The only target. -/
def target? : List Exp → Option String
  | [t] => t.name?
  | _ => none

/-- The truth of a condition. -/
def Exp.truth? (z : Int → Int) (I : Callees) (e : Exp) (s : Store) : Option Bool :=
  (e.eval z I s).map Value.toBool

/-- `x = value` -/
def Effect.store (z : Int → Int) (I : Callees) (x : Option String) (value : Exp) : Effect := fun s => do
  let v ← value.eval z I s
  some (.next, s.set (← x) v)

section

variable (z : Int → Int) (I : Callees) (n : Nat)

mutual

/-- Descriptions and loop invariants do nothing. -/
def Stmt.exec : Stmt → Effect
  | .assign _ ts v => Effect.store z I (target? ts) v
  | .declare _ t _ v =>
    match v with
    | some v => Effect.store z I t.name? v
    | none => Effect.skip
  | .augment _ t op v => fun s => do
    let x ← t.name?
    let w ← op.result? z (s x) (← v.eval z I s)
    some (.next, s.set x w)
  | .exp sp v => fun s =>
    if (Stmt.exp sp v).isInvariant || (Stmt.exp sp v).isDocstring then some (.next, s)
    else do
      let _ ← v.eval z I s
      some (.next, s)
  | .cond _ t body orElse => fun s => do if ← t.truth? z I s then Stmt.execL body s else Stmt.execL orElse s
  | .loop _ t body orElse => Effect.rounds (t.truth? z I) (Stmt.execL body) (Stmt.execL orElse) n
  | .ret _ v => fun s =>
    match v with
    | some v => do some (.ret (some (← v.eval z I s)), s)
    | none => some (.ret none, s)
  | .pass _ => Effect.skip
  | .brk _ => fun s => some (.brk, s)
  | .cont _ => fun s => some (.cont, s)
  | .function .. | .other .. => fun _ => none

def Stmt.execL : List Stmt → Effect
  | [] => Effect.skip
  | t :: ts => Effect.andThen t.exec (Stmt.execL ts)

end

end

/-! ## descriptions and loop invariants -/

namespace Stmt

/-- A statement that does nothing. -/
def isNote (s : Stmt) : Bool := s.isInvariant || s.isDocstring

theorem isNote_of_isInvariant {s : Stmt} (h : s.isInvariant = true) : s.isNote := by simp [isNote, h]

theorem isNote_of_isDocstring {s : Stmt} (h : s.isDocstring = true) : s.isNote := by simp [isNote, h]

theorem eq_exp_of_isNote {s : Stmt} (h : s.isNote) : ∃ sp v, s = .exp sp v := by
  cases s with
  | exp sp v => exact ⟨sp, v, rfl⟩
  | _ => cases h

end Stmt

theorem exec_of_isNote {z : Int → Int} {I : Callees} {n : Nat} {s : Stmt} (h : s.isNote) :
    s.exec z I n = Effect.skip := by
  obtain ⟨sp, v, rfl⟩ := Stmt.eq_exp_of_isNote h
  have h' : ((Stmt.exp sp v).isInvariant || (Stmt.exp sp v).isDocstring) = true := h
  funext s
  simp only [Stmt.exec, h', if_true]
  rfl

/-! ## bodies -/

/-- The body ends, with the value it returns and the store it leaves. -/
def Finishes (z : Int → Int) (I : Callees) (body : List Stmt) (s : Store) (out : Option Value)
    (s' : Store) : Prop :=
  ∃ n sig, Stmt.execL z I n body s = some (sig, s') ∧ sig.outcome? = some out

/-! ## more rounds -/

namespace Effect

/-- What `f` finishes, `g` finishes in the same way. -/
def Le (f g : Effect) : Prop := ∀ s r, f s = some r → g s = some r

theorem Le.refl (f : Effect) : f.Le f := fun _ _ h => h

theorem andThen_eq_some {f g : Effect} {s : Store} {r : Signal × Store} :
    f.andThen g s = some r ↔ (∃ s₁, f s = some (.next, s₁) ∧ g s₁ = some r) ∨ (f s = some r ∧ r.1 ≠ .next) := by
  unfold andThen
  cases hf : f s with
  | none => simp
  | some q =>
    obtain ⟨sig, s₁⟩ := q
    cases sig with
    | next =>
      constructor
      · exact fun h => .inl ⟨s₁, rfl, h⟩
      · rintro (⟨s₂, h, hg⟩ | ⟨h, hr⟩)
        · cases h
          exact hg
        · cases h
          exact absurd rfl hr
    | _ =>
      constructor
      · intro h
        cases h
        exact .inr ⟨rfl, nofun⟩
      · rintro (⟨s₂, h, -⟩ | ⟨h, -⟩)
        · cases h
        · exact h

theorem Le.andThen {f f' g g' : Effect} (hf : f.Le f') (hg : g.Le g') : (f.andThen g).Le (f'.andThen g') := by
  intro s r h
  rw [andThen_eq_some] at h ⊢
  rcases h with ⟨s₁, h, hr⟩ | ⟨h, hr⟩
  · exact .inl ⟨s₁, hf s _ h, hg s₁ r hr⟩
  · exact .inr ⟨hf s r h, hr⟩

/-- One round and the rounds behind it. -/
theorem rounds_succ (test : Store → Option Bool) (body other : Effect) (n : Nat) (s : Store) :
    rounds test body other (n + 1) s = (test s).bind fun b => if b then
      (body s).bind fun r => match r with
        | (.next, s₁) | (.cont, s₁) => rounds test body other n s₁
        | (.brk, s₁) => some (.next, s₁)
        | (.ret v, s₁) => some (.ret v, s₁)
      else other s := rfl

theorem Le.rounds {test : Store → Option Bool} {body body' other other' : Effect}
    (hb : body.Le body') (ho : other.Le other') {n m : Nat} (h : n ≤ m) :
    (rounds test body other n).Le (rounds test body' other' m) := by
  induction n generalizing m with
  | zero => exact fun s r hr => by cases hr
  | succ n ih =>
    obtain ⟨m, rfl⟩ : ∃ k, m = k + 1 := ⟨m - 1, by omega⟩
    intro s r hr
    rw [rounds_succ] at hr ⊢
    cases ht : test s with
    | none => simp [ht] at hr
    | some b =>
      rw [ht] at hr
      cases b with
      | false => exact ho s r hr
      | true =>
        simp only [Option.bind_some, if_true] at hr ⊢
        cases hbs : body s with
        | none => simp [hbs] at hr
        | some q =>
          obtain ⟨sig, s₁⟩ := q
          rw [hbs] at hr
          rw [hb s _ hbs]
          cases sig with
          | next => exact ih (by omega) s₁ r hr
          | cont => exact ih (by omega) s₁ r hr
          | brk => exact hr
          | ret v => exact hr

end Effect

section

variable {z : Int → Int} {I : Callees} {n m : Nat}

mutual

theorem exec_mono (h : n ≤ m) (t : Stmt) : (t.exec z I n).Le (t.exec z I m) := by
  cases t with
  | cond sp e body orElse =>
    intro s r hr
    simp only [Stmt.exec] at hr ⊢
    cases he : e.truth? z I s with
    | none => simp [he] at hr
    | some b =>
      rw [he] at hr
      cases b with
      | true => exact execL_mono h body s r hr
      | false => exact execL_mono h orElse s r hr
  | loop sp e body orElse =>
    simp only [Stmt.exec]
    exact Effect.Le.rounds (execL_mono h body) (execL_mono h orElse) h
  | _ =>
    simp only [Stmt.exec]
    exact Effect.Le.refl _

theorem execL_mono (h : n ≤ m) (ts : List Stmt) : (Stmt.execL z I n ts).Le (Stmt.execL z I m ts) := by
  cases ts with
  | nil =>
    simp only [Stmt.execL]
    exact Effect.Le.refl _
  | cons t ts =>
    simp only [Stmt.execL]
    exact (exec_mono h t).andThen (execL_mono h ts)

end

end

end ContractVerifier.Source
