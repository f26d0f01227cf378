import ContractVerifier.Expr.Typing
import ContractVerifier.Proofs.Keyed

/-!
# The meaning of expressions

* `Expr.eval` : the value of an expression under an assignment of values to variables, for any
  meaning of the operators; `eval_substitute` says that to substitute is to update the assignment.
* `Meaning.standard z` : the usual meaning, in which `z` gives the quotients by zero.  Quotients
  round to the floor, a remainder has the sign of the divisor, and a remainder by zero is the
  dividend.
* `Expr.Holds` : an expression is true.
* `type_eval` : the value of a typed expression has its type.
* `lists_freeVars` : the free variables are those that occur, one for each name.
-/

namespace ContractVerifier

namespace Value

/-- Truth values count as 0 and 1. -/
def toInt : Value → Int
  | int n => n
  | bool b => if b then 1 else 0

/-- An integer is true when it is not zero. -/
def toBool : Value → Bool
  | int n => n != 0
  | bool b => b

/-- Every value has the unknown type. -/
def Fits (v : Value) (t : Ty) : Prop := t = .unknown ∨ v.type = t

instance (v : Value) (t : Ty) : Decidable (v.Fits t) := inferInstanceAs (Decidable (_ ∨ _))

theorem Fits.type_eq {v : Value} {t : Ty} (h : v.Fits t) (ht : t ≠ .unknown) : v.type = t :=
  h.resolve_left ht

theorem exists_fits (t : Ty) : ∃ v : Value, v.Fits t := by
  cases t with
  | int => exact ⟨.int 0, .inr rfl⟩
  | bool => exact ⟨.bool true, .inr rfl⟩
  | unknown => exact ⟨.int 0, .inl rfl⟩

theorem type_ne_unknown (v : Value) : v.type ≠ .unknown := by
  cases v <;> simp [type]

theorem eq_bool_of_type {v : Value} (h : v.type = .bool) : v = .bool v.toBool := by
  cases v with
  | int n => simp [type] at h
  | bool b => rfl

theorem eq_int_of_type {v : Value} (h : v.type = .int) : v = .int v.toInt := by
  cases v with
  | int n => rfl
  | bool b => simp [type] at h

end Value

/-! ## evaluation -/

structure Meaning where
  bin : BinOp → Value → Value → Value
  un : UnOp → Value → Value

namespace Expr

def eval (M : Meaning) (a : Var → Value) : Expr → Value
  | lit v => v
  | var v => a v
  | bin op l r => M.bin op (l.eval M a) (r.eval M a)
  | un op e => M.un op (e.eval M a)

/-- The variables, by occurrence. -/
def vars : Expr → List Var
  | lit _ => []
  | var v => [v]
  | bin _ l r => l.vars ++ r.vars
  | un _ e => e.vars

/-- The assignment after `m`. -/
def update (M : Meaning) (m : Keyed String Expr) (a : Var → Value) (v : Var) : Value :=
  ((m.get? v.name).map (eval M a)).getD (a v)

theorem eval_congr {M : Meaning} {a b : Var → Value} {e : Expr} (h : ∀ v ∈ e.vars, a v = b v) :
    e.eval M a = e.eval M b := by
  induction e with
  | lit v => rfl
  | var v => exact h v (by simp [vars])
  | bin op l r ihl ihr =>
    simp only [vars, List.mem_append] at h
    simp only [eval]
    rw [ihl fun v hv => h v (.inl hv), ihr fun v hv => h v (.inr hv)]
  | un op e ih =>
    simp only [eval]
    rw [ih h]

theorem eval_substitute (M : Meaning) (m : Keyed String Expr) (a : Var → Value) (e : Expr) :
    (e.substitute m).eval M a = e.eval M (update M m a) := by
  induction e with
  | lit v => rfl
  | var v =>
    simp only [substitute, eval, update]
    cases m.get? v.name <;> rfl
  | bin op l r ihl ihr => simp only [substitute, eval, ihl, ihr]
  | un op e ih => simp only [substitute, eval, ih]

theorem eval_subst (M : Meaning) (a : Var → Value) (e : Expr) (x : String) (t : Expr) :
    (e.subst x t).eval M a = e.eval M fun v => if x = v.name then t.eval M a else a v := by
  unfold subst
  rw [eval_substitute]
  congr 1
  funext v
  unfold update
  rw [Keyed.get?_cons, Keyed.get?_nil]
  by_cases h : x = v.name <;> simp [h]

/-- A variable after a substitution was there before, or came in with what was put in. -/
theorem mem_vars_substitute {m : Keyed String Expr} {e : Expr} {w : Var}
    (h : w ∈ (e.substitute m).vars) :
    (w ∈ e.vars ∧ m.get? w.name = none) ∨ ∃ v ∈ e.vars, ∃ t, m.get? v.name = some t ∧ w ∈ t.vars := by
  induction e with
  | lit v => simp [substitute, vars] at h
  | var v =>
    simp only [substitute] at h
    cases hm : m.get? v.name with
    | none =>
      simp only [hm, Option.getD_none, vars, List.mem_singleton] at h
      subst h
      exact .inl ⟨by simp [vars], hm⟩
    | some t =>
      simp only [hm, Option.getD_some] at h
      exact .inr ⟨v, by simp [vars], t, hm, h⟩
  | bin op l r ihl ihr =>
    simp only [substitute, vars, List.mem_append] at h ⊢
    rcases h with h | h
    · rcases ihl h with ⟨h1, h2⟩ | ⟨v, hv, t, ht, hw⟩
      · exact .inl ⟨.inl h1, h2⟩
      · exact .inr ⟨v, .inl hv, t, ht, hw⟩
    · rcases ihr h with ⟨h1, h2⟩ | ⟨v, hv, t, ht, hw⟩
      · exact .inl ⟨.inr h1, h2⟩
      · exact .inr ⟨v, .inr hv, t, ht, hw⟩
  | un op e ih => exact ih h

theorem mem_vars_subst {e t : Expr} {x : String} {w : Var} (h : w ∈ (e.subst x t).vars) :
    (w ∈ e.vars ∧ x ≠ w.name) ∨ w ∈ t.vars := by
  rcases mem_vars_substitute h with ⟨h1, h2⟩ | ⟨v, hv, u, hu, hw⟩
  · refine .inl ⟨h1, fun hx => ?_⟩
    rw [Keyed.get?_cons, if_pos hx] at h2
    cases h2
  · rw [Keyed.get?_cons, Keyed.get?_nil] at hu
    by_cases hx : x = v.name
    · rw [if_pos hx] at hu
      cases hu
      exact .inr hw
    · rw [if_neg hx] at hu
      cases hu

theorem substitute_var_none {m : Keyed String Expr} {v : Var} (h : m.get? v.name = none) :
    (var v).substitute m = var v := by
  unfold substitute
  rw [h]
  rfl

theorem substitute_var_some {m : Keyed String Expr} {v : Var} {t : Expr}
    (h : m.get? v.name = some t) :
    (var v).substitute m = t := by
  unfold substitute
  rw [h]
  rfl

/-- A substitution that has nothing to say of the variables. -/
theorem substitute_eq_self {m : Keyed String Expr} {e : Expr}
    (h : ∀ v ∈ e.vars, m.get? v.name = none) :
    e.substitute m = e := by
  induction e with
  | lit v => rfl
  | var v => exact substitute_var_none (h v (by simp [vars]))
  | bin op l r ihl ihr =>
    simp only [vars, List.mem_append] at h
    unfold substitute
    rw [ihl fun v hv => h v (.inl hv), ihr fun v hv => h v (.inr hv)]
  | un op e ih =>
    unfold substitute
    rw [ih h]

/-- One substitution after the other is decided by what becomes of the variables. -/
theorem substitute_substitute_congr {m n m' n' : Keyed String Expr} {e : Expr}
    (h : ∀ v ∈ e.vars, ((var v).substitute m).substitute n = ((var v).substitute m').substitute n') :
    (e.substitute m).substitute n = (e.substitute m').substitute n' := by
  induction e with
  | lit v => rfl
  | var v => exact h v (by simp [vars])
  | bin op l r ihl ihr =>
    simp only [vars, List.mem_append] at h
    simp only [substitute]
    rw [ihl fun v hv => h v (.inl hv), ihr fun v hv => h v (.inr hv)]
  | un op e ih =>
    simp only [substitute]
    rw [ih h]

end Expr

/-! ## the usual meaning -/

/-- The quotient rounded to the floor; `z` gives the quotients by zero. -/
def floorQuot (z : Int → Int) (l r : Int) : Int := if r = 0 then z l else l.fdiv r

/-- What the floor quotient leaves; the dividend for zero. -/
def floorRem (l r : Int) : Int := l.fmod r

/-- Operands of the other kind are converted. -/
def Meaning.standard (z : Int → Int) : Meaning where
  bin
    | .add, l, r => .int (l.toInt + r.toInt)
    | .sub, l, r => .int (l.toInt - r.toInt)
    | .mul, l, r => .int (l.toInt * r.toInt)
    | .div, l, r => .int (floorQuot z l.toInt r.toInt)
    | .mod, l, r => .int (floorRem l.toInt r.toInt)
    | .eq, l, r => .bool (l.toInt == r.toInt)
    | .ne, l, r => .bool (l.toInt != r.toInt)
    | .lt, l, r => .bool (decide (l.toInt < r.toInt))
    | .le, l, r => .bool (decide (l.toInt ≤ r.toInt))
    | .gt, l, r => .bool (decide (r.toInt < l.toInt))
    | .ge, l, r => .bool (decide (r.toInt ≤ l.toInt))
    | .and, l, r => .bool (l.toBool && r.toBool)
    | .or, l, r => .bool (l.toBool || r.toBool)
    | .imp, l, r => .bool (!l.toBool || r.toBool)
  un
    | .not, v => .bool (!v.toBool)
    | .neg, v => .int (-v.toInt)

theorem Meaning.type_bin (z : Int → Int) (op : BinOp) (l r : Value) :
    ((standard z).bin op l r).type = op.type := by
  cases op <;> rfl

theorem Meaning.type_un (z : Int → Int) (op : UnOp) (v : Value) : ((standard z).un op v).type = op.type := by
  cases op <;> rfl

namespace Expr

/-- `e` is true under `a`. -/
def Holds (z : Int → Int) (a : Var → Value) (e : Expr) : Prop :=
  (e.eval (.standard z) a).toBool = true

instance (z : Int → Int) (a : Var → Value) (e : Expr) : Decidable (e.Holds z a) :=
  inferInstanceAs (Decidable (_ = true))

theorem holds_congr {z : Int → Int} {a b : Var → Value} {e : Expr} (h : ∀ v ∈ e.vars, a v = b v) :
    e.Holds z a ↔ e.Holds z b := by
  unfold Holds
  rw [eval_congr h]

section

variable {z : Int → Int} {a : Var → Value}

@[simp] theorem holds_truth : truth.Holds z a := rfl

@[simp] theorem holds_and {p q : Expr} : (bin .and p q).Holds z a ↔ p.Holds z a ∧ q.Holds z a := by
  simp [Holds, eval, Meaning.standard, Value.toBool]

@[simp] theorem holds_implies {p q : Expr} : (p.implies q).Holds z a ↔ (p.Holds z a → q.Holds z a) := by
  have h : (p.implies q).eval (.standard z) a =
      .bool (!(p.eval (.standard z) a).toBool || (q.eval (.standard z) a).toBool) := rfl
  unfold Holds
  rw [h]
  cases (p.eval (.standard z) a).toBool <;> simp [Value.toBool]

@[simp] theorem holds_negate {p : Expr} : p.negate.Holds z a ↔ ¬ p.Holds z a := by
  simp [Holds, negate, eval, Meaning.standard, Value.toBool]

theorem holds_foldl_and (es : List Expr) (p : Expr) :
    (es.foldl (bin .and) p).Holds z a ↔ p.Holds z a ∧ ∀ e ∈ es, e.Holds z a := by
  induction es generalizing p with
  | nil => simp
  | cons e es ih =>
    rw [List.foldl_cons, ih, holds_and]
    simp [and_assoc]

@[simp] theorem holds_conjoin {es : List Expr} : (conjoin es).Holds z a ↔ ∀ e ∈ es, e.Holds z a := by
  cases es with
  | nil => simp [conjoin]
  | cons e es => simp [conjoin, holds_foldl_and]

end

theorem vars_foldl_and (es : List Expr) (p : Expr) (v : Var) :
    v ∈ (es.foldl (bin .and) p).vars ↔ v ∈ p.vars ∨ ∃ e ∈ es, v ∈ e.vars := by
  induction es generalizing p with
  | nil => simp
  | cons e es ih =>
    rw [List.foldl_cons, ih]
    simp [vars, or_assoc]

theorem mem_vars_conjoin {es : List Expr} {v : Var} : v ∈ (conjoin es).vars ↔ ∃ e ∈ es, v ∈ e.vars := by
  cases es with
  | nil => simp [conjoin, truth, vars]
  | cons e es => simp [conjoin, vars_foldl_and]

/-! ## types -/

theorem typeOf_var {v : Var} {t : Ty} (h : (var v).typeOf = .ok t) : t = v.type ∧ v.type ≠ .unknown := by
  change (if v.type = .unknown then _ else _) = _ at h
  split at h
  · cases h
  · rename_i hv
    cases h
    exact ⟨rfl, hv⟩

theorem typeOf_var_of {v : Var} (h : v.type ≠ .unknown) : (var v).typeOf = .ok v.type := if_neg h

theorem typeOf_un_eq (op : UnOp) (e : Expr) :
    (un op e).typeOf = e.typeOf >>= fun t => e.expect op.type t >>= fun _ => .ok op.type := rfl

theorem typeOf_un {op : UnOp} {e : Expr} {t : Ty} (h : (un op e).typeOf = .ok t) :
    t = op.type ∧ e.typeOf = .ok op.type := by
  simp only [typeOf_un_eq, bind, Except.bind] at h
  cases he : e.typeOf with
  | error c => simp [he] at h
  | ok u =>
    simp only [he, expect] at h
    by_cases hu : u = op.type
    · simp only [hu, if_true, Except.ok.injEq] at h
      exact ⟨h.symm, by rw [hu]⟩
    · simp [hu] at h

theorem typeOf_bin {op : BinOp} {l r : Expr} {t : Ty} (h : (bin op l r).typeOf = .ok t) :
    t = op.type ∧ ∃ u, l.typeOf = .ok u ∧ r.typeOf = .ok u ∧ op.operand.getD u = u := by
  simp only [typeOf, bind, Except.bind] at h
  cases hl : l.typeOf with
  | error c => simp [hl] at h
  | ok u =>
    cases hr : r.typeOf with
    | error c =>
      rw [hl, hr] at h
      cases ho : op.operand with
      | none => simp [ho] at h
      | some w => by_cases hw : u = w <;> simp [ho, expect, hw] at h
    | ok u' =>
      rw [hl, hr] at h
      cases ho : op.operand with
      | none =>
        by_cases hu : u' = u
        · simp [ho, expect, hu] at h
          exact ⟨h.symm, u, rfl, by rw [hu], rfl⟩
        · simp [ho, expect, hu] at h
      | some w =>
        by_cases hw : u = w
        · by_cases hu : u' = w
          · simp [ho, expect, hu, hw] at h
            exact ⟨h.symm, w, by rw [hw], by rw [hu], rfl⟩
          · simp [ho, expect, hu, hw] at h
        · simp [ho, expect, hw] at h

theorem typeOf_un_of {op : UnOp} {e : Expr} (h : e.typeOf = .ok op.type) : (un op e).typeOf = .ok op.type := by
  simp [typeOf_un_eq, h, expect, bind, Except.bind]

theorem typeOf_bin_of {op : BinOp} {l r : Expr} {u : Ty} (hl : l.typeOf = .ok u)
    (hr : r.typeOf = .ok u) (ho : op.operand.getD u = u) : (bin op l r).typeOf = .ok op.type := by
  cases hop : op.operand with
  | none => simp [typeOf, hl, hr, hop, expect, bind, Except.bind]
  | some w =>
    rw [hop, Option.getD_some] at ho
    subst ho
    simp [typeOf, hl, hr, hop, expect, bind, Except.bind]

/-- Replacements of the types of their variables keep the type. -/
theorem typeOf_substitute {m : Keyed String Expr} {e : Expr} {t : Ty} (h : e.typeOf = .ok t)
    (hm : ∀ v ∈ e.vars, ((m.get? v.name).getD (var v)).typeOf = .ok v.type) : (e.substitute m).typeOf = .ok t := by
  induction e generalizing t with
  | lit v => exact h
  | var v =>
    rw [(typeOf_var h).1]
    exact hm v (by simp [vars])
  | bin op l r ihl ihr =>
    obtain ⟨rfl, u, hl, hr, ho⟩ := typeOf_bin h
    exact typeOf_bin_of (ihl hl fun v hv => hm v (List.mem_append_left _ hv))
      (ihr hr fun v hv => hm v (List.mem_append_right _ hv)) ho
  | un op e ih =>
    obtain ⟨rfl, he⟩ := typeOf_un h
    exact typeOf_un_of (ih he hm)

theorem typeOf_ne_unknown {e : Expr} {t : Ty} (h : e.typeOf = .ok t) : t ≠ .unknown := by
  cases e with
  | lit v =>
    cases h
    exact v.type_ne_unknown
  | var v =>
    obtain ⟨rfl, hv⟩ := typeOf_var h
    exact hv
  | bin op l r =>
    rw [(typeOf_bin h).1]
    cases op <;> simp [BinOp.type]
  | un op e =>
    rw [(typeOf_un h).1]
    cases op <;> simp [UnOp.type]

/-- The variables of a typed expression have types. -/
theorem type_ne_unknown {e : Expr} {t : Ty} (h : e.typeOf = .ok t) : ∀ v ∈ e.vars, v.type ≠ .unknown := by
  induction e generalizing t with
  | lit v => simp [vars]
  | var v =>
    intro w hw
    rw [List.mem_singleton.1 hw]
    exact (typeOf_var h).2
  | bin op l r ihl ihr =>
    obtain ⟨-, u, hl, hr, -⟩ := typeOf_bin h
    intro v hv
    rcases List.mem_append.1 hv with hv | hv
    · exact ihl hl v hv
    · exact ihr hr v hv
  | un op e ih => exact ih (typeOf_un h).2

/-- The value of a typed expression has its type. -/
theorem type_eval {z : Int → Int} {a : Var → Value} {e : Expr} {t : Ty} (h : e.typeOf = .ok t)
    (ha : ∀ v ∈ e.vars, (a v).Fits v.type) : (e.eval (.standard z) a).type = t := by
  cases e with
  | lit v =>
    cases h
    rfl
  | var v =>
    obtain ⟨rfl, hv⟩ := typeOf_var h
    exact (ha v (by simp [vars])).type_eq hv
  | bin op l r => rw [(typeOf_bin h).1, eval, Meaning.type_bin]
  | un op e => rw [(typeOf_un h).1, eval, Meaning.type_un]

end Expr

/-! ## assignments -/

/-- Every variable has a value of its type. -/
def Fitting (a : Var → Value) : Prop := ∀ v, (a v).Fits v.type

/-- True under every assignment. -/
def Expr.Valid (z : Int → Int) (e : Expr) : Prop := ∀ a, Fitting a → e.Holds z a

/-! ## free variables -/

theorem lists_collectVars {e : Expr} {seen : Keyed String Var} {P : Var → Prop}
    (h : seen.Lists Var.name P) :
    (e.collectVars seen).Lists Var.name fun w => P w ∨ w ∈ e.vars := by
  induction e generalizing seen P with
  | lit v => exact h.congr fun w => by simp [Expr.vars]
  | var v => exact (h.putNew v rfl).congr fun w => by simp [Expr.vars]
  | bin op l r ihl ihr => exact (ihr (ihl h)).congr fun w => by simp [Expr.vars, or_assoc]
  | un op e ih => exact ih h

theorem lists_freeVars (e : Expr) : e.freeVars.Lists Var.name (· ∈ e.vars) := by
  exact (lists_collectVars (Keyed.lists_empty Var.name)).congr fun w => by simp

end ContractVerifier
