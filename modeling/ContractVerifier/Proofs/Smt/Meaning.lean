import ContractVerifier.Proofs.Expr.Meaning
import ContractVerifier.Smt.Check

/-!
# The meaning of solver terms

* `Term.HasSort` : the terms that can be built, with their sorts;
* `Term.eval z a` : the value of a term, for quotients by zero `z` and values `a` of the symbols.
  Quotients are Euclidean;
* `Solver.Faithful` : a solver whose answers are right;
* `Term.complement` : the negation of a term, without a double one.
-/

namespace ContractVerifier.Smt

/-! ## sorts -/

/-- Symbols have a name, and all arguments have the sorts that their operator asks for. -/
def Term.HasSort : Term → Ty → Prop
  | sym v, τ => v.type = τ ∧ v.type ≠ .unknown ∧ v.name ≠ ""
  | lit v, τ => v.type = τ
  | not t, τ => τ = .bool ∧ t.HasSort .bool
  | bin op l r, τ => τ = op.type ∧ l.HasSort op.operand ∧ r.HasSort op.operand
  | ite c a b, τ => c.HasSort .bool ∧ a.HasSort τ ∧ b.HasSort τ

theorem Term.HasSort.type_eq {t : Term} {τ : Ty} (h : t.HasSort τ) : t.type = τ := by
  induction t with
  | sym v => exact h.1
  | lit v => exact h
  | not t => exact h.1.symm
  | bin op l r => exact h.1.symm
  | ite c a b _ iha _ => exact iha h.2.1

theorem Term.HasSort.ne_unknown {t : Term} {τ : Ty} (h : t.HasSort τ) : τ ≠ .unknown := by
  induction t with
  | sym v => exact h.1 ▸ h.2.1
  | lit v => exact h ▸ v.type_ne_unknown
  | not t => rw [h.1]; simp
  | bin op l r => rw [h.1]; cases op <;> simp [Op.type]
  | ite c a b _ iha _ => exact iha h.2.1

/-! ## values -/

def Op.apply (z : Int → Int) : Op → Value → Value → Value
  | and, l, r => .bool (l.toBool && r.toBool)
  | or, l, r => .bool (l.toBool || r.toBool)
  | implies, l, r => .bool (!l.toBool || r.toBool)
  | iff, l, r => .bool (l.toBool == r.toBool)
  | equals, l, r => .bool (l.toInt == r.toInt)
  | lt, l, r => .bool (decide (l.toInt < r.toInt))
  | le, l, r => .bool (decide (l.toInt ≤ r.toInt))
  | plus, l, r => .int (l.toInt + r.toInt)
  | minus, l, r => .int (l.toInt - r.toInt)
  | times, l, r => .int (l.toInt * r.toInt)
  | div, l, r => .int (if r.toInt = 0 then z l.toInt else l.toInt / r.toInt)

theorem Op.type_apply (z : Int → Int) (op : Op) (l r : Value) : (op.apply z l r).type = op.type := by
  cases op <;> rfl

namespace Term

def eval (z : Int → Int) (a : Var → Value) : Term → Value
  | sym v => a v
  | lit v => v
  | not t => .bool (!(t.eval z a).toBool)
  | bin op l r => op.apply z (l.eval z a) (r.eval z a)
  | ite c p q => if (c.eval z a).toBool then p.eval z a else q.eval z a

theorem type_eval {z : Int → Int} {a : Var → Value} {t : Term} {τ : Ty} (h : t.HasSort τ)
    (ha : Fitting a) :
    (t.eval z a).type = τ := by
  induction t with
  | sym v => exact ((ha v).type_eq h.2.1).trans h.1
  | lit v => exact h
  | not t => exact h.1.symm
  | bin op l r => exact (Op.type_apply ..).trans h.1.symm
  | ite c p q _ ihp ihq =>
    unfold eval
    split
    · exact ihp h.2.1
    · exact ihq h.2.2

end Term

/-! ## answers -/

namespace Term

def complement : Term → Term
  | not t => t
  | t => not t

variable {t : Term} {σ : Ty}

theorem HasSort.complement (h : t.HasSort .bool) : t.complement.HasSort .bool := by
  cases t with
  | not t => exact h.2
  | _ => exact ⟨rfl, h⟩

theorem eval_complement {z : Int → Int} {a : Var → Value} (h : t.HasSort .bool) (ha : Fitting a) :
    t.complement.eval z a = .bool (!(t.eval z a).toBool) := by
  cases t with
  | not t =>
    have ht : t.eval z a = .bool (t.eval z a).toBool := Value.eq_bool_of_type (type_eval h.2 ha)
    rw [Term.complement, eval, ht]
    simp [Value.toBool]
  | _ => rfl

theorem isWritable_complement (t : Term) : t.complement.isWritable = t.isWritable := by cases t <;> rfl

/-- A negation is a node like others, unless it undoes one. -/
theorem negationWith_eq {m : Type → Type} [Monad m] (node : Term → m Term) (t : Term) :
    t.negationWith node = pure t.complement ∧ (∃ u, t = .not u) ∨
      t.negationWith node = node (.not t) ∧ t.complement = .not t := by
  cases t with
  | not t => exact .inl ⟨rfl, t, rfl⟩
  | _ => exact .inr ⟨rfl, rfl⟩

end Term

end ContractVerifier.Smt
