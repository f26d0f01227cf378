import ContractVerifier.Proofs.Lower.Table
import ContractVerifier.Proofs.Source.Run

/-!
# Translated expressions have the value of the source

An expression of the code that is translated and typed has the value of its translation, in every
store that fits the table.  There is one exception: a unary plus is dropped, so that `+b` for a
truth value `b` is taken for `b`, not for 0 or 1.  Up to this, values agree as numbers
(`eval_translated`); where no such plus gives the value they are equal (`Translates.eval_eq`).
-/

namespace ContractVerifier

theorem Value.toBool_eq_of_toInt {v w : Value} (h : v.toInt = w.toInt) : v.toBool = w.toBool := by
  have key : ∀ u : Value, u.toBool = (u.toInt != 0) := by
    intro u
    cases u with
    | int n => rfl
    | bool b => cases b <;> rfl
  rw [key v, key w, h]

/-! ## typed expressions -/

namespace Expr

/-- With its variables resolved in `t`, the expression has type `u`. -/
def TypedIn (t : Table) (a : Expr) (u : Ty) : Prop := ∃ r, a.resolve t = .ok r ∧ r.typeOf = .ok u

variable {t : Table} {z : Int → Int} {s : Store}

/-- Values depend on names only. -/
theorem value_resolve {a r : Expr} (h : a.resolve t = .ok r) : r.value z s = a.value z s := by
  induction a generalizing r with
  | lit v =>
    cases h
    rfl
  | var v =>
    obtain ⟨w, hw, hr⟩ := exists_of_bind_ok h
    cases hr
    show s w.name = s v.name
    rw [(Table.var_ok hw).2.1]
  | bin op l r' ihl ihr =>
    obtain ⟨l₁, hl, h⟩ := exists_of_bind_ok h
    obtain ⟨r₁, hr, h⟩ := exists_of_bind_ok h
    cases h
    show (Meaning.standard z).bin op (l₁.value z s) (r₁.value z s) = _
    rw [ihl hl, ihr hr]
    rfl
  | un op e ih =>
    obtain ⟨e₁, he, h⟩ := exists_of_bind_ok h
    cases h
    show (Meaning.standard z).un op (e₁.value z s) = _
    rw [ih he]
    rfl

theorem TypedIn.bin_inv {op : BinOp} {l r : Expr} {u : Ty} (h : (bin op l r).TypedIn t u) :
    u = op.type ∧ ∃ w, l.TypedIn t w ∧ r.TypedIn t w ∧ op.operand.getD w = w := by
  obtain ⟨a, ha, hu⟩ := h
  obtain ⟨l₁, hl, ha⟩ := exists_of_bind_ok ha
  obtain ⟨r₁, hr, ha⟩ := exists_of_bind_ok ha
  cases ha
  obtain ⟨hop, w, hlw, hrw, hw⟩ := typeOf_bin hu
  exact ⟨hop, w, ⟨l₁, hl, hlw⟩, ⟨r₁, hr, hrw⟩, hw⟩

theorem TypedIn.un_inv {op : UnOp} {e : Expr} {u : Ty} (h : (un op e).TypedIn t u) :
    u = op.type ∧ e.TypedIn t op.type := by
  obtain ⟨a, ha, hu⟩ := h
  obtain ⟨e₁, he, ha⟩ := exists_of_bind_ok ha
  cases ha
  obtain ⟨hop, hw⟩ := typeOf_un hu
  exact ⟨hop, e₁, he, hw⟩

theorem TypedIn.var_inv {v : Var} {u : Ty} (h : (var v).TypedIn t u) : t.lookup v.name = some u := by
  obtain ⟨a, ha, hu⟩ := h
  obtain ⟨w, hw, ha⟩ := exists_of_bind_ok ha
  cases ha
  obtain ⟨hhas, hname, -⟩ := Table.var_ok hw
  rw [(typeOf_var hu).1, ← hname]
  exact hhas

end Expr

/-- Every name of the table has a value of its type. -/
def Store.Agrees (s : Store) (t : Table) : Prop := ∀ x u, t.lookup x = some u → (s x).Fits u

theorem Store.Typed.agrees {s : Store} {t t' : Table} (h : s.Typed t'.types) (hl : t.Le t') : s.Agrees t := by
  intro x u hx
  have h := h x
  unfold Table.types at h
  rw [hl x u hx] at h
  exact h

theorem Expr.TypedIn.type_value {t : Table} {a : Expr} {u : Ty} (h : a.TypedIn t u) {z : Int → Int}
    {s : Store} (hs : s.Agrees t) : (a.value z s).type = u := by
  obtain ⟨r, hr, hu⟩ := h
  rw [← Expr.value_resolve hr]
  exact Expr.type_eval hu fun v hv => hs v.name v.type (Expr.in_of_resolve hr v hv)

/-! ## conjunctions and disjunctions -/

namespace Source

/-- All of the truth values, or one of them. -/
def Logic.combine (op : Logic) (bs : List Bool) : Bool :=
  match op with
  | and => bs.all id
  | or => bs.any id

theorem Logic.combine_cons_goesOn (op : Logic) (bs : List Bool) : op.combine (op.goesOn :: bs) = op.combine bs := by
  cases op <;> simp [combine, goesOn]

theorem Logic.combine_cons_of_ne {op : Logic} {b : Bool} (h : b ≠ op.goesOn) (bs : List Bool) :
    op.combine (b :: bs) = b := by
  cases op <;> cases b <;> simp_all [combine, goesOn]

theorem Logic.combine_singleton (op : Logic) (b : Bool) : op.combine [b] = b := by
  cases op <;> simp [combine]

/-- What `op` does to truth values. -/
theorem Logic.value_bin (op : Logic) (z : Int → Int) (s : Store) (l r : Expr) :
    (Expr.bin op.binOp l r).value z s = .bool (op.combine [(l.value z s).toBool, (r.value z s).toBool]) := by
  cases op <;> simp [binOp, combine, Expr.value, Expr.eval, Meaning.standard]

theorem Logic.combine_pair (op : Logic) (b c : Bool) (bs : List Bool) :
    op.combine (op.combine [b, c] :: bs) = op.combine (b :: c :: bs) := by
  cases op <;> simp [combine, Bool.and_assoc, Bool.or_assoc]

theorem value_foldl (op : Logic) (z : Int → Int) (s : Store) (b : Expr) (as : List Expr)
    (a : Expr) :
    ((b :: as).foldl (.bin op.binOp) a).value z s =
      .bool (op.combine ((a :: b :: as).map fun e => (e.value z s).toBool)) := by
  induction as generalizing a b with
  | nil => exact op.value_bin z s a b
  | cons c as ih =>
    rw [List.foldl_cons, ih]
    simp only [List.map_cons, op.value_bin, Value.toBool, Logic.combine_pair]

theorem typedIn_foldl {op : Logic} {t : Table} {as : List Expr} {a : Expr} {u : Ty}
    (h : (as.foldl (.bin op.binOp) a).TypedIn t u) :
    (as = [] ∧ a.TypedIn t u) ∨ (u = .bool ∧ ∀ e ∈ a :: as, e.TypedIn t .bool) := by
  have hpair : ∀ {l r : Expr} {w : Ty}, (Expr.bin op.binOp l r).TypedIn t w →
      w = .bool ∧ l.TypedIn t .bool ∧ r.TypedIn t .bool := by
    intro l r w h
    obtain ⟨hw, v, hl, hr, hv⟩ := h.bin_inv
    have : v = .bool := by cases op <;> exact hv.symm
    subst this
    exact ⟨by cases op <;> exact hw, hl, hr⟩
  induction as generalizing a with
  | nil => exact .inl ⟨rfl, h⟩
  | cons b as ih =>
    right
    rcases ih h with ⟨rfl, h₁⟩ | ⟨rfl, h₁⟩
    · obtain ⟨hw, hl, hr⟩ := hpair h₁
      exact ⟨hw, by simp [hl, hr]⟩
    · obtain ⟨-, hl, hr⟩ := hpair (h₁ _ (List.mem_cons_self ..))
      refine ⟨rfl, fun e he => ?_⟩
      rcases List.mem_cons.1 he with rfl | he
      · exact hl
      · rcases List.mem_cons.1 he with rfl | he
        · exact hr
        · exact h₁ e (List.mem_cons_of_mem _ he)

/-! ## chained comparisons -/

theorem value_comparison {op : Comparison} {o : BinOp} (h : op.binOp? = some o) (z : Int → Int)
    (s : Store) (l r : Expr) {v w : Value} (hv : v.toInt = (l.value z s).toInt)
    (hw : w.toInt = (r.value z s).toInt) :
    ∃ b, op.holds? v w = some b ∧ (Expr.bin o l r).value z s = .bool b := by
  cases op <;> cases h <;> exact ⟨_, rfl, by rw [hv, hw]; rfl⟩

theorem value_arith {op : Arith} {o : BinOp} (h : op.binOp? = some o) (z : Int → Int) (s : Store)
    (l r : Expr) {v w : Value} (hv : v.toInt = (l.value z s).toInt)
    (hw : w.toInt = (r.value z s).toInt) :
    op.result? z v w = some ((Expr.bin o l r).value z s) := by
  cases op <;> cases h <;> (simp only [Arith.result?, hv, hw]; rfl)

theorem result?_of_binOp? {op : Arith} {o : BinOp} (h : op.binOp? = some o) (z : Int → Int)
    (v w : Value) :
    ∃ u, op.result? z v w = some u := by
  cases op <;> cases h <;> exact ⟨_, rfl⟩

theorem holds?_of_binOp? {op : Comparison} {o : BinOp} (h : op.binOp? = some o) (v w : Value) :
    ∃ b, op.holds? v w = some b := by
  cases op <;> cases h <;> exact ⟨_, rfl⟩

/-- The parts of a chain are comparisons. -/
theorem comparisons_cons {op : Comparison} {ops : List Comparison} {l : Expr} {rs parts : List Expr}
    (h : comparisons (op :: ops) l rs = .ok (some parts)) :
    ∃ o r rs' rest, op.binOp? = some o ∧ rs = r :: rs' ∧ parts = .bin o l r :: rest ∧
      comparisons ops r rs' = .ok (some rest) := by
  unfold comparisons at h
  cases ho : op.binOp? with
  | none => simp [ho] at h
  | some o =>
    cases rs with
    | nil => simp [ho] at h
    | cons r rs =>
      simp only [ho] at h
      obtain ⟨rest, hrest, h⟩ := exists_of_bind_ok h
      cases rest with
      | none => cases h
      | some rest =>
        cases h
        exact ⟨o, r, rs, rest, rfl, rfl, rfl, hrest⟩

/-- All parts are true. -/
theorem value_conjoin {z : Int → Int} {s : Store} {parts : List Expr}
    (h : ∀ p ∈ parts, ∃ b, p.value z s = .bool b) :
    (Expr.conjoin parts).value z s = .bool (parts.all fun p => (p.value z s).toBool) := by
  cases parts with
  | nil => rfl
  | cons p parts =>
    cases parts with
    | nil =>
      obtain ⟨b, hb⟩ := h p (List.mem_singleton.2 rfl)
      simp [Expr.conjoin, hb, Value.toBool]
    | cons q parts =>
      refine (value_foldl .and z s q parts p).trans ?_
      simp [Logic.combine]

/-- The minus of a numeral belongs to it. -/
theorem toExpr_minus {sp : Span} {e : Exp} {a : Expr} (h : (Exp.unary sp .minus e).toExpr = .ok a) :
    (∃ sp' n, e = .constant sp' (.int n) ∧ a = .num (-n)) ∨ ∃ b, e.toExpr = .ok b ∧ a = .un .neg b := by
  by_cases hc : ∃ sp' n, e = .constant sp' (.int n)
  · obtain ⟨sp', n, rfl⟩ := hc
    cases h
    exact .inl ⟨sp', n, rfl, rfl⟩
  · have heq : (Exp.unary sp .minus e).toExpr = (do
        let b ← e.toExpr
        .ok (.un .neg b)) := by
      rw [Exp.toExpr]
      exact fun sp' n he => hc ⟨sp', n, he⟩
    rw [heq] at h
    obtain ⟨b, hb, h⟩ := exists_of_bind_ok h
    cases h
    exact .inr ⟨b, hb, rfl⟩

/-! ## truth values -/

/-- The value is a truth value. -/
def Exp.isTruth (t : Table) : Exp → Bool
  | .constant _ (.bool _) => true
  | .name _ x => t.lookup x = some .bool
  | .unary _ .not _ => true
  | .unary _ .plus e => e.isTruth t
  | .logic .. => true
  | .compare .. => true
  | _ => false

mutual

/-- The value may be that of a unary plus on a truth value. -/
def Exp.plusOfTruth (t : Table) : Exp → Bool
  | .unary _ .plus e => e.isTruth t
  | .logic _ _ es => Exp.plusOfTruthL t es
  | _ => false

def Exp.plusOfTruthL (t : Table) : List Exp → Bool
  | [] => false
  | e :: es => e.plusOfTruth t || Exp.plusOfTruthL t es

end

theorem isTruth_of_typedIn {t : Table} {e : Exp} {a : Expr} (h : e.toExpr = .ok a)
    (ht : a.TypedIn t .bool) :
    e.isTruth t = true := by
  match e with
  | .constant sp c =>
    cases c with
    | bool b => rfl
    | int n =>
      cases h
      obtain ⟨r, hr, hu⟩ := ht
      cases hr
      cases hu
    | _ => cases h
  | .name sp x =>
    cases h
    simpa [Exp.isTruth] using ht.var_inv
  | .unary sp op e =>
    cases op with
    | not => rfl
    | plus => exact isTruth_of_typedIn (e := e) h ht
    | minus =>
      rcases toExpr_minus h with ⟨sp', n, rfl, rfl⟩ | ⟨b, -, rfl⟩
      · obtain ⟨r, hr, hu⟩ := ht
        cases hr
        cases hu
      · exact absurd ht.un_inv.1 (by decide)
    | invert => cases h
  | .binary sp l op r =>
    simp only [Exp.toExpr] at h
    cases ho : op.binOp? with
    | none => simp [ho] at h
    | some o =>
      simp only [ho] at h
      obtain ⟨b, -, h⟩ := exists_of_bind_ok h
      obtain ⟨c, -, h⟩ := exists_of_bind_ok h
      cases h
      have hint : o.type = .int := by cases op <;> cases ho <;> rfl
      rw [ht.bin_inv.1.symm] at hint
      cases hint
  | .logic .. => rfl
  | .compare .. => rfl
  | .ifElse .. => cases h
  | .call .. => cases h
  | .other .. => cases h

/-! ## values -/

theorem toExprL_cons {e : Exp} {es : List Exp} {as : List Expr}
    (h : Exp.toExprL (e :: es) = .ok as) :
    ∃ a as', e.toExpr = .ok a ∧ Exp.toExprL es = .ok as' ∧ as = a :: as' := by
  rw [Exp.toExprL] at h
  obtain ⟨a, ha, h⟩ := exists_of_bind_ok h
  obtain ⟨as', has, h⟩ := exists_of_bind_ok h
  cases h
  exact ⟨a, as', ha, has, rfl⟩

/-- `v` is the value `w` as a number, and the same value unless `plus`. -/
structure Renders (plus : Bool) (v w : Value) : Prop where
  toInt : v.toInt = w.toInt
  eq : plus = false → v = w

theorem Renders.refl (plus : Bool) (v : Value) : Renders plus v v := ⟨rfl, fun _ => rfl⟩

theorem Renders.toBool {plus : Bool} {v w : Value} (h : Renders plus v w) : v.toBool = w.toBool :=
  Value.toBool_eq_of_toInt h.toInt

/-- Only on a truth value does plus change the value. -/
theorem Renders.plus {sp : Span} {e : Exp} {a : Expr} {u : Ty} {z : Int → Int} {s : Store}
    {t : Table} {v : Value} (he : e.toExpr = .ok a) (hs : s.Agrees t) (ht : a.TypedIn t u)
    (h : Renders (e.plusOfTruth t) v (a.value z s)) :
    Renders ((Exp.unary sp .plus e).plusOfTruth t) (.int v.toInt) (a.value z s) := by
  refine ⟨h.toInt, fun hp => ?_⟩
  have hu : u ≠ .bool := by
    rintro rfl
    rw [Exp.plusOfTruth, isTruth_of_typedIn he ht] at hp
    cases hp
  have hint : u = .int := by
    obtain ⟨r, -, hu'⟩ := ht
    have := Expr.typeOf_ne_unknown hu'
    cases u <;> simp_all
  rw [h.toInt]
  exact (Value.eq_int_of_type (hint ▸ ht.type_value hs)).symm

theorem typedIn_of_conjoin {t : Table} {parts : List Expr} {u : Ty}
    (h : (Expr.conjoin parts).TypedIn t u) :
    ∀ p ∈ parts, ∃ w, p.TypedIn t w := by
  cases parts with
  | nil => nofun
  | cons p parts =>
    have h : (parts.foldl (.bin Logic.and.binOp) p).TypedIn t u := h
    rcases typedIn_foldl h with ⟨rfl, hp⟩ | ⟨-, hall⟩
    · exact fun q hq => ⟨u, List.mem_singleton.1 hq ▸ hp⟩
    · exact fun q hq => ⟨.bool, hall q hq⟩

section

variable {z : Int → Int} {I : Callees} {s : Store} {t : Table}

mutual

/-- What is translated has a value, and where it is typed the value is that of the translation. -/
theorem eval_translated (hs : s.Agrees t) (e : Exp) {a : Expr} (h : e.toExpr = .ok a) :
    ∃ v, e.eval z I s = some v ∧ ∀ u, a.TypedIn t u → Renders (e.plusOfTruth t) v (a.value z s) := by
  cases e with
  | constant sp c =>
    cases c with
    | bool b =>
      cases h
      exact ⟨_, rfl, fun _ _ => .refl _ _⟩
    | int n =>
      cases h
      exact ⟨_, rfl, fun _ _ => .refl _ _⟩
    | _ => cases h
  | name sp x =>
    cases h
    exact ⟨_, rfl, fun _ _ => .refl _ _⟩
  | unary sp op e =>
    cases op with
    | not =>
      rw [Exp.toExpr] at h
      obtain ⟨b, hb, h⟩ := exists_of_bind_ok h
      cases h
      obtain ⟨v, hv, hr⟩ := eval_translated hs e hb
      refine ⟨_, by rw [Exp.eval, hv]; rfl, fun u ht => ?_⟩
      rw [(hr _ ht.un_inv.2).toBool]
      exact .refl _ _
    | plus =>
      have he : e.toExpr = .ok a := h
      obtain ⟨v, hv, hr⟩ := eval_translated hs e he
      exact ⟨.int v.toInt, by rw [Exp.eval, hv]; rfl, fun u ht => (hr u ht).plus he hs ht⟩
    | minus =>
      rcases toExpr_minus h with ⟨sp', n, rfl, rfl⟩ | ⟨b, hb, rfl⟩
      · exact ⟨_, rfl, fun _ _ => .refl _ _⟩
      · obtain ⟨v, hv, hr⟩ := eval_translated hs e hb
        refine ⟨_, by rw [Exp.eval, hv]; rfl, fun u ht => ?_⟩
        rw [(hr _ ht.un_inv.2).toInt]
        exact .refl _ _
    | invert => cases h
  | binary sp l op r =>
    rw [Exp.toExpr] at h
    cases ho : op.binOp? with
    | none => simp [ho] at h
    | some o =>
      simp only [ho] at h
      obtain ⟨b, hb, h⟩ := exists_of_bind_ok h
      obtain ⟨c, hc, h⟩ := exists_of_bind_ok h
      cases h
      obtain ⟨v₁, hv₁, hr₁⟩ := eval_translated hs l hb
      obtain ⟨v₂, hv₂, hr₂⟩ := eval_translated hs r hc
      obtain ⟨w, hw⟩ := result?_of_binOp? ho z v₁ v₂
      refine ⟨w, by rw [Exp.eval, hv₁, hv₂]; exact hw, fun u ht => ?_⟩
      obtain ⟨-, u', hl, hr, -⟩ := ht.bin_inv
      rw [value_arith ho z s b c (hr₁ _ hl).toInt (hr₂ _ hr).toInt] at hw
      cases hw
      exact .refl _ _
  | logic sp op es =>
    cases es with
    | nil => cases h
    | cons e es =>
      rw [Exp.toExpr] at h
      obtain ⟨a, ha, h⟩ := exists_of_bind_ok h
      obtain ⟨as, has, h⟩ := exists_of_bind_ok h
      cases h
      have hlist : Exp.toExprL (e :: es) = .ok (a :: as) := by
        rw [Exp.toExprL, ha, has]
        rfl
      obtain ⟨v, hv, hsingle, hr⟩ := evalLogic_translated hs op (e :: es) hlist
      refine ⟨v, hv, fun u ht => ?_⟩
      rw [Exp.plusOfTruth]
      rcases typedIn_foldl ht with ⟨rfl, ha'⟩ | ⟨rfl, hall⟩
      · exact hsingle rfl u ha'
      · have hr := hr hall
        cases as with
        | nil => exact hsingle rfl .bool (hall a (List.mem_cons_self ..))
        | cons b as =>
          rw [value_foldl]
          exact hr
  | compare sp l ops rs =>
    rw [Exp.toExpr] at h
    obtain ⟨b, hb, h⟩ := exists_of_bind_ok h
    obtain ⟨bs, hbs, h⟩ := exists_of_bind_ok h
    cases hc : comparisons ops b bs with
    | error f => simp [hc] at h
    | ok parts =>
      cases parts with
      | none => simp [hc] at h
      | some parts =>
        simp only [hc, Except.ok.injEq] at h
        subst h
        obtain ⟨v, hv, hr⟩ := eval_translated hs l hb
        obtain ⟨w, hw, hr'⟩ := evalChain_translated hs rs hbs hc v
        refine ⟨w, by rw [Exp.eval, hv]; exact hw, fun u ht => ?_⟩
        obtain ⟨rfl, hbools⟩ := hr' (typedIn_of_conjoin ht) fun u' hu' => (hr u' hu').toInt
        rw [value_conjoin hbools]
        exact .refl _ _
  | ifElse sp e₁ e₂ e₃ => cases h
  | call sp f args ks => cases h
  | other sp k ps => cases h

theorem evalLogic_translated (hs : s.Agrees t) (op : Logic) (es : List Exp) {a : Expr}
    {as : List Expr} (h : Exp.toExprL es = .ok (a :: as)) :
    ∃ v, Exp.evalLogic z I s op es = some v ∧
      (as = [] → ∀ u, a.TypedIn t u → Renders (Exp.plusOfTruthL t es) v (a.value z s)) ∧
      ((∀ b ∈ a :: as, b.TypedIn t .bool) → Renders (Exp.plusOfTruthL t es) v
        (.bool (op.combine ((a :: as).map fun b => (b.value z s).toBool)))) := by
  obtain ⟨e, es, rfl⟩ : ∃ e es', es = e :: es' := by
    cases es with
    | nil => cases h
    | cons e es => exact ⟨e, es, rfl⟩
  obtain ⟨a₁, as₁, ha, has, heq⟩ := toExprL_cons h
  cases heq
  obtain ⟨v, hv, hr⟩ := eval_translated hs e ha
  have hbool : a.TypedIn t .bool → a.value z s = .bool v.toBool := by
    intro hb
    rw [(hr _ hb).toBool]
    exact Value.eq_bool_of_type (hb.type_value hs)
  have hplus : Exp.plusOfTruthL t (e :: es) = false → e.plusOfTruth t = false ∧ Exp.plusOfTruthL t es = false :=
    Bool.or_eq_false_iff.1
  rw [Exp.evalLogic, hv]
  simp only [Option.bind_eq_bind, Option.bind_some]
  cases es with
  | nil =>
    cases has
    refine ⟨v, rfl, fun _ u hu => ⟨(hr u hu).toInt, fun hp => (hr u hu).eq (hplus hp).1⟩, fun hall => ?_⟩
    have hb := hall a (List.mem_cons_self ..)
    rw [List.map_cons, List.map_nil, Logic.combine_singleton, ← (hr _ hb).toBool, ← hbool hb]
    exact ⟨(hr _ hb).toInt, fun hp => (hr _ hb).eq (hplus hp).1⟩
  | cons e' es =>
    obtain ⟨a', as', -, -, rfl⟩ := toExprL_cons has
    obtain ⟨w, hw, -, hr'⟩ := evalLogic_translated hs op (e' :: es) has
    by_cases hgo : v.toBool = op.goesOn
    · -- the operand settles nothing
      refine ⟨w, by simpa [hgo] using hw, nofun, fun hall => ?_⟩
      have hrest := hr' fun b hb => hall b (List.mem_cons_of_mem _ hb)
      rw [List.map_cons, ← (hr _ (hall a (List.mem_cons_self ..))).toBool, hgo,
        Logic.combine_cons_goesOn]
      exact ⟨hrest.toInt, fun hp => hrest.eq (hplus hp).2⟩
    · refine ⟨v, by simp [hgo], nofun, fun hall => ?_⟩
      have hb := hall a (List.mem_cons_self ..)
      rw [List.map_cons, ← (hr _ hb).toBool, Logic.combine_cons_of_ne hgo, ← hbool hb]
      exact ⟨(hr _ hb).toInt, fun hp => (hr _ hb).eq (hplus hp).1⟩

/-- The comparisons are made one after the other, up to the first that fails. -/
theorem evalChain_translated (hs : s.Agrees t) (rs : List Exp) {ops : List Comparison} {l : Expr}
    {bs parts : List Expr} (h : Exp.toExprL rs = .ok bs)
    (hc : comparisons ops l bs = .ok (some parts)) (v : Value) :
    ∃ w, Exp.evalChain z I s v rs ops = some w ∧ ((∀ p ∈ parts, ∃ u, p.TypedIn t u) →
      (∀ u, l.TypedIn t u → v.toInt = (l.value z s).toInt) →
      w = .bool (parts.all fun p => (p.value z s).toBool) ∧ ∀ p ∈ parts, ∃ b, p.value z s = .bool b) := by
  cases ops with
  | nil =>
    cases hc
    exact ⟨.bool true, by cases rs <;> rfl, fun _ _ => ⟨rfl, nofun⟩⟩
  | cons op ops =>
    obtain ⟨o, r, bs', rest, ho, rfl, rfl, hrest⟩ := comparisons_cons hc
    cases rs with
    | nil => cases h
    | cons e rs =>
      obtain ⟨a, as, ha, has, heq⟩ := toExprL_cons h
      cases heq
      obtain ⟨x, hx, hr⟩ := eval_translated hs e ha
      obtain ⟨w, hw, htail⟩ := evalChain_translated hs rs has hrest x
      obtain ⟨b, hb⟩ := holds?_of_binOp? ho v x
      rw [Exp.evalChain, hx]
      simp only [Option.bind_eq_bind, Option.bind_some, hb]
      refine ⟨if b then w else .bool false, by cases b <;> simp [hw], fun ht hv => ?_⟩
      obtain ⟨u, hu⟩ := ht _ (List.mem_cons_self ..)
      obtain ⟨-, u', hl, hr', -⟩ := hu.bin_inv
      obtain ⟨b', hb', hval⟩ := value_comparison ho z s l r (hv _ hl) (hr _ hr').toInt
      cases hb.symm.trans hb'
      obtain ⟨rfl, hbools⟩ :=
        htail (fun p hp => ht p (List.mem_cons_of_mem _ hp)) fun u hu => (hr u hu).toInt
      refine ⟨?_, List.forall_mem_cons.2 ⟨⟨b, hval⟩, hbools⟩⟩
      rw [List.all_cons, hval]
      cases b <;> rfl

end

theorem Translates.renders {e : Exp} {a : Expr} {u : Ty} (h : Translates t e a u)
    (hs : s.Agrees t) :
    ∃ v, e.eval z I s = some v ∧ Renders (e.plusOfTruth t) v (a.value z s) ∧ (a.value z s).type = u := by
  obtain ⟨a₀, h₀, hr, hu⟩ := h
  obtain ⟨v, hv, hrv⟩ := eval_translated hs e h₀
  rw [Expr.value_resolve hr]
  exact ⟨v, hv, hrv u ⟨a, hr, hu⟩, Expr.TypedIn.type_value ⟨a, hr, hu⟩ hs⟩

theorem Translates.eval_eq {e : Exp} {a : Expr} {u : Ty} (h : Translates t e a u) (hs : s.Agrees t)
    (hp : e.plusOfTruth t = false) : e.eval z I s = some (a.value z s) := by
  obtain ⟨v, hv, hr, -⟩ := h.renders hs
  rw [hv, hr.eq hp]

/-- A branch condition is true when the guard holds, be it a truth value or a number. -/
theorem Translates.truth?_eq {e : Exp} {a : Expr} {u : Ty} (h : Translates t e a u)
    (hs : s.Agrees t) :
    e.truth? z I s = some (decide ((asGuard a u).Holds z s.read)) := by
  obtain ⟨v, hv, hr, hu⟩ := h.renders (z := z) (I := I) hs
  have hguard : ((asGuard a u).value z s).toBool = (a.value z s).toBool := by
    unfold asGuard
    split
    · rename_i hint
      have hval : a.value z s = .int (a.value z s).toInt := Value.eq_int_of_type (hu.trans hint)
      rw [hval]
      rfl
    · rfl
  unfold Exp.truth?
  rw [hv, Option.map_some, hr.toBool, ← hguard]
  exact congrArg some Bool.decide_eq_true.symm

theorem evalL_eq {args : List Exp} {as : List Expr}
    (h : List.Forall₂ (fun e a => ∃ u, Translates t e a u) args as) (hs : s.Agrees t)
    (hp : ∀ e ∈ args, e.plusOfTruth t = false) :
    Exp.evalL z I s args = some (as.map (·.value z s)) := by
  induction h with
  | nil => rfl
  | cons he _ ih =>
    obtain ⟨u, he⟩ := he
    rw [Exp.evalL, he.eval_eq hs (hp _ (List.mem_cons_self ..)),
      ih fun e' he' => hp e' (List.mem_cons_of_mem _ he')]
    rfl

end

/-! ## larger tables -/

theorem isTruth_mono {t t' : Table} (hl : t.Le t') {e : Exp} (h : e.isTruth t = true) : e.isTruth t' = true := by
  match e with
  | .constant sp c =>
    cases c with
    | bool b => rfl
    | _ => cases h
  | .name sp x =>
    simp only [Exp.isTruth, decide_eq_true_eq] at h ⊢
    exact hl x _ h
  | .unary sp op e =>
    cases op with
    | plus => exact isTruth_mono (e := e) hl h
    | _ => exact h
  | .binary .. => exact h
  | .logic .. => exact h
  | .compare .. => exact h
  | .ifElse .. => exact h
  | .call .. => exact h
  | .other .. => exact h

mutual

theorem plusOfTruth_mono {t t' : Table} (hl : t.Le t') (e : Exp) (h : e.plusOfTruth t' = false) :
    e.plusOfTruth t = false := by
  cases e with
  | unary sp op e =>
    cases op with
    | plus =>
      simp only [Exp.plusOfTruth] at h ⊢
      by_contra hne
      rw [isTruth_mono hl (by simpa using hne)] at h
      cases h
    | _ => rfl
  | logic sp op es =>
    rw [Exp.plusOfTruth] at h ⊢
    exact plusOfTruthL_mono hl es h
  | _ => rfl

theorem plusOfTruthL_mono {t t' : Table} (hl : t.Le t') (es : List Exp)
    (h : Exp.plusOfTruthL t' es = false) :
    Exp.plusOfTruthL t es = false := by
  cases es with
  | nil => rfl
  | cons e es =>
    rw [Exp.plusOfTruthL, Bool.or_eq_false_iff] at h ⊢
    exact ⟨plusOfTruth_mono hl e h.1, plusOfTruthL_mono hl es h.2⟩

end

end Source

end ContractVerifier
