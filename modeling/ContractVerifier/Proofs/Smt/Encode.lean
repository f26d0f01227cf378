import ContractVerifier.Proofs.Smt.Meaning

/-!
# Expressions and their terms

An expression has a term exactly if it has a type and uses each name with one type, and the term
means the same.

* `Encode.builder` : what is assumed of the library of terms;
* `Encode.Spec T x s Q` : if `x` gives a result from the symbols `s`, then one with `Q`; and it
  fails only where `T` does not hold;
* `Consistent` : each name among some variables is used with one type, and is not empty;
* `spec_binOp` : the term of an operator.  A quotient by zero of the expression is one of the
  negated dividend in the term;
* `spec_build` : the term of an expression, with the symbols of its variables.
-/

namespace ContractVerifier

open Smt

/-! ## what is assumed of the terms -/

/-- Runs in which every node is looked at.  A failure leaves the symbols as they were when it
occurred. -/
abbrev Encode := ExceptT EncodeStop (StateM Symbols)

namespace Encode

/-- An ill-sorted node is refused, and no other. -/
def node (t : Term) : Encode Term :=
  match t.checked with
  | .ok t => return t
  | .error r => throw (.refused r)

/-- A symbol without a name is refused, and no other. -/
def symbol (v : Var) : Encode Term := do
  match (← get).lacks v with
  | .error c => throw (.misuse c)
  | .ok false => return .sym v
  | .ok true =>
    if v.name = "" then throw (.refused .emptyName)
    else do
      modify fun s => s.put v.name v.type
      return .sym v

/-- The assumption on the library of terms, as a builder.  An encoder works over a pool of terms
instead, which makes no difference as long as nothing was refused. -/
def builder : Builder Encode where
  node := node
  sortOf t := return t.type
  symbol := symbol

/-! ## runs -/

variable {α β : Type}

def run (x : Encode α) (s : Symbols) : Except EncodeStop α × Symbols :=
  Id.run (StateT.run (ExceptT.run x) s)

def Spec (T : Prop) (x : Encode α) (s : Symbols) (Q : α → Symbols → Prop) : Prop :=
  match x.run s with
  | (.ok a, s') => Q a s'
  | (.error _, _) => ¬ T

variable {T : Prop} {s : Symbols} {Q : α → Symbols → Prop}

theorem run_bind (x : Encode β) (f : β → Encode α) (s : Symbols) :
    (x >>= f).run s = match x.run s with
      | (.ok a, s') => (f a).run s'
      | (.error e, s') => (.error e, s') := by
  show (ExceptT.bindCont f (x.run s).1) (x.run s).2 = _
  rcases x.run s with ⟨a | e, s'⟩ <;> rfl

theorem spec_bind {x : Encode β} {f : β → Encode α} :
    Spec T (x >>= f) s Q ↔ Spec T x s fun a s' => Spec T (f a) s' Q := by
  unfold Spec
  rw [run_bind]
  rcases x.run s with ⟨a | e, s'⟩ <;> rfl

theorem spec_pure {a : α} : Spec T (pure a) s Q ↔ Q a s := Iff.rfl

theorem spec_get {Q : Symbols → Symbols → Prop} : Spec T get s Q ↔ Q s s := Iff.rfl

theorem spec_throw {e : EncodeStop} : Spec T (throw e : Encode α) s Q ↔ ¬ T := Iff.rfl

/-- A result with `Q`, or a failure where `T` does not hold. -/
theorem Spec.cases {x : Encode α} (h : Spec T x s Q) :
    (∃ a s', x.run s = (.ok a, s') ∧ Q a s') ∨ (∃ e s', x.run s = (.error e, s')) ∧ ¬ T := by
  unfold Spec at h
  generalize x.run s = p at h ⊢
  rcases p with ⟨e | a, s'⟩
  · exact .inr ⟨⟨e, s', rfl⟩, h⟩
  · exact .inl ⟨a, s', rfl, h⟩

theorem Spec.mono {x : Encode α} {P : α → Symbols → Prop} (h : Spec T x s P)
    (hq : ∀ a s', P a s' → Q a s') :
    Spec T x s Q := by
  unfold Spec at h ⊢
  cases hx : x.run s with
  | mk r s' =>
    rw [hx] at h
    cases r with
    | ok a => exact hq a s' h
    | error e => exact h

end Encode

/-! ## nodes -/

section

open Encode

variable {T : Prop} {s : Symbols} {Q : Term → Symbols → Prop} {l r t : Term} {σ τ ρ : Ty}

theorem spec_node (hT : T → (t.rootSort? fun a => some a.type).isSome = true)
    (hq : (t.rootSort? fun a => some a.type).isSome = true → Q t s) : Spec T (Encode.node t) s Q := by
  unfold Encode.node Term.checked
  cases h : t.rootSort? fun a => some a.type with
  | some u => exact hq (by rw [h]; rfl)
  | none =>
    intro hT'
    have hsome := hT hT'
    rw [h] at hsome
    cases hsome

theorem spec_literal {v : Value} (hq : Q (.lit v) s) : Spec T (Encode.node (.lit v)) s Q := hq

theorem spec_binary {op : Op} (hl : l.HasSort σ) (hr : r.HasSort τ)
    (hT : T → σ = op.operand ∧ τ = op.operand)
    (hq : σ = op.operand → τ = op.operand → Q (.bin op l r) s) :
    Spec T (Encode.builder.binary op l r) s Q := by
  have hroot : ((Term.bin op l r).rootSort? fun a => some a.type).isSome = true ↔ σ = op.operand ∧ τ = op.operand := by
    simp only [Term.rootSort?, hl.type_eq, hr.type_eq, Option.some.injEq, Option.isSome_ite]
  exact spec_node (fun h => hroot.2 (hT h)) fun h => hq (hroot.1 h).1 (hroot.1 h).2

theorem spec_ite {c : Term} (hc : c.HasSort .bool) (hl : l.HasSort σ) (hr : r.HasSort σ)
    (hq : Q (.ite c l r) s) :
    Spec T (Encode.node (.ite c l r)) s Q := by
  have hroot : ((Term.ite c l r).rootSort? fun a => some a.type).isSome = true := by
    simp [Term.rootSort?, hc.type_eq, hl.type_eq, hr.type_eq]
  exact spec_node (fun _ => hroot) fun _ => hq

theorem spec_negation (h : t.HasSort σ) (hT : T → σ = .bool) (hq : σ = .bool → Q t.complement s) :
    Spec T (t.negationWith Encode.node) s Q := by
  rcases t.negationWith_eq Encode.node with ⟨hn, u, rfl⟩ | ⟨hn, hc⟩
  · rw [hn, spec_pure]
    exact hq h.1
  · rw [hn]
    have hroot : ((Term.not t).rootSort? fun a => some a.type).isSome = true ↔ σ = .bool := by
      simp only [Term.rootSort?, h.type_eq, Option.some.injEq, Option.isSome_ite]
    exact spec_node (fun h => hroot.2 (hT h)) fun h => hc ▸ hq (hroot.1 h)

/-! ## quotients -/

/-- The term of a floor quotient. -/
def floorDivTerm (l r : Term) : Term :=
  .ite (.bin .lt (.int 0) r) (.bin .div l r) (.bin .div (.bin .minus (.int 0) l) (.bin .minus (.int 0) r))

/-- The term of what it leaves. -/
def floorModTerm (l r : Term) : Term := .bin .minus l (.bin .times r (floorDivTerm l r))

theorem spec_floorDiv (hl : l.HasSort σ) (hr : r.HasSort τ) (hT : T → σ = .int ∧ τ = .int)
    (hq : σ = .int → τ = .int → (floorDivTerm l r).HasSort .int → Q (floorDivTerm l r) s) :
    Spec T (Encode.builder.floorDiv l r) s Q := by
  have hzero : (Term.int 0).HasSort .int := rfl
  unfold Builder.floorDiv
  rw [spec_bind]
  refine spec_literal (spec_bind.2 (spec_binary hzero hr (fun h => ⟨rfl, (hT h).2⟩) fun _ hτ => ?_))
  cases hτ
  refine spec_bind.2 (spec_binary hl hr (fun h => ⟨(hT h).1, rfl⟩) fun hσ _ => ?_)
  cases hσ
  -- from here on all arguments are integers
  have hint : T → Op.minus.operand = .int ∧ Op.minus.operand = .int := fun _ => ⟨rfl, rfl⟩
  have hl' : (Term.bin .minus (.int 0) l).HasSort .int := ⟨rfl, hzero, hl⟩
  have hr' : (Term.bin .minus (.int 0) r).HasSort .int := ⟨rfl, hzero, hr⟩
  have hpos : (Term.bin .lt (.int 0) r).HasSort .bool := ⟨rfl, hzero, hr⟩
  have hquot : (Term.bin .div l r).HasSort .int := ⟨rfl, hl, hr⟩
  have hturn : (Term.bin .div (.bin .minus (.int 0) l) (.bin .minus (.int 0) r)).HasSort .int :=
    ⟨rfl, hl', hr'⟩
  refine spec_bind.2 (spec_binary hzero hl hint fun _ _ => ?_)
  refine spec_bind.2 (spec_binary hzero hr hint fun _ _ => ?_)
  refine spec_bind.2 (spec_binary hl' hr' hint fun _ _ => ?_)
  exact spec_ite hpos hquot hturn (hq rfl rfl ⟨hpos, hquot, hturn⟩)

theorem spec_floorMod (hl : l.HasSort σ) (hr : r.HasSort τ) (hT : T → σ = .int ∧ τ = .int)
    (hq : σ = .int → τ = .int → (floorModTerm l r).HasSort .int → Q (floorModTerm l r) s) :
    Spec T (Encode.builder.floorMod l r) s Q := by
  unfold Builder.floorMod
  refine spec_bind.2 (spec_floorDiv hl hr hT fun hσ hτ hd => ?_)
  cases hσ
  cases hτ
  have hp : (Term.bin .times r (floorDivTerm l r)).HasSort .int := ⟨rfl, hr, hd⟩
  refine spec_bind.2 (spec_binary hr hd (fun _ => ⟨rfl, rfl⟩) fun _ _ => ?_)
  exact spec_binary hl hp (fun _ => ⟨rfl, rfl⟩) fun _ _ => hq rfl rfl ⟨rfl, hl, hp⟩

theorem isWritable_floorDivTerm (hl : l.isWritable = true) (hr : r.isWritable = true) :
    (floorDivTerm l r).isWritable = true := by
  simp [floorDivTerm, Term.isWritable, Term.int, Value.isWritable, Text.isShort_zero, hl, hr]

theorem isWritable_floorModTerm (hl : l.isWritable = true) (hr : r.isWritable = true) :
    (floorModTerm l r).isWritable = true := by
  simp [floorModTerm, Term.isWritable, isWritable_floorDivTerm hl hr, hl, hr]

/-- The quotients by zero of an expression, from those of its term. -/
def turn (z : Int → Int) (n : Int) : Int := z (-n)

theorem floorQuot_turn (z : Int → Int) (n m : Int) :
    floorQuot (turn z) n m = if 0 < m then (if m = 0 then z n else n / m)
      else if 0 - m = 0 then z (0 - n) else (0 - n) / (0 - m) := by
  unfold floorQuot turn
  by_cases hm : m = 0
  · simp [hm]
  · by_cases hpos : 0 < m
    · rw [if_neg hm, if_pos hpos, if_neg hm, Int.fdiv_eq_ediv_of_nonneg _ (Int.le_of_lt hpos)]
    · have hneg : 0 - m ≠ 0 := by omega
      have hle : 0 ≤ -m := by omega
      rw [if_neg hm, if_neg hpos, if_neg hneg, Int.zero_sub, Int.zero_sub,
        ← Int.fdiv_eq_ediv_of_nonneg _ hle, Int.neg_fdiv_neg]

theorem eval_floorDivTerm (z : Int → Int) (a : Var → Value) (l r : Term) :
    (floorDivTerm l r).eval z a = .int (floorQuot (turn z) (l.eval z a).toInt (r.eval z a).toInt) := by
  rw [floorQuot_turn]
  show (if decide (0 < (r.eval z a).toInt) = true then Value.int _ else Value.int _) = _
  by_cases h : 0 < (r.eval z a).toInt
  · rw [if_pos (decide_eq_true h), if_pos h]
  · rw [if_neg (by simpa using h), if_neg h]
    rfl

theorem eval_floorModTerm (z : Int → Int) (a : Var → Value) (l r : Term) :
    (floorModTerm l r).eval z a = .int (floorRem (l.eval z a).toInt (r.eval z a).toInt) := by
  have hmod : ∀ n m : Int, n - m * floorQuot (turn z) n m = floorRem n m := by
    intro n m
    unfold floorQuot floorRem
    by_cases hm : m = 0
    · simp [hm]
    · rw [if_neg hm, Int.fmod_def]
  rw [← hmod, floorModTerm, Term.eval, Term.eval, eval_floorDivTerm]
  rfl

/-! ## operators -/

/-- Equal truth values are equal as numbers. -/
theorem toBool_beq {u v : Value} (hu : u.type = .bool) (hv : v.type = .bool) :
    (u.toBool == v.toBool) = (u.toInt == v.toInt) := by
  rw [Value.eq_bool_of_type hu, Value.eq_bool_of_type hv]
  cases u.toBool <;> cases v.toBool <;> rfl

theorem spec_equality (hl : l.HasSort σ) (hr : r.HasSort τ) (hT : T → σ = τ)
    (hq : ∀ t : Term, σ = τ → t.HasSort .bool → t.isWritable = (l.isWritable && r.isWritable) →
      (∀ z a, Fitting a → t.eval z a = .bool ((l.eval z a).toInt == (r.eval z a).toInt)) → Q t s) :
    Spec T (Encode.builder.equality l r) s Q := by
  unfold Builder.equality
  refine spec_bind.2 (spec_pure.2 ?_)
  rw [hl.type_eq]
  cases σ with
  | unknown => exact absurd rfl hl.ne_unknown
  | int =>
    refine spec_binary hl hr (fun h => ⟨rfl, (hT h).symm⟩) fun _ hτ => ?_
    exact hq _ hτ.symm ⟨rfl, hl, hτ ▸ hr⟩ rfl fun _ _ _ => rfl
  | bool =>
    refine spec_binary hl hr (fun h => ⟨rfl, (hT h).symm⟩) fun _ hτ => ?_
    have hb : τ = .bool := hτ
    have hr' : r.HasSort .bool := hb ▸ hr
    refine hq _ hτ.symm ⟨rfl, hl, hr'⟩ rfl fun z a ha => ?_
    exact congrArg Value.bool (toBool_beq (Term.type_eval hl ha) (Term.type_eval hr' ha))

/-- `t` is the term of an operator on terms of the sort `σ`. -/
structure IsBinOp (op : BinOp) (l r : Term) (σ : Ty) (t : Term) : Prop where
  operand : op.operand.getD σ = σ
  sort : t.HasSort op.type
  writable : l.isWritable = true → r.isWritable = true → t.isWritable = true
  eval : ∀ z a, Fitting a → t.eval z a = (Meaning.standard (turn z)).bin op (l.eval z a) (r.eval z a)

theorem operands_eq {op : BinOp} (hop : op.operand = some ρ) (h : σ = τ ∧ op.operand.getD σ = σ) : σ = ρ ∧ τ = ρ := by
  rw [hop, Option.getD_some] at h
  exact ⟨h.2.symm, h.1 ▸ h.2.symm⟩

/-- An operator that has a node of its own. -/
theorem spec_direct {op : BinOp} {o : Op} (hl : l.HasSort σ) (hr : r.HasSort τ)
    (hT : T → σ = τ ∧ op.operand.getD σ = σ) (hop : op.operand = some o.operand)
    (hty : o.type = op.type)
    (he : ∀ z u v, o.apply z u v = (Meaning.standard (turn z)).bin op u v) :
    Spec T (Encode.builder.binary o l r) s fun t s' => s' = s ∧ σ = τ ∧ IsBinOp op l r σ t := by
  refine spec_binary hl hr (fun h => operands_eq hop (hT h)) fun hσ hτ => ?_
  subst hσ hτ
  exact ⟨rfl, rfl, by rw [hop]; rfl, ⟨hty.symm, hl, hr⟩, fun hwl hwr => Bool.and_eq_true_iff.2 ⟨hwl, hwr⟩,
    fun z a _ => he z _ _⟩

theorem spec_binOp {op : BinOp} (hl : l.HasSort σ) (hr : r.HasSort τ)
    (hT : T → σ = τ ∧ op.operand.getD σ = σ) :
    Spec T (op.build Encode.builder l r) s fun t s' => s' = s ∧ σ = τ ∧ IsBinOp op l r σ t := by
  cases op with
  | add | sub | mul | lt | le | and | or | imp => exact spec_direct hl hr hT rfl rfl fun _ _ _ => rfl
  | gt | ge =>
    refine spec_binary hr hl (fun h => (operands_eq rfl (hT h)).symm) fun hτ hσ => ?_
    subst hσ hτ
    exact ⟨rfl, rfl, rfl, ⟨rfl, hr, hl⟩, fun hwl hwr => Bool.and_eq_true_iff.2 ⟨hwr, hwl⟩, fun _ _ _ => rfl⟩
  | div =>
    refine spec_floorDiv hl hr (fun h => operands_eq rfl (hT h)) fun hσ hτ hd => ?_
    subst hσ hτ
    exact ⟨rfl, rfl, rfl, hd, isWritable_floorDivTerm, fun z a _ => eval_floorDivTerm z a l r⟩
  | mod =>
    refine spec_floorMod hl hr (fun h => operands_eq rfl (hT h)) fun hσ hτ hm => ?_
    subst hσ hτ
    exact ⟨rfl, rfl, rfl, hm, isWritable_floorModTerm, fun z a _ => eval_floorModTerm z a l r⟩
  | eq =>
    refine spec_equality hl hr (fun h => (hT h).1) fun t hστ ht hw he => ?_
    exact ⟨rfl, hστ, rfl, ht, fun hwl hwr => hw.trans (Bool.and_eq_true_iff.2 ⟨hwl, hwr⟩), he⟩
  | ne =>
    refine spec_bind.2 (spec_equality hl hr (fun h => (hT h).1) fun t hστ ht hw he => ?_)
    refine spec_negation ht (fun _ => rfl) fun _ => ⟨rfl, hστ, rfl, ht.complement, fun hwl hwr => ?_, fun z a ha => ?_⟩
    · rw [Term.isWritable_complement, hw, hwl, hwr]
      rfl
    · rw [Term.eval_complement ht ha, he z a ha]
      rfl

end

/-! ## expressions -/

/-- Names are not empty, and each is used with one type. -/
structure Consistent (vs : List Var) : Prop where
  named : ∀ v ∈ vs, v.name ≠ ""
  single : ∀ v ∈ vs, ∀ w ∈ vs, v.name = w.name → v.type = w.type

/-- The symbols of variables. -/
def symbolsOf (seen : Keyed String Var) : Symbols := ⟨seen.entries.map fun e => (e.1, e.2.type)⟩

theorem get?_symbolsOf (seen : Keyed String Var) (x : String) :
    (symbolsOf seen).get? x = (seen.get? x).map (·.type) :=
  Keyed.get?_map (fun _ v => v.type) seen x

theorem symbolsOf_putNew_of_none {seen : Keyed String Var} {v : Var} (h : seen.get? v.name = none) :
    (symbolsOf seen).put v.name v.type = symbolsOf (seen.putNew v.name v) := by
  have hk : v.name ∉ seen.keys := (Keyed.get?_eq_none_iff ..).1 h
  have hk' : v.name ∉ (symbolsOf seen).entries.map (·.1) := by
    unfold symbolsOf
    rw [List.map_map]
    exact hk
  have hnew : seen.putNew v.name v = ⟨seen.entries ++ [(v.name, v)]⟩ := by
    unfold Keyed.putNew Keyed.contains
    rw [h]
    rfl
  rw [hnew, Keyed.put, Keyed.putList_of_notMem hk']
  simp [symbolsOf]

theorem putNew_of_some {seen : Keyed String Var} {v w : Var} (h : seen.get? v.name = some w) :
    seen.putNew v.name v = seen := by
  unfold Keyed.putNew Keyed.contains
  rw [h]
  rfl

/-- A name that was seen keeps its variable. -/
theorem get?_collectVars {e : Expr} {seen : Keyed String Var} {x : String} {w : Var}
    (h : seen.get? x = some w) :
    (e.collectVars seen).get? x = some w := by
  induction e generalizing seen with
  | lit v => exact h
  | var v =>
    rw [Expr.collectVars, Keyed.get?_putNew]
    by_cases hx : v.name = x
    · rw [if_pos hx, hx, h, Option.getD_some]
    · rw [if_neg hx, h]
  | bin op l r ihl ihr => exact ihr (ihl h)
  | un op e ih => exact ih h

/-- `t` is the term of `e`, after the variables `seen`. -/
structure Encoded (seen : Keyed String Var) (e : Expr) (t : Term) (s : Symbols) : Prop where
  symbols : s = symbolsOf (e.collectVars seen)
  names : ∀ v ∈ e.vars, v.name ≠ "" ∧ (symbolsOf (e.collectVars seen)).get? v.name = some v.type
  typed : e.typeOf = .ok t.type
  sort : t.HasSort t.type
  writable : e.isWritable = true → t.isWritable = true
  eval : ∀ z a, Fitting a → t.eval z a = e.eval (.standard (turn z)) a

theorem Encoded.consistent {e : Expr} {t : Term} {s : Symbols} (h : Encoded .empty e t s) : Consistent e.vars := by
  refine ⟨fun v hv => (h.names v hv).1, fun v hv w hw hn => ?_⟩
  have hv' := (h.names v hv).2
  rw [hn, (h.names w hw).2] at hv'
  exact (Option.some.inj hv').symm

section

open Encode

variable {T : Prop} {vs : List Var} {seen : Keyed String Var} {P : Var → Prop}

theorem spec_symbol {v : Var} (hs : seen.Lists Var.name P) (hP : ∀ w, P w → w ∈ vs ∧ w.name ≠ "")
    (hv : v ∈ vs) (hT : T → Consistent vs ∧ v.type ≠ .unknown) :
    Spec T (Encode.symbol v) (symbolsOf seen) (Encoded seen (.var v)) := by
  unfold Encode.symbol
  refine spec_bind.2 (spec_get.2 ?_)
  unfold Symbols.lacks
  by_cases hu : v.type = .unknown
  · rw [if_pos hu]
    exact fun h => (hT h).2 hu
  · rw [if_neg hu, get?_symbolsOf]
    have htyped : (Expr.var v).typeOf = .ok v.type := if_neg hu
    -- all but the symbols is the same, whether the name is new or not
    have hdone : v.name ≠ "" → (symbolsOf (seen.putNew v.name v)).get? v.name = some v.type →
        Encoded seen (.var v) (.sym v) (symbolsOf (seen.putNew v.name v)) := by
      intro hn hget
      refine ⟨rfl, fun w hw => ?_, htyped, ⟨rfl, hu, hn⟩, fun _ => rfl, fun _ _ _ => rfl⟩
      rw [List.mem_singleton.1 hw]
      exact ⟨hn, hget⟩
    cases hg : seen.get? v.name with
    | none =>
      by_cases hn : v.name = ""
      · simp only [Option.map_none, if_pos hn]
        exact fun h => (hT h).1.named v hv hn
      · simp only [Option.map_none, if_neg hn]
        show Encoded seen (.var v) (.sym v) ((symbolsOf seen).put v.name v.type)
        rw [symbolsOf_putNew_of_none hg]
        refine hdone hn ?_
        rw [get?_symbolsOf, Keyed.get?_putNew, if_pos rfl, hg]
        rfl
    | some w =>
      have hw := hs.entry _ (Keyed.mem_of_get? hg)
      have hname : w.name = v.name := hw.1
      have hput := putNew_of_some hg
      by_cases ht : w.type = v.type
      · simp only [Option.map_some, if_pos ht]
        show Encoded seen (.var v) (.sym v) (symbolsOf seen)
        have hd := hdone (hname ▸ (hP w hw.2).2)
        rw [hput] at hd
        exact hd (by rw [get?_symbolsOf, hg, Option.map_some, ht])
      · simp only [Option.map_some, if_neg ht]
        exact fun h => ht ((hT h).1.single w (hP w hw.2).1 v hv hname)

theorem spec_build {e : Expr} (hs : seen.Lists Var.name P) (hP : ∀ w, P w → w ∈ vs ∧ w.name ≠ "")
    (hv : ∀ v ∈ e.vars, v ∈ vs) (hT : T → Consistent vs ∧ ∃ τ, e.typeOf = .ok τ) :
    Spec T (e.build Encode.builder) (symbolsOf seen) (Encoded seen e) := by
  induction e generalizing seen P with
  | lit v => exact spec_literal ⟨rfl, by simp [Expr.vars], rfl, rfl, id, fun _ _ _ => rfl⟩
  | var v =>
    refine spec_symbol hs hP (hv v (by simp [Expr.vars])) fun h => ⟨(hT h).1, ?_⟩
    obtain ⟨τ, hτ⟩ := (hT h).2
    exact (Expr.typeOf_var hτ).2
  | un op e ih =>
    have hT' : T → Consistent vs ∧ e.typeOf = .ok op.type := by
      intro h
      obtain ⟨τ, hτ⟩ := (hT h).2
      exact ⟨(hT h).1, (Expr.typeOf_un hτ).2⟩
    have he := ih hs hP hv fun h => ⟨(hT' h).1, _, (hT' h).2⟩
    have hty : ∀ {t s}, Encoded seen e t s → T → t.type = op.type := by
      intro t s h hT''
      exact Except.ok.inj (h.typed.symm.trans (hT' hT'').2)
    cases op with
    | not =>
      refine spec_bind.2 (he.mono fun t s h => ?_)
      refine spec_negation h.sort (hty h) fun hb => ?_
      have hsort : t.HasSort .bool := hb ▸ h.sort
      have htyped : e.typeOf = .ok UnOp.not.type := by rw [h.typed, hb]; rfl
      refine ⟨h.symbols, h.names, ?_, ?_, fun hw => ?_, fun z a ha => ?_⟩
      · rw [hsort.complement.type_eq, Expr.typeOf_un_of htyped]
        rfl
      · rw [hsort.complement.type_eq]
        exact hsort.complement
      · rw [Term.isWritable_complement]
        exact h.writable hw
      · rw [Term.eval_complement hsort ha, h.eval z a ha]
        rfl
    | neg =>
      refine spec_bind.2 (spec_literal (spec_bind.2 (he.mono fun t s h => ?_)))
      have hzero : (Term.int 0).HasSort .int := rfl
      refine spec_binary hzero h.sort (fun hT'' => ⟨rfl, hty h hT''⟩) fun _ (hi : t.type = .int) =>
        ?_
      have hsort : t.HasSort .int := hi ▸ h.sort
      have htyped : e.typeOf = .ok UnOp.neg.type := by rw [h.typed, hi]; rfl
      refine ⟨h.symbols, h.names, Expr.typeOf_un_of htyped, ⟨rfl, hzero, hsort⟩,
        fun hw => Bool.and_eq_true_iff.2 ⟨Text.isShort_zero, h.writable hw⟩, fun z a ha => ?_⟩
      rw [Term.eval, h.eval z a ha]
      show Value.int (0 - _) = Value.int (- _)
      rw [Int.zero_sub]
  | bin op l r ihl ihr =>
    have hT' : T → Consistent vs ∧ ∃ u, l.typeOf = .ok u ∧ r.typeOf = .ok u ∧ op.operand.getD u = u := by
      intro h
      obtain ⟨τ, hτ⟩ := (hT h).2
      exact ⟨(hT h).1, (Expr.typeOf_bin hτ).2⟩
    simp only [Expr.vars, List.mem_append] at hv
    refine spec_bind.2 ((ihl hs hP (fun v h => hv v (.inl h)) fun h => ?_).mono fun t s hl => ?_)
    · obtain ⟨hc, u, hu, -⟩ := hT' h
      exact ⟨hc, u, hu⟩
    -- the variables of the left operand count as seen when the right one is encoded
    have hs' := lists_collectVars (e := l) hs
    have hP' : ∀ w, P w ∨ w ∈ l.vars → w ∈ vs ∧ w.name ≠ "" := by
      rintro w (hw | hw)
      · exact hP w hw
      · exact ⟨hv w (.inl hw), (hl.names w hw).1⟩
    rw [hl.symbols]
    refine spec_bind.2 ((ihr hs' hP' (fun v h => hv v (.inr h)) fun h => ?_).mono fun t' s' hr => ?_)
    · obtain ⟨hc, u, -, hu, -⟩ := hT' h
      exact ⟨hc, u, hu⟩
    refine (spec_binOp hl.sort hr.sort fun h => ?_).mono ?_
    · obtain ⟨-, u, hlu, hru, hop⟩ := hT' h
      have h₁ : t.type = u := Except.ok.inj (hl.typed.symm.trans hlu)
      have h₂ : t'.type = u := Except.ok.inj (hr.typed.symm.trans hru)
      exact ⟨h₁.trans h₂.symm, h₁ ▸ hop⟩
    · rintro t'' s'' ⟨rfl, hσ, hop, hsort, hwrite, heval⟩
      refine ⟨hr.symbols, fun v h => ?_, ?_, hsort.type_eq ▸ hsort, fun hw => ?_, fun z a ha => ?_⟩
      · rcases List.mem_append.1 h with h | h
        · obtain ⟨hn, hget⟩ := hl.names v h
          rw [get?_symbolsOf, Option.map_eq_some_iff] at hget
          obtain ⟨w, hw, hty⟩ := hget
          refine ⟨hn, ?_⟩
          rw [get?_symbolsOf, Expr.collectVars, get?_collectVars hw, Option.map_some, hty]
        · exact hr.names v h
      · rw [hsort.type_eq]
        exact Expr.typeOf_bin_of hl.typed (hσ ▸ hr.typed) hop
      · obtain ⟨hwl, hwr⟩ := Bool.and_eq_true_iff.1 hw
        exact hwrite (hl.writable hwl) (hr.writable hwr)
      · rw [heval z a ha, hl.eval z a ha, hr.eval z a ha]
        rfl

end

end ContractVerifier
