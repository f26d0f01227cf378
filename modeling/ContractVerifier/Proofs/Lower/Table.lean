import ContractVerifier.Proofs.Lower.Build
import ContractVerifier.Proofs.Store

/-!
# Tables while lowering

A table only grows: a name that has a type keeps it.

* `Table.Le` : every name of the first table has its type in the second;
* `Translates` : an expression of the code, the expression it becomes under a table, and its type;
* `Called`, `Stored` : the operation that a call or an assignment adds to the current block.
-/

namespace ContractVerifier

open ContractVerifier.Flow

namespace Table

/-- The types of all names. -/
def types (t : Table) (x : String) : Ty := (t.lookup x).getD .unknown

def Le (t t' : Table) : Prop := ∀ x u, t.lookup x = some u → t'.lookup x = some u

/-- A variable with its declared type. -/
def Has (t : Table) (v : Var) : Prop := t.lookup v.name = some v.type

variable {t t' t'' : Table}

theorem Le.refl (t : Table) : t.Le t := fun _ _ h => h

theorem Le.trans (h : t.Le t') (h' : t'.Le t'') : t.Le t'' := fun x u hx => h' x u (h x u hx)

theorem Has.mono {v : Var} (h : t.Has v) (hl : t.Le t') : t'.Has v := hl _ _ h

theorem Has.types {v : Var} (h : t.Has v) : v.type = t.types v.name := by
  unfold Table.types
  rw [show t.lookup v.name = some v.type from h]
  rfl

theorem lookup_result (t : Table) : t.lookup resultName = some t.result := by
  unfold lookup
  rw [if_pos rfl]

theorem Le.result (h : t.Le t') : t'.result = t.result := by
  have := h resultName t.result t.lookup_result
  rw [lookup_result] at this
  exact Option.some.inj this

theorem types_result (t : Table) : t.types resultName = t.result := by
  unfold types
  rw [lookup_result]
  rfl

theorem var_ok {x : String} {v : Var} (h : t.var x = .ok v) : t.Has v ∧ v.name = x ∧ v.type ≠ .unknown := by
  unfold var typeOf at h
  cases hl : t.lookup x with
  | none => simp [hl, bind, Except.bind] at h
  | some u =>
    simp only [hl, bind, Except.bind] at h
    split at h
    · cases h
    · rename_i hu
      cases h
      exact ⟨hl, rfl, hu⟩

theorem Has.var {v : Var} (h : t.Has v) (hu : v.type ≠ .unknown) : t.var v.name = .ok v := by
  unfold Table.var typeOf
  rw [show t.lookup v.name = some v.type from h]
  exact if_neg hu

/-- A store for a table of one type. -/
theorem typed_of_all {u : Ty} {s : Store} (hr : t.result = u)
    (ht : ∀ e ∈ t.args.entries ++ (t.locals.entries ++ t.temps.entries), e.2 = u)
    (hs : ∀ x, (s x).type = u) :
    s.Typed t.types := by
  intro x
  unfold types
  cases hl : t.lookup x with
  | none => exact .inl rfl
  | some w =>
    refine .inr ((hs x).trans ?_)
    unfold lookup at hl
    split at hl
    · exact hr.symm.trans (Option.some.inj hl)
    · refine (ht (x, w) ?_).symm
      simp only [Option.or_eq_some_iff, List.mem_append] at hl ⊢
      rcases hl with h | ⟨-, h | ⟨-, h⟩⟩
      · exact .inl (Keyed.mem_of_get? h)
      · exact .inr (.inl (Keyed.mem_of_get? h))
      · exact .inr (.inr (Keyed.mem_of_get? h))

/-- A new name gets a type, and nothing else changes. -/
theorem lookup_declare {x : String} (u : Ty) (hr : x ≠ resultName) (hx : t.lookup x = none)
    (y : String) :
    (t.declareLocal x u).lookup y = (if x = y then some u else t.lookup y) ∧
      (t.declareTemp x u).lookup y = (if x = y then some u else t.lookup y) := by
  unfold lookup at hx ⊢
  rw [if_neg hr] at hx
  simp only [declareLocal, declareTemp, Keyed.get?_put]
  by_cases hxy : x = y
  · subst hxy
    simp only [Option.or_eq_none_iff] at hx
    simp [hr, hx.1, hx.2.1]
  · simp [hxy]

theorem le_declare {x : String} (u : Ty) (hr : x ≠ resultName) (hx : t.lookup x = none) :
    t.Le (t.declareLocal x u) ∧ t.Le (t.declareTemp x u) := by
  have hne : ∀ y w, t.lookup y = some w → x ≠ y := fun y w hy hxy => by
    rw [hxy, hy] at hx
    cases hx
  constructor
  · intro y w hy
    rw [(lookup_declare u hr hx y).1, if_neg (hne y w hy), hy]
  · intro y w hy
    rw [(lookup_declare u hr hx y).2, if_neg (hne y w hy), hy]

end Table

namespace Expr

/-- All variables have their declared types. -/
def In (t : Table) (e : Expr) : Prop := ∀ v ∈ e.vars, t.Has v

theorem In.mono {t t' : Table} {e : Expr} (h : e.In t) (hl : t.Le t') : e.In t' :=
  fun v hv => (h v hv).mono hl

theorem in_of_resolve {t : Table} {e a : Expr} (h : e.resolve t = .ok a) : a.In t := by
  induction e generalizing a with
  | lit v =>
    cases h
    simp [In, vars]
  | var v =>
    simp only [resolve, bind, Except.bind] at h
    cases hv : t.var v.name with
    | error c => simp [hv] at h
    | ok w =>
      simp only [hv, Except.ok.injEq] at h
      subst h
      intro u hu
      rw [List.mem_singleton.1 hu]
      exact (Table.var_ok hv).1
  | bin op l r ihl ihr =>
    simp only [resolve, bind, Except.bind] at h
    cases hl : l.resolve t with
    | error c => simp [hl] at h
    | ok l' =>
      cases hr : r.resolve t with
      | error c => simp [hl, hr] at h
      | ok r' =>
        simp only [hl, hr, Except.ok.injEq] at h
        subst h
        intro v hv
        rcases List.mem_append.1 hv with hv | hv
        · exact ihl hl v hv
        · exact ihr hr v hv
  | un op e ih =>
    simp only [resolve, bind, Except.bind] at h
    cases he : e.resolve t with
    | error c => simp [he] at h
    | ok e' =>
      simp only [he, Except.ok.injEq] at h
      subst h
      exact fun v hv => ih he v hv

theorem resolve_mono {t t' : Table} (hl : t.Le t') {e a : Expr} (h : e.resolve t = .ok a) : e.resolve t' = .ok a := by
  induction e generalizing a with
  | lit v => exact h
  | var v =>
    obtain ⟨w, hw, h⟩ := exists_of_bind_ok h
    obtain ⟨hhas, hn, hu⟩ := Table.var_ok hw
    have hvar : t'.var v.name = .ok w := hn ▸ (hhas.mono hl).var hu
    unfold resolve
    rw [hvar]
    exact h
  | bin op l r ihl ihr =>
    obtain ⟨l', hl', h⟩ := exists_of_bind_ok h
    obtain ⟨r', hr', h⟩ := exists_of_bind_ok h
    unfold resolve
    rw [ihl hl', ihr hr']
    exact h
  | un op e ih =>
    obtain ⟨e', he', h⟩ := exists_of_bind_ok h
    unfold resolve
    rw [ih he']
    exact h

theorem asCondition_ok {e a : Expr} (h : e.asCondition = .ok a) : a = e ∧ e.typeOf = .ok .bool := by
  unfold asCondition at h
  cases ht : e.typeOf with
  | error c => simp [ht, bind, Except.bind] at h
  | ok t =>
    simp only [ht, bind, Except.bind] at h
    split at h
    · rename_i hb
      cases h
      exact ⟨rfl, by rw [hb]⟩
    · cases h

end Expr

namespace Source

/-- `e` becomes `a`, of type `u`. -/
def Translates (t : Table) (e : Exp) (a : Expr) (u : Ty) : Prop :=
  ∃ a₀, e.toExpr = .ok a₀ ∧ a₀.resolve t = .ok a ∧ a.typeOf = .ok u

theorem Translates.declared {t : Table} {e : Exp} {a : Expr} {u : Ty} (h : Translates t e a u) : a.In t := by
  obtain ⟨a₀, -, hr, -⟩ := h
  exact Expr.in_of_resolve hr

theorem Translates.type {t : Table} {e : Exp} {a : Expr} {u : Ty} (h : Translates t e a u) : a.typeOf = .ok u := by
  obtain ⟨a₀, -, -, hu⟩ := h
  exact hu

theorem Translates.mono {t t' : Table} {e : Exp} {a : Expr} {u : Ty} (h : Translates t e a u)
    (hl : t.Le t') :
    Translates t' e a u := by
  obtain ⟨a₀, h₀, hr, hu⟩ := h
  exact ⟨a₀, h₀, Expr.resolve_mono hl hr, hu⟩

/-- An integer is compared with zero. -/
def asGuard (a : Expr) (u : Ty) : Expr := if u = .int then .bin .ne a (.num 0) else a

/-- The call of `f` that `op` stands for, in a builder with table `t` and then `t'`. -/
def Called (b : Builder) (x : Option String) (f : Exp) (args : List Exp) (t' : Table) (op : Op) :
    Prop :=
  ∃ sp id s as target, f = .name sp id ∧ b.signatures.get? id = some s ∧ args.length = s.params.length ∧
    List.Forall₂ (fun e a => ∃ u, Translates b.table e a u) args as ∧
    as.map Expr.typeOf = s.params.map (fun p => .ok p.type) ∧ op = .call target id as ∧
    target.map (·.name) = x ∧ ∀ v, target = some v → t'.Has v ∧ v.name ≠ resultName ∧ v.type = s.result

/-- The operation for `x = value`. -/
def Stored (b : Builder) (x : String) (value : Exp) (t' : Table) (op : Op) : Prop :=
  (∃ sp f args ks, value = .call sp f args ks ∧ Called b (some x) f args t' op) ∨
  (value.isCall = false ∧ ∃ v a, Translates b.table value a v.type ∧ op = .assign v a ∧ v.name = x ∧ t'.Has v ∧
    x ≠ resultName)

/-- The current block has one operation more. -/
def Builder.emit (b : Builder) (t : Table) (op : Op) : Builder :=
  { b with table := t, blocks := b.blocks.modify b.current fun k => { k with ops := k.ops ++ [op] } }

namespace Build

variable {b : Builder}

theorem spec_expression {e : Exp} {Q : Expr × Ty → Builder → Prop}
    (h : ∀ a u, Translates b.table e a u → Q (a, u) b) :
    Spec (expression e) b Q := by
  unfold expression
  simp only [spec_bind, spec_lift, spec_get, spec_typed, spec_pure]
  exact fun a₀ h₀ a ha u hu => h a u ⟨a₀, h₀, ha, hu⟩

theorem spec_guard {e : Exp} {Q : Expr → Builder → Prop}
    (h : ∀ a u, Translates b.table e a u → Q (asGuard a u) b) :
    Spec (guard e) b Q := by
  unfold guard
  rw [spec_bind]
  exact spec_expression fun a u hu => spec_pure.2 (h a u hu)

/-- The variable is declared if need be, and has a type. -/
theorem spec_declareVar {x : String} {u : Ty} {line : Int} {Q : Var → Builder → Prop}
    (h : ∀ v t, x ≠ resultName → v.name = x → b.table.Le t → t.Has v → v.type ≠ .unknown →
      Q v { b with table := t }) : Spec (declareVar x u line) b Q := by
  unfold declareVar
  by_cases hr : x = resultName
  · simp [hr]
  · simp only [hr, if_false, spec_bind, spec_get]
    by_cases hc : b.table.contains x = true
    · simp only [hc, Bool.not_true, Bool.false_eq_true, if_false, spec_bind, spec_get, spec_typed]
      intro v hv
      obtain ⟨hhas, hn, hu⟩ := Table.var_ok hv
      exact h v b.table hr hn (Table.Le.refl _) hhas hu
    · have hnone : b.table.lookup x = none := by
        simpa [Table.contains] using hc
      have hle := Table.le_declare u hr hnone
      simp only [hc, Bool.not_false, if_true, spec_bind, spec_get, spec_typed, spec_modify]
      intro v hv
      obtain ⟨hhas, hn, hu⟩ := Table.var_ok hv
      refine h v _ hr hn ?_ hhas hu
      split
      · exact hle.2
      · exact hle.1

theorem spec_arguments {line : Int} {ps : List Var} {args : List Exp}
    {Q : List Expr → Builder → Prop} (hl : args.length = ps.length)
    (h : ∀ as, List.Forall₂ (fun e a => ∃ u, Translates b.table e a u) args as →
      as.map Expr.typeOf = ps.map (fun p => .ok p.type) → Q as b) :
    Spec (arguments line (ps.zip args)) b Q := by
  induction ps generalizing args Q with
  | nil =>
    cases args with
    | nil => exact spec_pure.2 (h [] .nil rfl)
    | cons e args => cases hl
  | cons p ps ih =>
    cases args with
    | nil => cases hl
    | cons e args =>
      simp only [List.zip_cons_cons, arguments, spec_bind]
      refine spec_expression fun a u hu => ?_
      by_cases hp : p.type = .unknown
      · simp [hp]
      · by_cases ht : u = p.type
        · simp only [hp, ht, ne_eq, not_true, if_false, spec_bind, spec_pure]
          refine ih (Nat.succ.inj hl) fun as has hty => h (a :: as) (.cons ⟨u, hu⟩ has) ?_
          rw [List.map_cons, List.map_cons, hty, hu.type, ht]
        · simp [hp, ht]

theorem spec_invoke {x : Option String} {f : Exp} {args : List Exp} {line : Int}
    {Q : Unit → Builder → Prop}
    (h : ∀ t op, b.table.Le t → Called b x f args t op → Q () (b.emit t op)) :
    Spec (invoke x f args line) b Q := by
  unfold invoke
  cases f with
  | name sp id =>
    simp only [pure_bind, spec_bind, spec_get]
    cases hs : b.signatures.get? id with
    | none => simp
    | some s =>
      by_cases hl : args.length = s.params.length
      · simp only [hl, ne_eq, not_true, if_false]
        rw [spec_bind]
        refine spec_arguments hl fun as has htypes => ?_
        cases x with
        | none =>
          rw [spec_addOp]
          exact h b.table (.call none id as) (Table.Le.refl _)
            ⟨sp, id, s, as, none, rfl, hs, hl, has, htypes, rfl, rfl, fun v hv => by cases hv⟩
        | some x =>
          by_cases hu : s.result = .unknown
          · simp [hu]
          · simp only [hu, if_false, spec_bind]
            refine spec_declareVar fun v t hr hn hle hhas _ => ?_
            by_cases hty : v.type = s.result
            · simp only [hty, not_true, if_false, spec_addOp]
              refine h t (.call (some v) id as) hle
                ⟨sp, id, s, as, some v, rfl, hs, hl, has, htypes, rfl, by simp [hn], ?_⟩
              intro w hw
              cases hw
              exact ⟨hhas, hn ▸ hr, hty⟩
            · simp [hty]
      · simp [hl]
  | _ => simp

theorem isCall_eq_false {e : Exp} (h : ∀ sp f args ks, e = .call sp f args ks → False) : e.isCall = false := by
  cases e with
  | call sp f args ks => exact (h sp f args ks rfl).elim
  | _ => rfl

theorem spec_store {x : String} {value : Exp} {line : Int} {Q : Unit → Builder → Prop}
    (h : ∀ t op, b.table.Le t → Stored b x value t op → Q () (b.emit t op)) : Spec (store x value line) b Q := by
  unfold store
  split
  · rename_i sp f args ks
    exact spec_invoke fun t op hle hc => h t op hle (.inl ⟨sp, f, args, ks, rfl, hc⟩)
  · rename_i hcall
    simp only [spec_bind]
    refine spec_expression fun a u hu => ?_
    refine spec_declareVar fun v t hr hn hle hhas _ => ?_
    by_cases hty : v.type = u
    · simp only [hty, ne_eq, not_true, if_false, spec_addOp]
      exact h t (.assign v a) hle (.inr ⟨isCall_eq_false hcall, v, a, hty ▸ hu, rfl, hn, hhas, hr⟩)
    · simp [hty]

end Build

end Source

end ContractVerifier
