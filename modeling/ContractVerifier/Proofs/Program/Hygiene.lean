import ContractVerifier.Proofs.Expr.RoundTrip
import ContractVerifier.Proofs.Program.Contracts
import ContractVerifier.Proofs.Wp.Block

/-!
# Calls are hygienic

A call asks for the precondition of the callee and gives its postcondition, with the arguments for
the parameters and a fresh variable for the result.  Both then are typed formulas over the arguments
and the fresh variable only, so that no variable of the callee is taken for one of the caller.

The fresh variable is put in for the name of the result in the postcondition, but not in the
precondition.  There the name stays, unless a parameter has it; `Contract.Closed` leaves this out.
-/

namespace ContractVerifier

open ContractVerifier.Flow Source Wp

/-! ## instances of a contract -/

namespace Contract

/-- The arguments by the names of the parameters. -/
def actuals (c : Contract) (args : List Expr) : Keyed String Expr :=
  .ofList ((c.params.map (·.name)).zip args)

/-- The precondition of a call. -/
def requires (c : Contract) (args : List Expr) : Expr := c.pre.substitute (c.actuals args)

/-- The postcondition of a call with result `r`. -/
def ensures (c : Contract) (args : List Expr) (r : Var) : Expr :=
  c.post.substitute ((c.actuals args).put resultName (.var r))

/-- The precondition uses the name of the result for a parameter of its type, or not at all. -/
def Closed (c : Contract) : Prop :=
  ∀ v ∈ c.pre.vars, v.name = resultName → (paramTypes c.params).get? resultName = some v.type

/-- The precondition of a call is a formula over the arguments, and means what it means for their
values. -/
structure HygienicPre (c : Contract) (args : List Expr) : Prop where
  type : (c.requires args).typeOf = .ok .bool
  vars : ∀ v ∈ (c.requires args).vars, ∃ a ∈ args, v ∈ a.vars
  holds_iff : ∀ z b, (c.requires args).Holds z b ↔ c.Pre z (args.map (·.eval (.standard z) b))

/-- The postcondition of a call is a formula over the arguments and the result, and means what it
means for their values. -/
structure HygienicPost (c : Contract) (args : List Expr) (r : Var) : Prop where
  type : (c.ensures args r).typeOf = .ok .bool
  vars : ∀ v ∈ (c.ensures args r).vars, v = r ∨ ∃ a ∈ args, v ∈ a.vars
  holds_iff : ∀ z b, (c.ensures args r).Holds z b ↔ c.Post z (args.map (·.eval (.standard z) b)) (b r)

section

variable {c : Contract} {args : List Expr} {x : String} {u : Ty}

/-- An argument has the type of its parameter. -/
theorem exists_actual (hty : args.map Expr.typeOf = c.params.map fun p => .ok p.type)
    (hx : (paramTypes c.params).get? x = some u) : ∃ a ∈ args, (c.actuals args).get? x = some a ∧ a.typeOf = .ok u := by
  have hzip : (c.params.map (·.name)).zip (args.map Expr.typeOf) =
      (c.params.map fun p => (p.name, p.type)).map fun e => (e.1, .ok e.2) := by
    rw [hty, List.zip_map', List.map_map]
    rfl
  have htypes : ((c.actuals args).get? x).map Expr.typeOf = some (.ok u) := by
    unfold actuals
    rw [← Keyed.get?_ofList_zip_map, hzip, Keyed.get?_ofList_map]
    unfold paramTypes at hx
    rw [hx]
    rfl
  obtain ⟨a, ha, htype⟩ := Option.map_eq_some_iff.1 htypes
  exact ⟨a, (List.of_mem_zip (Keyed.mem_of_get?_ofList ha)).2, ha, htype⟩

variable {s : Signature}

theorem get?_paramTypes (hparams : c.params = s.params) {v : Var} (hv : s.table.Has v)
    (hn : v.name ≠ resultName) :
    (paramTypes c.params).get? v.name = some v.type := by
  have hv : s.table.lookup v.name = some v.type := hv
  rwa [lookup_signature_table, if_neg hn, ← hparams] at hv

/-- Every variable is replaced, by an expression over variables in `P`. -/
theorem vars_substitute {m : Keyed String Expr} {e : Expr} {P : Var → Prop}
    (h : ∀ v ∈ e.vars, ∃ a, m.get? v.name = some a ∧ ∀ w ∈ a.vars, P w) : ∀ w ∈ (e.substitute m).vars, P w := by
  intro w hw
  rcases Expr.mem_vars_substitute hw with ⟨hw, hnone⟩ | ⟨v, hv, a, ha, hwa⟩
  · obtain ⟨a, ha, -⟩ := h w hw
    rw [ha] at hnone
    cases hnone
  · obtain ⟨a', ha', hP⟩ := h v hv
    cases ha.symm.trans ha'
    exact hP w hwa

/-- Only the name of the result can be left in the precondition of a call. -/
theorem vars_requires (hparams : c.params = s.params) (hpre : c.pre.In s.table)
    (hty : args.map Expr.typeOf = c.params.map fun p => .ok p.type) :
    ∀ v ∈ (c.requires args).vars, v = ⟨resultName, s.result⟩ ∨ ∃ a ∈ args, v ∈ a.vars := by
  intro w hw
  rcases Expr.mem_vars_substitute hw with ⟨hw, hnone⟩ | ⟨v, hv, a, ha, hwa⟩
  · left
    by_cases hn : w.name = resultName
    · have hlookup : s.table.lookup w.name = some w.type := hpre w hw
      rw [lookup_signature_table, if_pos hn] at hlookup
      cases w
      cases hn
      cases hlookup
      rfl
    · obtain ⟨a, -, ha, -⟩ := exists_actual hty (get?_paramTypes hparams (hpre w hw) hn)
      rw [ha] at hnone
      cases hnone
  · exact .inr ⟨a, (List.of_mem_zip (Keyed.mem_of_get?_ofList ha)).2, hwa⟩

theorem Closed.hygienicPre (hc : c.Closed) (hparams : c.params = s.params)
    (hpre : c.pre.In s.table ∧ c.pre.typeOf = .ok .bool)
    (hty : args.map Expr.typeOf = c.params.map fun p => .ok p.type) :
    c.HygienicPre args := by
  have htypes : ∀ v ∈ c.pre.vars, (paramTypes c.params).get? v.name = some v.type := by
    intro v hv
    by_cases hn : v.name = resultName
    · rw [hn]
      exact hc v hv hn
    · exact get?_paramTypes hparams (hpre.1 v hv) hn
  have hscoped : ∀ v ∈ c.pre.vars, v.name ∈ c.params.map (·.name) := by
    intro v hv
    obtain ⟨p, hp, he⟩ := List.mem_map.1 (Keyed.mem_of_get?_ofList (htypes v hv))
    exact List.mem_map.2 ⟨p, hp, congrArg Prod.fst he⟩
  refine ⟨Expr.typeOf_substitute hpre.2 fun v hv => ?_, vars_substitute fun v hv => ?_, fun z b => ?_⟩
  · obtain ⟨a, -, ha, htype⟩ := exists_actual hty (htypes v hv)
    rw [ha]
    exact htype
  · obtain ⟨a, hmem, ha, -⟩ := exists_actual hty (htypes v hv)
    exact ⟨a, ha, fun w hw => ⟨a, hmem, hw⟩⟩
  · exact holds_pre hscoped (by simpa using congrArg List.length hty)

theorem hygienicPost {r : Var} (hparams : c.params = s.params)
    (hpost : c.post.In s.table ∧ c.post.typeOf = .ok .bool)
    (hty : args.map Expr.typeOf = c.params.map fun p => .ok p.type) (hr : r.type = s.result) :
    c.HygienicPost args r := by
  have hreplaced : ∀ v ∈ c.post.vars, ∃ a, ((c.actuals args).put resultName (.var r)).get? v.name = some a ∧
      a.typeOf = .ok v.type ∧ (a = .var r ∨ a ∈ args) := by
    intro v hv
    rw [Keyed.get?_put]
    by_cases hn : v.name = resultName
    · have hvt : v.type = r.type := by
        have hlookup : s.table.lookup v.name = some v.type := hpost.1 v hv
        rw [lookup_signature_table, if_pos hn, ← hr] at hlookup
        exact (Option.some.inj hlookup).symm
      refine ⟨.var r, if_pos hn.symm, ?_, .inl rfl⟩
      rw [Expr.typeOf_var_of (hvt ▸ Expr.type_ne_unknown hpost.2 v hv), hvt]
    · obtain ⟨a, hmem, ha, htype⟩ := exists_actual hty (get?_paramTypes hparams (hpost.1 v hv) hn)
      exact ⟨a, by rw [if_neg (Ne.symm hn), ha], htype, .inr hmem⟩
  have hscoped : ∀ v ∈ c.post.vars, v.name = resultName ∨ v.name ∈ c.params.map (·.name) := by
    intro v hv
    rw [hparams]
    exact mem_signature_table (hpost.1 v hv)
  refine ⟨Expr.typeOf_substitute hpost.2 fun v hv => ?_, vars_substitute fun v hv => ?_, fun z b => ?_⟩
  · obtain ⟨a, ha, htype, -⟩ := hreplaced v hv
    rw [ha]
    exact htype
  · obtain ⟨a, ha, -, hmem⟩ := hreplaced v hv
    refine ⟨a, ha, fun w hw => ?_⟩
    rcases hmem with rfl | hmem
    · exact .inl (List.mem_singleton.1 hw)
    · exact .inr ⟨a, hmem, hw⟩
  · exact holds_post hscoped (by simpa using congrArg List.length hty)

end

end Contract

/-! ## calls -/

/-- What a call gives and notes. -/
theorem callWp_exec {gen : Generator} {line : Option Int} {x : Option Var} {callee : String}
    {args : List Expr} {c : Contract} (h : gen.contractOf line callee args = .ok c) (post : Expr)
    (st : State) :
    let r := (Fresh.var st.counters (x.getD ⟨resultName, c.result⟩)).1
    (gen.callWp line x callee args post).exec st =
      (.ok (.conjoin [c.requires args, (c.ensures args r).implies
        (x.elim post fun w => post.subst w.name (.var r))]),
      { st with
        counters := (Fresh.var st.counters (x.getD ⟨resultName, c.result⟩)).2
        steps := .called (.call x callee args) (c.requires args) (c.ensures args r) :: st.steps }) := by
  unfold Generator.callWp
  rw [h]
  cases x <;> rfl

/-- In a graph lowered from a module every call to a function with a contract is accepted, and uses
a variable for the result that no one has.  The postcondition is hygienic; so is the precondition if
it is closed, and else only the name of the result can be left in it. -/
theorem call_hygienic {fs : List Annotated} {cs : Contracts} {events : List Event}
    (hcs : (contractsOf fs (signatures fs)).exec = (.ok cs, events)) {f : Annotated} (hf : f ∈ fs)
    {t : Table} {g : Graph} (hl : f.fn.lower (signatures fs) = .ok (t, g)) {k : Block}
    (hk : k ∈ g.blocks) {x : Option Var} {callee : String} {args : List Expr}
    (hop : .call x callee args ∈ k.ops) {c : Contract} (hc : cs.get? callee = some c)
    {gen : Generator} (hgen : gen.contracts = cs) (line : Option Int) (post : Expr) (st : State) :
    ∃ r st', (gen.callWp line x callee args post).exec st =
        (.ok (.conjoin [c.requires args, (c.ensures args r).implies (x.elim post fun w => post.subst w.name (.var r))]), st') ∧
      st'.steps = .called (.call x callee args) (c.requires args) (c.ensures args r) :: st.steps ∧
      ¬ Fresh.Plain r.name ∧ ¬ Fresh.Given st.counters r.name ∧
      c.HygienicPost args r ∧ (c.Closed → c.HygienicPre args) ∧
      ∀ v ∈ (c.requires args).vars, v = ⟨resultName, c.result⟩ ∨ ∃ a ∈ args, v ∈ a.vars := by
  obtain ⟨d, -, -, hs⟩ := exists_get?_signatures hf
  obtain ⟨-, -, hfits, -⟩ := lower_ok hs hl
  obtain ⟨htarget, -, s, hsig, hty⟩ := (hfits k hk).ops _ hop
  obtain ⟨hparams, hresult, hpre, hpost⟩ := contract_signature hcs hc hsig
  rw [← hparams] at hty
  -- the contract that the generator finds is `c`
  obtain ⟨c', hc'⟩ : ∃ c', gen.contractOf line callee args = .ok c' :=
    exists_contractOf (t := x) ⟨c, hgen ▸ hc, hty⟩
  obtain ⟨hget, -⟩ := contractOf_ok hc'
  rw [hgen, hc] at hget
  cases hget
  refine ⟨_, _, callWp_exec hc' post st, rfl, Fresh.not_plain_of_given (Fresh.given_next _ _), Fresh.not_given_next _ _,
    Contract.hygienicPost hparams hpost hty ?_, fun h => h.hygienicPre hparams hpre hty,
    hresult ▸ Contract.vars_requires hparams hpre.1 hty⟩
  cases x with
  | none => exact hresult
  | some w =>
    obtain ⟨-, -, s', hs', hw⟩ := htarget w rfl
    cases hsig.symm.trans hs'
    exact hw

/-! ## conditions that are a variable -/

theorem condition_var {x : String} {t : Table} (hx : (Expr.var ⟨x, .unknown⟩).Spellable)
    (ht : t.lookup x = some .bool) :
    condition x t = .ok (.var ⟨x, .bool⟩) := by
  refine condition_eq_ok.2 ⟨_, parse_text hx, ?_, rfl⟩
  simp [Expr.resolve, Table.var, Table.typeOf, ht, bind, Except.bind]

theorem offers_var {f : Annotated} {x y : String} (herr : f.error = none) (hpre : f.pre = some x)
    (hpost : f.post = some y) (hx : (Expr.var ⟨x, .unknown⟩).Spellable)
    (hy : (Expr.var ⟨y, .unknown⟩).Spellable) (htx : f.fn.signature.table.lookup x = some .bool)
    (hty : f.fn.signature.table.lookup y = some .bool) :
    Offers f.fn.signature f ⟨f.name, f.fn.signature.params, f.fn.signature.result, .var ⟨x, .bool⟩, .var ⟨y, .bool⟩⟩ :=
  ⟨herr, ⟨x, hpre, condition_var hx htx⟩, ⟨y, hpost, condition_var hy hty⟩, rfl, rfl, rfl⟩

/-- A module of a function that has conditions, and one that calls it and has none. -/
theorem exists_contracts_pair {f g : Annotated} {c : Contract} (hf : Offers f.fn.signature f c)
    (hne : g.name ≠ f.name) (hg : g.pre = none) :
    ∃ cs events, (contractsOf [f, g] (signatures [f, g])).exec = (.ok cs, events) ∧
      cs.get? f.name = some c := by
  have hlast : IsLast [f, g] f := ⟨[], [g], rfl, by simpa using hne⟩
  have hsig : signatureOf (signatures [f, g]) f = f.fn.signature :=
    signatureOf_of_get? hlast.get?_signatures
  have hok : ∀ k ∈ [f, g], ∀ x, conditions k (signatureOf (signatures [f, g]) k).table ≠ .error (.fault x) := by
    intro k hk x
    rcases List.mem_pair.1 hk with rfl | rfl
    · rw [hsig, (offers_iff.1 hf).2.1]
      nofun
    · unfold conditions
      rw [hg]
      nofun
  obtain ⟨cs, events, hcs⟩ := exists_contracts hok
  exact ⟨cs, events, hcs, hlast.get?_contracts hcs (hsig ▸ hf)⟩

/-! ## a call with its arguments in the other order -/

namespace Swap

def bool : Exp := .name ⟨1, 1⟩ "bool"

/-- `return p`, with precondition `p`. -/
def first : Annotated where
  fn :=
    { span := ⟨2, 3⟩, name := "first", params := [.mk ⟨2, 2⟩ "p" (some bool), .mk ⟨2, 2⟩ "q" (some bool)], more := []
      decorators := [], result := some bool, body := [.ret ⟨3, 3⟩ (some (.name ⟨3, 3⟩ "p"))] }
  pre := some "p"
  post := some "ret"

/-- `p = first(q, p)`, and then `return p`. -/
def swap : Annotated where
  fn :=
    { span := ⟨5, 7⟩, name := "swap", params := [.mk ⟨5, 5⟩ "p" (some bool), .mk ⟨5, 5⟩ "q" (some bool)], more := []
      decorators := [], result := some bool
      body :=
        [.assign ⟨6, 6⟩ [.name ⟨6, 6⟩ "p"] (.call ⟨6, 6⟩ (.name ⟨6, 6⟩ "first") [.name ⟨6, 6⟩ "q", .name ⟨6, 6⟩ "p"] []),
         .ret ⟨7, 7⟩ (some (.name ⟨7, 7⟩ "p"))] }

def p : Var := ⟨"p", .bool⟩

def q : Var := ⟨"q", .bool⟩

def contract : Contract := ⟨"first", [p, q], .bool, .var p, .var ⟨resultName, .bool⟩⟩

def table : Table := { args := ⟨[("p", .bool), ("q", .bool)]⟩, result := .bool }

def block : Block :=
  { ops := [.call (some p) "first" [.var q, .var p]], term := some (.ret (some (.var p))), line := some 5 }

def graph : Graph := ⟨[block, { term := some (.ret none), line := some 7 }], 0⟩

theorem offers : Offers first.fn.signature first contract :=
  offers_var rfl rfl rfl ⟨rfl, by decide, by decide⟩ ⟨rfl, by decide, by decide⟩ rfl rfl

theorem lower_eq : swap.fn.lower (signatures [first, swap]) = .ok (table, graph) := by decide +kernel

end Swap

/-- The precondition `p` of the callee asks for the argument `q`, which is not `p` of the caller. -/
theorem swap_hygienic : ∃ cs r st',
    (contractsOf [Swap.first, Swap.swap] (signatures [Swap.first, Swap.swap])).exec.1 = .ok cs ∧
      (Generator.callWp ⟨Swap.graph, .truth, cs, .empty⟩ (some 5) (some Swap.p) "first" [.var Swap.q, .var Swap.p]
        (.var Swap.p)).exec {} = (.ok (.conjoin [.var Swap.q, (Expr.var r).implies (.var r)]), st') ∧
      ¬ Fresh.Plain r.name ∧ Swap.contract.HygienicPre [.var Swap.q, .var Swap.p] ∧
      Swap.contract.HygienicPost [.var Swap.q, .var Swap.p] r := by
  obtain ⟨cs, events, hcs, hc⟩ := exists_contracts_pair (g := Swap.swap) Swap.offers (by decide) rfl
  have hclosed : Swap.contract.Closed := by
    intro v hv hn
    rw [List.mem_singleton.1 hv] at hn
    exact absurd hn (by decide)
  have hgen : (Generator.mk Swap.graph .truth cs .empty).contracts = cs := rfl
  obtain ⟨r, st', hrun, -, hr, -, hpost, hpre, -⟩ :=
    call_hygienic hcs (.tail _ (.head _)) Swap.lower_eq
      (k := Swap.block) (.head _) (.head _) hc hgen (some 5) (.var Swap.p) {}
  exact ⟨cs, r, st', congrArg Prod.fst hcs, hrun, hr, hpre hclosed, hpost⟩

/-! ## a precondition about the result -/

namespace Early

/-- `return True`, with the result as precondition. -/
def early : Annotated where
  fn :=
    { span := ⟨2, 3⟩, name := "early", params := [], more := [], decorators := [], result := some Swap.bool
      body := [.ret ⟨3, 3⟩ (some (.constant ⟨3, 3⟩ (.bool true)))] }
  pre := some "ret"
  post := some "ret"

/-- `early()`, and then `return True`. -/
def caller : Annotated where
  fn :=
    { span := ⟨5, 7⟩, name := "caller", params := [], more := [], decorators := [], result := some Swap.bool
      body := [.exp ⟨6, 6⟩ (.call ⟨6, 6⟩ (.name ⟨6, 6⟩ "early") [] []), .ret ⟨7, 7⟩ (some (.constant ⟨7, 7⟩ (.bool true)))] }

def result : Var := ⟨resultName, .bool⟩

def contract : Contract := ⟨"early", [], .bool, .var result, .var result⟩

def table : Table := { result := .bool }

def block : Block := { ops := [.call none "early" []], term := some (.ret (some .truth)), line := some 5 }

def graph : Graph := ⟨[block, { term := some (.ret none), line := some 7 }], 0⟩

theorem offers : Offers early.fn.signature early contract :=
  offers_var rfl rfl rfl ⟨rfl, by decide, by decide⟩ ⟨rfl, by decide, by decide⟩ rfl rfl

theorem lower_eq : caller.fn.lower (signatures [early, caller]) = .ok (table, graph) := by decide +kernel

end Early

/-- A call without arguments asks for the variable `ret`, that is for the result of the caller. -/
theorem early_captured : ∃ cs events,
    (contractsOf [Early.early, Early.caller] (signatures [Early.early, Early.caller])).exec = (.ok cs, events) ∧
      cs.get? "early" = some Early.contract ∧
      Early.caller.fn.lower (signatures [Early.early, Early.caller]) = .ok (Early.table, Early.graph) ∧
      Early.block ∈ Early.graph.blocks ∧ .call none "early" [] ∈ Early.block.ops ∧
      Early.contract.requires [] = .var Early.result ∧ Early.table.Has Early.result ∧ ¬ Early.contract.HygienicPre [] := by
  obtain ⟨cs, events, hcs, hc⟩ :=
    exists_contracts_pair (g := Early.caller) Early.offers (by decide) rfl
  refine ⟨cs, events, hcs, hc, Early.lower_eq, .head _, .head _, rfl, rfl, fun h => ?_⟩
  obtain ⟨a, ha, -⟩ := h.vars Early.result (.head _)
  cases ha

end ContractVerifier
