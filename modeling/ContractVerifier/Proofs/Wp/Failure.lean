import ContractVerifier.Proofs.Wp.Exact
import ContractVerifier.Proofs.Wp.Termination

/-!
# What a generator lacks

On a graph whose blocks are terminated and whose calls fit the contracts there are, a verification
condition can be missing for two reasons only: a loop has no invariant, or a callee has no contract.

* `Gen.Raises` : the failures that a run may end in;
* `Generator.Admits`, `raises_generate` : the generator fails for what is wrong with a reachable
  block;
* `Setting.Fitting` : the graphs above;
* `Setting.Lacks` : the two reasons;
* `buildVc_lacks` : there is no other one.
-/

namespace ContractVerifier

open ContractVerifier.Flow ContractVerifier.Flow.Graph

/-- The arguments of a call have the types of the parameters, where the callee has a contract. -/
def Flow.Op.FitsContract (cs : Contracts) : Op → Prop
  | .assign _ _ => True
  | .call _ f args => ∀ c, cs.get? f = some c → args.map Expr.typeOf = c.params.map fun p => .ok p.type

namespace Wp

structure Setting.Fitting (S : Setting) : Prop where
  valid : S.graph.Valid
  terminated : ∀ i b, S.graph.Reaches i → S.graph.block? i = some b → ∃ t, b.term = some t
  calls : ∀ i b, S.graph.Reaches i → S.graph.block? i = some b → ∀ op ∈ b.ops, op.FitsContract S.contracts

/-- A loop without invariant or a call without contract, with the failure that tells of it. -/
inductive Setting.Lacks (S : Setting) : Failure → Prop where
  | invariant {h : Node} {b : Block} : S.graph.IsHeader h → S.graph.block? h = some b → b.invariant = none →
      Lacks S (.error (.unsupported .loopWithoutInvariant b.line))
  | contract {i : Node} {b : Block} {t : Option Var} {f : String} {args : List Expr} : S.graph.Reaches i →
      S.graph.block? i = some b → .call t f args ∈ b.ops → S.contracts.get? f = none →
      Lacks S (.error (.unsupported (.noContract f) b.line))

/-- Every failure of the run satisfies `E`. -/
def Gen.Raises {α : Type} (E : Failure → Prop) (x : Gen α) (st : State) : Prop :=
  ∀ e, (x.exec st).1 = .error e → E e

namespace Gen

variable {α β : Type} {E : Failure → Prop} {st : State}

theorem raises_pure (a : α) (st : State) : Raises E (pure a) st := nofun

theorem raises_throw {e : Failure} (he : E e) (st : State) : Raises E (throw e : Gen α) st := fun e' h => by
  cases h
  exact he

theorem raises_bind {x : Gen β} {f : β → Gen α} (hx : Raises E x st)
    (hf : ∀ a st', x.exec st = (.ok a, st') → Raises E (f a) st') : Raises E (x >>= f) st := by
  intro e he
  rw [exec_bind] at he
  cases hr : x.exec st with
  | mk r st' =>
    rw [hr] at he
    cases r with
    | error e' =>
      obtain rfl : e' = e := Except.error.inj he
      exact hx e' (congrArg Prod.fst hr)
    | ok a => exact hf a st' hr e he

theorem raises_get {E : Failure → Prop} (st : State) : Raises E get st := fun _ h => by cases h

theorem raises_modify (f : State → State) (st : State) : Raises E (modify f) st := fun _ h => by cases h

theorem raises_note (s : Step) (st : State) : Raises E (note s) st := raises_modify _ st

theorem raises_freshVar (v : Var) (st : State) : Raises E (freshVar v) st := fun _ h => by cases h

theorem raises_freshVars (vs : List Var) (st : State) : Raises E (freshVars vs) st := fun _ h => by cases h

end Gen

/-! ## blocks -/

section

open Gen

variable {gen : Generator} {E : Failure → Prop}

theorem raises_callWp {line : Option Int} {t : Option Var} {f : String} {args : List Expr}
    (post : Expr) (st : State) (hE : ∀ e, gen.contractOf line f args = .error e → E (.error e)) :
    Raises E (gen.callWp line t f args post) st := by
  unfold Generator.callWp
  cases hc : gen.contractOf line f args with
  | error e => exact raises_bind (raises_throw (hE e hc) st) fun _ _ h => nomatch h
  | ok c =>
    refine raises_bind (raises_pure c st) fun _ st₁ _ => ?_
    refine raises_bind (raises_freshVar _ st₁) fun _ st₂ _ => ?_
    exact raises_bind (raises_note _ st₂) fun _ st₃ _ => raises_pure _ st₃

theorem raises_opsWp {line : Option Int} {ops : List Op} (post : Expr) (st : State)
    (hE : ∀ t f args e, .call t f args ∈ ops → gen.contractOf line f args = .error e → E (.error e)) :
    Raises E (gen.opsWp line ops post) st := by
  induction ops with
  | nil => exact raises_pure _ _
  | cons op ops ih =>
    refine raises_bind (ih fun t f args e hm => hE t f args e (List.mem_cons_of_mem _ hm)) fun e st' _ => ?_
    cases op with
    | assign x v => exact raises_pure _ _
    | call t f args => exact raises_callWp e st' fun e => hE t f args e (List.mem_cons_self ..)

theorem raises_termWp {wp : Node → Gen Expr} {i : Node} {t : Option Terminator} (st : State)
    (hE : t = none → E (.fault (.noTerminator (gen.graph.position i))))
    (hwp : ∀ u, t = some u → ∀ j ∈ u.successors, ∀ st', Raises E (wp j) st') : Raises E (gen.termWp wp i t) st := by
  cases t with
  | none => exact raises_throw (hE rfl) st
  | some u =>
    cases u with
    | ret v => cases v <;> exact raises_pure _ _
    | goto j => exact hwp _ rfl j (by simp [Terminator.successors]) st
    | branch g j k =>
      refine raises_bind (hwp _ rfl j (by simp [Terminator.successors]) st) fun _ st' _ => ?_
      exact raises_bind (hwp _ rfl k (by simp [Terminator.successors]) st') fun _ _ _ => raises_pure _ _

theorem raises_headerInvariant {b : Block} (st : State)
    (hE : b.invariant = none → E (.error (.unsupported .loopWithoutInvariant b.line))) :
    Raises E (Generator.headerInvariant b) st := by
  unfold Generator.headerInvariant Generator.invariantOf
  cases hi : b.invariant with
  | none => exact raises_throw (hE hi) st
  | some e => exact raises_pure _ _

theorem raises_block {i : Node} {b : Block} (hb : gen.graph.block? i = some b) (st : State) : Raises E (gen.block i) st := by
  unfold Generator.block
  rw [hb]
  exact raises_pure b st

/-! ## from block to block -/

/-- `E` admits the failures that tell of what is wrong with a reachable block. -/
structure Generator.Admits (gen : Generator) (E : Failure → Prop) : Prop where
  invariant : ∀ h b, gen.graph.IsHeader h → gen.graph.block? h = some b → b.invariant = none →
    E (.error (.unsupported .loopWithoutInvariant b.line))
  terminator : ∀ i b, gen.graph.Reaches i → gen.graph.block? i = some b → b.term = none →
    E (.fault (.noTerminator (gen.graph.position i)))
  contract : ∀ i b t f args e, gen.graph.Reaches i → gen.graph.block? i = some b → .call t f args ∈ b.ops →
    gen.contractOf b.line f args = .error e → E (.error e)
  cycle : E (.fault .uncutCycle)

variable (hE : gen.Admits E)

include hE

theorem raises_blockWp {wp : Node → Gen Expr} {i : Node} {b : Block} (hi : gen.graph.Reaches i)
    (hb : gen.graph.block? i = some b) (hwp : ∀ j, gen.graph.Edge i j → ∀ st', Raises E (wp j) st')
    (st : State) :
    Raises E (gen.blockWp wp i b) st := by
  rw [blockWp_eq]
  refine raises_bind (raises_termWp st (hE.terminator i b hi hb) fun u hu j hj => ?_) fun e st' _ => ?_
  · exact hwp j ((edge_iff hb).2 (mem_successors hu hj))
  · exact raises_opsWp e st' fun t f args e => hE.contract i b t f args e hi hb

variable (hv : gen.graph.Valid) (hl : gen.graph.loops = .ok gen.loops)

include hv hl

theorem raises_wp {fuel : Nat} {i : Node} (hi : gen.graph.Reaches i) (st : State) : Raises E (gen.wp fuel i) st := by
  induction fuel generalizing i st with
  | zero => exact raises_throw hE.cycle st
  | succ n ih =>
    obtain ⟨b, hb⟩ := hv.exists_block hi
    -- what follows the formula of a block keeps it, and does not fail
    have hkeep : ∀ e st, Raises E (do
        note (.visited i e)
        modify fun st => { st with cache := st.cache.put i e }
        return e) st := fun e st =>
      raises_bind (raises_note _ st) fun _ st₁ _ => raises_bind (raises_modify _ st₁) fun _ st₂ _ => raises_pure e st₂
    refine raises_bind (raises_get st) fun st₀ st₁ _ => ?_
    cases st₀.cache.get? i with
    | some e => exact raises_pure _ _
    | none =>
      refine raises_bind (raises_block hb st₁) fun b' st₂ hrun => ?_
      obtain ⟨hb', -⟩ := block_ok hrun
      cases hb.symm.trans hb'
      by_cases hh : gen.graph.IsHeader i
      · rw [if_pos ((contains_loops hl).2 hh)]
        exact raises_bind (raises_headerInvariant st₂ (hE.invariant i b hh hb)) fun e st₃ _ => hkeep e st₃
      · rw [if_neg fun h => hh ((contains_loops hl).1 h)]
        refine raises_bind ?_ fun e st₃ _ => hkeep e st₃
        exact raises_blockWp hE hi hb (fun j hj st' => ih (hi.step hj) st') st₂

omit hv hl in
theorem raises_rawObligations {h : Node} {b : Block} (hh : gen.graph.IsHeader h)
    (hb : gen.graph.block? h = some b)
    (hwp : ∀ j, gen.graph.Edge h j → ∀ st', Raises E (gen.wp gen.fuel j) st') (inv : Expr)
    (st : State) :
    Raises E (gen.rawObligations h b inv) st := by
  unfold Generator.rawObligations
  split
  · rename_i g j k ht hops
    have hedge : ∀ m ∈ (Terminator.branch g j k).successors, gen.graph.Edge h m :=
      fun m hm => (edge_iff hb).2 (mem_successors ht hm)
    refine raises_bind (hwp j (hedge j (by simp [Terminator.successors])) st) fun _ st' _ => ?_
    exact raises_bind (hwp k (hedge k (by simp [Terminator.successors])) st') fun _ _ _ => raises_pure _ _
  · exact raises_bind (raises_blockWp hE hh.reaches hb hwp st) fun _ _ _ => raises_pure _ _

theorem raises_loopObligations {h : Node} (hh : gen.graph.IsHeader h) (st : State) :
    Raises E (gen.loopObligations h) st := by
  obtain ⟨b, hb⟩ := hv.exists_block hh.reaches
  have hwp : ∀ j, gen.graph.Edge h j → ∀ st', Raises E (gen.wp gen.fuel j) st' :=
    fun j hj st' => raises_wp hE hv hl (hh.reaches.step hj) st'
  unfold Generator.loopObligations
  refine raises_bind (raises_block hb st) fun b' st₁ hrun => ?_
  obtain ⟨hb', -⟩ := block_ok hrun
  cases hb.symm.trans hb'
  refine raises_bind (raises_headerInvariant st₁ (hE.invariant h b hh hb)) fun inv st₂ _ => ?_
  refine raises_bind (raises_rawObligations hE hh hb hwp inv st₂) fun os st₃ _ => ?_
  obtain ⟨vs, hvs⟩ := exists_reachable_assigned hv
  rw [hvs]
  refine raises_bind (raises_pure vs st₃) fun _ st₄ _ => ?_
  refine raises_bind (raises_freshVars _ st₄) fun _ st₅ _ => ?_
  exact raises_bind (raises_note _ st₅) fun _ st₆ _ => raises_pure _ st₆

theorem raises_generate (st : State) : Raises E gen.generate st := by
  have hheader : ∀ h ∈ gen.loops.keys, gen.graph.IsHeader h := fun h hh =>
    (contains_loops hl).1 ((Keyed.contains_iff ..).2 ((Keyed.mem_keys_iff ..).1 hh))
  have hcheck : ∀ hs : List Node, (∀ h ∈ hs, gen.graph.IsHeader h) → ∀ st, Raises E (gen.checkInvariants hs) st := by
    intro hs
    induction hs with
    | nil => exact fun _ st => raises_pure _ st
    | cons h hs ih =>
      intro hh st
      rw [List.forall_mem_cons] at hh
      obtain ⟨b, hb⟩ := hv.exists_block hh.1.reaches
      refine raises_bind (raises_block hb st) fun b' st₁ hrun => ?_
      obtain ⟨hb', -⟩ := block_ok hrun
      cases hb.symm.trans hb'
      exact raises_bind (raises_headerInvariant st₁ (hE.invariant h b hh.1 hb)) fun _ st₂ _ => ih hh.2 st₂
  have hadd : ∀ hs : List Node, (∀ h ∈ hs, gen.graph.IsHeader h) → ∀ st, Raises E (gen.addObligations hs) st := by
    intro hs
    induction hs with
    | nil => exact fun _ st => raises_pure _ st
    | cons h hs ih =>
      intro hh st
      rw [List.forall_mem_cons] at hh
      refine raises_bind (raises_loopObligations hE hv hl hh.1 st) fun os st₁ _ => ?_
      exact raises_bind (raises_modify _ st₁) fun _ st₂ _ => ih hh.2 st₂
  refine raises_bind (hcheck _ hheader st) fun _ st₁ _ => ?_
  refine raises_bind (raises_wp hE hv hl .refl st₁) fun _ st₂ _ => ?_
  exact raises_bind (hadd _ hheader st₂) fun _ st₃ _ => raises_pure _ st₃

end

/-! ## the condition -/

theorem raises_notes {E : Failure → Prop} (os : List Expr) (st : State) :
    Gen.Raises E (forIn os PUnit.unit fun o _ => do
      note (.obligation o)
      pure (.yield PUnit.unit)) st := by
  induction os generalizing st with
  | nil => exact Gen.raises_pure _ st
  | cons o os ih =>
    rw [List.forIn_cons, bind_assoc]
    refine Gen.raises_bind (Gen.raises_note _ st) fun _ st₁ _ => ?_
    rw [pure_bind]
    exact ih st₁

/-- Behind the preconditions nothing fails. -/
theorem raises_condition (gen : Generator) (pre : Expr) :
    Gen.Raises (fun e => (gen.generate.exec {}).1 = .error e) (gen.condition pre) {} := by
  refine Gen.raises_bind (fun e he => he) fun e st₁ _ => ?_
  refine Gen.raises_bind (Gen.raises_note _ st₁) fun _ st₂ _ => ?_
  refine Gen.raises_bind (Gen.raises_get st₂) fun st₃ st₄ _ => ?_
  exact Gen.raises_bind (raises_notes _ st₄) fun _ st₅ _ => Gen.raises_pure _ st₅

/-- Where the calls fit their contracts, one fails only because its callee has none. -/
theorem contractOf_error {gen : Generator} {line : Option Int} {t : Option Var} {f : String}
    {args : List Expr} {e : Error} (hf : (Op.call t f args).FitsContract gen.contracts)
    (he : gen.contractOf line f args = .error e) :
    gen.contracts.get? f = none ∧ e = .unsupported (.noContract f) line := by
  cases hc : gen.contracts.get? f with
  | none =>
    unfold Generator.contractOf at he
    rw [hc] at he
    cases he
    exact ⟨rfl, rfl⟩
  | some c =>
    have hcomplete : (Op.call t f args).Complete gen.contracts := ⟨c, hc, hf c hc⟩
    obtain ⟨c', hc'⟩ : ∃ c', gen.contractOf line f args = .ok c' := exists_contractOf hcomplete
    rw [hc'] at he
    cases he

theorem Setting.Fitting.admits {gen : Generator} (hS : gen.setting.Fitting) :
    gen.Admits fun e => gen.setting.Lacks e ∨ e = .fault .uncutCycle where
  invariant := fun h b hh hb hn => .inl (.invariant hh hb hn)
  terminator := fun i b hi hb hn => by
    obtain ⟨t, ht⟩ := hS.terminated i b hi hb
    cases hn.symm.trans ht
  contract := fun i b t f args e hi hb hm he => by
    obtain ⟨hn, rfl⟩ := contractOf_error (hS.calls i b hi hb _ hm) he
    exact .inl (.contract hi hb hm hn)
  cycle := .inr rfl

/-- A verification condition that is not built lacks an invariant or a contract. -/
theorem buildVc_lacks {S : Setting} (hS : S.Fitting) {pre : Expr} {e : Failure}
    (h : buildVc pre S.post S.graph S.contracts = .error e) : S.Lacks e := by
  obtain ⟨ls, hl⟩ := exists_loops hS.valid
  rw [buildVc_def, hl] at h
  let gen : Generator := ⟨S.graph, S.post, S.contracts, ls⟩
  have hgen : (gen.generate.exec {}).1 = .error e := raises_condition gen pre e h
  -- the bound on walks is not met
  have hterm : gen.Terminates := terminates hS.valid hl
  have hends : e ≠ .fault .uncutCycle := by
    rintro rfl
    exact (hterm.generate {}).ends hgen
  have hfit : gen.setting.Fitting := hS
  have hraises : Gen.Raises (fun e => S.Lacks e ∨ e = .fault .uncutCycle) gen.generate {} :=
    raises_generate hfit.admits hS.valid hl {}
  exact (hraises e hgen).resolve_right hends

end Wp

end ContractVerifier
