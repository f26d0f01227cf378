import ContractVerifier.Proofs.Expr.Writable
import ContractVerifier.Proofs.Wp.Block
import ContractVerifier.Wp.Condition

/-!
# Numbers of formulas

A generator computes with formulas, never with numbers.  So all numbers of its formulas are numbers
of the graph, of the postcondition or of a contract, and where these can be written, so can all that
it writes down.

* `Setting.Writable` : what a generator is given can be written;
* `State.Writable` : so can what it keeps, and each step it has taken;
* `Gen.Writes` : a computation that leads from one such state to another, whether it returns or
  fails;
* `writes_generate`, `writes_condition` : the generator does.
-/

namespace ContractVerifier

/-- Both conditions can be written. -/
def Contract.Writable (c : Contract) : Prop := c.pre.isWritable = true ∧ c.post.isWritable = true

namespace Wp

open ContractVerifier.Flow ContractVerifier.Flow.Graph

/-- The reachable blocks, the contracts and the postcondition can be written. -/
structure Setting.Writable (S : Setting) : Prop where
  block : ∀ i b, S.graph.Reaches i → S.graph.block? i = some b → b.isWritable = true
  contract : ∀ f c, S.contracts.get? f = some c → c.Writable
  post : S.post.isWritable = true

/-- What is kept can be written, and so can the steps. -/
structure State.Writable (st : State) : Prop where
  cache : ∀ i e, st.cache.get? i = some e → e.isWritable = true
  obligations : ∀ e ∈ st.obligations, e.isWritable = true
  steps : ∀ s ∈ st.steps, s.isWritable = true

/-- From a state that can be written to another one, with a result that satisfies `Q` if there is
one. -/
def Gen.Writes {α : Type} (x : Gen α) (Q : α → Prop) : Prop :=
  ∀ st, st.Writable → (x.exec st).2.Writable ∧ ∀ a, (x.exec st).1 = .ok a → Q a

/-! ## runs -/

namespace Gen

variable {α β : Type} {Q : α → Prop}

theorem writes_pure {a : α} (h : Q a) : Writes (pure a) Q :=
  fun _ hst => ⟨hst, fun _ ha => Except.ok.inj ha ▸ h⟩

theorem writes_throw (e : Failure) : Writes (throw e : Gen α) Q := fun _ hst => ⟨hst, fun _ h => by cases h⟩

theorem writes_get : Writes get State.Writable :=
  fun _ hst => ⟨hst, fun _ h => Except.ok.inj h ▸ hst⟩

theorem Writes.bind {x : Gen β} {f : β → Gen α} {P : β → Prop} (hx : Writes x P)
    (hf : ∀ b, P b → Writes (f b) Q) :
    Writes (x >>= f) Q := by
  intro st hst
  obtain ⟨hst', hP⟩ := hx st hst
  rw [exec_bind]
  generalize x.exec st = run at hst' hP
  obtain ⟨r, st'⟩ := run
  cases r with
  | error e => exact ⟨hst', fun _ h => by cases h⟩
  | ok b => exact hf b (hP b rfl) st' hst'

theorem writes_note (s : Step) (h : s.isWritable = true) : Writes (note s) fun _ => True := by
  intro st hst
  exact ⟨⟨hst.cache, hst.obligations, List.forall_mem_cons.2 ⟨h, hst.steps⟩⟩, fun _ _ => trivial⟩

theorem writes_freshVar (v : Var) : Writes (freshVar v) fun _ => True :=
  fun _ hst => ⟨⟨hst.cache, hst.obligations, hst.steps⟩, fun _ _ => trivial⟩

theorem writes_freshVars (vs : List Var) : Writes (freshVars vs) fun _ => True :=
  fun _ hst => ⟨⟨hst.cache, hst.obligations, hst.steps⟩, fun _ _ => trivial⟩

/-- The formula of a block is noted and kept. -/
theorem writes_visit (i : Node) {e : Expr} (h : e.isWritable = true) :
    Writes (do
      note (.visited i e)
      modify fun st => { st with cache := st.cache.put i e }
      return e) (·.isWritable = true) := by
  refine (writes_note (.visited i e) h).bind fun _ _ => Writes.bind (P := fun _ => True) ?_ fun _ _ => writes_pure h
  intro st hst
  refine ⟨⟨fun j e' he' => ?_, hst.obligations, hst.steps⟩, fun _ _ => trivial⟩
  have hget : (st.cache.put i e).get? j = some e' := he'
  rw [Keyed.get?_put] at hget
  split at hget
  · exact Option.some.inj hget ▸ h
  · exact hst.cache j e' hget

theorem writes_add {os : List Expr} (h : ∀ e ∈ os, e.isWritable = true) :
    Writes (modify fun st => { st with obligations := st.obligations ++ os }) fun _ => True := by
  intro st hst
  exact ⟨⟨hst.cache, fun e he => (List.mem_append.1 he).elim (hst.obligations e) (h e), hst.steps⟩, fun _ _ => trivial⟩

end Gen

open Gen

section

variable {gen : Generator} (hS : gen.setting.Writable)

include hS

/-! ## blocks -/

theorem writes_callWp {line : Option Int} {t : Option Var} {f : String} {args : List Expr}
    {post : Expr} (hargs : ∀ a ∈ args, a.isWritable = true) (hpost : post.isWritable = true) :
    Writes (gen.callWp line t f args post) (·.isWritable = true) := by
  unfold Generator.callWp
  cases hc : gen.contractOf line f args with
  | error e => exact writes_throw _
  | ok c =>
    obtain ⟨hpre, hens⟩ := hS.contract f c (contractOf_ok hc).1
    have hactual : ∀ x a, (Keyed.ofList ((c.params.map (·.name)).zip args)).get? x = some a → a.isWritable = true :=
      fun x a ha => hargs a (List.of_mem_zip (Keyed.mem_of_get?_ofList ha)).2
    simp only [pure_bind]
    refine (writes_freshVar _).bind fun r _ => ?_
    have hrequires := Expr.isWritable_substitute hpre hactual
    have hensures : (c.post.substitute ((Keyed.ofList ((c.params.map (·.name)).zip args)).put resultName (.var r))).isWritable
        = true := by
      refine Expr.isWritable_substitute hens fun x a ha => ?_
      rw [Keyed.get?_put] at ha
      split at ha
      · exact Option.some.inj ha ▸ rfl
      · exact hactual x a ha
    have hcall : (Op.call t f args).isWritable = true := List.all_eq_true.2 hargs
    have hstep : (Step.called (.call t f args) _ _).isWritable = true :=
      Bool.and_eq_true_iff.2 ⟨Bool.and_eq_true_iff.2 ⟨hcall, hrequires⟩, hensures⟩
    refine (writes_note _ hstep).bind fun _ _ => writes_pure (Expr.isWritable_conjoin ?_)
    refine List.forall_mem_cons.2 ⟨hrequires, List.forall_mem_singleton.2 (Expr.isWritable_implies hensures ?_)⟩
    cases t with
    | none => exact hpost
    | some t => exact Expr.isWritable_subst hpost rfl

theorem writes_opsWp {line : Option Int} {ops : List Op} {post : Expr}
    (hops : ∀ op ∈ ops, op.isWritable = true) (hpost : post.isWritable = true) :
    Writes (gen.opsWp line ops post) (·.isWritable = true) := by
  induction ops with
  | nil => exact writes_pure hpost
  | cons op ops ih =>
    obtain ⟨hop, hops⟩ := List.forall_mem_cons.1 hops
    refine (ih hops).bind fun e he => ?_
    cases op with
    | assign x v => exact writes_pure (Expr.isWritable_subst he hop)
    | call t f args => exact writes_callWp hS (List.all_eq_true.1 hop) he

theorem writes_blockWp {wp : Node → Gen Expr} {i : Node} {b : Block} (hb : b.isWritable = true)
    (hwp : ∀ j ∈ b.successors, Writes (wp j) (·.isWritable = true)) : Writes (gen.blockWp wp i b) (·.isWritable = true) := by
  obtain ⟨hb, hterm⟩ := Bool.and_eq_true_iff.1 hb
  obtain ⟨-, hops⟩ := Bool.and_eq_true_iff.1 hb
  rw [blockWp_eq]
  refine Writes.bind ?_ fun e he => writes_opsWp hS (List.all_eq_true.1 hops) he
  cases ht : b.term with
  | none => exact writes_throw _
  | some t =>
    rw [ht, Option.all_some] at hterm
    have hwp' : ∀ j ∈ t.successors, Writes (wp j) (·.isWritable = true) :=
      fun j hj => hwp j (mem_successors ht hj)
    cases t with
    | ret v =>
      cases v with
      | none => exact writes_pure hS.post
      | some e => exact writes_pure (Expr.isWritable_subst hS.post hterm)
    | goto j => exact hwp' j (by simp [Terminator.successors])
    | branch g j k =>
      refine (hwp' j (by simp [Terminator.successors])).bind fun p hp => ?_
      refine (hwp' k (by simp [Terminator.successors])).bind fun q hq => writes_pure (Expr.isWritable_conjoin ?_)
      exact List.forall_mem_cons.2 ⟨Expr.isWritable_implies hterm hp,
        List.forall_mem_singleton.2 (Expr.isWritable_implies (Expr.isWritable_negate hterm) hq)⟩

omit hS in
theorem writes_block (i : Node) : Writes (gen.block i) fun b => gen.graph.block? i = some b := by
  unfold Generator.block
  cases hb : gen.graph.block? i with
  | none => exact writes_throw _
  | some b => exact writes_pure rfl

omit hS in
theorem writes_headerInvariant {b : Block} (hb : b.isWritable = true) :
    Writes (Generator.headerInvariant b) (·.isWritable = true) := by
  obtain ⟨hb, -⟩ := Bool.and_eq_true_iff.1 hb
  obtain ⟨hinv, -⟩ := Bool.and_eq_true_iff.1 hb
  unfold Generator.headerInvariant Generator.invariantOf
  cases hi : b.invariant with
  | none => exact writes_throw _
  | some e =>
    rw [hi] at hinv
    exact writes_pure hinv

/-! ## from block to block -/

theorem writes_wp (fuel : Nat) {i : Node} (hi : gen.graph.Reaches i) : Writes (gen.wp fuel i) (·.isWritable = true) := by
  induction fuel generalizing i with
  | zero => exact writes_throw _
  | succ n ih =>
    unfold Generator.wp
    refine writes_get.bind fun st hst => ?_
    cases hget : st.cache.get? i with
    | some e => exact writes_pure (hst.cache i e hget)
    | none =>
      refine (writes_block i).bind fun b hb => ?_
      have hwrite := hS.block i b hi hb
      by_cases hh : gen.loops.contains i = true
      · rw [if_pos hh]
        exact (writes_headerInvariant hwrite).bind fun e he => writes_visit i he
      · rw [if_neg hh]
        have hblock :=
          writes_blockWp (i := i) hS hwrite fun j hj => ih (hi.step ((edge_iff hb).2 hj))
        exact hblock.bind fun e he => writes_visit i he

/-! ## loops -/

theorem writes_rawObligations {h : Node} {b : Block} {inv : Expr} (hh : gen.graph.Reaches h)
    (hb : gen.graph.block? h = some b) (hinv : inv.isWritable = true) :
    Writes (gen.rawObligations h b inv) fun os => ∀ e ∈ os, e.isWritable = true := by
  have hwrite := hS.block h b hh hb
  have hwp : ∀ j ∈ b.successors, Writes (gen.wp gen.fuel j) (·.isWritable = true) :=
    fun j hj => writes_wp hS gen.fuel (hh.step ((edge_iff hb).2 hj))
  unfold Generator.rawObligations
  split
  · rename_i g j k ht hops
    have hguard : g.isWritable = true := by
      have hterm := (Bool.and_eq_true_iff.1 hwrite).2
      rw [ht] at hterm
      exact hterm
    refine (hwp j (mem_successors ht (by simp [Terminator.successors]))).bind fun p hp => ?_
    refine (hwp k (mem_successors ht (by simp [Terminator.successors]))).bind fun q hq => writes_pure ?_
    have hboth : ∀ {c : Expr}, c.isWritable = true → (Expr.conjoin [inv, c]).isWritable = true :=
      fun hc => Expr.isWritable_conjoin (List.forall_mem_cons.2 ⟨hinv, List.forall_mem_singleton.2 hc⟩)
    exact List.forall_mem_cons.2 ⟨Expr.isWritable_implies (hboth hguard) hp,
      List.forall_mem_singleton.2 (Expr.isWritable_implies (hboth (Expr.isWritable_negate hguard)) hq)⟩
  · refine (writes_blockWp hS hwrite hwp).bind fun e he => writes_pure ?_
    exact List.forall_mem_singleton.2 (Expr.isWritable_implies hinv he)

theorem writes_loopObligations {h : Node} (hh : gen.graph.Reaches h) :
    Writes (gen.loopObligations h) fun os => ∀ e ∈ os, e.isWritable = true := by
  unfold Generator.loopObligations
  refine (writes_block h).bind fun b hb => (writes_headerInvariant (hS.block h b hh hb)).bind fun inv hinv => ?_
  refine (writes_rawObligations hS hh hb hinv).bind fun os hos => ?_
  cases gen.graph.reachable.bind gen.graph.assigned with
  | error f => exact writes_throw _
  | ok vs =>
    simp only [pure_bind]
    refine (writes_freshVars _).bind fun ws _ => (writes_note (.havocked h ws) rfl).bind fun _ _ => writes_pure ?_
    intro e he
    obtain ⟨o, ho, rfl⟩ := List.mem_map.1 he
    refine Expr.isWritable_substitute (hos o ho) fun x t ht => ?_
    obtain ⟨w, -, rfl⟩ := List.mem_map.1 (List.of_mem_zip (Keyed.mem_of_get? ht)).2
    rfl

theorem writes_checkInvariants {hs : List Node} (hh : ∀ h ∈ hs, gen.graph.Reaches h) :
    Writes (gen.checkInvariants hs) fun _ => True := by
  induction hs with
  | nil => exact writes_pure trivial
  | cons h hs ih =>
    obtain ⟨hh, hhs⟩ := List.forall_mem_cons.1 hh
    refine (writes_block h).bind fun b hb => ?_
    exact (writes_headerInvariant (hS.block h b hh hb)).bind fun _ _ => ih hhs

theorem writes_addObligations {hs : List Node} (hh : ∀ h ∈ hs, gen.graph.Reaches h) :
    Writes (gen.addObligations hs) fun _ => True := by
  induction hs with
  | nil => exact writes_pure trivial
  | cons h hs ih =>
    obtain ⟨hh, hhs⟩ := List.forall_mem_cons.1 hh
    exact (writes_loopObligations hS hh).bind fun os hos => (writes_add hos).bind fun _ _ => ih hhs

theorem writes_generate (hl : gen.graph.loops = .ok gen.loops) : Writes gen.generate (·.isWritable = true) := by
  have hreach : ∀ h ∈ gen.loops.keys, gen.graph.Reaches h := fun h hh =>
    ((contains_loops hl).1 ((Keyed.contains_iff ..).2 ((Keyed.mem_keys_iff ..).1 hh))).reaches
  refine (writes_checkInvariants hS hreach).bind fun _ _ => (writes_wp hS _ .refl).bind fun e he => ?_
  exact (writes_addObligations hS hreach).bind fun _ _ => writes_pure he

omit hS in
theorem writes_notes {os : List Expr} (h : ∀ o ∈ os, o.isWritable = true) :
    Writes (forIn os PUnit.unit fun o _ => do
      note (.obligation o)
      pure (.yield PUnit.unit)) fun _ => True := by
  induction os with
  | nil => exact writes_pure trivial
  | cons o os ih =>
    obtain ⟨ho, hos⟩ := List.forall_mem_cons.1 h
    rw [List.forIn_cons, bind_assoc]
    refine (writes_note (.obligation o) ho).bind fun _ _ => ?_
    rw [pure_bind]
    exact ih hos

theorem writes_condition (hl : gen.graph.loops = .ok gen.loops) {pre : Expr}
    (hpre : pre.isWritable = true) :
    Writes (gen.condition pre) (·.isWritable = true) := by
  unfold Generator.condition
  refine (writes_generate hS hl).bind fun e he => (writes_note (.weakest e) he).bind fun _ _ => writes_get.bind fun st hst => ?_
  refine (writes_notes hst.obligations).bind fun _ _ => writes_pure (Expr.isWritable_implies hpre ?_)
  exact Expr.isWritable_conjoin (List.forall_mem_cons.2 ⟨he, hst.obligations⟩)

end

/-- What is built from a setting that can be written can be written, and so can each step on the
way. -/
theorem Setting.Writable.traceVc {S : Setting} (h : S.Writable) {pre : Expr}
    (hpre : pre.isWritable = true) :
    (∀ s ∈ (traceVc pre S.post S.graph S.contracts).2, s.isWritable = true) ∧
      ∀ vc, (traceVc pre S.post S.graph S.contracts).1 = .ok vc → vc.isWritable = true := by
  unfold Wp.traceVc Generator.make
  cases hl : S.graph.loops with
  | error f => exact ⟨nofun, nofun⟩
  | ok ls =>
    let gen : Generator := ⟨S.graph, S.post, S.contracts, ls⟩
    have hgen : gen.setting.Writable := h
    obtain ⟨hst, hvc⟩ := writes_condition hgen hl hpre {} ⟨nofun, nofun, nofun⟩
    exact ⟨fun s hs => hst.steps s (List.mem_reverse.1 hs), hvc⟩

/-- The steps of a run that writes can be written down. -/
theorem Gen.Writes.written {α : Type} {x : Gen α} {Q : α → Prop} (h : Writes x Q) : x.written {} = x.exec {} := by
  obtain ⟨hst, -⟩ := h {} ⟨nofun, nofun, nofun⟩
  unfold Gen.written
  simp only [List.all_eq_true.2 hst.steps, if_true]

end Wp

end ContractVerifier
