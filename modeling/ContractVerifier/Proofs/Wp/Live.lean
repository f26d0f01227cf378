import ContractVerifier.Proofs.Flow.Live
import ContractVerifier.Proofs.Wp.Termination
import ContractVerifier.Wp.Condition

/-!
# Dead code does not matter

Two generators for graphs that agree on their live parts run alike: they find the same loops, visit
the same blocks in the same order and give the same names, in every state.  Only the bound on walks
depends on the size of the whole graph, and it does not matter where it is not met.

* `Generator.Agrees` : two such generators;
* `wp_eq`, `generate_eq` : their runs are the same;
* `buildVc_eq_of_live` : so are the verification conditions.
-/

namespace ContractVerifier.Wp

open ContractVerifier.Flow ContractVerifier.Flow.Graph

/-- Generators for graphs of which the same is live. -/
structure Generator.Agrees (gen gen' : Generator) : Prop where
  post : gen'.post = gen.post
  contracts : gen'.contracts = gen.contracts
  graph : gen.graph.Agrees gen'.graph
  valid : gen.graph.Valid ∧ gen'.graph.Valid
  loops : gen.graph.loops = .ok gen.loops ∧ gen'.graph.loops = .ok gen'.loops

/-- What follows a block depends on the block that is there only. -/
theorem block_bind_congr {α : Type} {gen : Generator} {i : Node} {k k' : Block → Gen α}
    (h : ∀ b, gen.graph.block? i = some b → k' b = k b) : (gen.block i >>= k') = (gen.block i >>= k) := by
  unfold Generator.block
  cases hb : gen.graph.block? i with
  | none => rfl
  | some b => rw [pure_bind, pure_bind, h b hb]

namespace Generator.Agrees

variable {gen gen' : Generator} {i h : Node}

theorem keys_eq (ha : gen.Agrees gen') : gen'.loops.keys = gen.loops.keys :=
  ha.graph.keys_loops_eq ha.valid.1 ha.valid.2 ha.loops.1 ha.loops.2

theorem contains_eq (ha : gen.Agrees gen') (i : Node) : gen'.loops.contains i = gen.loops.contains i := by
  rw [Bool.eq_iff_iff, Keyed.contains_iff, Keyed.contains_iff, ← Keyed.mem_keys_iff,
    ← Keyed.mem_keys_iff, ha.keys_eq]

theorem reaches_of_mem_keys (ha : gen.Agrees gen') (hh : h ∈ gen.loops.keys) :
    gen.graph.Reaches h :=
  ((contains_loops ha.loops.1).1 ((Keyed.contains_iff ..).2 ((Keyed.mem_keys_iff ..).1 hh))).reaches

theorem block_eq (ha : gen.Agrees gen') (hi : gen.graph.Reaches i) : gen'.block i = gen.block i := by
  unfold Generator.block
  rw [ha.graph.block i hi]

/-- A reachable block stands at the same place in both graphs. -/
theorem position_eq (ha : gen.Agrees gen') (hi : gen.graph.Reaches i) : gen'.graph.position i = gen.graph.position i := by
  have hnonneg : ¬ i < 0 := Int.not_lt.2 (ha.valid.1.isIndex hi).1
  rw [position_def, position_def, if_neg hnonneg, if_neg hnonneg]

/-! ## blocks -/

theorem opsWp_eq (ha : gen.Agrees gen') (line : Option Int) (ops : List Op) (post : Expr) :
    gen'.opsWp line ops post = gen.opsWp line ops post := by
  have hcall : ∀ t f args e, gen'.callWp line t f args e = gen.callWp line t f args e := by
    intro t f args e
    unfold Generator.callWp Generator.contractOf
    rw [ha.contracts]
  induction ops with
  | nil => rfl
  | cons op ops ih =>
    unfold Generator.opsWp
    rw [ih]
    refine congrArg _ (funext fun e => ?_)
    cases op with
    | assign x v => rfl
    | call t f args => exact hcall t f args e

theorem blockWp_eq (ha : gen.Agrees gen') {wp wp' : Node → Gen Expr} {b : Block}
    (hi : gen.graph.Reaches i) (hwp : ∀ j ∈ b.successors, wp' j = wp j) :
    gen'.blockWp wp' i b = gen.blockWp wp i b := by
  rw [blockWp_congr hwp, Wp.blockWp_eq, Wp.blockWp_eq]
  have hterm : gen'.termWp wp i b.term = gen.termWp wp i b.term := by
    unfold Generator.termWp
    rw [ha.post, ha.position_eq hi]
  rw [hterm]
  exact congrArg _ (funext fun e => ha.opsWp_eq b.line b.ops e)

theorem wp_eq (ha : gen.Agrees gen') (n : Nat) (hi : gen.graph.Reaches i) : gen'.wp n i = gen.wp n i := by
  induction n generalizing i with
  | zero => rfl
  | succ n ih =>
    have hblock : ∀ b, gen.graph.block? i = some b → gen'.blockWp (gen'.wp n) i b = gen.blockWp (gen.wp n) i b :=
      fun b hb => ha.blockWp_eq hi fun j hj => ih (hi.step ((edge_iff hb).2 hj))
    unfold Generator.wp
    rw [ha.block_eq hi, ha.contains_eq i]
    refine congrArg _ (funext fun st => ?_)
    cases st.cache.get? i with
    | some e => rfl
    | none =>
      refine block_bind_congr fun b hb => ?_
      rw [hblock b hb]

/-- Each generator has a bound of its own, and both reach far enough. -/
theorem wp_fuel_eq (ha : gen.Agrees gen') (hi : gen.graph.Reaches i) : gen'.wp gen'.fuel i = gen.wp gen.fuel i := by
  let n := max gen.fuel gen'.fuel
  calc gen'.wp gen'.fuel i
      = gen'.wp n i := ((terminates ha.valid.2 ha.loops.2).fuel i n (ha.graph.reaches_iff.2 hi) (Nat.le_max_right ..)).symm
    _ = gen.wp n i := ha.wp_eq n hi
    _ = gen.wp gen.fuel i := (terminates ha.valid.1 ha.loops.1).fuel i n hi (Nat.le_max_left ..)

/-! ## obligations -/

theorem rawObligations_eq (ha : gen.Agrees gen') {b : Block} (hh : gen.graph.Reaches h)
    (hb : gen.graph.block? h = some b) (inv : Expr) :
    gen'.rawObligations h b inv = gen.rawObligations h b inv := by
  have hwp : ∀ j ∈ b.successors, gen'.wp gen'.fuel j = gen.wp gen.fuel j :=
    fun j hj => ha.wp_fuel_eq (hh.step ((edge_iff hb).2 hj))
  unfold Generator.rawObligations
  split
  · rename_i g j k ht hops
    rw [hwp j (mem_successors ht (by simp [Terminator.successors])),
      hwp k (mem_successors ht (by simp [Terminator.successors]))]
  · rw [ha.blockWp_eq hh hwp]

theorem loopObligations_eq (ha : gen.Agrees gen') (hh : gen.graph.Reaches h) :
    gen'.loopObligations h = gen.loopObligations h := by
  unfold Generator.loopObligations
  rw [ha.block_eq hh, ha.graph.reachable_assigned_eq ha.valid.1]
  refine block_bind_congr fun b hb => congrArg _ (funext fun inv => ?_)
  rw [ha.rawObligations_eq hh hb]

theorem checkInvariants_eq (ha : gen.Agrees gen') {hs : List Node}
    (hr : ∀ h ∈ hs, gen.graph.Reaches h) :
    gen'.checkInvariants hs = gen.checkInvariants hs := by
  induction hs with
  | nil => rfl
  | cons h hs ih =>
    obtain ⟨hh, hr⟩ := List.forall_mem_cons.1 hr
    unfold Generator.checkInvariants
    rw [ha.block_eq hh, ih hr]

theorem addObligations_eq (ha : gen.Agrees gen') {hs : List Node}
    (hr : ∀ h ∈ hs, gen.graph.Reaches h) :
    gen'.addObligations hs = gen.addObligations hs := by
  induction hs with
  | nil => rfl
  | cons h hs ih =>
    obtain ⟨hh, hr⟩ := List.forall_mem_cons.1 hr
    unfold Generator.addObligations
    rw [ha.loopObligations_eq hh, ih hr]

theorem generate_eq (ha : gen.Agrees gen') : gen'.generate = gen.generate := by
  have hr : ∀ h ∈ gen.loops.keys, gen.graph.Reaches h := fun h hh => ha.reaches_of_mem_keys hh
  unfold Generator.generate
  rw [ha.keys_eq, ha.checkInvariants_eq hr, ha.addObligations_eq hr, ha.graph.entry,
    ha.wp_fuel_eq .refl]

end Generator.Agrees

/-! ## verification conditions -/

/-- Formula or failure, and all steps on the way. -/
theorem traceVc_eq_of_live {g g' : Graph} (hv : g.Valid) (hv' : g'.Valid) (ha : g.Agrees g')
    (pre post : Expr) (contracts : Contracts) :
    traceVc pre post g' contracts = traceVc pre post g contracts := by
  obtain ⟨ls, hl⟩ := exists_loops hv
  obtain ⟨ls', hl'⟩ := exists_loops hv'
  have hgen : Generator.Agrees ⟨g, post, contracts, ls⟩ ⟨g', post, contracts, ls'⟩ :=
    ⟨rfl, rfl, ha, ⟨hv, hv'⟩, ⟨hl, hl'⟩⟩
  unfold traceVc Generator.make Generator.condition
  rw [hl, hl']
  simp only [hgen.generate_eq]

/-- Graphs with the same entry and the same reachable blocks have the same verification condition,
or fail in the same way, whatever their other blocks are. -/
theorem buildVc_eq_of_live {g g' : Graph} (hv : g.Valid) (hv' : g'.Valid)
    (hentry : g'.entry = g.entry) (hblock : ∀ i, g.Reaches i → g'.block? i = g.block? i)
    (pre post : Expr) (contracts : Contracts) :
    buildVc pre post g' contracts = buildVc pre post g contracts := by
  unfold buildVc
  rw [traceVc_eq_of_live hv hv' ⟨hentry, hblock⟩]

/-- A loop that calls a function until a bound is met. -/
def approach : Graph where
  blocks := [{ term := some (.goto 1) },
    { term := some (.branch (.bin .lt (.var ⟨"n", .int⟩) (.var ⟨"k", .int⟩)) 2 3),
      invariant := some (.bin .le (.var ⟨"n", .int⟩) (.var ⟨"k", .int⟩)) },
    { ops := [.call (some ⟨"n", .int⟩) "next" [.var ⟨"n", .int⟩]], term := some (.goto 1) },
    { term := some (.ret (some (.var ⟨"n", .int⟩))) }]

/-- The same, with a block that writes the bound and goes back into the loop, and one that does not
end. -/
def cluttered : Graph where
  blocks := approach.blocks ++ [{ ops := [.assign ⟨"k", .int⟩ (.num 0)], term := some (.goto 1) }, {}]

theorem cluttered_vc : approach.Valid ∧ cluttered.Valid ∧
    ∀ pre post contracts, buildVc pre post cluttered contracts = buildVc pre post approach contracts := by
  have hv : approach.Valid := by decide
  have hv' : cluttered.Valid := by decide
  have hreach : approach.reachable = .ok [0, 1, 2, 3] := by decide +kernel
  have hsame : ∀ i ∈ [0, 1, 2, 3], cluttered.block? i = approach.block? i := by decide
  refine ⟨hv, hv', buildVc_eq_of_live hv hv' rfl fun i hi => ?_⟩
  exact hsame i ((mem_reachable hreach).2 hi)

end ContractVerifier.Wp
