import ContractVerifier.Proofs.Flow.Writes
import ContractVerifier.Proofs.Wp.Block
import ContractVerifier.Wp.Condition

/-!
# Verification conditions are exact

A verification condition is valid exactly when, from every store that satisfies the precondition,

* all walks from the entry end well, and
* from every loop header all walks end well that start in a store in which its invariant holds and
  which differs from the first store only in what the graph writes (`Preserved`).

`condition_always` says this for one store and for any condition that was built.  `buildVc_exact`
adds that one is built for every graph that is complete.
-/

namespace ContractVerifier.Wp

open ContractVerifier.Flow ContractVerifier.Flow.Graph

section

variable (z : Int → Int) (Γ : String → Ty)

/-- The formulas together say exactly `P` of a store. -/
structure DenotesAll (c : Counters) (os : List Expr) (P : Store → Prop) : Prop where
  known : ∀ o ∈ os, o.Known Γ c
  always : ∀ s, (∀ o ∈ os, Always z Γ o s) ↔ P s

/-- The invariant of a header is enough to go on, whatever has been written. -/
def Preserved (S : Setting) (h : Node) (s₀ : Store) : Prop :=
  ∀ s : Store, s.Typed Γ → (∀ x, ¬ S.graph.Writes x → s x = s₀ x) → InvariantAt z S h s → SafeFrom z S h s

/-- What a verification condition says of a store. -/
def Verified (S : Setting) (pre : Expr) (s₀ : Store) : Prop :=
  pre.Holds z s₀.read → SafeAt z S S.graph.entry s₀ ∧ ∀ h, S.graph.IsHeader h → Preserved z Γ S h s₀

end

section

variable {z : Int → Int} {Γ : String → Ty} {T : Prop} {gen : Generator} {st : State} {c : Counters}

/-! ## obligations of one loop -/

theorem always_guarded {inv g e : Expr} {s : Store} (hi : inv.Declared Γ) (hg : g.Declared Γ) :
    Always z Γ ((Expr.conjoin [inv, g]).implies e) s ↔ (inv.Holds z s.read → g.Holds z s.read → Always z Γ e s) := by
  have hd : (Expr.conjoin [inv, g]).Declared Γ := by
    intro v hv
    rcases List.mem_append.1 hv with hv | hv
    · exact hi v hv
    · exact hg v hv
  rw [always_implies hd, Expr.holds_conjoin]
  simp

theorem spec_rawObligations {h : Node} {b : Block} {inv : Expr} (hpost : gen.post.Declared Γ)
    (hb : b.Scoped Γ gen.contracts) (hterm : T → ∃ t, b.term = some t)
    (hcalls : T → ∀ op ∈ b.ops, op.Complete gen.contracts)
    (hwp : ∀ j ∈ b.successors, Exact z Γ T gen (gen.wp gen.fuel) j) (hi : inv.Declared Γ)
    (hk : Kept z Γ gen st) :
    Gen.Spec T (gen.rawObligations h b inv) st fun os st' => Later z Γ gen st st' ∧
      DenotesAll z Γ st'.counters os fun s => inv.Holds z s.read → Safe z gen.setting b.ops b.term s := by
  have hmain : Gen.Spec T (do
      let e ← gen.blockWp (gen.wp gen.fuel) h b
      return [inv.implies e]) st fun os st' => Later z Γ gen st st' ∧
        DenotesAll z Γ st'.counters os fun s => inv.Holds z s.read → Safe z gen.setting b.ops b.term s := by
    rw [Gen.spec_bind]
    refine (spec_blockWp hpost hb hterm hcalls hwp hk).mono ?_
    rintro e st' ⟨hl, he⟩
    refine ⟨hl, fun o ho => ?_, fun s => ?_⟩
    · rw [List.mem_singleton.1 ho]
      exact hi.known.implies he.known
    · simp only [List.mem_singleton, forall_eq]
      rw [always_implies hi, he.always]
  unfold Generator.rawObligations
  split
  · -- a header that only branches
    rename_i g j k ht hops
    have hg : g.Declared Γ := hb.term _ ht
    have hj := hwp j (mem_successors ht (by simp [Terminator.successors]))
    have hk' := hwp k (mem_successors ht (by simp [Terminator.successors]))
    simp only [Gen.spec_bind, Gen.spec_pure]
    refine (hj st hk).mono ?_
    rintro p st₁ ⟨h₁, hp⟩
    refine (hk' st₁ (h₁.kept hk)).mono ?_
    rintro q st₂ ⟨h₂, hq⟩
    refine ⟨h₁.trans h₂, fun o ho => ?_, fun s => ?_⟩
    · have hcond : ∀ e ∈ [inv, g, g.negate], e.Known Γ st₂.counters := by
        simp only [List.mem_cons, List.not_mem_nil, or_false, forall_eq_or_imp, forall_eq]
        exact ⟨hi.known, hg.known, hg.known.negate⟩
      rcases List.mem_pair.1 ho with rfl | rfl
      · refine (Expr.Known.conjoin fun e he => hcond e ?_).implies (hp.known.mono h₂.grow)
        rcases List.mem_pair.1 he with rfl | rfl <;> simp
      · refine (Expr.Known.conjoin fun e he => hcond e ?_).implies hq.known
        rcases List.mem_pair.1 he with rfl | rfl <;> simp
    · simp only [List.mem_cons, List.not_mem_nil, or_false, forall_eq_or_imp, forall_eq]
      rw [always_guarded hi hg, always_guarded (g := g.negate) hi hg, hp.always, hq.always,
        Expr.holds_negate, ht, hops, safe_branch]
      constructor
      · rintro ⟨h1, h2⟩ hinv
        exact ⟨h1 hinv, h2 hinv⟩
      · intro h
        exact ⟨fun hinv => (h hinv).1, fun hinv => (h hinv).2⟩
  · exact hmain

theorem invariantAt_iff {h : Node} {b : Block} {inv : Expr} (hb : gen.graph.block? h = some b)
    (hi : b.invariant = some inv) (s : Store) : InvariantAt z gen.setting h s ↔ inv.Holds z s.read := by
  refine ⟨?_, fun hs => ⟨b, inv, hb, hi, hs⟩⟩
  rintro ⟨b', inv', hb', hi', hs⟩
  cases hb.symm.trans hb'
  cases hi.symm.trans hi'
  exact hs

theorem safeFrom_iff {h : Node} {b : Block} (hb : gen.graph.block? h = some b) (s : Store) :
    SafeFrom z gen.setting h s ↔ Safe z gen.setting b.ops b.term s := by
  refine ⟨fun hs => hs b hb, fun hs b' hb' => ?_⟩
  cases hb.symm.trans hb'
  exact hs

theorem target_declared {op : Op} {v : Var} (h : op.Scoped Γ gen.contracts) (hv : op.target = some v) : v.Declared Γ := by
  cases op with
  | assign x e =>
    cases hv
    exact h.1
  | call t f args => exact h.1 v hv

theorem known_renamed {o : Expr} {xs : List String} {vs : List Var} (ho : o.Known Γ c) :
    (o.substitute ⟨xs.zip ((Fresh.vars c vs).1.map .var)⟩).Known Γ (Fresh.vars c vs).2 := by
  have hb := Fresh.batch_vars c vs
  intro w hw
  rcases Expr.mem_vars_substitute hw with ⟨hv, -⟩ | ⟨v, -, t, ht, hw⟩
  · exact ho.mono hb.grow w hv
  · obtain ⟨u, hu, rfl⟩ := List.mem_map.1 (List.of_mem_zip (Keyed.mem_of_get? ht)).2
    cases List.mem_singleton.1 hw
    exact .inr (hb.given _ hu)

/-- The written variables are renamed, so that only what is not written is known from before the
loop. -/
theorem always_renamed {os : List Expr} {P : Store → Prop} {vs : Keyed String Var} {s₀ : Store}
    (hS : gen.setting.Scoped Γ) (hvs : gen.graph.reachable.bind gen.graph.assigned = .ok vs)
    (ho : DenotesAll z Γ c os P) (hs : s₀.Typed Γ) :
    (∀ o ∈ os.map (·.substitute ⟨vs.keys.zip ((Fresh.vars c vs.values).1.map .var)⟩), Always z Γ o s₀) ↔
      ∀ s : Store, s.Typed Γ → (∀ x, ¬ gen.graph.Writes x → s x = s₀ x) → P s := by
  obtain ⟨hkeys, htargets, hw⟩ := reachable_assigned hvs
  have hd : ∀ v ∈ vs.values, v.Declared Γ := by
    intro v hv
    obtain ⟨i, b, op, hi, hb, hop, ht⟩ := htargets v hv
    exact target_declared ((hS.block i b hi hb).ops op hop) ht
  have hone : ∀ o ∈ os, Always z Γ (o.substitute ⟨vs.keys.zip ((Fresh.vars c vs.values).1.map .var)⟩) s₀ ↔
      ∀ s : Store, s.Typed Γ → (∀ x, ¬ gen.graph.Writes x → s x = s₀ x) → Always z Γ o s := by
    intro o hmem
    rw [hkeys, always_havoc (ho.known o hmem) (Fresh.batch_vars c vs.values) hd hs]
    simp only [← hkeys, hw]
  simp only [List.forall_mem_map, ← ho.always]
  constructor
  · exact fun h s hs hx o hmem => (hone o hmem).1 (h o hmem) s hs hx
  · exact fun h o hmem => (hone o hmem).2 fun s hs hx => h s hs hx o hmem

theorem spec_loopObligations {rank : Node → Nat} (hS : gen.setting.Scoped Γ)
    (hC : T → gen.setting.Complete) (hl : gen.graph.loops = .ok gen.loops)
    (hr : T → gen.graph.Descends rank) (hrank : ∀ i, rank i ≤ gen.graph.nodes.length) {h : Node}
    (hh : gen.graph.IsHeader h) (hk : Kept z Γ gen st) :
    Gen.Spec T (gen.loopObligations h) st fun os st' => Later z Γ gen st st' ∧
      (∀ o ∈ os, o.Known Γ st'.counters) ∧
      ∀ s₀ : Store, s₀.Typed Γ → ((∀ o ∈ os, Always z Γ o s₀) ↔ Preserved z Γ gen.setting h s₀) := by
  unfold Generator.loopObligations Generator.block
  cases hb : gen.graph.block? h with
  | none =>
    intro hT
    obtain ⟨b, hb'⟩ := (hC hT).valid.exists_block hh.reaches
    cases hb.symm.trans hb'
  | some b =>
    have hscope := hS.block h b hh.reaches hb
    simp only [Gen.spec_bind, Gen.spec_pure]
    refine spec_headerInvariant (fun inv hinv => ?_) fun hT => (hC hT).annotated h b hh hb
    have hwp : ∀ j ∈ b.successors, Exact z Γ T gen (gen.wp gen.fuel) j := fun j hj =>
      spec_wp hS hC hl hr (hh.reaches.step ((edge_iff hb).2 hj))
        fun _ => ⟨Nat.succ_pos _, .inr (Nat.lt_succ_of_le (hrank j))⟩
    refine (spec_rawObligations hS.post hscope (fun hT => (hC hT).terminated h b hh.reaches hb)
      (fun hT => (hC hT).calls h b hh.reaches hb) hwp (hscope.invariant inv hinv) hk).mono ?_
    rintro os st₁ ⟨h₁, hos⟩
    cases hvs : gen.graph.reachable.bind gen.graph.assigned with
    | error f =>
      intro hT
      obtain ⟨vs, hvs'⟩ := exists_reachable_assigned (g := gen.graph) (hC hT).valid
      exact absurd (hvs.symm.trans hvs') (by simp)
    | ok vs =>
      simp only [pure_bind, Gen.spec_bind, Gen.spec_freshVars, Gen.spec_note, Gen.spec_pure]
      have hgrow := (Fresh.batch_vars st₁.counters vs.values).grow
      refine ⟨h₁.trans (later_of_cache rfl rfl hgrow), fun o ho => ?_, fun s₀ hs₀ => ?_⟩
      · obtain ⟨o', ho', rfl⟩ := List.mem_map.1 ho
        exact known_renamed (hos.known o' ho')
      · rw [always_renamed hS hvs hos hs₀]
        unfold Preserved
        simp only [invariantAt_iff hb hinv, safeFrom_iff hb]
        rfl

/-! ## obligations of all loops -/

theorem spec_addObligations {rank : Node → Nat} (hS : gen.setting.Scoped Γ)
    (hC : T → gen.setting.Complete) (hl : gen.graph.loops = .ok gen.loops)
    (hr : T → gen.graph.Descends rank) (hrank : ∀ i, rank i ≤ gen.graph.nodes.length)
    {hs : List Node} (hh : ∀ h ∈ hs, gen.graph.IsHeader h) (hk : Kept z Γ gen st) :
    Gen.Spec T (gen.addObligations hs) st fun _ st' => Fresh.Grow st.counters st'.counters ∧
      ∃ os, st'.obligations = st.obligations ++ os ∧ (∀ o ∈ os, o.Known Γ st'.counters) ∧
      ∀ s₀ : Store, s₀.Typed Γ → ((∀ o ∈ os, Always z Γ o s₀) ↔ ∀ h ∈ hs, Preserved z Γ gen.setting h s₀) := by
  induction hs generalizing st with
  | nil => exact ⟨Fresh.Grow.refl _, [], by simp, by simp, by simp⟩
  | cons h hs ih =>
    unfold Generator.addObligations
    simp only [Gen.spec_bind, Gen.spec_modify]
    refine (spec_loopObligations hS hC hl hr hrank (hh h (List.mem_cons_self ..)) hk).mono ?_
    rintro os st₁ ⟨h₁, hknown, hos⟩
    have hk₁ : Kept z Γ gen { st₁ with obligations := st₁.obligations ++ os } := h₁.kept hk
    refine (ih (fun j hj => hh j (List.mem_cons_of_mem _ hj)) hk₁).mono ?_
    rintro _ st₂ ⟨h₂, os', ho, hknown', hos'⟩
    refine ⟨h₁.grow.trans h₂, os ++ os', by rw [ho, h₁.obligations, List.append_assoc], ?_, fun s₀ hs₀ => ?_⟩
    · simp only [List.forall_mem_append]
      exact ⟨fun o hmem => (hknown o hmem).mono h₂, hknown'⟩
    · simp only [List.forall_mem_append, List.forall_mem_cons]
      rw [hos s₀ hs₀, hos' s₀ hs₀]

theorem spec_checkInvariants {hs : List Node} {Q : Unit → State → Prop}
    (hC : T → gen.setting.Complete) (hh : ∀ h ∈ hs, gen.graph.IsHeader h) (hq : Q () st) :
    Gen.Spec T (gen.checkInvariants hs) st Q := by
  induction hs with
  | nil => exact hq
  | cons h hs ih =>
    have hh' := hh h (List.mem_cons_self ..)
    unfold Generator.checkInvariants Generator.block
    cases hb : gen.graph.block? h with
    | none =>
      intro hT
      obtain ⟨b, hb'⟩ := (hC hT).valid.exists_block hh'.reaches
      cases hb.symm.trans hb'
    | some b =>
      simp only [Gen.spec_bind, Gen.spec_pure]
      exact spec_headerInvariant (fun _ _ => ih fun j hj => hh j (List.mem_cons_of_mem _ hj))
        fun hT => (hC hT).annotated h b hh' hb

theorem spec_generate (hS : gen.setting.Scoped Γ) (hC : T → gen.setting.Complete)
    (hl : gen.graph.loops = .ok gen.loops) :
    Gen.Spec T gen.generate {} fun e st => (∀ o ∈ e :: st.obligations, o.Known Γ st.counters) ∧
      ∀ s₀ : Store, s₀.Typed Γ → ((∀ o ∈ e :: st.obligations, Always z Γ o s₀) ↔
        SafeAt z gen.setting gen.graph.entry s₀ ∧ ∀ h, gen.graph.IsHeader h → Preserved z Γ gen.setting h s₀) := by
  have hheader : ∀ h, h ∈ gen.loops.keys ↔ gen.graph.IsHeader h := fun h => by
    rw [Keyed.mem_keys_iff, ← Keyed.contains_iff, contains_loops hl]
  -- without `T` any rank will do
  obtain ⟨rank, hr, hrank⟩ : ∃ rank, (T → gen.graph.Descends rank) ∧ ∀ i, rank i ≤ gen.graph.nodes.length := by
    by_cases hT : T
    · obtain ⟨rank, hr, hrank⟩ := exists_descends (hC hT).valid
      exact ⟨rank, fun _ => hr, hrank⟩
    · exact ⟨fun _ => 0, fun h => absurd h hT, fun _ => Nat.zero_le _⟩
  have hk : Kept z Γ gen {} := fun i e he => by cases he
  unfold Generator.generate
  simp only [Gen.spec_bind, Gen.spec_pure]
  refine spec_checkInvariants hC (fun h hh => (hheader h).1 hh) ?_
  refine (spec_wp hS hC hl hr Relation.ReflTransGen.refl (fun _ => ⟨Nat.succ_pos _, .inr (Nat.lt_succ_of_le (hrank _))⟩)
    {} hk).mono ?_
  rintro e st₁ ⟨h₁, he⟩
  refine (spec_addObligations hS hC hl hr hrank (fun h hh => (hheader h).1 hh) (h₁.kept hk)).mono ?_
  rintro _ st₂ ⟨h₂, os, ho, hknown, hos⟩
  rw [show st₂.obligations = os by rw [ho, h₁.obligations]; rfl]
  simp only [List.forall_mem_cons]
  refine ⟨⟨he.known.mono h₂, hknown⟩, fun s₀ hs₀ => ?_⟩
  rw [he.always, hos s₀ hs₀]
  simp only [hheader]

/-! ## the condition -/

theorem spec_notes {os : List Expr} {Q : PUnit → State → Prop}
    (hq : ∀ steps, Q ⟨⟩ { st with steps := steps }) :
    Gen.Spec T (forIn os PUnit.unit fun o _ => do
      note (.obligation o)
      pure (.yield PUnit.unit)) st Q := by
  induction os generalizing st with
  | nil => exact hq st.steps
  | cons o os ih =>
    rw [List.forIn_cons]
    simp only [Gen.spec_bind, Gen.spec_note, Gen.spec_pure]
    exact ih hq

theorem spec_condition {pre : Expr} (hS : gen.setting.Scoped Γ) (hC : T → gen.setting.Complete)
    (hl : gen.graph.loops = .ok gen.loops) (hpre : pre.Declared Γ) :
    Gen.Spec T (gen.condition pre) {} fun vc st => vc.Known Γ st.counters ∧
      ∀ s₀ : Store, s₀.Typed Γ →
      (Always z Γ vc s₀ ↔ Verified z Γ gen.setting pre s₀) := by
  unfold Generator.condition
  simp only [Gen.spec_bind, Gen.spec_note, Gen.spec_get]
  refine (spec_generate (z := z) hS hC hl).mono ?_
  rintro e st ⟨hknown, he⟩
  refine spec_notes fun steps => ⟨hpre.known.implies (Expr.Known.conjoin hknown), fun s₀ hs₀ => ?_⟩
  rw [always_implies hpre, always_conjoin, he s₀ hs₀]
  rfl

end

theorem buildVc_def {pre post : Expr} {g : Graph} {cs : Contracts} :
    buildVc pre post g cs = match g.loops with
      | .ok ls => ((Generator.condition ⟨g, post, cs, ls⟩ pre).exec {}).1
      | .error f => .error (.fault f) := by
  unfold buildVc traceVc Generator.make
  cases g.loops <;> rfl

/-- What a condition that was built says of a store. -/
theorem condition_always (z : Int → Int) {Γ : String → Ty} {S : Setting} {pre vc : Expr}
    (hS : S.Scoped Γ) (hpre : pre.Declared Γ)
    (h : buildVc pre S.post S.graph S.contracts = .ok vc) :
    (∃ c, vc.Known Γ c) ∧ ∀ s₀ : Store, s₀.Typed Γ → (Always z Γ vc s₀ ↔ Verified z Γ S pre s₀) := by
  rw [buildVc_def] at h
  cases hl : S.graph.loops with
  | error f =>
    rw [hl] at h
    cases h
  | ok ls =>
    simp only [hl] at h
    let gen : Generator := ⟨S.graph, S.post, S.contracts, ls⟩
    have hspec : Gen.Spec False (gen.condition pre) {} _ :=
      spec_condition (z := z) hS False.elim hl hpre
    obtain ⟨hknown, halways⟩ := hspec.ok (Prod.ext h rfl)
    exact ⟨⟨_, hknown⟩, halways⟩

theorem exists_buildVc {Γ : String → Ty} {S : Setting} {pre : Expr} (hS : S.Scoped Γ)
    (hC : S.Complete) (hpre : pre.Declared Γ) :
    ∃ vc, buildVc pre S.post S.graph S.contracts = .ok vc := by
  obtain ⟨ls, hl⟩ := exists_loops hC.valid
  let gen : Generator := ⟨S.graph, S.post, S.contracts, ls⟩
  have hspec : Gen.Spec True (gen.condition pre) {} _ :=
    spec_condition (z := id) hS (fun _ => hC) hl hpre
  obtain ⟨vc, st, hvc, -⟩ := hspec.exists_ok trivial
  refine ⟨vc, ?_⟩
  rw [buildVc_def, hl]
  exact congrArg Prod.fst hvc

/-- A verification condition is built for every complete graph.  It is valid exactly when from every
store that satisfies the precondition the walks from the entry end well, and so do the walks from
each loop header that start in a store with its invariant and the values of all names that are not
written. -/
theorem buildVc_exact (z : Int → Int) {Γ : String → Ty} {S : Setting} {pre : Expr} (hS : S.Scoped Γ)
    (hC : S.Complete) (hpre : pre.Declared Γ) :
    ∃ vc, buildVc pre S.post S.graph S.contracts = .ok vc ∧
      (vc.Valid z ↔ ∀ s₀ : Store, s₀.Typed Γ → pre.Holds z s₀.read →
        SafeAt z S S.graph.entry s₀ ∧
        ∀ h, S.graph.IsHeader h → ∀ s : Store, s.Typed Γ → (∀ x, ¬ S.graph.Writes x → s x = s₀ x) →
          InvariantAt z S h s → SafeFrom z S h s) := by
  obtain ⟨vc, hvc⟩ := exists_buildVc hS hC hpre
  refine ⟨vc, hvc, valid_iff.trans (forall_congr' fun s₀ => imp_congr_right fun hs => ?_)⟩
  exact (condition_always z hS hpre hvc).2 s₀ hs

/-! ## counting up with calls -/

/-- A loop sets `i` to its successor until it is `n`. -/
def countUp : Setting where
  graph := { blocks := [
    { ops := [.assign ⟨"i", .int⟩ (.num 0)], term := some (.goto 1) },
    { term := some (.branch (.bin .lt (.var ⟨"i", .int⟩) (.var ⟨"n", .int⟩)) 2 3),
      invariant := some (.bin .le (.var ⟨"i", .int⟩) (.var ⟨"n", .int⟩)) },
    { ops := [.call (some ⟨"i", .int⟩) "succ" [.var ⟨"i", .int⟩]], term := some (.goto 1) },
    { term := some (.ret (some (.var ⟨"i", .int⟩))) }] }
  contracts := ⟨[("succ", ⟨"succ", [⟨"k", .int⟩], .int, .truth,
    .bin .eq (.var ⟨resultName, .int⟩) (.bin .add (.var ⟨"k", .int⟩) (.num 1))⟩)]⟩
  post := .bin .eq (.var ⟨resultName, .int⟩) (.var ⟨"n", .int⟩)

theorem declared_of_all {Γ : String → Ty} {e : Expr}
    (h : (e.vars.all fun v => decide ('#' ∉ v.name.toList) && decide (v.type = Γ v.name)) = true) : e.Declared Γ := by
  intro v hv
  have := List.all_eq_true.1 h v hv
  simp only [Bool.and_eq_true, decide_eq_true_eq] at this
  exact ⟨Fresh.plain_of_notMem this.1, this.2⟩

theorem countUp_scoped : countUp.Scoped fun _ => .int := by
  have hi : (⟨"i", .int⟩ : Var).Declared fun _ => .int := ⟨Fresh.plain_of_notMem (by decide), rfl⟩
  refine ⟨declared_of_all (by decide), fun k b _ hb => ?_⟩
  have hmem := mem_blocks_of_block hb
  simp only [countUp, List.mem_cons, List.not_mem_nil, or_false] at hmem
  rcases hmem with rfl | rfl | rfl | rfl
  · refine ⟨fun op hop => ?_, fun t ht => ?_, nofun⟩
    · cases List.mem_singleton.1 hop
      exact ⟨hi, declared_of_all (by decide)⟩
    · cases ht
      trivial
  · refine ⟨nofun, fun t ht => ?_, fun e he => ?_⟩
    · cases ht
      exact declared_of_all (e := .bin .lt (.var ⟨"i", .int⟩) (.var ⟨"n", .int⟩)) (by decide)
    · cases he
      exact declared_of_all (by decide)
  · refine ⟨fun op hop => ?_, fun t ht => ?_, nofun⟩
    · cases List.mem_singleton.1 hop
      refine ⟨fun w hw => by cases hw; exact hi, fun e he => ?_, fun c hc => ?_⟩
      · cases List.mem_singleton.1 he
        exact declared_of_all (by decide)
      · cases hc
        exact ⟨⟨by decide, by decide⟩, fun w hw => by cases hw; rfl⟩
    · cases ht
      trivial
  · refine ⟨nofun, fun t ht => ?_, nofun⟩
    cases ht
    intro v hv
    cases hv
    exact declared_of_all (by decide)

theorem countUp_complete : countUp.Complete := by
  have hedges : countUp.graph.backEdges = .ok [(2, 1)] := by decide +kernel
  refine ⟨by decide, fun k b _ hb => ?_, fun h b hh hb => ?_, fun k b _ hb => ?_⟩
  · have hmem := mem_blocks_of_block hb
    simp only [countUp, List.mem_cons, List.not_mem_nil, or_false] at hmem
    rcases hmem with rfl | rfl | rfl | rfl <;> exact ⟨_, rfl⟩
  · obtain ⟨edges, u, he, hm⟩ := hh
    rw [hedges] at he
    cases he
    cases List.mem_singleton.1 hm
    cases hb
    exact ⟨_, rfl⟩
  · have hmem := mem_blocks_of_block hb
    simp only [countUp, List.mem_cons, List.not_mem_nil, or_false] at hmem
    rcases hmem with rfl | rfl | rfl | rfl <;> intro op hop
    · cases List.mem_singleton.1 hop
      trivial
    · cases hop
    · cases List.mem_singleton.1 hop
      exact ⟨_, rfl, rfl⟩
    · cases hop

theorem countUp_exact :
    ∃ vc, buildVc (.bin .le (.num 0) (.var ⟨"n", .int⟩)) countUp.post countUp.graph countUp.contracts = .ok vc ∧
      (vc.Valid id ↔ ∀ s₀ : Store, s₀.Typed (fun _ => .int) →
        (Expr.bin .le (.num 0) (.var ⟨"n", .int⟩)).Holds id s₀.read →
        SafeAt id countUp countUp.graph.entry s₀ ∧
        ∀ h, countUp.graph.IsHeader h → ∀ s : Store, s.Typed (fun _ => .int) →
          (∀ x, ¬ countUp.graph.Writes x → s x = s₀ x) → InvariantAt id countUp h s → SafeFrom id countUp h s) :=
  buildVc_exact id countUp_scoped countUp_complete (declared_of_all (by decide))

end ContractVerifier.Wp
