import ContractVerifier.Proofs.Flow.Cycle
import ContractVerifier.Proofs.Flow.Writes
import ContractVerifier.Proofs.Wp.Block

/-!
# The generator ends

From one block to the next the generator goes along edges and stops at loop headers, which cut all
cycles.  So the bound on its walks is never met, and while a block is worked on no call beneath
comes back to it.

* `Fills K st st'` : from `st` to `st'` some blocks of `K` were put into the cache, none twice and
  none that was there;
* `Gen.Settles K x st` : a run of `x` from `st` does not meet the bound, and fills the cache with
  blocks of `K`;
* `settles_wp` : what is put in for a block are headers and blocks of a rank up to its own;
* `wp_fuel` : the bound does not matter.
-/

namespace ContractVerifier.Wp

open ContractVerifier.Flow ContractVerifier.Flow.Graph

/-! ## the cache -/

/-- What a step put into the cache. -/
def Step.visit? : Step → Option (Node × Expr)
  | visited i e => some (i, e)
  | _ => none

/-- All that was put into the cache, the earliest first. -/
def State.visits (st : State) : List (Node × Expr) := st.steps.reverse.filterMap Step.visit?

/-- From `st` to `st'` the entries `new` were put into the cache. -/
structure Added (K : Node → Prop) (st st' : State) (new : List (Node × Expr)) : Prop where
  cache : st'.cache.entries = st.cache.entries ++ new
  visits : st'.visits = st.visits ++ new
  nodup : (new.map (·.1)).Nodup
  fresh : ∀ p ∈ new, K p.1 ∧ p.1 ∉ st.cache.keys

def Fills (K : Node → Prop) (st st' : State) : Prop := ∃ new, Added K st st' new

section

variable {K L : Node → Prop} {st st' st'' : State}

theorem fills_of_eq (hc : st'.cache = st.cache) (hv : st'.visits = st.visits) : Fills K st st' :=
  ⟨[], by rw [hc, List.append_nil], by rw [hv, List.append_nil], List.nodup_nil, by simp⟩

theorem Fills.mono (h : Fills K st st') (hkl : ∀ i, K i → L i) : Fills L st st' := by
  obtain ⟨new, hc, hv, hn, hf⟩ := h
  exact ⟨new, hc, hv, hn, fun p hp => ⟨hkl _ (hf p hp).1, (hf p hp).2⟩⟩

theorem Added.mem_keys {new : List (Node × Expr)} (h : Added K st st' new) {i : Node} :
    i ∈ st'.cache.keys ↔ i ∈ st.cache.keys ∨ i ∈ new.map (·.1) := by
  unfold Keyed.keys
  rw [h.cache, List.map_append, List.mem_append]

theorem Fills.trans (h : Fills K st st') (h' : Fills K st' st'') : Fills K st st'' := by
  obtain ⟨new, h⟩ := h
  obtain ⟨new', h'⟩ := h'
  refine ⟨new ++ new', ?_, ?_, ?_, ?_⟩
  · rw [h'.cache, h.cache, List.append_assoc]
  · rw [h'.visits, h.visits, List.append_assoc]
  · rw [List.map_append]
    refine h.nodup.append h'.nodup fun i hi hi' => ?_
    obtain ⟨p, hp, rfl⟩ := List.mem_map.1 hi'
    exact (h'.fresh p hp).2 (h.mem_keys.2 (.inr hi))
  · intro p hp
    rcases List.mem_append.1 hp with hp | hp
    · exact h.fresh p hp
    · exact ⟨(h'.fresh p hp).1, fun hk => (h'.fresh p hp).2 (h.mem_keys.2 (.inl hk))⟩

theorem Fills.notMem_keys (h : Fills K st st') {i : Node} (hi : i ∉ st.cache.keys) (hk : ¬ K i) : i ∉ st'.cache.keys := by
  obtain ⟨new, h⟩ := h
  rw [h.mem_keys]
  rintro (hm | hm)
  · exact hi hm
  · obtain ⟨p, hp, rfl⟩ := List.mem_map.1 hm
    exact hk (h.fresh p hp).1

theorem fills_visit {i : Node} {e : Expr} (hk : K i) (hi : i ∉ st.cache.keys) :
    Fills K st { st with steps := .visited i e :: st.steps, cache := st.cache.put i e } := by
  refine ⟨[(i, e)], Keyed.putList_of_notMem hi, ?_, List.nodup_singleton _, ?_⟩
  · simp [State.visits, Step.visit?]
  · intro p hp
    rw [List.mem_singleton.1 hp]
    exact ⟨hk, hi⟩

end

/-! ## runs -/

/-- A run that stays within the bound on walks, whether it returns or fails. -/
structure Gen.Settles {α : Type} (K : Node → Prop) (x : Gen α) (st : State) : Prop where
  ends : (x.exec st).1 ≠ .error (.fault .uncutCycle)
  fills : Fills K st (x.exec st).2

namespace Gen

variable {α β : Type} {K L : Node → Prop} {st : State}

theorem Settles.mono {x : Gen α} (h : Settles K x st) (hkl : ∀ i, K i → L i) : Settles L x st :=
  ⟨h.ends, h.fills.mono hkl⟩

theorem settles_pure (a : α) (st : State) : Settles K (pure a) st := ⟨nofun, fills_of_eq rfl rfl⟩

theorem settles_throw {e : Failure} (he : e ≠ .fault .uncutCycle) (st : State) :
    Settles K (throw e : Gen α) st :=
  ⟨fun h => he (Except.error.inj h), fills_of_eq rfl rfl⟩

theorem settles_raise (e : Error) (st : State) : Settles K (raise e : Gen α) st := settles_throw (by simp) st

theorem settles_bind {x : Gen β} {f : β → Gen α} (hx : Settles K x st)
    (hf : ∀ a st', x.exec st = (.ok a, st') → Settles K (f a) st') : Settles K (x >>= f) st := by
  obtain ⟨he, hs⟩ := hx
  have hbind := exec_bind x f st
  cases hr : x.exec st with
  | mk r st' =>
    rw [hr] at he hs hbind
    cases r with
    | error e => exact ⟨by rw [hbind]; exact fun h => he (by cases h; rfl), by rw [hbind]; exact hs⟩
    | ok a =>
      obtain ⟨he', hs'⟩ := hf a st' hr
      exact ⟨by rw [hbind]; exact he', by rw [hbind]; exact hs.trans hs'⟩

theorem settles_freshVar (v : Var) (st : State) : Settles K (freshVar v) st :=
  ⟨nofun, fills_of_eq rfl rfl⟩

theorem settles_freshVars (vs : List Var) (st : State) : Settles K (freshVars vs) st :=
  ⟨nofun, fills_of_eq rfl rfl⟩

theorem settles_note {s : Step} (hs : s.visit? = none) (st : State) : Settles K (note s) st := by
  refine ⟨nofun, fills_of_eq rfl ?_⟩
  show (s :: st.steps).reverse.filterMap Step.visit? = _
  simp [State.visits, hs]

end Gen

/-! ## blocks -/

section

open Gen

variable {gen : Generator} {K : Node → Prop} {rank : Node → Nat}

theorem settles_callWp (line : Option Int) (t : Option Var) (f : String) (args : List Expr)
    (post : Expr) (st : State) :
    Settles K (gen.callWp line t f args post) st := by
  unfold Generator.callWp
  cases gen.contractOf line f args with
  | error e => exact settles_bind (settles_raise e st) fun _ _ h => nomatch h
  | ok c =>
    refine settles_bind (settles_pure c st) fun _ _ _ => ?_
    refine settles_bind (settles_freshVar _ _) fun _ _ _ => ?_
    exact settles_bind (settles_note rfl _) fun _ _ _ => settles_pure _ _

theorem settles_opsWp (line : Option Int) (ops : List Op) (post : Expr) (st : State) :
    Settles K (gen.opsWp line ops post) st := by
  induction ops with
  | nil => exact settles_pure _ _
  | cons op ops ih =>
    refine settles_bind ih fun e st' _ => ?_
    cases op with
    | assign x v => exact settles_pure _ _
    | call t f args => exact settles_callWp line t f args e st'

theorem settles_termWp {wp : Node → Gen Expr} {i : Node} {t : Option Terminator} (st : State)
    (hwp : ∀ u, t = some u → ∀ j ∈ u.successors, ∀ st', Settles K (wp j) st') : Settles K (gen.termWp wp i t) st := by
  cases t with
  | none => exact settles_throw (by simp) _
  | some u =>
    cases u with
    | ret v => cases v <;> exact settles_pure _ _
    | goto j => exact hwp _ rfl j (by simp [Terminator.successors]) st
    | branch g j k =>
      refine settles_bind (hwp _ rfl j (by simp [Terminator.successors]) st) fun _ st' _ => ?_
      refine settles_bind (hwp _ rfl k (by simp [Terminator.successors]) st') fun _ _ _ => ?_
      exact settles_pure _ _

theorem settles_blockWp {wp : Node → Gen Expr} {i : Node} {b : Block} (st : State)
    (hwp : ∀ j ∈ b.successors, ∀ st', Settles K (wp j) st') : Settles K (gen.blockWp wp i b) st := by
  rw [blockWp_eq]
  refine settles_bind (settles_termWp st fun u hu j hj => hwp j (mem_successors hu hj)) fun e st' _ => ?_
  exact settles_opsWp b.line b.ops e st'

theorem blockWp_congr {wp wp' : Node → Gen Expr} {i : Node} {b : Block}
    (h : ∀ j ∈ b.successors, wp j = wp' j) :
    gen.blockWp wp i b = gen.blockWp wp' i b := by
  rw [blockWp_eq, blockWp_eq]
  have hj : ∀ u, b.term = some u → ∀ j ∈ u.successors, wp j = wp' j :=
    fun u hu j hj => h j (mem_successors hu hj)
  congr 1
  unfold Generator.termWp
  split
  · rfl
  · rfl
  · rename_i j ht
    exact hj _ ht j (by simp [Terminator.successors])
  · rename_i g j k ht
    rw [hj _ ht j (by simp [Terminator.successors]), hj _ ht k (by simp [Terminator.successors])]
  · rfl

theorem settles_block (i : Node) (st : State) : Settles K (gen.block i) st := by
  unfold Generator.block
  cases gen.graph.block? i with
  | none => exact settles_throw (by simp) _
  | some b => exact settles_pure _ _

theorem settles_headerInvariant (b : Block) (st : State) : Settles K (Generator.headerInvariant b) st := by
  unfold Generator.headerInvariant
  cases Generator.invariantOf b with
  | error e => exact settles_raise _ _
  | ok e => exact settles_pure _ _

theorem block_ok {i : Node} {b : Block} {st st' : State}
    (h : (gen.block i).exec st = (.ok b, st')) :
    gen.graph.block? i = some b ∧ st' = st := by
  unfold Generator.block at h
  cases hb : gen.graph.block? i with
  | none =>
    rw [hb] at h
    cases h
  | some b' =>
    rw [hb] at h
    cases h
    exact ⟨rfl, rfl⟩

theorem headerInvariant_ok {b : Block} {e : Expr} {st st' : State}
    (h : (Generator.headerInvariant b).exec st = (.ok e, st')) : st' = st := by
  unfold Generator.headerInvariant at h
  cases hb : Generator.invariantOf b with
  | error _ =>
    rw [hb] at h
    cases h
  | ok _ =>
    rw [hb] at h
    cases h
    rfl

/-! ## from block to block -/

/-- What a walk from a block of a rank below `m` may meet. -/
def Below (g : Graph) (rank : Node → Nat) (m : Nat) (k : Node) : Prop :=
  g.Reaches k ∧ (g.IsHeader k ∨ rank k < m)

theorem Below.mono {g : Graph} {m n : Nat} (hmn : m ≤ n) (k : Node) (h : Below g rank m k) :
    Below g rank n k :=
  ⟨h.1, h.2.imp_right fun hk => hk.trans_le hmn⟩

theorem settles_wp (hl : gen.graph.loops = .ok gen.loops) (hr : gen.graph.Descends rank)
    {fuel m : Nat} {i : Node} (hi : Below gen.graph rank m i) (hf : 0 < fuel ∧ m ≤ fuel)
    (st : State) :
    Settles (Below gen.graph rank m) (gen.wp fuel i) st := by
  induction fuel generalizing m i st with
  | zero => exact absurd hf.1 (Nat.lt_irrefl 0)
  | succ n ih =>
    refine settles_bind ⟨nofun, fills_of_eq rfl rfl⟩ fun st₀ _ hget => ?_
    cases hget
    cases hc : st.cache.get? i with
    | some e => exact settles_pure _ _
    | none =>
      have habsent : i ∉ st.cache.keys := (st.cache.get?_eq_none_iff i).1 hc
      refine settles_bind (settles_block i st) fun b st₁ hrun => ?_
      obtain ⟨hb, hst⟩ := block_ok hrun
      rw [hst]
      by_cases hh : gen.graph.IsHeader i
      · rw [if_pos ((contains_loops hl).2 hh)]
        refine settles_bind (settles_headerInvariant b st) fun e st₁ he => ?_
        rw [headerInvariant_ok he]
        exact ⟨nofun, fills_visit hi habsent⟩
      · have hrank : rank i < m := hi.2.resolve_left hh
        have hpos : 0 < rank i := (hr i hi.1).1
        -- the blocks beneath have lower ranks, so that `i` is not among those they put in
        have hblock : Settles (Below gen.graph rank (rank i)) (gen.blockWp (gen.wp n) i b) st := by
          refine settles_blockWp st fun j hj st' => ?_
          have hij : gen.graph.Edge i j := (edge_iff hb).2 hj
          exact ih ⟨hi.1.step hij, (hr i hi.1).2 j hij⟩ ⟨by omega, by omega⟩ st'
        have hself : ¬ Below gen.graph rank (rank i) i := fun h => (h.2.resolve_left hh).false
        rw [if_neg fun h => hh ((contains_loops hl).1 h)]
        refine settles_bind (hblock.mono (Below.mono hrank.le)) fun e st₁ he => ?_
        have hfills := hblock.fills
        rw [he] at hfills
        exact ⟨nofun, fills_visit hi (hfills.notMem_keys habsent hself)⟩

/-- Two bounds that no walk from a block meets give the same. -/
theorem wp_fuel (hl : gen.graph.loops = .ok gen.loops) (hr : gen.graph.Descends rank) {n m : Nat}
    {i : Node} (hn : 0 < n ∧ Below gen.graph rank n i) (hm : 0 < m ∧ Below gen.graph rank m i) :
    gen.wp n i = gen.wp m i := by
  induction n generalizing m i with
  | zero => exact absurd hn.1 (Nat.lt_irrefl 0)
  | succ n ih =>
    obtain ⟨m, rfl⟩ := Nat.exists_eq_succ_of_ne_zero hm.1.ne'
    obtain ⟨hi, hn⟩ := hn.2
    have hm := hm.2.2
    unfold Generator.wp
    by_cases hh : gen.graph.IsHeader i
    · simp only [(contains_loops hl).2 hh, if_true]
    · have hlt := hn.resolve_left hh
      have hlt' := hm.resolve_left hh
      have hpos : 0 < rank i := (hr i hi).1
      have hblock : ∀ b, gen.graph.block? i = some b → gen.blockWp (gen.wp n) i b = gen.blockWp (gen.wp m) i b := by
        intro b hb
        refine blockWp_congr fun j hj => ?_
        have hij : gen.graph.Edge i j := (edge_iff hb).2 hj
        have hrank := (hr i hi).2 j hij
        exact ih ⟨by omega, hi.step hij, hrank.imp_right fun h => by omega⟩
          ⟨by omega, hi.step hij, hrank.imp_right fun h => by omega⟩
      refine congrArg _ (funext fun st => ?_)
      cases st.cache.get? i with
      | some e => rfl
      | none =>
        unfold Generator.block
        cases hb : gen.graph.block? i with
        | none => rfl
        | some b => simp only [pure_bind, hblock b hb]

/-! ## obligations -/

theorem settles_rawObligations {h : Node} {b : Block} {inv : Expr} (st : State)
    (hwp : ∀ j ∈ b.successors, ∀ st', Settles K (gen.wp gen.fuel j) st') :
    Settles K (gen.rawObligations h b inv) st := by
  unfold Generator.rawObligations
  split
  · rename_i g j k ht hops
    have hj := hwp j (mem_successors ht (by simp [Terminator.successors]))
    have hk := hwp k (mem_successors ht (by simp [Terminator.successors]))
    refine settles_bind (hj st) fun _ st' _ => ?_
    exact settles_bind (hk st') fun _ _ _ => settles_pure _ _
  · exact settles_bind (settles_blockWp st hwp) fun _ _ _ => settles_pure _ _

theorem settles_loopObligations {h : Node} (hv : gen.graph.Valid) (st : State)
    (hwp : ∀ j, gen.graph.Edge h j → ∀ st', Settles K (gen.wp gen.fuel j) st') :
    Settles K (gen.loopObligations h) st := by
  unfold Generator.loopObligations
  refine settles_bind (settles_block h st) fun b st₁ hrun => ?_
  obtain ⟨hb, -⟩ := block_ok hrun
  refine settles_bind (settles_headerInvariant b st₁) fun inv st₂ _ => ?_
  refine settles_bind (settles_rawObligations st₂ fun j hj => hwp j ((edge_iff hb).2 hj)) fun os st₃ _ => ?_
  obtain ⟨vs, hvs⟩ := exists_reachable_assigned hv
  rw [hvs]
  refine settles_bind (settles_pure vs st₃) fun _ _ _ => ?_
  refine settles_bind (settles_freshVars _ _) fun _ _ _ => ?_
  exact settles_bind (settles_note rfl _) fun _ _ _ => settles_pure _ _

theorem settles_checkInvariants (hs : List Node) (st : State) : Settles K (gen.checkInvariants hs) st := by
  induction hs generalizing st with
  | nil => exact settles_pure _ _
  | cons h hs ih =>
    refine settles_bind (settles_block h st) fun b st₁ _ => ?_
    exact settles_bind (settles_headerInvariant b st₁) fun _ st₂ _ => ih st₂

theorem settles_addObligations {hs : List Node} (st : State)
    (hh : ∀ h ∈ hs, ∀ st', Settles K (gen.loopObligations h) st') : Settles K (gen.addObligations hs) st := by
  induction hs generalizing st with
  | nil => exact settles_pure _ _
  | cons h hs ih =>
    rw [List.forall_mem_cons] at hh
    refine settles_bind (hh.1 st) fun os st₁ _ => ?_
    exact settles_bind ⟨nofun, fills_of_eq rfl rfl⟩ fun _ st₂ _ => ih st₂ hh.2

end

/-! ## the generator -/

/-- The bound on walks is never met, by what is asked of any reachable block and in any state, and
does not matter; and every run puts the formula of a block into the cache at most once. -/
structure Generator.Terminates (gen : Generator) : Prop where
  descends : ∀ i, gen.graph.Reaches i → Acc (fun k j => ¬ gen.graph.IsHeader j ∧ gen.graph.Edge j k) i
  fuel : ∀ i n, gen.graph.Reaches i → gen.fuel ≤ n → gen.wp n i = gen.wp gen.fuel i
  wp : ∀ i st, gen.graph.Reaches i → Gen.Settles gen.graph.Reaches (gen.wp gen.fuel i) st
  blockWp : ∀ i b st, gen.graph.Reaches i → gen.graph.block? i = some b →
    Gen.Settles gen.graph.Reaches (gen.blockWp (gen.wp gen.fuel) i b) st
  loopObligations : ∀ h st, gen.graph.Reaches h → Gen.Settles gen.graph.Reaches (gen.loopObligations h) st
  generate : ∀ st, Gen.Settles gen.graph.Reaches gen.generate st

theorem terminates {gen : Generator} (hv : gen.graph.Valid) (hl : gen.graph.loops = .ok gen.loops) : gen.Terminates := by
  obtain ⟨rank, hr, hrank⟩ := exists_descends hv
  have hbelow : ∀ i, gen.graph.Reaches i → Below gen.graph rank gen.fuel i :=
    fun i hi => ⟨hi, .inr (Nat.lt_succ_of_le (hrank i))⟩
  have hwp : ∀ i st, gen.graph.Reaches i → Gen.Settles gen.graph.Reaches (gen.wp gen.fuel i) st :=
    fun i st hi => (settles_wp hl hr (hbelow i hi) ⟨Nat.succ_pos _, le_rfl⟩ st).mono fun _ h => h.1
  have hob : ∀ h st, gen.graph.Reaches h → Gen.Settles gen.graph.Reaches (gen.loopObligations h) st :=
    fun h st hh => settles_loopObligations hv st fun j hj st' => hwp j st' (hh.step hj)
  refine ⟨fun i hi => acc_step hr hi, fun i n hi hn => ?_, hwp, fun i b st hi hb => ?_, hob, fun st => ?_⟩
  · have hpos : 0 < n := Nat.lt_of_lt_of_le (Nat.succ_pos _) hn
    exact wp_fuel hl hr ⟨hpos, Below.mono hn i (hbelow i hi)⟩ ⟨Nat.succ_pos _, hbelow i hi⟩
  · exact settles_blockWp st fun j hj st' => hwp j st' (hi.step ((edge_iff hb).2 hj))
  · have hheader : ∀ h ∈ gen.loops.keys, gen.graph.Reaches h := by
      intro h hh
      exact ((contains_loops hl).1 ((Keyed.contains_iff ..).2 ((Keyed.mem_keys_iff ..).1 hh))).reaches
    refine Gen.settles_bind (settles_checkInvariants _ st) fun _ st₁ _ => ?_
    refine Gen.settles_bind (hwp _ st₁ .refl) fun _ st₂ _ => ?_
    refine Gen.settles_bind ?_ fun _ st₃ _ => Gen.settles_pure _ st₃
    exact settles_addObligations st₂ fun h hh st' => hob h st' (hheader h hh)

theorem exists_make {g : Graph} (hv : g.Valid) (post : Expr) (contracts : Contracts) :
    ∃ gen, Generator.make g post contracts = .ok gen ∧ gen.graph = g ∧ g.loops = .ok gen.loops := by
  obtain ⟨ls, hl⟩ := exists_loops hv
  unfold Generator.make
  rw [hl]
  exact ⟨_, rfl, rfl, rfl⟩

/-- Loop headers cut every cycle of reachable blocks, and there are none only where there is no
cycle; so the generator terminates on every graph, whatever the entries of its loops, and works on
each block once. -/
theorem headers_cut_cycles {g : Graph} (hv : g.Valid) :
    ∃ edges, g.backEdges = .ok edges ∧
      (∀ i p, g.Reaches i → (i :: (p ++ [i])).IsChain g.Edge → ∃ h ∈ i :: p, ∃ u, (u, h) ∈ edges) ∧
      (edges = [] ↔ ∀ i, g.Reaches i → ¬ Relation.TransGen g.Edge i i) ∧
      ∀ post contracts, ∃ gen, Generator.make g post contracts = .ok gen ∧ gen.graph = g ∧ gen.Terminates := by
  obtain ⟨edges, he⟩ := exists_backEdges hv
  obtain ⟨rank, hr, -⟩ := exists_descends hv
  refine ⟨edges, he, fun i p hi hc => ?_, backEdges_eq_nil_iff he, fun post contracts => ?_⟩
  · obtain ⟨h, hh, edges', u, he', hu⟩ := exists_header hr hi hc
    rw [he] at he'
    cases he'
    exact ⟨h, hh, u, hu⟩
  · obtain ⟨gen, hmake, rfl, hl⟩ := exists_make hv post contracts
    exact ⟨gen, hmake, rfl, terminates hv hl⟩

/-- A loop of two blocks that can both be entered from outside. -/
def twoEntries : Graph where
  blocks := [{ term := some (.branch (.var ⟨"p", .bool⟩) 1 2) }, { term := some (.goto 2) },
    { term := some (.branch (.var ⟨"q", .bool⟩) 1 3) }, { term := some (.ret none) }]

theorem twoEntries_terminates :
    twoEntries.Valid ∧ ∃ edges, twoEntries.backEdges = .ok edges ∧
      (∃ h ∈ [1, 2], ∃ u, (u, h) ∈ edges) ∧
      ∃ gen, Generator.make twoEntries (.lit (.bool true)) .empty = .ok gen ∧ gen.Terminates := by
  have hv : twoEntries.Valid := by decide
  have hedge : ∀ i j, j ∈ twoEntries.successors i → twoEntries.Edge i j := fun _ _ h => h
  have hreach : twoEntries.Reaches 1 := .tail .refl (hedge 0 1 (by decide))
  obtain ⟨edges, he, hcut, -, hgen⟩ := headers_cut_cycles hv
  obtain ⟨gen, hmake, -, hterm⟩ := hgen (.lit (.bool true)) .empty
  refine ⟨hv, edges, he, hcut 1 [2] hreach ?_, gen, hmake, hterm⟩
  simp only [List.cons_append, List.nil_append, List.isChain_cons_cons, List.isChain_singleton,
    and_true]
  exact ⟨hedge 1 2 (by decide), hedge 2 1 (by decide)⟩

end ContractVerifier.Wp
