import ContractVerifier.Proofs.Wp.Always
import ContractVerifier.Proofs.Wp.Spec

/-!
# The precondition of a block is exact

The formula that the generator computes for a block is always true in exactly those stores from
which all walks end well.

* `Setting.Scoped` : names are those of a program, each with one type;
* `Setting.Complete` : what the generator asks of a graph, so that it does not fail;
* `Denotes` : a formula says exactly `P` of a store;
* `spec_opsWp`, `spec_blockWp`, `spec_wp` : from the operations of a block to the walks that arrive
  at it.
-/

namespace ContractVerifier

open ContractVerifier.Flow ContractVerifier.Flow.Graph

/-! ## scopes -/

namespace Flow

/-- A call with a contract has conditions over its parameters and a target of its result type. -/
def Op.Scoped (Γ : String → Ty) (cs : Contracts) : Op → Prop
  | assign x e => x.Declared Γ ∧ e.Declared Γ
  | call t f args => (∀ w, t = some w → w.Declared Γ) ∧ (∀ e ∈ args, e.Declared Γ) ∧
      ∀ c, cs.get? f = some c → c.Scoped ∧ ∀ w, t = some w → w.type = c.result

def Terminator.Scoped (Γ : String → Ty) : Terminator → Prop
  | goto _ => True
  | branch e _ _ => e.Declared Γ
  | ret e => ∀ v, e = some v → v.Declared Γ

structure Block.Scoped (Γ : String → Ty) (cs : Contracts) (b : Block) : Prop where
  ops : ∀ op ∈ b.ops, op.Scoped Γ cs
  term : ∀ t, b.term = some t → t.Scoped Γ
  invariant : ∀ e, b.invariant = some e → e.Declared Γ

/-- A call has a contract, and arguments of the types of the parameters. -/
def Op.Complete (cs : Contracts) : Op → Prop
  | assign _ _ => True
  | call _ f args => ∃ c, cs.get? f = some c ∧ args.map Expr.typeOf = c.params.map fun p => .ok p.type

end Flow

namespace Wp

structure Setting.Scoped (Γ : String → Ty) (S : Setting) : Prop where
  post : S.post.Declared Γ
  block : ∀ i b, S.graph.Reaches i → S.graph.block? i = some b → b.Scoped Γ S.contracts

structure Setting.Complete (S : Setting) : Prop where
  valid : S.graph.Valid
  terminated : ∀ i b, S.graph.Reaches i → S.graph.block? i = some b → ∃ t, b.term = some t
  annotated : ∀ h b, S.graph.IsHeader h → S.graph.block? h = some b → ∃ e, b.invariant = some e
  calls : ∀ i b, S.graph.Reaches i → S.graph.block? i = some b → ∀ op ∈ b.ops, op.Complete S.contracts

def Generator.setting (gen : Generator) : Setting := ⟨gen.graph, gen.contracts, gen.post⟩

/-! ## what the formulas say -/

section

variable (z : Int → Int) (Γ : String → Ty)

structure Denotes (c : Counters) (e : Expr) (P : Store → Prop) : Prop where
  known : e.Known Γ c
  always : ∀ s, Always z Γ e s ↔ P s

/-- Every formula that is kept says that the walks that arrive at its block end well. -/
def Kept (gen : Generator) (st : State) : Prop :=
  ∀ i e, st.cache.get? i = some e → Denotes z Γ st.counters e (SafeAt z gen.setting i)

/-- The generator went on from one state to the other, and added no obligation. -/
structure Later (gen : Generator) (st st' : State) : Prop where
  grow : Fresh.Grow st.counters st'.counters
  obligations : st'.obligations = st.obligations
  kept : Kept z Γ gen st → Kept z Γ gen st'

end

section

variable {z : Int → Int} {Γ : String → Ty} {T : Prop} {gen : Generator} {st st' st'' : State} {c d : Counters}

theorem Denotes.mono {e : Expr} {P : Store → Prop} (h : Denotes z Γ c e P) (hg : Fresh.Grow c d) :
    Denotes z Γ d e P :=
  ⟨h.known.mono hg, h.always⟩

theorem Denotes.congr {e : Expr} {P Q : Store → Prop} (h : Denotes z Γ c e P)
    (hpq : ∀ s, P s ↔ Q s) :
    Denotes z Γ c e Q :=
  ⟨h.known, fun s => (h.always s).trans (hpq s)⟩

theorem denotes_declared {e : Expr} (he : e.Declared Γ) :
    Denotes z Γ c e fun s => e.Holds z s.read :=
  ⟨he.known, fun _ => always_declared he⟩

theorem denotes_subst {e t : Expr} {x : String} {P : Store → Prop} (h : Denotes z Γ c e P)
    (ht : t.Declared Γ) (hx : Fresh.Plain x) :
    Denotes z Γ c (e.subst x t) fun s => P (s.set x (t.value z s)) :=
  ⟨h.known.subst ht.known, fun _ => (always_subst h.known ht hx).trans (h.always _)⟩

theorem denotes_branch {g p q : Expr} {P Q : Store → Prop} (hg : g.Declared Γ)
    (hp : Denotes z Γ c p P) (hq : Denotes z Γ c q Q) :
    Denotes z Γ c (Expr.conjoin [g.implies p, g.negate.implies q]) fun s =>
      (g.Holds z s.read → P s) ∧ (¬ g.Holds z s.read → Q s) := by
  refine ⟨Expr.Known.conjoin fun e he => ?_, fun s => ?_⟩
  · rcases List.mem_pair.1 he with rfl | rfl
    · exact hg.known.implies hp.known
    · exact hg.known.negate.implies hq.known
  · rw [always_branch hg, hp.always, hq.always]

theorem Later.refl (st : State) : Later z Γ gen st st := ⟨Fresh.Grow.refl _, rfl, id⟩

theorem Later.trans (h : Later z Γ gen st st') (h' : Later z Γ gen st' st'') :
    Later z Γ gen st st'' :=
  ⟨h.grow.trans h'.grow, h'.obligations.trans h.obligations, fun hk => h'.kept (h.kept hk)⟩

/-- Nothing was kept but names were given. -/
theorem later_of_cache (hc : st'.cache = st.cache) (ho : st'.obligations = st.obligations)
    (hg : Fresh.Grow st.counters st'.counters) : Later z Γ gen st st' :=
  ⟨hg, ho, fun hk i e he => (hk i e (hc ▸ he)).mono hg⟩

/-! ## calls -/

theorem known_substitute {e : Expr} {m : Keyed String Expr}
    (h : ∀ v ∈ e.vars, ∃ t, m.get? v.name = some t ∧ t.Known Γ c) : (e.substitute m).Known Γ c := by
  intro w hw
  rcases Expr.mem_vars_substitute hw with ⟨hv, hn⟩ | ⟨v, hv, t, ht, hw⟩
  · obtain ⟨t, ht, -⟩ := h w hv
    rw [hn] at ht
    cases ht
  · obtain ⟨u, hu, hk⟩ := h v hv
    rw [ht] at hu
    cases hu
    exact hk w hw

theorem known_actuals {k : Contract} {args : List Expr} (hl : args.length = k.params.length)
    (hargs : ∀ e ∈ args, e.Declared Γ) {x : String} (hx : x ∈ k.params.map (·.name)) :
    ∃ t, (Keyed.ofList ((k.params.map (·.name)).zip args)).get? x = some t ∧ t.Known Γ c := by
  obtain ⟨t, ht⟩ := get?_actuals hl hx
  exact ⟨t, ht, (hargs t (List.of_mem_zip (Keyed.mem_of_get?_ofList ht)).2).known⟩

theorem denotes_call {k : Contract} {args : List Expr} {post : Expr} {P : Store → Prop}
    {t : Option Var} {r : Var} (hk : k.Scoped) (hl : args.length = k.params.length)
    (hargs : ∀ e ∈ args, e.Declared Γ) (hp : Denotes z Γ c post P)
    (ht : ∀ w, t = some w → w.Declared Γ) (hg : Fresh.Grow c d) (hr : Fresh.Given d r.name)
    (hf : ¬ Fresh.Given c r.name) (hty : r.type = k.result) :
    Denotes z Γ d (callFormula k args t r post) fun s =>
      k.Pre z (args.map (·.value z s)) ∧ ∀ v : Value, v.Fits k.result →
        k.Post z (args.map (·.value z s)) v → P (s.bind t v) := by
  have hvar : (Expr.var r).Known Γ d := by
    intro v hv
    rw [List.mem_singleton.1 hv]
    exact .inr hr
  unfold callFormula
  refine ⟨Expr.Known.conjoin fun e he => ?_, fun s => ?_⟩
  · rcases List.mem_pair.1 he with rfl | rfl
    · exact known_substitute fun v hv => known_actuals hl hargs (hk.pre v hv)
    · refine Expr.Known.implies (known_substitute fun v hv => ?_) ?_
      · rw [Keyed.get?_put]
        by_cases hn : resultName = v.name
        · exact ⟨.var r, if_pos hn, hvar⟩
        · rw [if_neg hn]
          exact known_actuals hl hargs ((hk.post v hv).resolve_left (Ne.symm hn))
      · cases t with
        | none => exact hp.known.mono hg
        | some w => exact (hp.known.mono hg).subst hvar
  · refine (always_call hk hl hargs hp.known (fun w hw => (ht w hw).1) hr hf hty).trans ?_
    simp only [hp.always]

theorem checkArgs_ok {line : Option Int} {ps : List Var} {args : List Expr}
    (h : args.map Expr.typeOf = ps.map fun p => .ok p.type) : Generator.checkArgs line (ps.zip args) = .ok () := by
  induction ps generalizing args with
  | nil => rfl
  | cons p ps ih =>
    cases args with
    | nil => rfl
    | cons e args =>
      simp only [List.map_cons, List.cons.injEq] at h
      simp only [List.zip_cons_cons, Generator.checkArgs, h.1, if_true]
      exact ih h.2

theorem contractOf_ok {line : Option Int} {f : String} {args : List Expr} {k : Contract}
    (h : gen.contractOf line f args = .ok k) : gen.contracts.get? f = some k ∧ args.length = k.params.length := by
  unfold Generator.contractOf at h
  split at h
  · cases h
  · rename_i k' hk
    split at h
    · rename_i hl
      cases hc : Generator.checkArgs line (k'.params.zip args) with
      | error e => simp [hc, bind, Except.bind] at h
      | ok u =>
        simp only [hc, bind, Except.bind, Except.ok.injEq] at h
        exact ⟨h ▸ hk, h ▸ hl⟩
    · cases h

/-- The arguments that a check accepts have the types of the parameters. -/
theorem typeOf_of_checkArgs {line : Option Int} {ps : List Var} {args : List Expr}
    (hl : args.length = ps.length) (h : Generator.checkArgs line (ps.zip args) = .ok ()) :
    args.map Expr.typeOf = ps.map fun p => .ok p.type := by
  induction ps generalizing args with
  | nil => rw [List.length_eq_zero_iff.1 hl]; rfl
  | cons p ps ih =>
    cases args with
    | nil => cases hl
    | cons a args =>
      rw [List.zip_cons_cons, Generator.checkArgs] at h
      cases ha : a.typeOf with
      | error c =>
        rw [ha] at h
        cases h
      | ok t =>
        rw [ha] at h
        by_cases ht : t = p.type
        · simp only [if_pos ht] at h
          rw [List.map_cons, List.map_cons, ha, ht, ih (Nat.succ.inj hl) h]
        · simp only [if_neg ht] at h
          cases h

/-- The arguments of a call that is accepted fit its contract. -/
theorem typeOf_of_contractOf {line : Option Int} {f : String} {args : List Expr} {c : Contract}
    (h : gen.contractOf line f args = .ok c) : args.map Expr.typeOf = c.params.map fun p => .ok p.type := by
  obtain ⟨hget, hl⟩ := contractOf_ok h
  unfold Generator.contractOf at h
  simp only [hget, hl, if_true] at h
  cases hargs : Generator.checkArgs line (c.params.zip args) with
  | error e =>
    rw [hargs] at h
    cases h
  | ok u => exact typeOf_of_checkArgs hl hargs

theorem exists_contractOf {line : Option Int} {t : Option Var} {f : String} {args : List Expr}
    (h : (Op.call t f args).Complete gen.contracts) : ∃ k, gen.contractOf line f args = .ok k := by
  obtain ⟨k, hk, hty⟩ := h
  have hl : args.length = k.params.length := by simpa using congrArg List.length hty
  refine ⟨k, ?_⟩
  unfold Generator.contractOf
  simp only [hk, hl, if_true, checkArgs_ok hty]
  rfl

theorem spec_callWp {line : Option Int} {t : Option Var} {f : String} {args : List Expr}
    {post : Expr} {P : Store → Prop} (hop : (Op.call t f args).Scoped Γ gen.contracts)
    (hT : T → (Op.call t f args).Complete gen.contracts) (hp : Denotes z Γ st.counters post P) :
    Gen.Spec T (gen.callWp line t f args post) st fun e st' => Later z Γ gen st st' ∧
      ∃ k, gen.contracts.get? f = some k ∧ Denotes z Γ st'.counters e fun s =>
        k.Pre z (args.map (·.value z s)) ∧ ∀ v : Value, v.Fits k.result →
          k.Post z (args.map (·.value z s)) v → P (s.bind t v) := by
  obtain ⟨ht, hargs, hcs⟩ := hop
  unfold Generator.callWp
  cases hc : gen.contractOf line f args with
  | error e =>
    intro hT'
    obtain ⟨k, hk⟩ := exists_contractOf (hT hT')
    rw [hc] at hk
    cases hk
  | ok k =>
    obtain ⟨hget, hl⟩ := contractOf_ok hc
    obtain ⟨hk, hres⟩ := hcs k hget
    simp only [pure_bind, Gen.spec_pure, Gen.spec_bind, Gen.spec_freshVar, Gen.spec_note]
    generalize hw : t.getD ⟨resultName, k.result⟩ = w
    have hty : w.type = k.result := by
      rw [← hw]
      cases t with
      | none => rfl
      | some u => exact hres u rfl
    have hgrow : Fresh.Grow st.counters (Fresh.var st.counters w).2 := Fresh.grow_next _ _
    exact ⟨later_of_cache rfl rfl hgrow, k, hget,
      denotes_call hk hl hargs hp ht hgrow (Fresh.given_next _ _) (Fresh.not_given_next _ _) hty⟩

/-! ## operations -/

theorem spec_opsWp {line : Option Int} {ops : List Op} {post : Expr} {t : Option Terminator}
    (hops : ∀ op ∈ ops, op.Scoped Γ gen.contracts) (hT : T → ∀ op ∈ ops, op.Complete gen.contracts)
    (hp : Denotes z Γ st.counters post (Safe z gen.setting [] t)) :
    Gen.Spec T (gen.opsWp line ops post) st fun e st' =>
      Later z Γ gen st st' ∧ Denotes z Γ st'.counters e (Safe z gen.setting ops t) := by
  induction ops with
  | nil => exact ⟨Later.refl st, hp⟩
  | cons op ops ih =>
    have hop := hops op (List.mem_cons_self ..)
    unfold Generator.opsWp
    rw [Gen.spec_bind]
    refine (ih (fun o ho => hops o (List.mem_cons_of_mem _ ho))
      (fun h o ho => hT h o (List.mem_cons_of_mem _ ho))).mono ?_
    rintro e st' ⟨hl, he⟩
    cases op with
    | assign x v => exact ⟨hl, (denotes_subst he hop.2 hop.1.1).congr fun s => safe_assign.symm⟩
    | call x f args =>
      refine (spec_callWp hop (fun h => hT h _ (List.mem_cons_self ..)) he).mono ?_
      rintro e' st'' ⟨hl', k, hk, he'⟩
      exact ⟨hl.trans hl', he'.congr fun s => (safe_call (S := gen.setting) hk).symm⟩

/-! ## blocks -/

theorem plain_result : Fresh.Plain resultName := Fresh.plain_of_notMem (by decide)

/-- `wp` gives what holds of a block in exactly the stores in which walks that arrive there end
well. -/
def Exact (z : Int → Int) (Γ : String → Ty) (T : Prop) (gen : Generator) (wp : Node → Gen Expr)
    (j : Node) : Prop :=
  ∀ st, Kept z Γ gen st → Gen.Spec T (wp j) st fun e st' =>
    Later z Γ gen st st' ∧ Denotes z Γ st'.counters e (SafeAt z gen.setting j)

/-- The formula behind the operations. -/
def Generator.termWp (gen : Generator) (wp : Node → Gen Expr) (i : Node) :
    Option Terminator → Gen Expr
  | some (.ret none) => pure gen.post
  | some (.ret (some e)) => pure (gen.post.subst resultName e)
  | some (.goto j) => wp j
  | some (.branch g j k) => do
    let onTrue ← wp j
    let onFalse ← wp k
    pure (.conjoin [g.implies onTrue, g.negate.implies onFalse])
  | none => throw (.fault (.noTerminator (gen.graph.position i)))

theorem blockWp_eq (wp : Node → Gen Expr) (i : Node) (b : Block) :
    gen.blockWp wp i b = gen.termWp wp i b.term >>= gen.opsWp b.line b.ops := by
  unfold Generator.blockWp Generator.termWp
  rcases b.term with _ | _ | _ | _ | _ <;> simp only [bind_assoc]

theorem spec_termWp {wp : Node → Gen Expr} {i : Node} {t : Option Terminator}
    (hpost : gen.post.Declared Γ) (ht : ∀ u, t = some u → u.Scoped Γ) (hT : T → ∃ u, t = some u)
    (hwp : ∀ u, t = some u → ∀ j ∈ u.successors, Exact z Γ T gen wp j) (hk : Kept z Γ gen st) :
    Gen.Spec T (gen.termWp wp i t) st fun e st' =>
      Later z Γ gen st st' ∧ Denotes z Γ st'.counters e (Safe z gen.setting [] t) := by
  have hret : Denotes z Γ st.counters gen.post fun s => gen.post.Holds z s.read :=
    denotes_declared hpost
  cases t with
  | none =>
    intro h
    obtain ⟨u, hu⟩ := hT h
    cases hu
  | some u =>
    cases u with
    | ret v =>
      cases v with
      | none => exact ⟨Later.refl st, hret.congr fun s => (safe_ret (S := gen.setting) (e := none)).symm⟩
      | some v =>
        exact ⟨Later.refl st, (denotes_subst hret (ht _ rfl v rfl) plain_result).congr fun s =>
          (safe_ret (S := gen.setting) (e := some v)).symm⟩
    | goto j =>
      refine (hwp _ rfl j (by simp [Terminator.successors]) st hk).mono ?_
      rintro e st' ⟨hl, he⟩
      exact ⟨hl, he.congr fun s => (safe_jump rfl).symm⟩
    | branch g j k =>
      simp only [Generator.termWp, Gen.spec_bind, Gen.spec_pure]
      refine (hwp _ rfl j (by simp [Terminator.successors]) st hk).mono ?_
      rintro p st₁ ⟨h₁, hp⟩
      refine (hwp _ rfl k (by simp [Terminator.successors]) st₁ (h₁.kept hk)).mono ?_
      rintro q st₂ ⟨h₂, hq⟩
      exact ⟨h₁.trans h₂, (denotes_branch (ht _ rfl) (hp.mono h₂.grow) hq).congr fun s => safe_branch.symm⟩

theorem mem_successors {b : Block} {t : Terminator} {j : Node} (ht : b.term = some t)
    (hj : j ∈ t.successors) :
    j ∈ b.successors := by
  unfold Block.successors
  rw [ht]
  exact hj

theorem spec_blockWp {wp : Node → Gen Expr} {i : Node} {b : Block} (hpost : gen.post.Declared Γ)
    (hb : b.Scoped Γ gen.contracts) (hterm : T → ∃ t, b.term = some t)
    (hcalls : T → ∀ op ∈ b.ops, op.Complete gen.contracts)
    (hwp : ∀ j ∈ b.successors, Exact z Γ T gen wp j) (hk : Kept z Γ gen st) :
    Gen.Spec T (gen.blockWp wp i b) st fun e st' =>
      Later z Γ gen st st' ∧ Denotes z Γ st'.counters e (Safe z gen.setting b.ops b.term) := by
  rw [blockWp_eq, Gen.spec_bind]
  refine (spec_termWp hpost hb.term hterm (fun u hu j hj => hwp j (mem_successors hu hj)) hk).mono
    ?_
  rintro e st₁ ⟨h₁, he⟩
  refine (spec_opsWp hb.ops hcalls he).mono ?_
  rintro e' st₂ ⟨h₂, he'⟩
  exact ⟨h₁.trans h₂, he'⟩

/-! ## from block to block -/

theorem later_put {i : Node} {e : Expr} {step : Step}
    (he : Denotes z Γ st.counters e (SafeAt z gen.setting i)) :
    Later z Γ gen st { st with steps := step :: st.steps, cache := st.cache.put i e } := by
  refine ⟨Fresh.Grow.refl _, rfl, fun hk j e' hj => ?_⟩
  simp only [Keyed.get?_put] at hj
  split at hj
  · rename_i hij
    cases hj
    exact hij ▸ he
  · exact hk j e' hj

theorem denotes_header {i : Node} {b : Block} {inv : Expr} (hh : gen.graph.IsHeader i)
    (hb : gen.graph.block? i = some b) (hi : b.invariant = some inv) (hd : inv.Declared Γ) :
    Denotes z Γ c inv (SafeAt z gen.setting i) := by
  refine (denotes_declared hd).congr fun s => ⟨fun h => ⟨fun _ => ⟨b, inv, hb, hi, h⟩, fun hn => absurd hh hn⟩, ?_⟩
  intro h
  obtain ⟨b', inv', hb', hi', h⟩ := h.1 hh
  cases hb.symm.trans hb'
  cases hi.symm.trans hi'
  exact h

theorem safeAt_iff {i : Node} {b : Block} (hn : ¬ gen.graph.IsHeader i)
    (hb : gen.graph.block? i = some b) (s : Store) :
    Safe z gen.setting b.ops b.term s ↔ SafeAt z gen.setting i s := by
  refine ⟨fun h => ⟨fun hh => absurd hh hn, fun _ b' hb' => ?_⟩, fun h => h.2 hn b hb⟩
  cases hb.symm.trans hb'
  exact h

theorem spec_headerInvariant {b : Block} {Q : Expr → State → Prop}
    (hq : ∀ e, b.invariant = some e → Q e st) (hT : T → ∃ e, b.invariant = some e) :
    Gen.Spec T (Generator.headerInvariant b) st Q := by
  unfold Generator.headerInvariant Generator.invariantOf
  cases hb : b.invariant with
  | some e => exact hq e hb
  | none =>
    intro h
    obtain ⟨e, he⟩ := hT h
    cases hb.symm.trans he

theorem spec_wp {rank : Node → Nat} (hS : gen.setting.Scoped Γ) (hC : T → gen.setting.Complete)
    (hl : gen.graph.loops = .ok gen.loops) (hr : T → gen.graph.Descends rank) {fuel : Nat}
    {i : Node} (hi : gen.graph.Reaches i)
    (hf : T → 0 < fuel ∧ (gen.graph.IsHeader i ∨ rank i < fuel)) :
    Exact z Γ T gen (gen.wp fuel) i := by
  induction fuel generalizing i with
  | zero =>
    intro st _ h
    exact absurd (hf h).1 (Nat.lt_irrefl 0)
  | succ n ih =>
    intro st hk
    unfold Generator.wp Generator.block
    simp only [Gen.spec_bind, Gen.spec_get]
    cases hc : st.cache.get? i with
    | some e => exact ⟨Later.refl st, hk i e hc⟩
    | none =>
      cases hb : gen.graph.block? i with
      | none =>
        intro h
        obtain ⟨b, hb'⟩ := (hC h).valid.exists_block hi
        cases hb.symm.trans hb'
      | some b =>
        have hcont := contains_loops (i := i) hl
        simp only [Gen.spec_bind, Gen.spec_pure]
        split
        · rename_i hh
          have hh := hcont.1 hh
          simp only [Gen.spec_bind, Gen.spec_note, Gen.spec_modify, Gen.spec_pure]
          refine spec_headerInvariant (fun inv hinv => ?_) fun h => (hC h).annotated i b hh hb
          have he := denotes_header (c := st.counters) (z := z) hh hb hinv
            ((hS.block i b hi hb).invariant inv hinv)
          exact ⟨later_put he, he⟩
        · rename_i hh
          have hn : ¬ gen.graph.IsHeader i := fun h => hh (hcont.2 h)
          simp only [Gen.spec_bind, Gen.spec_note, Gen.spec_modify, Gen.spec_pure]
          refine (spec_blockWp (z := z) hS.post (hS.block i b hi hb) (fun h => (hC h).terminated i b hi hb)
            (fun h => (hC h).calls i b hi hb) (fun j hj => ?_) hk).mono ?_
          · have hij : gen.graph.Edge i j := (edge_iff hb).2 hj
            refine ih (hi.step hij) fun h => ?_
            obtain ⟨hpos, hstep⟩ := hr h i hi
            have hlt := (hf h).2.resolve_left hn
            exact ⟨by omega, (hstep j hij).imp_right fun hji => by omega⟩
          · rintro e st₁ ⟨h₁, he⟩
            have he := he.congr (safeAt_iff hn hb)
            exact ⟨h₁.trans (later_put he), he⟩

end

end Wp

end ContractVerifier
