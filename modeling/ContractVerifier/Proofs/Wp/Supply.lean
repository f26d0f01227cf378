import ContractVerifier.Proofs.Flow.Writes
import ContractVerifier.Proofs.Wp.Block

/-!
# The supply of fresh names

A generator asks for fresh variables for the result of a call, whether or not it has a target, and
at each loop header for all variables that the graph writes.  Counters are shared by all of these.

* `Draw` : a step of a run with the variables it asked for and those it was given;
* `Supplied` : an account of all that was given between two states, by the steps in the log and the
  counters alike;
* `Gen.Supplies` : a computation whose runs have one, whether they return or fail;
  `supplies_generate` says so of a generator;
* `Generator.names` : all names that a generator works on;
* `generate_fresh` : the names given in a run differ from each other and from all of these.
-/

namespace ContractVerifier

/-- What is given for one list of variables and then for another. -/
theorem Fresh.vars_append {c d e : Counters} {vs ws vs' ws' : List Var} (h : vars c vs = (ws, d))
    (h' : vars d vs' = (ws', e)) : vars c (vs ++ vs') = (ws ++ ws', e) := by
  induction vs generalizing c ws with
  | nil =>
    cases h
    exact h'
  | cons v vs ih =>
    simp only [vars, Prod.mk.injEq] at h
    obtain ⟨rfl, rfl⟩ := h
    simp only [List.cons_append, vars, ih rfl]

namespace Wp

open ContractVerifier.Flow

/-! ## an account of what is given -/

/-- A step, the variables for which it asks for fresh ones, and the fresh ones it is given. -/
structure Draw where
  step : Step
  asked : List Var
  given : List Var

/-- A call asks for a result of the type of its target, or of the callee where it has none; its
postcondition speaks of this result.  A loop header asks for all variables that the graph writes. -/
inductive Draw.For (gen : Generator) : Draw → Prop where
  | visited (i : Node) (e : Expr) : Draw.For gen ⟨.visited i e, [], []⟩
  | called {c : Contract} {f : String} (hc : gen.contracts.get? f = some c) (t : Option Var) (args : List Expr) (r : Var) :
      Draw.For gen ⟨.called (.call t f args) (c.pre.substitute (.ofList ((c.params.map (·.name)).zip args)))
          (c.post.substitute ((Keyed.ofList ((c.params.map (·.name)).zip args)).put resultName (.var r))),
        [t.getD ⟨resultName, c.result⟩], [r]⟩
  | havocked {vs : Keyed String Var} (hv : gen.graph.reachable.bind gen.graph.assigned = .ok vs) (h : Node) (ws : List Var) :
      Draw.For gen ⟨.havocked h ws, vs.values, ws⟩

/-- Between the two states the draws `ds` are made, one after the other.  They are all the steps
there are, and with them the counters come from the one state to the other, so nothing else is
given. -/
structure Supplied (gen : Generator) (st st' : State) (ds : List Draw) : Prop where
  steps : st'.steps = (ds.map (·.step)).reverse ++ st.steps
  uses : ∀ d ∈ ds, d.For gen
  counters : Fresh.vars st.counters (ds.flatMap (·.asked)) = (ds.flatMap (·.given), st'.counters)

/-- Every run can be accounted for. -/
def Gen.Supplies {α : Type} (gen : Generator) (x : Gen α) : Prop :=
  ∀ st, ∃ ds, Supplied gen st (x.exec st).2 ds

section

variable {gen : Generator} {st st' st'' : State} {ds ds' : List Draw}

theorem supplied_nil (hs : st'.steps = st.steps) (hc : st'.counters = st.counters) :
    Supplied gen st st' [] :=
  ⟨hs, nofun, by rw [hc]; rfl⟩

theorem Supplied.trans (h : Supplied gen st st' ds) (h' : Supplied gen st' st'' ds') :
    Supplied gen st st'' (ds ++ ds') where
  steps := by simp [h'.steps, h.steps]
  uses := fun d hd => (List.mem_append.1 hd).elim (h.uses d) (h'.uses d)
  counters := by
    rw [List.flatMap_append, List.flatMap_append]
    exact Fresh.vars_append h.counters h'.counters

theorem supplied_one {d : Draw} (hd : d.For gen) (hs : st'.steps = d.step :: st.steps)
    (hc : Fresh.vars st.counters d.asked = (d.given, st'.counters)) : Supplied gen st st' [d] where
  steps := hs
  uses := by
    intro d' hd'
    rw [List.mem_singleton.1 hd']
    exact hd
  counters := by simpa using hc

end

namespace Gen

variable {α β : Type} {gen : Generator}

/-- A computation that leaves the state alone. -/
theorem supplies_of_exec {x : Gen α} (h : ∀ st, (x.exec st).2 = st) : Supplies gen x := fun st =>
  ⟨[], supplied_nil (by rw [h]) (by rw [h])⟩

theorem supplies_pure (a : α) : Supplies gen (pure a) := supplies_of_exec fun _ => rfl

theorem supplies_throw (e : Failure) : Supplies gen (throw e : Gen α) :=
  supplies_of_exec fun _ => rfl

theorem supplies_raise (e : Error) : Supplies gen (raise e : Gen α) := supplies_throw _

theorem Supplies.bind {x : Gen β} {f : β → Gen α} (hx : Supplies gen x)
    (hf : ∀ b, Supplies gen (f b)) :
    Supplies gen (x >>= f) := by
  intro st
  obtain ⟨ds, hds⟩ := hx st
  rw [exec_bind]
  generalize x.exec st = run at hds
  obtain ⟨r, st'⟩ := run
  cases r with
  | error e => exact ⟨ds, hds⟩
  | ok b =>
    obtain ⟨ds', hds'⟩ := hf b st'
    exact ⟨ds ++ ds', hds.trans hds'⟩

end Gen

open Gen

/-! ## runs -/

section

variable {gen : Generator}

theorem supplies_callWp (line : Option Int) (t : Option Var) (f : String) (args : List Expr)
    (post : Expr) :
    Supplies gen (gen.callWp line t f args post) := by
  unfold Generator.callWp
  cases hc : gen.contractOf line f args with
  | error e => exact supplies_of_exec fun _ => rfl
  | ok c =>
    intro st
    let v := t.getD ⟨resultName, c.result⟩
    have hd := Draw.For.called (contractOf_ok hc).1 t args (Fresh.var st.counters v).1
    exact ⟨_, supplied_one hd rfl rfl⟩

theorem supplies_opsWp (line : Option Int) (ops : List Op) (post : Expr) : Supplies gen (gen.opsWp line ops post) := by
  induction ops with
  | nil => exact supplies_pure post
  | cons op ops ih =>
    refine ih.bind fun e => ?_
    cases op with
    | assign x v => exact supplies_pure _
    | call t f args => exact supplies_callWp line t f args e

theorem supplies_blockWp {wp : Node → Gen Expr} (hwp : ∀ j, Supplies gen (wp j)) (i : Node)
    (b : Block) :
    Supplies gen (gen.blockWp wp i b) := by
  rw [blockWp_eq]
  refine Supplies.bind ?_ fun e => supplies_opsWp b.line b.ops e
  rcases b.term with _ | _ | _ | _ | _
  · exact supplies_throw _
  · exact hwp _
  · exact (hwp _).bind fun _ => (hwp _).bind fun _ => supplies_pure _
  · exact supplies_pure _
  · exact supplies_pure _

theorem supplies_block (i : Node) : Supplies gen (gen.block i) := by
  unfold Generator.block
  cases gen.graph.block? i with
  | none => exact supplies_throw _
  | some b => exact supplies_pure b

theorem supplies_headerInvariant (b : Block) : Supplies gen (Generator.headerInvariant b) := by
  unfold Generator.headerInvariant
  cases Generator.invariantOf b with
  | error e => exact supplies_raise e
  | ok e => exact supplies_pure e

/-- The formula of a block is noted and kept. -/
theorem supplies_visit (i : Node) (e : Expr) :
    Supplies gen (do
      note (.visited i e)
      modify fun st => { st with cache := st.cache.put i e }
      return e) :=
  fun _ => ⟨_, supplied_one (.visited i e) rfl rfl⟩

theorem supplies_wp (fuel : Nat) (i : Node) : Supplies gen (gen.wp fuel i) := by
  induction fuel generalizing i with
  | zero => exact supplies_throw _
  | succ n ih =>
    unfold Generator.wp
    refine Supplies.bind (supplies_of_exec fun _ => rfl) fun st => ?_
    cases st.cache.get? i with
    | some e => exact supplies_pure e
    | none =>
      refine (supplies_block i).bind fun b => ?_
      by_cases hh : gen.loops.contains i = true
      · rw [if_pos hh]
        exact (supplies_headerInvariant b).bind fun e => supplies_visit i e
      · rw [if_neg hh]
        exact (supplies_blockWp ih i b).bind fun e => supplies_visit i e

theorem supplies_rawObligations (h : Node) (b : Block) (inv : Expr) : Supplies gen (gen.rawObligations h b inv) := by
  unfold Generator.rawObligations
  split
  · exact (supplies_wp _ _).bind fun _ => (supplies_wp _ _).bind fun _ => supplies_pure _
  · exact (supplies_blockWp (supplies_wp _) h b).bind fun _ => supplies_pure _

theorem supplies_loopObligations (h : Node) : Supplies gen (gen.loopObligations h) := by
  unfold Generator.loopObligations
  refine (supplies_block h).bind fun b => (supplies_headerInvariant b).bind fun inv => ?_
  refine (supplies_rawObligations h b inv).bind fun os => ?_
  cases hv : gen.graph.reachable.bind gen.graph.assigned with
  | error f => exact supplies_of_exec fun _ => rfl
  | ok vs =>
    intro st
    have hd := Draw.For.havocked hv h (Fresh.vars st.counters vs.values).1
    exact ⟨_, supplied_one hd rfl rfl⟩

theorem supplies_checkInvariants (hs : List Node) : Supplies gen (gen.checkInvariants hs) := by
  induction hs with
  | nil => exact supplies_pure ()
  | cons h hs ih => exact (supplies_block h).bind fun b => (supplies_headerInvariant b).bind fun _ => ih

theorem supplies_addObligations (hs : List Node) : Supplies gen (gen.addObligations hs) := by
  induction hs with
  | nil => exact supplies_pure ()
  | cons h hs ih =>
    refine (supplies_loopObligations h).bind fun os => Supplies.bind ?_ fun _ => ih
    exact fun st => ⟨[], supplied_nil rfl rfl⟩

theorem supplies_generate (gen : Generator) : Supplies gen gen.generate :=
  (supplies_checkInvariants _).bind fun _ => (supplies_wp _ _).bind fun _ =>
    (supplies_addObligations _).bind fun _ => supplies_pure _

end

end Wp

/-! ## names -/

def Expr.names (e : Expr) : List String := e.vars.map (·.name)

namespace Flow

def Op.names : Op → List String
  | assign x e => x.name :: e.names
  | call t f args => (t.map (·.name)).toList ++ f :: args.flatMap Expr.names

def Terminator.names : Terminator → List String
  | goto _ => []
  | branch e _ _ => e.names
  | ret e => e.elim [] Expr.names

def Block.names (b : Block) : List String :=
  b.ops.flatMap Op.names ++ b.term.elim [] Terminator.names ++ b.invariant.elim [] Expr.names

def Graph.names (g : Graph) : List String := g.blocks.flatMap Block.names

end Flow

def Contract.names (c : Contract) : List String :=
  c.name :: c.params.map (·.name) ++ c.pre.names ++ c.post.names

def Contracts.names (cs : Contracts) : List String := cs.entries.flatMap fun e => e.1 :: e.2.names

namespace Wp

open ContractVerifier.Flow

/-- What a generator works on: the graph with its invariants, the postcondition and the
contracts. -/
def Generator.names (gen : Generator) : List String :=
  gen.graph.names ++ gen.contracts.names ++ gen.post.names

theorem plain_entry (y : String) : Fresh.Plain (y ++ "#0") := by
  have h : y ++ "#0" = Fresh.nameOf y 0 := by
    rw [Fresh.nameOf, String.append_assoc]
    rfl
  rw [h]
  exact Fresh.plain_nameOf_zero y

/-- What is given from fresh counters is known by its names: no two are equal, and none is plain. -/
theorem Supplied.fresh {gen : Generator} {st : State} {ds : List Draw} (h : Supplied gen {} st ds) :
    ((ds.flatMap (·.given)).map (·.name)).Nodup ∧ ∀ w ∈ ds.flatMap (·.given), ¬ Fresh.Plain w.name := by
  have hbatch := Fresh.batch_vars .empty (ds.flatMap (·.asked))
  have hc : Fresh.vars .empty (ds.flatMap (·.asked)) = (ds.flatMap (·.given), st.counters) :=
    h.counters
  rw [hc] at hbatch
  exact ⟨hbatch.nodup, fun w hw => Fresh.not_plain_of_given (hbatch.given w hw)⟩

/-- Where `#` is in no name but as the end `#0` of a variable of the postcondition, a run of the
generator, whether it returns or fails, gives fresh variables for its calls and loop headers only,
and their names differ from each other and from all names of the graph, the postcondition and the
contracts. -/
theorem generate_fresh (gen : Generator)
    (hsource : ∀ x ∈ gen.graph.names ++ gen.contracts.names, '#' ∉ x.toList)
    (hpost : ∀ x ∈ gen.post.names, '#' ∉ x.toList ∨ ∃ y, '#' ∉ y.toList ∧ x = y ++ "#0") :
    (∃ ds, Supplied gen {} (gen.generate.exec {}).2 ds) ∧
    ∀ ds, Supplied gen {} (gen.generate.exec {}).2 ds →
      ((ds.flatMap (·.given)).map (·.name)).Nodup ∧ ∀ w ∈ ds.flatMap (·.given), w.name ∉ gen.names := by
  have hplain : ∀ x ∈ gen.names, Fresh.Plain x := by
    intro x hx
    rcases List.mem_append.1 hx with hx | hx
    · exact Fresh.plain_of_notMem (hsource x hx)
    · rcases hpost x hx with hx | ⟨y, -, rfl⟩
      · exact Fresh.plain_of_notMem hx
      · exact plain_entry y
  refine ⟨supplies_generate gen {}, fun ds hds => ?_⟩
  obtain ⟨hnodup, hfresh⟩ := hds.fresh
  exact ⟨hnodup, fun w hw hname => hfresh w hw (hplain w.name hname)⟩

namespace Poll

def n : Var := ⟨"n", .int⟩

def k : Var := ⟨"k", .int⟩

/-- `next` takes `n` up to the bound `k`, and `tick` is called for each step. -/
def graph : Graph where
  blocks := [{ term := some (.goto 1) },
    { term := some (.branch (.bin .lt (.var n) (.var k)) 2 3), invariant := some (.bin .le (.var n) (.var k)) },
    { ops := [.call (some n) "next" [.var n], .call none "tick" [.var n]], term := some (.goto 1) },
    { term := some (.ret (some (.var n))) }]

/-- A result at least the bound on entry, and what `next` and `tick` do. -/
def generator : Generator where
  graph := graph
  post := .bin .le (.var ⟨"k#0", .int⟩) (.var ⟨resultName, .int⟩)
  contracts := ⟨[("next", ⟨"next", [n], .int, .truth, .bin .le (.var n) (.var ⟨resultName, .int⟩)⟩),
    ("tick", ⟨"tick", [n], .int, .truth, .truth⟩)]⟩
  loops := ⟨[(1, [2, 1])]⟩

theorem make_eq : Generator.make graph generator.post generator.contracts = .ok generator := by
  have hloops : graph.loops = .ok generator.loops := by decide +kernel
  rw [Generator.make, hloops]
  rfl

theorem assigned_eq : generator.graph.reachable.bind generator.graph.assigned = .ok ⟨[("n", n)]⟩ := by
  have hreach : generator.graph.reachable = .ok [0, 1, 2, 3] := by decide +kernel
  exact Graph.assigned_of_reachable hreach (by decide) rfl

theorem counters_eq : (generator.generate.exec {}).2.counters = ⟨[(resultName, 1), ("n", 2)]⟩ := by
  have hkeys : generator.loops.keys = [1] := rfl
  simp only [Generator.generate, hkeys, Generator.addObligations, Generator.loopObligations,
    assigned_eq]
  rfl

end Poll

/-- The result of `tick`, that of `next` and the havocked `n` have the names `ret#1`, `n#1` and
`n#2`. -/
theorem Poll.generate_fresh_names :
    Generator.make graph generator.post generator.contracts = .ok generator ∧
    (generator.generate.exec {}).2.counters = ⟨[(resultName, 1), ("n", 2)]⟩ ∧
    ∃ ds, Supplied generator {} (generator.generate.exec {}).2 ds ∧
      ((ds.flatMap (·.given)).map (·.name)).Nodup ∧ ∀ w ∈ ds.flatMap (·.given), w.name ∉ generator.names := by
  have hsource : ∀ x ∈ generator.graph.names ++ generator.contracts.names, '#' ∉ x.toList := by
    decide
  have hpost : ∀ x ∈ generator.post.names, '#' ∉ x.toList ∨ ∃ y, '#' ∉ y.toList ∧ x = y ++ "#0" := by
    intro x hx
    obtain rfl | rfl : x = "k" ++ "#0" ∨ x = resultName := by
      simpa [generator, Expr.names, Expr.vars] using hx
    · exact .inr ⟨"k", by decide, rfl⟩
    · exact .inl (by decide)
  obtain ⟨⟨ds, hds⟩, hfresh⟩ := generate_fresh generator hsource hpost
  exact ⟨make_eq, counters_eq, ds, hds, hfresh ds hds⟩

end Wp

end ContractVerifier
