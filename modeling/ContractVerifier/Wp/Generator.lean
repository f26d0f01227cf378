import ContractVerifier.Expr.Typing
import ContractVerifier.Flow.Search
import ContractVerifier.Wp.Fresh

/-!
# Weakest preconditions over a flow graph

The graph is walked backward from its returns.  Loop headers are cut points: the precondition of one
is its invariant, and each loop contributes obligations on its own.

* `Generator.wp` : the precondition of a block, computed once and kept;
* `Generator.callWp` : a call asks for the precondition of the callee and gives its postcondition;
* `Generator.loopObligations` : the invariant is kept by the body and gives what has to hold behind
  the loop;
* `Generator.generate` : the precondition of the entry, with the obligations of all loops.
-/

namespace ContractVerifier

/-- What a function asks for and gives, over its parameters and the returned value. -/
structure Contract where
  name : String
  params : List Var
  result : Ty
  pre : Expr
  post : Expr
deriving DecidableEq

abbrev Contracts := Keyed String Contract

namespace Wp

open ContractVerifier.Flow

/-- What a generator has done, for the log. -/
inductive Step where
  | visited (block : Node) (wp : Expr)
  | called (call : Op) (requires ensures : Expr)
  | havocked (header : Node) (vars : List Var)
  | weakest (wp : Expr)
  | obligation (e : Expr)
deriving DecidableEq

/-- Whether all numbers of a step can be written. -/
def Step.isWritable : Step → Bool
  | visited _ e | weakest e | obligation e => e.isWritable
  | called c r e => c.isWritable && r.isWritable && e.isWritable
  | havocked .. => true

structure State where
  cache : Keyed Node Expr := .empty
  obligations : List Expr := []
  counters : Counters := .empty
  /-- Latest first. -/
  steps : List Step := []

/-- A failure leaves the state as it was when it occurred. -/
abbrev Gen := ExceptT Failure (StateM State)

structure Generator where
  graph : Graph
  post : Expr
  contracts : Contracts
  loops : Keyed Node (List Node)

def note (s : Step) : Gen Unit := modify fun st => { st with steps := s :: st.steps }

def raise {α : Type} (e : Error) : Gen α := throw (.error e)

def freshVar (v : Var) : Gen Var := do
  let (w, c) := Fresh.var (← get).counters v
  modify fun st => { st with counters := c }
  return w

def freshVars (vs : List Var) : Gen (List Var) := do
  let (ws, c) := Fresh.vars (← get).counters vs
  modify fun st => { st with counters := c }
  return ws

/-- The generator for a graph; its loops are found first. -/
def Generator.make (g : Graph) (post : Expr) (contracts : Contracts) : Except Failure Generator :=
  match g.loops with
  | .ok ls => .ok ⟨g, post, contracts, ls⟩
  | .error f => .error (.fault f)

namespace Generator

def block (gen : Generator) (i : Node) : Gen Block :=
  match gen.graph.block? i with
  | some b => return b
  | none => throw (.fault .noSuchBlock)

/-- Every argument has the type of its parameter. -/
def checkArgs (line : Option Int) : List (Var × Expr) → Except Error Unit
  | [] => .ok ()
  | (p, a) :: rest =>
    match a.typeOf with
    | .error c => .error (.type c none)
    | .ok t =>
      if t = p.type then checkArgs line rest
      else .error (.type (.mismatch a.text p.type t) line)

/-- The contract of a call whose arguments fit it. -/
def contractOf (gen : Generator) (line : Option Int) (callee : String) (args : List Expr) :
    Except Error Contract :=
  match gen.contracts.get? callee with
  | none => .error (.unsupported (.noContract callee) line)
  | some c =>
    if args.length = c.params.length then do
      checkArgs line (c.params.zip args)
      .ok c
    else .error (.type (.arity callee c.params.length args.length) line)

/-- The precondition of the callee, and its postcondition for a fresh result as assumption. -/
def callWp (gen : Generator) (line : Option Int) (target : Option Var) (callee : String)
    (args : List Expr) (post : Expr) : Gen Expr := do
  let c ← match gen.contractOf line callee args with
    | .ok c => pure c
    | .error e => raise e
  let actuals : Keyed String Expr := .ofList ((c.params.map (·.name)).zip args)
  let result ← freshVar (target.getD ⟨resultName, c.result⟩)
  let post := match target with
    | some t => post.subst t.name (.var result)
    | none => post
  let requires := c.pre.substitute actuals
  let ensures := c.post.substitute (actuals.put resultName (.var result))
  note (.called (.call target callee args) requires ensures)
  return .conjoin [requires, ensures.implies post]

/-- Through the operations, the last one first. -/
def opsWp (gen : Generator) (line : Option Int) : List Op → Expr → Gen Expr
  | [], post => return post
  | op :: ops, post => do
    let post ← gen.opsWp line ops post
    match op with
    | .assign t e => return post.subst t.name e
    | .call t f args => gen.callWp line t f args post

/-- The precondition of block `i` itself, from those of its targets. -/
def blockWp (gen : Generator) (wp : Node → Gen Expr) (i : Node) (b : Block) : Gen Expr := do
  let post ← match b.term with
    | some (.ret none) => pure gen.post
    | some (.ret (some e)) => pure (gen.post.subst resultName e)
    | some (.goto t) => wp t
    | some (.branch g t f) => do
      let onTrue ← wp t
      let onFalse ← wp f
      pure (.conjoin [g.implies onTrue, g.negate.implies onFalse])
    | none => throw (.fault (.noTerminator (gen.graph.position i)))
  gen.opsWp b.line b.ops post

/-- The invariant of a loop header. -/
def invariantOf (b : Block) : Except Error Expr :=
  match b.invariant with
  | some e => .ok e
  | none => .error (.unsupported .loopWithoutInvariant b.line)

def headerInvariant (b : Block) : Gen Expr :=
  match invariantOf b with
  | .ok e => return e
  | .error e => raise e

/-- The precondition of a block.  Every step either finds it kept or goes on to targets, and `fuel`
bounds the number of blocks on such a walk. -/
def wp (gen : Generator) : Nat → Node → Gen Expr
  | 0, _ => throw (.fault .uncutCycle)
  | fuel + 1, i => do
    match (← get).cache.get? i with
    | some e => return e
    | none =>
      let b ← gen.block i
      let e ← if gen.loops.contains i then headerInvariant b else gen.blockWp (gen.wp fuel) i b
      note (.visited i e)
      modify fun st => { st with cache := st.cache.put i e }
      return e

/-- No walk between loop headers meets more nodes than there are. -/
def fuel (gen : Generator) : Nat := gen.graph.nodes.length + 1

/-- A header that only branches gives one obligation for each way out. -/
def rawObligations (gen : Generator) (h : Node) (b : Block) (inv : Expr) : Gen (List Expr) := do
  match b.term, b.ops with
  | some (.branch g t f), [] => do
    let onTrue ← gen.wp gen.fuel t
    let onFalse ← gen.wp gen.fuel f
    return [(Expr.conjoin [inv, g]).implies onTrue, (Expr.conjoin [inv, g.negate]).implies onFalse]
  | _, _ => do
    let e ← gen.blockWp (gen.wp gen.fuel) h b
    return [inv.implies e]

/-- Everything the function writes is renamed, so that only the invariant is known of it. -/
def loopObligations (gen : Generator) (h : Node) : Gen (List Expr) := do
  let b ← gen.block h
  let inv ← headerInvariant b
  let os ← gen.rawObligations h b inv
  let vs ← match gen.graph.reachable.bind gen.graph.assigned with
    | .ok vs => pure vs
    | .error f => throw (.fault f)
  let ws ← freshVars vs.values
  note (.havocked h ws)
  let havoc : Keyed String Expr := ⟨vs.keys.zip (ws.map .var)⟩
  return os.map (·.substitute havoc)

/-- Every loop header has an invariant. -/
def checkInvariants (gen : Generator) : List Node → Gen Unit
  | [] => return
  | h :: hs => do
    let b ← gen.block h
    let _ ← headerInvariant b
    gen.checkInvariants hs

def addObligations (gen : Generator) : List Node → Gen Unit
  | [] => return
  | h :: hs => do
    let os ← gen.loopObligations h
    modify fun st => { st with obligations := st.obligations ++ os }
    gen.addObligations hs

/-- The precondition of the entry.  The obligations, in the order of the headers, are added to the
state. -/
def generate (gen : Generator) : Gen Expr := do
  gen.checkInvariants gen.loops.keys
  let e ← gen.wp gen.fuel gen.graph.entry
  gen.addObligations gen.loops.keys
  return e

end Generator

/-- One run of a generator from a given state. -/
def Gen.exec {α : Type} (x : Gen α) (s : State) : Except Failure α × State :=
  Id.run (StateT.run (ExceptT.run x) s)

/-- A run that writes down its steps, whether they are shown or not, and ends where a number is too
long for that. -/
def Gen.written {α : Type} (x : Gen α) (s : State) : Except Failure α × State :=
  let (r, t) := x.exec s
  (if t.steps.all Step.isWritable then r else .error (.fault .numeralTooLong), t)

end Wp

end ContractVerifier
