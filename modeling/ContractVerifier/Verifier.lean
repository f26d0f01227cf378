import ContractVerifier.Event

/-!
# Verification of modules

A function is verified in steps: its conditions are read, its body is lowered to a flow graph, the
verification condition is built, and the solver is asked about it.

* `contractsOf` : the contracts of the functions whose conditions are well formed;
* `functionVc` : the verification condition of a function, in which a parameter in the postcondition
  stands for its value on entry;
* `verifyFunction` : the report on one function; an error ends in the report, only a fault goes
  further;
* `verifyModule` : the reports on the selected functions.
-/

namespace ContractVerifier

open Source Smt

/-- The settings of a run.  They may come from a task file, and then be data of any kind. -/
structure Options where
  limit : Data := .null
  solver : Data := .text solverName
  jobs : Data := .int 1
  functions : List Data := []
  printVc : Bool := false

namespace Options

/-- No selection selects all. -/
def selects (o : Options) (name : String) : Bool :=
  o.functions.isEmpty || o.functions.any (·.isText name)

/-- The greatest number of jobs. -/
def maxJobs : Int := 2147483646

/-- Whether `n` functions are verified side by side. -/
def parallel (o : Options) (n : Nat) : Except Fault Bool :=
  match o.jobs with
  | .bool _ => .ok false
  | .int j => if j ≤ 1 || n ≤ 1 then .ok false else if maxJobs < j then .error .tooManyJobs else .ok true
  | .decimal x => if (Double.whole 1).atLeast x || x = .nan || n ≤ 1 then .ok false else .error .wrongKind
  | _ => .error .wrongKind

end Options

/-! ## conditions -/

def untyped {α : Type} (x : Except TypeCause α) : Except Failure α :=
  x.mapError fun c => .error (.type c none)

/-- A pre- or postcondition from its text. -/
def condition (text : String) (t : Table) : Except Failure Expr := do
  let e ← parse text
  let e ← untyped (e.resolve t)
  untyped e.asCondition

/-- Both conditions of a function, which see its parameters and the returned value only. -/
def conditions (f : Annotated) (t : Table) : Except Failure (Option (Expr × Expr)) :=
  match f.pre, f.post with
  | some pre, some post => do
    let pre ← condition pre t
    let post ← condition post t
    .ok (some (pre, post))
  | _, _ => .ok none

/-- The signature that goes with the name of a function. -/
def signatureOf (sigs : Signatures) (f : Annotated) : Signature :=
  (sigs.get? f.name).getD f.fn.signature

/-! ## runs -/

/-- A run keeps its events, latest first, also when it ends in a fault. -/
abbrev Run := ExceptT Fault (StateM (List Event))

namespace Run

def note (e : Event) : Run Unit := modify (e :: ·)

/-- Goes on with the outcome of a part that has run on its own. -/
def emit {α : Type} (x : Except Fault α × List Event) : Run α := do
  modify (x.2.reverse ++ ·)
  match x.1 with
  | .ok a => return a
  | .error f => throw f

/-- The outcome, and the events in order. -/
def exec {α : Type} (x : Run α) : Except Fault α × List Event :=
  let (r, es) := Id.run (StateT.run (ExceptT.run x) [])
  (r, es.reverse)

end Run

/-! ## contracts -/

/-- A function whose conditions are not well formed has no contract. -/
def contractsFrom (sigs : Signatures) : List Annotated → Contracts → Run Contracts
  | [], cs => return cs
  | f :: fs, cs => do
    if f.error.isSome then contractsFrom sigs fs cs
    else
      let s := signatureOf sigs f
      match conditions f s.table with
      | .error (.fault x) => throw x
      | .error (.error e) => do
        Run.note (.noContract f.name e)
        contractsFrom sigs fs cs
      | .ok none => contractsFrom sigs fs cs
      | .ok (some (pre, post)) => contractsFrom sigs fs (cs.put f.name ⟨f.name, s.params, s.result, pre, post⟩)

def contractsOf (fs : List Annotated) (sigs : Signatures) : Run Contracts :=
  contractsFrom sigs fs .empty

/-! ## entry values -/

/-- The name of the value a parameter has on entry. -/
def entryName (x : String) : String := Fresh.nameOf x 0

/-- The variables of a postcondition other than the returned value. -/
def entryVars (post : Expr) : List Var := post.freeVars.values.filter fun v => v.name ≠ resultName

def toEntry (post : Expr) : Keyed String Expr :=
  ⟨(entryVars post).map fun v => (v.name, .var ⟨entryName v.name, v.type⟩)⟩

def fromEntry (post : Expr) : Keyed String Expr :=
  ⟨(entryVars post).map fun v => (entryName v.name, .var v)⟩

/-- The verification condition of a function, and the steps taken for it. -/
def traceFunctionVc (pre post : Expr) (g : Flow.Graph) (cs : Contracts) :
    Except Failure Expr × List Wp.Step :=
  let (r, steps) := Wp.traceVc pre (post.substitute (toEntry post)) g cs
  (r.map (·.substitute (fromEntry post)), steps)

def functionVc (pre post : Expr) (g : Flow.Graph) (cs : Contracts) : Except Failure Expr :=
  (traceFunctionVc pre post g cs).1

/-! ## functions -/

/-- A report in the making. -/
structure Draft where
  report : Report
  /-- Latest first. -/
  events : List Event := []

/-- A failure leaves what is known of the function so far. -/
abbrev Work := ExceptT Failure (StateM Draft)

namespace Work

def note (e : Event) : Work Unit :=
  match e.fault? with
  | none => modify fun d => { d with events := e :: d.events }
  | some f => throw (.fault f)

def notes : List Event → Work Unit
  | [] => return
  | e :: es => do
    note e
    notes es

def edit (f : Report → Report) : Work Unit := modify fun d => { d with report := f d.report }

def lift {α : Type} (x : Except Failure α) : Work α :=
  match x with
  | .ok a => return a
  | .error f => throw f

/-- Takes over the outcome of a part and the events of its steps. -/
def traced {α σ : Type} (event : σ → Event) (x : Except Failure α × List σ) : Work α := do
  notes (x.2.map event)
  lift x.1

end Work

/-- From the source of a function to the verdict on it. -/
def examine (solve : Solver) (f : Annotated) (sigs : Signatures) (cs : Contracts) (o : Options) : Work Unit := do
  match ← Work.lift (conditions f (signatureOf sigs f).table) with
  | none => return
  | some (pre, post) => do
    let (fn, s) ← Work.lift (f.fn.normalize sigs)
    Work.note (.normalized fn)
    let (t, g) ← Work.lift (buildGraph s.table sigs fn.span.line fn.body)
    Work.note (.lowered f.name t g)
    Work.edit fun r => { r with graph := some g }
    let vc ← Work.traced .wp (traceFunctionVc pre post g cs)
    Work.edit fun r => { r with vc := some vc }
    let (r, steps) := check solve vc o.limit o.solver
    let result ← Work.traced .smt (r.mapError .fault, steps)
    Work.edit fun r => { r with result := some result }

/-- The report on a function.  An error of its decorator ends the matter at once. -/
def verifyFunction (solve : Solver) (sigs : Signatures) (cs : Contracts) (o : Options)
    (f : Annotated) :
    Except Fault Report × List Event :=
  let start : Report := { name := f.name, line := f.line }
  match f.error with
  | some e => (.ok (start.fail e), [])
  | none =>
    let draft : Draft := { report := start, events := [.verifying (signatureOf sigs f)] }
    let (r, d) := Id.run (StateT.run (ExceptT.run (examine solve f sigs cs o)) draft)
    match r with
    | .error (.fault x) => (.error x, d.events.reverse)
    | .error (.error e) =>
      let report := d.report.fail e
      (.ok report, (.reported report :: d.events).reverse)
    | .ok () => (.ok d.report, (.reported d.report :: d.events).reverse)

/-! ## modules -/

/-- The functions to verify, in order. -/
def selected (o : Options) : List Annotated → Run (List Annotated)
  | [] => return []
  | f :: fs => do
    if !o.selects f.name then selected o fs
    else if !f.isAnnotated then do
      Run.note (.skipped f.name)
      selected o fs
    else do
      let rest ← selected o fs
      return f :: rest

/-- One report after the other. -/
def reports (verify : Annotated → Except Fault Report × List Event) :
    List Annotated → Run (List Report)
  | [] => return []
  | f :: fs => do
    let r ← Run.emit (verify f)
    let rest ← reports verify fs
    return r :: rest

/-- The reports on the selected functions of a module.  With several jobs the functions are verified
on their own, and their events are not seen. -/
def verifyModule (solve : Solver) (module : List Stmt) (o : Options) : Run (List Report) := do
  let fs := collect module
  let sigs := signatures fs
  let cs ← contractsOf fs sigs
  let fs ← selected o fs
  let verify := verifyFunction solve sigs cs o
  match o.parallel fs.length with
  | .error f => throw f
  | .ok true => reports (fun f => ((verify f).1, (verify f).2.map .unseen)) fs
  | .ok false => reports verify fs

end ContractVerifier
