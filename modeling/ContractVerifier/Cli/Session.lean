import ContractVerifier.Cli.Files
import ContractVerifier.Console
import ContractVerifier.Flow.Drawing

/-!
# A run of the command line

Every program is verified in turn, and its results are printed and written to a directory.  A run is
never interrupted.  What is written of the tree of a function is its text, in place of a layout of
all nodes.

* `runProgram` : one program; what cannot be read or parsed makes the verdict unknown and does not
  stop the run;
* `run` : all programs, with the exit status.
-/

namespace ContractVerifier.Cli

structure Session where
  files : Files
  output : String := ""

/-- A fault leaves what has been printed and written before. -/
abbrev Job := ExceptT Fault (StateM Session)

namespace Job

def print (s : String) : Job Unit := modify fun st => { st with output := st.output ++ s }

def lift {α : Type} (x : Except Fault α) : Job α :=
  match x with
  | .ok a => return a
  | .error f => throw f

/-- Changes the files. -/
def edit (f : Files → Except FileFault Files) : Job Unit := do
  match f (← get).files with
  | .ok fs => modify fun st => { st with files := fs }
  | .error e => throw (.file e)

def write (path : String) (d : Document) : Job Unit := edit fun fs => fs.write path d

/-- No path holds the null character. -/
def checkPath (path : String) : Job Unit :=
  if path.toList.contains (Char.ofNat 0) then throw .nullInPath else return ()

def exec {α : Type} (x : Job α) (s : Session) : Except Fault α × Session :=
  Id.run (StateT.run (ExceptT.run x) s)

end Job

/-! ## tasks -/

/-- The task a word of the command line stands for. -/
def taskOf (a : Arguments) (program : String) : Job Task := do
  if Path.extension program = ".yml" then
    Job.checkPath program
    match (← get).files.read program with
    | .error f => throw (.file f)
    | .ok d => Job.lift (Task.ofData d.task (Path.directory program) a)
  else Job.lift (Task.ofProgram program a)

/-! ## written results -/

/-- The last definition of a function. -/
def definition? (module : List Source.Stmt) (name : String) : Option Source.Stmt :=
  ((module.filterMap Source.Stmt.function?).reverse.find? fun f => f.name = name).map Source.Function.toStmt

/-- For each function its definition, its flow graph and its verification condition. -/
def writeReports (dir : String) (module : List Source.Stmt) : List Report → Job Unit
  | [] => return
  | r :: rs => do
    let path := Path.join dir r.name
    Job.write (path ++ ".astpretty") { text := ((definition? module r.name).map Source.Stmt.text).getD "" }
    match r.graph with
    | some g => do
      let s ← Job.lift (g.dot r.name)
      Job.write (path ++ ".cfg.dot") { text := s }
    | none => pure ()
    match r.vc with
    | some e => Job.write (path ++ ".vc") { text := e.text ++ "\n" }
    | none => pure ()
    writeReports dir module rs

/-! ## programs -/

/-- The verdict a report contributes. -/
def reportVerdict (r : Report) : Verdict :=
  if r.status = .ok then r.verdict.getD .unknown else .unknown

/-- Prints the reports on a program and adds their verdicts. -/
def showReports (c : Console) (task : Task) (v : Verdict) : List Report → Job Verdict
  | [] => return v
  | r :: rs => do
    let name := task.programName ++ "." ++ r.name
    match r.vc with
    | some e => if task.options.printVc then Job.print (Console.vc name e) else pure ()
    | none => pure ()
    let s ← Job.lift (c.report name r)
    Job.print s
    showReports c task (v.and (reportVerdict r)) rs

/-- A program whose text and tree are at hand. -/
def runModule (solve : Smt.Solver) (a : Arguments) (c : Console) (task : Task) (v : Verdict)
    (module : List Source.Stmt) : Job Verdict := do
  Job.print (c.status ["verifying"])
  let (r, es) := (verifyModule solve module task.options).exec
  let s ← Job.lift (c.events es)
  Job.print s
  let rs ← Job.lift r
  if !a.noOutput then writeReports task.outputDirectory module rs
  showReports c task v rs

/-- The verdict `v` on the programs before, together with that on one more. -/
def runProgram (solve : Smt.Solver) (a : Arguments) (v : Verdict) (program : String) : Job Verdict := do
  let c : Console := ⟨a.compact, a.logLevel⟩
  let task ← taskOf a program
  let failed (status detail : String) : Job Verdict := do
    Job.print (c.result task.programName status Verdict.unknown.text (some detail))
    return v.and .unknown
  let s ← Job.lift (c.task task.programName (.list task.options.functions) task.options.limit)
  Job.print s
  Job.checkPath task.program
  match (← get).files.read task.program with
  | .error f => failed "IO_ERROR" f.text
  | .ok d => do
    if !a.noOutput then
      Job.checkPath task.outputDirectory
      Job.edit fun fs => fs.makeDirectories task.outputDirectory
      Job.write (Path.join task.outputDirectory "program.py")
        { d with text := String.ofList (lineFeeds d.text.toList) }
    Job.print (c.status ["parsing"])
    match d.module with
    | .error e => failed "SYNTAX_INVALID" e.text
    | .ok module => runModule solve a c task v module

def runPrograms (solve : Smt.Solver) (a : Arguments) (v : Verdict) : List String → Job Verdict
  | [] => return v
  | p :: ps => do
    let v ← runProgram solve a v p
    runPrograms solve a v ps

/-- A strict run succeeds only if everything is valid. -/
def exitStatus (a : Arguments) (v : Verdict) : Nat := if a.strict ∧ v ≠ .valid then 1 else 0

/-- The exit status of a run over all programs. -/
def run (solve : Smt.Solver) (a : Arguments) : Job Nat := do
  let v ← runPrograms solve a .valid a.programs
  return exitStatus a v

end ContractVerifier.Cli
