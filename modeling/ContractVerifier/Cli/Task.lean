import ContractVerifier.Cli.Arguments
import ContractVerifier.Cli.Path
import ContractVerifier.Data.Basic
import ContractVerifier.Verifier

/-!
# Tasks

A program to verify and how.  A task comes from the command line alone or from a task file, whose
missing entries the command line fills in.
-/

namespace ContractVerifier.Cli

structure Task where
  program : String
  programName : String
  outputDirectory : String
  options : Options

namespace Task

/-- A task in which `functions`, `limit` and `solver` take the place of what the command line
says. -/
def make (program : String) (a : Arguments) (functions : Option (List Data)) (limit solver : Data) :
    Except Fault Task :=
  match a.outputDirectory with
  | .text dir => .ok {
      program := program
      programName := Path.stem program
      outputDirectory := Path.join dir (Path.stem program)
      options := {
        limit := limit.orElse a.timeout
        solver := solver.orElse a.solver
        jobs := a.jobs
        functions := functions.getD a.functions
        printVc := a.printVc } }
  | _ => .error .wrongKind

def ofProgram (program : String) (a : Arguments) : Except Fault Task :=
  make program a none .null .null

end Task

/-! ## task files -/

namespace TaskFile

/-- The first of several programs. -/
def program : Data → Except Fault String
  | .list [] => .error .emptyList
  | .list (.text s :: _) => .ok s
  | .text s => .ok s
  | _ => .error .notText

/-- One function or several. -/
def functions : Data → Except Fault (Option (List Data))
  | .null => .ok none
  | .text s => .ok (some [.text s])
  | .list xs => .ok (some xs)
  | .map es => .ok (some (es.map fun e => .text e.1))
  | _ => .error .notSequence

/-- The text before the first space. -/
def firstWord (s : String) : String := String.ofList (s.toList.takeWhile (· ≠ ' '))

end TaskFile

/-- The task of a task file in the directory `dir`.  Only its first program counts. -/
def Task.ofData (d : Data) (dir : String) (a : Arguments) : Except Fault Task :=
  match d with
  | .map _ =>
    match d.get? "input_files" with
    | none => .error .missingKey
    | some files => do
      let file ← TaskFile.program files
      let functions ← TaskFile.functions (d.entry "functions")
      make (Path.join dir (TaskFile.firstWord file)) a functions (d.entry "timeout") (d.entry "solver")
  | _ => .error .notMapping

end ContractVerifier.Cli
