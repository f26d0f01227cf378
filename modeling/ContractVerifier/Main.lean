import ContractVerifier.Cli.Session
import ContractVerifier.Data.Reader

/-!
# The program

Reads the files that are named, runs, prints and writes what has been made.  The tree of a program
`p`, or the value of a task file `p`, is read from the file `p.json`.  There is no solver, so that
no condition gets a verdict other than unknown.
-/

namespace ContractVerifier.Cli

def readText (path : String) : IO (Except FileFault String) := do
  try
    let s ← IO.FS.readFile path
    return .ok s
  catch e =>
    match e with
    | .inappropriateType .. => return .error .isDirectory
    | _ => return .error .noSuchFile

/-- The document of a file with text `s`, from what stands beside it. -/
def readDocument (path s : String) : IO Document := do
  match ← readText (path ++ ".json") with
  | .ok t => return ((Data.ofText? t).bind (Document.ofData? s)).getD { text := s }
  | .error _ => return { text := s }

/-- The files together with the one at `path`. -/
def load (fs : Files) (path : String) : IO Files := do
  match ← readText path with
  | .ok s => do
    let d ← readDocument path s
    return (fs.add path d).toOption.getD fs
  | .error .isDirectory => return (fs.makeDirectories path).toOption.getD fs
  | .error _ => return fs

/-- The files of all programs, and of those that task files name. -/
def loadAll (a : Arguments) : List String → Files → IO Files
  | [], fs => return fs
  | p :: ps, fs => do
    let fs ← load fs p
    match ((taskOf a p).exec { files := fs }).1 with
    | .ok t => do
      let fs ← load fs t.program
      loadAll a ps fs
    | .error _ => loadAll a ps fs

/-- Writes the documents that are not among the ones before. -/
def save (before : Files) : List (Place × Document) → IO Unit
  | [] => return
  | (p, d) :: ds => do
    let old := (before.document? p).map (·.text)
    if old ≠ some d.text then
      let path := "/" ++ "/".intercalate p
      IO.FS.createDirAll (Path.directory path)
      IO.FS.writeFile path d.text
    save before ds

def start (a : Arguments) : IO UInt32 := do
  let here ← IO.currentDir
  let working := (pathParts here.toString).filter (· ≠ "")
  let files ← loadAll a a.programs { working := working }
  let (r, s) := (run (fun _ => .unknown) a).exec { files := files }
  IO.print s.output
  save files s.files.documents.entries
  match r with
  | .ok n => return n.toUInt32
  | .error f => do
    IO.eprintln (programName ++ ": " ++ f.message)
    return 1

end ContractVerifier.Cli

open ContractVerifier.Cli in
def main (argv : List String) : IO UInt32 := do
  match Arguments.read argv with
  | .ok a => start a
  | .error e => do
    if e.code = 0 then IO.print e.text else IO.eprintln (Exit.usage ++ e.text)
    return e.code.toUInt32
