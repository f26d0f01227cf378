import ContractVerifier.Cli.Task
import ContractVerifier.Source.Decode

/-!
# Files

The files a run sees, and the directory it works in.

* `Files.locate` : follows a path;
* `Files.read`, `Files.makeDirectories`, `Files.write`.
-/

namespace ContractVerifier.Cli

/-- Why a program is no program. -/
structure SyntaxError where
  line : Option Int
  message : String

def SyntaxError.text (e : SyntaxError) : String :=
  "line " ++ (e.line.map toString).getD Result.missing ++ ": " ++ e.message

/-- The text of a file, what it says as a program, and what it says as a task file. -/
structure Document where
  text : String
  module : Except SyntaxError (List Source.Stmt) := .error ⟨some 1, "invalid syntax"⟩
  task : Data := .null

/-- A file with the given text; `d` holds its tree under `ast`, what is wrong with it under
`syntax_error`, or the value of a task file under `yaml`. -/
def Document.ofData? (text : String) (d : Data) : Option Document :=
  match d.field? "ast", d.field? "syntax_error" with
  | some t, _ => do
    let m ← Source.moduleOfData? t
    some { text := text, module := .ok m }
  | none, some e => do
    let line ← Data.optional? Data.int? "lineno" e
    let message ← e.field? "msg" >>= Data.text?
    some { text := text, module := .error ⟨line, message⟩ }
  | none, none => some { text := text, task := (d.get? "yaml").getD .null }

/-- The names that lead to a file from the root. -/
abbrev Place := List String

structure Files where
  documents : Keyed Place Document := .empty
  /-- Directories, besides those that hold files. -/
  made : List Place := []
  /-- Where paths that are not absolute start. -/
  working : Place := []

namespace Files

def document? (fs : Files) (p : Place) : Option Document := fs.documents.get? p

def isDirectory (fs : Files) (p : Place) : Bool :=
  p.isPrefixOf fs.working || fs.made.contains p ||
    fs.documents.keys.any fun q => p.isPrefixOf q && p.length < q.length

end Files

/-- The parts between slashes. -/
def splitPath : List Char → List (List Char)
  | [] => [[]]
  | c :: cs =>
    match splitPath cs with
    | [] => [[c]]
    | r :: rs => if c = '/' then [] :: r :: rs else (c :: r) :: rs

def pathParts (p : String) : List String := (splitPath p.toList).map String.ofList

namespace Files

/-- Where a path starts. -/
def start (fs : Files) (path : String) : Place :=
  if path.toList.head? = some '/' then [] else fs.working

/-- The greatest number of bytes in a name. -/
def maxName : Nat := 255

/-- The greatest number of bytes in a path. -/
def maxPath : Nat := 4095

/-- Follows the parts of a path.  Every part but the last has to be a directory. -/
def follow (fs : Files) : Place → List String → Except FileFault Place
  | p, [] => .ok p
  | p, c :: cs =>
    if !fs.isDirectory p then .error (if (fs.document? p).isSome then .notDirectory else .noSuchFile)
    else if maxName < c.utf8ByteSize then .error .nameTooLong
    else if c = "" || c = "." then fs.follow p cs
    else if c = ".." then fs.follow p.dropLast cs
    else fs.follow (p ++ [c]) cs

def locate (fs : Files) (path : String) : Except FileFault Place :=
  if path = "" then .error .noSuchFile
  else if maxPath < path.utf8ByteSize then .error .nameTooLong
  else fs.follow (fs.start path) (pathParts path)

def read (fs : Files) (path : String) : Except FileFault Document := do
  let p ← fs.locate path
  match fs.document? p with
  | some d => .ok d
  | none => .error (if fs.isDirectory p then .isDirectory else .noSuchFile)

def makeFrom (fs : Files) : Place → List String → Except FileFault Files
  | _, [] => .ok fs
  | p, c :: cs =>
    if c = "" || c = "." then fs.makeFrom p cs
    else if c = ".." then fs.makeFrom p.dropLast cs
    else
      let q := p ++ [c]
      if maxName < c.utf8ByteSize then .error .nameTooLong
      else if (fs.document? q).isSome then .error (if cs.all (· = "") then .fileExists else .notDirectory)
      else if fs.isDirectory q then fs.makeFrom q cs
      else makeFrom { fs with made := fs.made ++ [q] } q cs

/-- Makes a directory and those above it, where they are missing. -/
def makeDirectories (fs : Files) (path : String) : Except FileFault Files :=
  fs.makeFrom (fs.start path) (pathParts path)

def write (fs : Files) (path : String) (d : Document) : Except FileFault Files := do
  let p ← fs.locate path
  if fs.isDirectory p then .error .isDirectory else .ok { fs with documents := fs.documents.put p d }

/-- A file with the directories it needs. -/
def add (fs : Files) (path : String) (d : Document) : Except FileFault Files := do
  let fs ← fs.makeDirectories (Path.directory path)
  fs.write path d

end Files

/-- Every line break as a line feed. -/
def lineFeeds : List Char → List Char
  | [] => []
  | '\r' :: '\n' :: cs => '\n' :: lineFeeds cs
  | '\r' :: cs => '\n' :: lineFeeds cs
  | c :: cs => c :: lineFeeds cs

end ContractVerifier.Cli
