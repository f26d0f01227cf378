import ContractVerifier.Data.Basic
import ContractVerifier.Number.Reader
import ContractVerifier.Text.Quoted

/-!
# The command line

Words are sorted into options, with their values, and programs.

* `Word.classify` : what a word is, by itself; a long option may be cut short as long as it is
  unambiguous;
* `items` : options joined with their values, in the order of the words;
* `Reading.apply` : the items put into effect one after the other;
* `Arguments.read` : the arguments of a command line, or how the program ends instead.

The first run of words that are no options names the programs.  Words in a later run are not
recognized.
-/

namespace ContractVerifier.Cli

/-- What a command line says.  Values of options are data: two dashes in the place of a value stand
for no value, which is kept as an empty list. -/
structure Arguments where
  programs : List String := []
  outputDirectory : Data := .text "out"
  noOutput : Bool := false
  functions : List Data := []
  timeout : Data := .null
  solver : Data := .text "z3"
  jobs : Data := .int 1
  printVc : Bool := false
  strict : Bool := false
  compact : Bool := false
  logLevel : Data := .int 0

/-! ## options -/

inductive Opt where
  | help | outputDirectory | noOutput | function | timeout | solver | jobs
  | printVc | strict | compact | logLevel | version
deriving DecidableEq

namespace Opt

def all : List Opt :=
  [help, outputDirectory, noOutput, function, timeout, solver, jobs, printVc, strict, compact, logLevel, version]

def spellings : Opt → List String
  | help => ["-h", "--help"]
  | outputDirectory => ["-o", "--output-directory"]
  | noOutput => ["--no-output"]
  | function => ["-f", "--function"]
  | timeout => ["--timeout"]
  | solver => ["--solver"]
  | jobs => ["-j", "--jobs"]
  | printVc => ["--print-vc"]
  | strict => ["--strict"]
  | compact => ["--compact"]
  | logLevel => ["--log-level"]
  | version => ["-v", "--version"]

def takesValue : Opt → Bool
  | outputDirectory | function | timeout | solver | jobs | logLevel => true
  | help | noOutput | printVc | strict | compact | version => false

/-- Every spelling with its option. -/
def table : List (String × Opt) := all.flatMap fun o => o.spellings.map fun s => (s, o)

def find? (s : String) : Option Opt := table.lookup s

end Opt

/-! ## endings -/

/-- How a run ends before it starts. -/
inductive Exit where
  | help
  | version
  | ambiguous (word : String) (spellings : List String)
  | ignoredValue (o : Opt) (value : String)
  | noValue (o : Opt)
  | notInteger (o : Opt) (value : String)
  | notNumber (o : Opt) (value : String)
  | noProgram
  | unrecognized (words : List String)
deriving DecidableEq

def programName : String := "pywp"

namespace Exit

def code : Exit → Nat
  | help | version => 0
  | _ => 2

def about (o : Opt) (s : String) : String := "argument " ++ "/".intercalate o.spellings ++ ": " ++ s

def message : Exit → String
  | help => ""
  | version => ""
  | ambiguous w ss => "ambiguous option: " ++ w ++ " could match " ++ ", ".intercalate ss
  | ignoredValue o v => about o ("ignored explicit argument " ++ Text.quoted v)
  | noValue o => about o "expected one argument"
  | notInteger o v => about o ("invalid int value: " ++ Text.quoted v)
  | notNumber o v => about o ("invalid float value: " ++ Text.quoted v)
  | noProgram => "the following arguments are required: program"
  | unrecognized ws => "unrecognized arguments: " ++ " ".intercalate ws

def usage : String :=
  "usage: " ++ programName ++ " [-h] [-o OUTPUT_DIRECTORY] [--no-output] [-f FUNCTION]\n" ++
  "            [--timeout TIMEOUT] [--solver SOLVER] [-j JOBS] [--print-vc]\n" ++
  "            [--strict] [--compact] [--log-level LOG_LEVEL] [-v]\n" ++
  "            program [program ...]\n"

/-- What is printed at the end. -/
def text : Exit → String
  | help => usage
  | version => programName ++ " 0.3\n"
  | e => programName ++ ": error: " ++ e.message

end Exit

/-! ## words -/

/-- An option as it was written, with the value in the same word. -/
structure Match where
  opt : Opt
  spelling : String
  value : Option String := none
deriving DecidableEq

inductive Word where
  | plain (s : String)
  /-- The two dashes behind which no word is an option. -/
  | dashes
  | unknown (s : String)
  | option (m : Match)
deriving DecidableEq

/-- The parts before and behind the first equals sign. -/
def splitEquals (cs : List Char) : List Char × Option (List Char) :=
  match cs.dropWhile (· ≠ '=') with
  | [] => (cs, none)
  | _ :: r => (cs.takeWhile (· ≠ '='), some r)

def isDigits (cs : List Char) : Bool := !cs.isEmpty && cs.all fun c => (Text.digit? c).isSome

/-- A minus followed by digits, or by digits around a point. -/
def isNegativeNumber (s : String) : Bool :=
  match s.toList with
  | '-' :: cs =>
    let cs := if cs.getLast? = some '\n' then cs.dropLast else cs
    let digit (c : Char) : Bool := (Text.digit? c).isSome
    match cs.dropWhile digit with
    | [] => isDigits cs
    | '.' :: r => isDigits r
    | _ => false
  | _ => false

namespace Word

/-- The options a long word may stand for. -/
def longMatches (cs : List Char) : List Match :=
  let (stem, value) := splitEquals cs
  (Opt.table.filter fun e => stem.isPrefixOf e.1.toList).map fun e =>
    { opt := e.2, spelling := e.1, value := value.map String.ofList }

/-- The option a short word starts with, followed by its value. -/
def shortMatches : List Char → List Match
  | a :: b :: r =>
    let s := String.ofList [a, b]
    ((Opt.find? s).map fun o => { opt := o, spelling := s, value := some (String.ofList r) }).toList
  | _ => []

/-- A word that starts with a dash and is no option as it stands. -/
def classifyRest (s : String) (cs : List Char) : Except Exit Word :=
  match if cs[1]? = some '-' then longMatches cs else shortMatches cs with
  | [m] => .ok (.option m)
  | m :: ms => .error (.ambiguous s ((m :: ms).map (·.spelling)))
  | [] => .ok (if isNegativeNumber s || cs.contains ' ' then .plain s else .unknown s)

def classify (s : String) : Except Exit Word :=
  let cs := s.toList
  if cs.head? ≠ some '-' then .ok (.plain s)
  else
    match Opt.find? s with
    | some o => .ok (.option { opt := o, spelling := s })
    | none =>
      if cs.length = 1 then .ok (.plain s)
      else
        match splitEquals cs with
        | (stem, some value) =>
          match Opt.find? (String.ofList stem) with
          | some o => .ok (.option { opt := o, spelling := String.ofList stem, value := some (String.ofList value) })
          | none => classifyRest s cs
        | (_, none) => classifyRest s cs

def classifyAll : List String → Except Exit (List Word)
  | [] => .ok []
  | s :: ss =>
    if s = "--" then .ok (.dashes :: ss.map .plain)
    else do
      let w ← classify s
      let ws ← classifyAll ss
      .ok (w :: ws)

end Word

/-! ## items -/

/-- One step of the reading. -/
inductive Item where
  | word (s : String)
  | dashes
  | set (o : Opt) (value : String)
  | flag (o : Opt)
  | extra (s : String)
  | stop (e : Exit)
deriving DecidableEq

/-- What an option word holds: steps of its own, and an option that still needs a value. -/
structure Cluster where
  items : List Item
  wants : Option Opt := none

/-- The value that follows an option in its word.  Behind one dash, an option without value is
followed by further options; `before` holds those that have been met. -/
def cluster (short : Bool) : List Char → Opt → List Item → Cluster
  | [], o, before => if o.takesValue then ⟨before ++ [.set o ""], none⟩ else ⟨[.stop (.ignoredValue o "")], none⟩
  | c :: cs, o, before =>
    if o.takesValue then ⟨before ++ [.set o (String.ofList (c :: cs))], none⟩
    else if !short then ⟨[.stop (.ignoredValue o (String.ofList (c :: cs)))], none⟩
    else
      match Opt.find? (String.ofList ['-', c]) with
      | none => ⟨[.stop (.ignoredValue o (String.ofList (c :: cs)))], none⟩
      | some o' =>
        if !cs.isEmpty then cluster short cs o' (before ++ [.flag o])
        else if o'.takesValue then ⟨before ++ [.flag o], some o'⟩
        else ⟨before ++ [.flag o, .flag o'], none⟩

def Match.cluster (m : Match) : Cluster :=
  match m.value with
  | none => if m.opt.takesValue then ⟨[], some m.opt⟩ else ⟨[.flag m.opt], none⟩
  | some v => Cli.cluster (m.spelling.toList[1]? ≠ some '-') v.toList m.opt []

def items : List Word → List Item
  | [] => []
  | .plain s :: ws => .word s :: items ws
  | .dashes :: ws => .dashes :: items ws
  | .unknown s :: ws => .extra s :: items ws
  | .option m :: ws =>
    match m.cluster.wants with
    | none => m.cluster.items ++ items ws
    | some o =>
      match ws with
      | .plain v :: ws => m.cluster.items ++ (.set o v :: items ws)
      | _ => [.stop (.noValue o)]

/-! ## reading -/

structure Reading where
  args : Arguments := {}
  /-- Whether programs have been named. -/
  named : Bool := false
  /-- The run of words that is being read; `none` stands for the dashes. -/
  run : List (Option String) := []
  extras : List String := []

namespace Reading

/-- The run of words is over: it names the programs, or it is not recognized. -/
def close (r : Reading) : Reading :=
  let words := r.run.filterMap id
  if !r.named && !words.isEmpty then { r with args := { r.args with programs := words }, named := true, run := [] }
  else { r with extras := r.extras ++ r.run.map (·.getD "--"), run := [] }

def setFlag (a : Arguments) : Opt → Except Exit Arguments
  | .help => .error .help
  | .version => .error .version
  | .noOutput => .ok { a with noOutput := true }
  | .printVc => .ok { a with printVc := true }
  | .strict => .ok { a with strict := true }
  | .compact => .ok { a with compact := true }
  | _ => .ok a

/-- The value of an option. -/
def valueOf (o : Opt) (v : String) : Except Exit Data :=
  if v = "--" then .ok (.list [])
  else
    match o with
    | .timeout =>
      match Number.double? v with
      | some x => .ok (.decimal x)
      | none => .error (.notNumber o v)
    | .jobs | .logLevel =>
      match Number.int? v with
      | some n => .ok (.int n)
      | none => .error (.notInteger o v)
    | _ => .ok (.text v)

def setValue (a : Arguments) (o : Opt) (v : String) : Except Exit Arguments := do
  let x ← valueOf o v
  match o with
  | .outputDirectory => .ok { a with outputDirectory := x }
  | .function => .ok { a with functions := a.functions ++ [x] }
  | .solver => .ok { a with solver := x }
  | .timeout => .ok { a with timeout := x }
  | .jobs => .ok { a with jobs := x }
  | .logLevel => .ok { a with logLevel := x }
  | _ => .ok a

def apply (r : Reading) : List Item → Except Exit Reading
  | [] => .ok r.close
  | .word s :: is => apply { r with run := r.run ++ [some s] } is
  | .dashes :: is => apply { r with run := r.run ++ [none] } is
  | .extra s :: is =>
    let r := r.close
    apply { r with extras := r.extras ++ [s] } is
  | .flag o :: is => do
    let r := r.close
    let a ← setFlag r.args o
    apply { r with args := a } is
  | .set o v :: is => do
    let r := r.close
    let a ← setValue r.args o v
    apply { r with args := a } is
  | .stop e :: _ => .error e

end Reading

def Arguments.read (argv : List String) : Except Exit Arguments := do
  let ws ← Word.classifyAll argv
  let r ← ({} : Reading).apply (items ws)
  if !r.named then .error .noProgram
  else if !r.extras.isEmpty then .error (.unrecognized r.extras)
  else .ok r.args

end ContractVerifier.Cli
