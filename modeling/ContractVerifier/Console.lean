import ContractVerifier.Event

/-!
# What is printed

A console is compact, and then prints results only, or shows events up to a level of detail.  Each
function gives the text that is printed, which may be empty.  The level is a setting: where it has
to be compared and is of the wrong kind, there is a fault instead.
-/

namespace ContractVerifier

structure Console where
  compact : Bool := false
  level : Data := .int 0

namespace Console

/-- A line that the next one overwrites. -/
def status (c : Console) (words : List String) : String :=
  if c.compact then "" else " ".intercalate ("\r" :: words)

/-- The elements of a list that are all texts. -/
def texts : List Data → Except Fault (List String)
  | [] => .ok []
  | .text s :: xs => do
    let ss ← texts xs
    .ok (s :: ss)
  | _ :: _ => .error .wrongKind

/-- The texts a value holds. -/
def words : Data → Except Fault (List String)
  | .text s => .ok (s.toList.map String.singleton)
  | .list xs => texts xs
  | .map es => .ok (es.map (·.1))
  | _ => .error .wrongKind

def task (c : Console) (name : String) (functions limit : Data) : Except Fault String := do
  if c.compact then return ""
  let selection ← if functions.isTrue then (words functions).map (", ".intercalate ·) else .ok "all annotated functions"
  let limit := if limit.isNull then "no time limit" else "time limit " ++ limit.plain ++ "s"
  return "Verifying " ++ name ++ ": " ++ selection ++ ", " ++ limit ++ "\n"

/-- Whether details of a level are shown on a console that is not compact. -/
def reaches (c : Console) (level : Data) : Except Fault Bool :=
  match c.level.atLeast? level with
  | some b => .ok b
  | none => .error .wrongKind

def shows (c : Console) (level : Data) : Except Fault Bool :=
  if c.compact then .ok false else c.reaches level

def debug (c : Console) (level : Data) (words : List String) : Except Fault String := do
  let b ← c.shows level
  return if b then " ".intercalate words ++ "\n" else ""

def event (c : Console) (e : Event) : Except Fault String := do
  let b ← c.shows (.int e.level)
  return if b then e.printed else ""

def events (c : Console) : List Event → Except Fault String
  | [] => .ok ""
  | e :: es => do
    let s ← c.event e
    let t ← c.events es
    return s ++ t

def vc (name : String) (e : Expr) : String := "VC of " ++ name ++ ": " ++ e.text ++ "\n"

/-- A status line may still be open, so that a result starts on a line of its own. -/
def result (c : Console) (name status verdict : String) (detail : Option String) : String :=
  let detail := detail.getD ""
  (if c.compact then "" else "\n") ++ name ++ ": " ++ status ++ " " ++ verdict ++
    (if detail = "" then "" else " (" ++ detail ++ ")") ++ "\n"

/-- The result line of a function; internal names are shown from level 2 on. -/
def report (c : Console) (name : String) (r : Report) : Except Fault String :=
  if r.status ≠ .ok then .ok (c.result name r.status.text Verdict.unknown.text (some r.errorText))
  else
    match r.result with
    | none => .ok (c.result name r.status.text Result.missing none)
    | some s => do
      let detail ← match s.verdict with
        | .valid => .ok none
        | .invalid => (c.reaches (.int 2)).map fun internal => some (s.counterexample internal)
        | .unknown => .ok s.reason
      return c.result name r.status.text s.verdict.text detail

end Console

end ContractVerifier
