import ContractVerifier.Expr.Basic

/-!
# Verdicts and results

* `Verdict` : the answer to one validity question, with the conjunction of two of them;
* `Result` : a verdict with the counterexample or the reason behind it.
-/

namespace ContractVerifier

inductive Verdict where
  | valid
  | invalid
  | unknown
deriving DecidableEq

namespace Verdict

def text : Verdict → String
  | valid => "VALID"
  | invalid => "INVALID"
  | unknown => "UNKNOWN"

/-- Something invalid makes the whole invalid, and otherwise something unknown makes it unknown. -/
def and : Verdict → Verdict → Verdict
  | valid, v => v
  | invalid, _ => invalid
  | unknown, valid => unknown
  | unknown, v => v

end Verdict

/-- Names the verifier makes up: renamed values `name#k` and hoisted temporaries `__tmp_k`. -/
def isInternalName (x : String) : Bool :=
  x.toList.contains '#' || "__tmp_".toList.isPrefixOf x.toList

abbrev Model := Keyed String Value

structure Result where
  verdict : Verdict
  model : Option Model := none
  reason : Option String := none
deriving DecidableEq

namespace Result

def valid : Result := { verdict := .valid }

def invalid (m : Model) : Result := { verdict := .invalid, model := some m }

def unknown (reason : String) : Result := { verdict := .unknown, reason := some reason }

/-- The entries of a model by name. -/
def sortedEntries (m : Model) : List (String × Value) := m.entries.mergeSort fun a b => a.1 ≤ b.1

/-- The model as a list of assignments.  `internal` adds the names the verifier made up. -/
def counterexample (r : Result) (internal : Bool) : String :=
  let es := ((r.model.map sortedEntries).getD []).filter fun e => internal || !isInternalName e.1
  ", ".intercalate (es.map fun e => e.1 ++ " = " ++ e.2.text)

/-- What stands in a text for a value that is missing. -/
def missing : String := "None"

def text (r : Result) : String :=
  match r.verdict with
  | .valid => Verdict.valid.text
  | .invalid => Verdict.invalid.text ++ " (" ++ r.counterexample false ++ ")"
  | .unknown => Verdict.unknown.text ++ " (" ++ r.reason.getD missing ++ ")"

end Result

end ContractVerifier
