import ContractVerifier.Data.Printer
import ContractVerifier.Error
import ContractVerifier.Number.Reader

/-!
# Time limits

The seconds one question to the solver may take, and the option that enforces them.  Limit and
solver are settings, so they may be data of any kind; only some can be put into effect.
-/

namespace ContractVerifier.Smt

/-- The texts a thousandfold of which may be read as an integer have at most as many characters. -/
def maxLimitText : Nat := 9

/-- Thousands of a second, rounded towards zero.  The thousandfold of a text is the text, written a
thousand times. -/
def millis : Data → Except Fault Int
  | .bool b => .ok (if b then 1000 else 0)
  | .int n => .ok (n * 1000)
  | .decimal .nan => .error .limitNotNumber
  | .decimal x =>
    match x.thousandfold.truncate with
    | some n => .ok n
    | none => .error .limitNotFinite
  | .text s =>
    if maxLimitText < s.length then .error .limitNotNumber
    else
      match Number.int? (String.ofList (List.replicate 1000 s.toList).flatten) with
      | some n => .ok n
      | none => .error .limitNotNumber
  | .null | .list _ | .map _ => .error .wrongKind

/-- The solver that is at hand. -/
def solverName : String := "z3"

/-- Whether a setting names the solver at hand. -/
def isAtHand (solver : Data) : Bool := solver.isText solverName

/-- Whether a setting may name a solver at all. -/
def solverKey (solver : Data) : Except Fault Unit :=
  if solver.isKey then .ok () else .error .wrongKind

/-- The option with which the solver keeps to a limit, a millisecond at least. -/
def limitOption (solver limit : Data) : Except Fault (Option Int) :=
  match limit with
  | .null => .ok none
  | limit => do
    solverKey solver
    if !isAtHand solver then .error (.noTimeLimit solver.plain)
    let n ← millis limit
    .ok (some (max 1 n))

end ContractVerifier.Smt
