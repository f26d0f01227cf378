import ContractVerifier.Smt.Limit
import ContractVerifier.Smt.Pool
import ContractVerifier.Verdict

/-!
# Validity checks

A condition is valid when its negation has no model; a model of the negation is a counterexample.
`check` asks a given solver, and everything that keeps it from an answer gives the verdict unknown,
but for an integer that is too long to be written.
-/

namespace ContractVerifier.Smt

/-- What a solver says of a term; the assignment makes it true. -/
inductive Answer where
  | unsat
  | sat (value : Var → Value)
  | unknown

abbrev Solver := Term → Answer

/-- What a check has done, for the log. -/
inductive Step where
  | limitIgnored (solver : String)
  | asserted (t : Term)
deriving DecidableEq

/-- The values of the symbols in an assignment. -/
def modelOf (symbols : Symbols) (value : Var → Value) : Model :=
  ⟨symbols.entries.map fun s => (s.1, value ⟨s.1, s.2⟩)⟩

def Answer.result (symbols : Symbols) : Answer → Result
  | unsat => .valid
  | sat value => .invalid (modelOf symbols value)
  | unknown => .unknown "solver returned unknown"

/-- What is asserted: the negation of a condition, with the symbols of its variables.  Without one
there is a reason why the verdict is unknown, or a fault if the reason has no text. -/
def negated (vc : Expr) : Except Fault (Except String (Term × Symbols)) :=
  match ({} : Encoder).encode vc with
  | (.error (.fault f), _) => .error f
  | (.error (.error e), _) => .ok (.error ("encoding failed: " ++ e.text))
  | (.ok t, enc) =>
    match t.negation with
    | .error r => if r.isWritable then .ok (.error ("solver error: " ++ r.message)) else .error .numeralTooLong
    | .ok n => .ok (.ok (n, enc.symbols))

/-- Asks the solver about a term.  The term is shown first, and then handed over with all its
numbers written out. -/
def ask (solve : Solver) (t : Term) (symbols : Symbols) : Except Fault Result × List Step :=
  if !t.isWritableTo Term.shownDepth then (.error .numeralTooLong, [])
  else if !t.isWritable then (.error .numeralTooLong, [.asserted t])
  else (.ok ((solve t).result symbols), [.asserted t])

/-- The verdict on a condition.  A limit that could not be kept is never ignored.  No name of a
solver stands for the one at hand. -/
def check (solve : Solver) (vc : Expr) (limit solver : Data) : Except Fault Result × List Step :=
  match solverKey solver with
  | .error f => (.error f, [])
  | .ok () =>
    if !limit.isNull && !isAtHand solver then
      (.ok (.unknown ("timeout not supported by solver " ++ solver.plain)), [.limitIgnored solver.plain])
    else
      match limitOption solver limit with
      | .error f => (.error f, [])
      | .ok _ =>
        if !solver.isNull && !isAtHand solver then
          (.ok (.unknown ("solver " ++ solver.plain ++ " is not available")), [])
        else
          match negated vc with
          | .error f => (.error f, [])
          | .ok (.error reason) => (.ok (.unknown reason), [])
          | .ok (.ok (t, symbols)) => ask solve t symbols

end ContractVerifier.Smt
