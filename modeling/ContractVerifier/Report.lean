import ContractVerifier.Error
import ContractVerifier.Flow.Graph
import ContractVerifier.Verdict

/-!
# Reports

The outcome for one function: the result of a check, or the error that kept the function from one.
-/

namespace ContractVerifier

inductive Status where
  | ok
  | parseError
  | annotationError
  | typeError
  | unsupported
  | error
deriving DecidableEq

def Status.text : Status → String
  | ok => "OK"
  | parseError => "PARSE_ERROR"
  | annotationError => "ANNOTATION_ERROR"
  | typeError => "TYPE_ERROR"
  | unsupported => "UNSUPPORTED"
  | error => "ERROR"

def TypeCause.kindText : TypeCause → String
  | unknownVariable _ => "UnknownVariableError"
  | unknownType _ => "UnknownTypeError"
  | mismatch .. => "TypeMismatchError"
  | notBoolean .. => "NotBooleanError"
  | arity .. | redeclared .. => "TypeCheckError"

namespace Error

def status : Error → Status
  | parse _ => .parseError
  | decorator .. => .annotationError
  | type .. => .typeError
  | unsupported .. => .unsupported
  | encoding _ => .error

/-- The kind of error as reports name it. -/
def kindText : Error → String
  | parse _ => "ParseError"
  | decorator .. => "AnnotationError"
  | type c _ => c.kindText
  | unsupported c _ => c.kind.text
  | encoding _ => "EncodingError"

end Error

structure Report where
  name : String
  line : Int
  status : Status := .ok
  result : Option Result := none
  kind : Option String := none
  error : Option String := none
  graph : Option Flow.Graph := none
  vc : Option Expr := none

namespace Report

def verdict (r : Report) : Option Verdict := r.result.map (·.verdict)

def fail (r : Report) (e : Error) : Report :=
  { r with status := e.status, kind := some e.kindText, error := some e.text }

/-- Kind and wording of the error. -/
def errorText (r : Report) : String :=
  r.kind.getD Result.missing ++ ": " ++ r.error.getD Result.missing

def describe (r : Report) : String :=
  if r.status = .ok then (r.result.map Result.text).getD Result.missing
  else r.status.text ++ " (" ++ r.errorText ++ ")"

def text (r : Report) : String := r.name ++ " (line " ++ toString r.line ++ "): " ++ r.describe

end Report

end ContractVerifier
