import ContractVerifier.Expr.Typing
import ContractVerifier.Source.Preprocess

/-!
# Functions of a module

The functions a module defines at top level, with the conditions of their decorators and their typed
signatures.
-/

namespace ContractVerifier.Source

/-! ## signatures -/

/-- What is not annotated is an integer. -/
def typeOfNote : Option Exp → Ty
  | none => .int
  | some (.name _ "int") => .int
  | some (.name _ "bool") => .bool
  | some _ => .unknown

structure Signature where
  name : String
  params : List Var
  result : Ty
deriving DecidableEq

def Param.toVar : Param → Var
  | .mk _ x t => ⟨x, typeOfNote t⟩

def Function.signature (f : Function) : Signature :=
  ⟨f.name, f.params.map Param.toVar, typeOfNote f.result⟩

namespace Signature

def table (s : Signature) : Table :=
  { args := .ofList (s.params.map fun p => (p.name, p.type)), result := s.result }

def text (s : Signature) : String :=
  s.name ++ "(" ++ ", ".intercalate (s.params.map fun p => p.name ++ ": " ++ p.type.text) ++ ") -> " ++
    s.result.text

end Signature

/-! ## decorators -/

/-- A function with the conditions of its decorator; `error` says what is wrong with the
decorator. -/
structure Annotated where
  fn : Function
  pre : Option String := none
  post : Option String := none
  error : Option Error := none

namespace Annotated

def name (f : Annotated) : String := f.fn.name

def line (f : Annotated) : Int := f.fn.span.line

def isAnnotated (f : Annotated) : Bool := f.error.isSome || (f.pre.isSome && f.post.isSome)

end Annotated

/-- The arguments of a call `condition(...)` or `m.condition(...)`, and its line. -/
def conditionCall? : Exp → Option (List Exp × List Part × Int)
  | .call sp (.name _ x) args keywords => if x = decoratorName then some (args, keywords, sp.line) else none
  | .call sp (.other _ "Attribute" ps) args keywords =>
    match Part.find? "attr" ps with
    | some (.text x) => if x = decoratorName then some (args, keywords, sp.line) else none
    | _ => none
  | _ => none

/-- Adds named arguments to the positional ones. -/
def addKeywords (values : Keyed String Exp) : List Part → Except AnnotationCause (Keyed String Exp)
  | [] => .ok values
  | .keyword _ x v :: ks =>
    let x := x.getD "None"
    if x ≠ "pre" ∧ x ≠ "post" then .error (.unknownArgument x)
    else if values.contains x then .error (.repeatedArgument x)
    else addKeywords (values.put x v) ks
  | _ :: ks => addKeywords values ks

/-- The condition texts; a missing one may be written as `None`. -/
def conditionTexts : List (String × Exp) → Except AnnotationCause (Keyed String String)
  | [] => .ok .empty
  | (_, .constant _ .none) :: es => conditionTexts es
  | (x, .constant _ (.text s)) :: es => do
    let ts ← conditionTexts es
    .ok (ts.put x s)
  | (x, _) :: _ => .error (.notText x)

def readDecorator (args : List Exp) (keywords : List Part) :
    Except AnnotationCause (Keyed String String) :=
  if 2 < args.length then .error .tooManyArguments
  else do
    let values ← addKeywords ⟨["pre", "post"].zip args⟩ keywords
    conditionTexts values.entries

def Function.annotated (f : Function) : Annotated :=
  match f.decorators.filterMap conditionCall? with
  | [] => { fn := f }
  | [(args, keywords, line)] =>
    match readDecorator args keywords with
    | .ok ts => { fn := f, pre := ts.get? "pre", post := ts.get? "post" }
    | .error c => { fn := f, error := some (.decorator c (some line)) }
  | _ => { fn := f, error := some (.decorator .repeatedDecorator (some f.span.line)) }

/-- The function definitions among the statements of a module, in order. -/
def collect (module : List Stmt) : List Annotated :=
  (module.filterMap Stmt.function?).map Function.annotated

abbrev Signatures := Keyed String Signature

/-- Of two functions with one name, the later one counts. -/
def signatures (fs : List Annotated) : Signatures :=
  .ofList (fs.map fun f => (f.name, f.fn.signature))

end ContractVerifier.Source
