import ContractVerifier.Expr.Printer
import ContractVerifier.Text.Quoted

/-!
# Errors and faults

* `Error` : why a function could not be verified; the verifier reports it and goes on.
* `Fault` : why a run cannot go on at all.
* `Failure` : either of them, what the steps of the verifier end in.

Each is a cause, and its wording is one function on it.
-/

namespace ContractVerifier

/-! ## malformed conditions -/

/-- What is wrong with a condition text. -/
inductive ParseCause where
  | invalidCharacter (c : Char)
  | empty
  | trailing (text : String)
  | unclosed
  | unfinished
  | unexpected (text : String)
deriving DecidableEq

namespace ParseCause

def message : ParseCause → String
  | invalidCharacter c => "invalid character " ++ Text.quoted (String.singleton c)
  | empty => "empty condition"
  | trailing t => "unexpected " ++ Text.quoted t
  | unclosed => "unclosed parenthesis"
  | unfinished => "unexpected end of condition"
  | unexpected t => "unexpected " ++ Text.quoted t

/-- What an operand starts with. -/
def operandStart : List String := ["integer", "identifier", "true", "false", "(", "!", "-"]

/-- What could have stood in the place of the offending token. -/
def expected : ParseCause → List String
  | invalidCharacter _ => []
  | trailing _ => ["operator", "end of condition"]
  | unclosed => [")"]
  | empty | unfinished | unexpected _ => operandStart

end ParseCause

/-- `start` and `stop` delimit the offending characters of `source`. -/
structure ParseError where
  cause : ParseCause
  source : String
  start : Nat
  stop : Nat
deriving DecidableEq

/-- The source is shown below the message, with a marker under the offending characters. -/
def ParseError.text (e : ParseError) : String :=
  let wanted :=
    if e.cause.expected.isEmpty then "" else " (expected " ++ ", ".intercalate e.cause.expected ++ ")"
  let marker := "".pushn ' ' e.start ++ "".pushn '^' (max 1 (e.stop - e.start))
  e.cause.message ++ " at offset " ++ toString e.start ++ wanted ++ "\n  " ++ e.source ++ "\n  " ++ marker

/-! ## other errors -/

/-- The name that stands for the returned value. -/
def resultName : String := "ret"

/-- The decorator that carries a contract. -/
def decoratorName : String := "condition"

inductive TypeCause where
  | unknownVariable (name : String)
  | unknownType (name : String)
  | mismatch (shown : String) (expected actual : Ty)
  | notBoolean (shown : String) (actual : Ty)
  | arity (callee : String) (expected actual : Nat)
  | redeclared (name : String) (declared actual : Ty)
deriving DecidableEq

def TypeCause.message : TypeCause → String
  | unknownVariable x => "unknown variable '" ++ x ++ "'"
  | unknownType x => "variable '" ++ x ++ "' has a type that is neither int nor bool"
  | mismatch s t u => "expected " ++ t.text ++ " but '" ++ s ++ "' has type " ++ u.text
  | notBoolean s u => "expected " ++ Ty.bool.text ++ " but '" ++ s ++ "' has type " ++ u.text
  | arity f n m => "call to '" ++ f ++ "' expects " ++ toString n ++ " arguments, got " ++ toString m
  | redeclared x t u => "'" ++ x ++ "' is declared as " ++ t.text ++ " but has type " ++ u.text

/-- What is wrong with the decorator of a function. -/
inductive AnnotationCause where
  | tooManyArguments
  | unknownArgument (name : String)
  | repeatedArgument (name : String)
  | notText (name : String)
  | repeatedDecorator
deriving DecidableEq

def AnnotationCause.message : AnnotationCause → String
  | tooManyArguments => "@" ++ decoratorName ++ " takes at most two positional arguments"
  | unknownArgument x => "unknown argument '" ++ x ++ "' of @" ++ decoratorName
  | repeatedArgument x => "argument '" ++ x ++ "' given twice"
  | notText x => "argument '" ++ x ++ "' of @" ++ decoratorName ++ " must be a string literal"
  | repeatedDecorator => "more than one @" ++ decoratorName ++ " decorator"

/-- A construct outside the supported fragment. -/
inductive Construct where
  | kind (name : String)
  | nestedFunction
  | parameterKind
  | assignmentTo (shown : String)
  | expressionStatement
  | whileElse
  | inLoopCondition (kind : String)
  | breakOutsideLoop
  | continueOutsideLoop
  | constant (shown : String)
  | trueDivision
  | callOf (shown : String)
  | strayInvariant
  | keywordArgument
  | starredArgument
  | expression (shown : String)
deriving DecidableEq

def Construct.text : Construct → String
  | kind k => k
  | nestedFunction => "nested function definition"
  | parameterKind => "parameter kind other than positional without default"
  | assignmentTo s => "assignment to " ++ s
  | expressionStatement => "expression statement"
  | whileElse => "while-else"
  | inLoopCondition k => k ++ " in a loop condition"
  | breakOutsideLoop => "'break' outside a loop"
  | continueOutsideLoop => "'continue' outside a loop"
  | constant s => "constant " ++ s
  | trueDivision => "true division (use //)"
  | callOf s => "call of " ++ s
  | strayInvariant => "invariant() outside the start of a while body"
  | keywordArgument => "keyword argument"
  | starredArgument => "starred argument"
  | expression s => "expression '" ++ s ++ "'"

inductive UnsupportedCause where
  | loopWithoutInvariant
  | noContract (callee : String)
  | undefinedCallee (callee : String)
  | construct (what : Construct)
  | reservedName
deriving DecidableEq

/-- The three ways in which a function can be outside what the verifier attempts. -/
inductive UnsupportedKind where
  | unannotatedLoop
  | unknownCall
  | construct
deriving DecidableEq

def UnsupportedKind.text : UnsupportedKind → String
  | unannotatedLoop => "UNANNOTATED_LOOP"
  | unknownCall => "OPAQUE_CALL"
  | construct => "UNSUPPORTED_CONSTRUCT"

namespace UnsupportedCause

def kind : UnsupportedCause → UnsupportedKind
  | loopWithoutInvariant => .unannotatedLoop
  | noContract _ | undefinedCallee _ => .unknownCall
  | construct _ | reservedName => .construct

def message : UnsupportedCause → String
  | loopWithoutInvariant => "loop without invariant"
  | noContract f => "call to '" ++ f ++ "' which has no contract"
  | undefinedCallee f => "call to '" ++ f ++ "' which is not defined in this module"
  | construct c => c.text ++ " is not supported"
  | reservedName => "the name '" ++ resultName ++ "' is reserved for the return value"

end UnsupportedCause

/-- Why an expression has no solver term. -/
inductive EncodingCause where
  | noSort (name : String) (type : Ty)
  | twoTypes (name : String)
  | rejected (shown detail : String)
deriving DecidableEq

def EncodingCause.message : EncodingCause → String
  | noSort x t => "variable '" ++ x ++ "' has no solver type (" ++ t.text ++ ")"
  | twoTypes x => "variable '" ++ x ++ "' is used with two different types"
  | rejected s d => "cannot encode '" ++ s ++ "': " ++ d

/-- `line` is the source line the error belongs to, if one is known. -/
inductive Error where
  | parse (e : ParseError)
  | decorator (cause : AnnotationCause) (line : Option Int)
  | type (cause : TypeCause) (line : Option Int)
  | unsupported (cause : UnsupportedCause) (line : Option Int)
  | encoding (cause : EncodingCause)
deriving DecidableEq

namespace Error

def line : Error → Option Int
  | parse _ | encoding _ => none
  | decorator _ l | type _ l | unsupported _ l => l

/-- `s` behind its line number. -/
def atLine (line : Option Int) (s : String) : String :=
  match line with
  | some n => "line " ++ toString n ++ ": " ++ s
  | none => s

def text : Error → String
  | parse e => e.text
  | decorator c l => atLine l c.message
  | type c l => atLine l c.message
  | unsupported c l => c.kind.text ++ ": " ++ atLine l c.message
  | encoding c => c.message

end Error

/-! ## faults -/

/-- Why a file cannot be read or written. -/
inductive FileFault where
  | noSuchFile
  | isDirectory
  /-- The path leads through a file. -/
  | notDirectory
  /-- A directory was to be made where there is a file. -/
  | fileExists
  | nameTooLong
deriving DecidableEq

def FileFault.text : FileFault → String
  | noSuchFile => "No such file or directory"
  | isDirectory => "Is a directory"
  | notDirectory => "Not a directory"
  | fileExists => "File exists"
  | nameTooLong => "File name too long"

inductive Fault where
  /-- An integer that was to be read or written has more digits than `Text.maxDigits`. -/
  | numeralTooLong
  /-- Code that was to be shown has no text. -/
  | unwritable
  /-- A terminator leads to a block that is not there. -/
  | noSuchBlock
  /-- An edge leads to a block that has no list of predecessors. -/
  | noSuchTarget
  | noTerminator (block : Nat)
  /-- The walk over the graph met a cycle that no loop header cuts. -/
  | uncutCycle
  /-- An augmented assignment to something other than a name. -/
  | targetNotName
  /-- A name was needed where the code has another expression. -/
  | notAName
  /-- An element of an empty list was needed. -/
  | emptyList
  /-- Terms were compared by order, and the left one is ill-sorted. -/
  | sortlessTerm
  /-- The check of a term goes on, but that of an argument has never ended. -/
  | uncheckedTerm
  | noTimeLimit (solver : String)
  /-- A time limit that is no finite number of milliseconds. -/
  | limitNotFinite
  | limitNotNumber
  /-- A setting has a value of a kind that cannot be used. -/
  | wrongKind
  | tooManyJobs
  /-- A task file lacks a key. -/
  | missingKey
  /-- A value of a task file has no text to split. -/
  | notText
  /-- A task file holds no mapping. -/
  | notMapping
  /-- A value of a task file is no list. -/
  | notSequence
  | file (f : FileFault)
  /-- A path holds the null character. -/
  | nullInPath
  /-- A decorator was called with arguments it does not take. -/
  | wrongArguments
deriving DecidableEq

def Fault.message : Fault → String
  | numeralTooLong => "an integer has too many digits"
  | unwritable => "the code has no text"
  | noSuchBlock | noSuchTarget => "an edge leads to a block that does not exist"
  | noTerminator b => "block " ++ toString b ++ " has no terminator"
  | uncutCycle => "a cycle has no loop header"
  | targetNotName => "an augmented assignment to something other than a name"
  | notAName => "a name was expected"
  | emptyList => "a list is empty"
  | sortlessTerm | uncheckedTerm => "a term is ill-sorted"
  | noTimeLimit s => "solver " ++ s ++ " cannot enforce a timeout"
  | limitNotFinite | limitNotNumber => "a time limit is no number"
  | wrongKind => "a setting has a value that cannot be used"
  | tooManyJobs => "there are too many jobs"
  | missingKey => "a key is missing"
  | notText => "a text was expected"
  | notMapping => "a mapping was expected"
  | notSequence => "a list was expected"
  | file f => f.text
  | nullInPath => "a path holds the null character"
  | wrongArguments => "wrong arguments"

inductive Failure where
  | error (e : Error)
  | fault (f : Fault)
deriving DecidableEq

end ContractVerifier
