import ContractVerifier.Keyed

/-!
# Source trees

Functions of the language that is verified, Python, as syntax trees.

* `Exp`, `Stmt` : expressions and statements.  What the verifier understands has a constructor of
  its own; all else is `other`, with the name of its kind and its parts.
* `Part` : a part of such a construct, or a piece of syntax that is neither expression nor
  statement.
* `Span` : first and last line.
-/

namespace ContractVerifier.Source

structure Span where
  line : Int
  endLine : Int
deriving DecidableEq, Inhabited

/-- A literal; `other` is a value that is neither a truth value, an integer nor a text, by its
notation. -/
inductive Constant where
  | none
  | bool (b : Bool)
  | int (n : Int)
  | text (s : String)
  | other (shown : String)
deriving DecidableEq

inductive Arith where
  | add | sub | mult | matMult | div | mod | lShift | rShift | bitOr | bitXor | bitAnd | floorDiv | pow
deriving DecidableEq

inductive Sign where
  | invert | not | plus | minus
deriving DecidableEq

inductive Logic where
  | and | or
deriving DecidableEq

inductive Comparison where
  | eq | notEq | lt | ltE | gt | gtE | is | isNot | isIn | notIn
deriving DecidableEq

mutual

inductive Exp where
  | constant (sp : Span) (value : Constant)
  | name (sp : Span) (id : String)
  | unary (sp : Span) (op : Sign) (e : Exp)
  | binary (sp : Span) (l : Exp) (op : Arith) (r : Exp)
  | logic (sp : Span) (op : Logic) (es : List Exp)
  | compare (sp : Span) (l : Exp) (ops : List Comparison) (rs : List Exp)
  | ifElse (sp : Span) (test body orElse : Exp)
  | call (sp : Span) (f : Exp) (args : List Exp) (keywords : List Part)
  | other (sp : Span) (kind : String) (parts : List Part)

inductive Stmt where
  /-- `more` holds the parameters that are not plain positional ones, and all defaults. -/
  | function (sp : Span) (name : String) (params : List Param) (more : List Part) (body : List Stmt)
      (decorators : List Exp) (result : Option Exp)
  | assign (sp : Span) (targets : List Exp) (value : Exp)
  | declare (sp : Span) (target type : Exp) (value : Option Exp)
  | augment (sp : Span) (target : Exp) (op : Arith) (value : Exp)
  | exp (sp : Span) (value : Exp)
  | cond (sp : Span) (test : Exp) (body orElse : List Stmt)
  | loop (sp : Span) (test : Exp) (body orElse : List Stmt)
  | ret (sp : Span) (value : Option Exp)
  | pass (sp : Span)
  | brk (sp : Span)
  | cont (sp : Span)
  | other (sp : Span) (kind : String) (parts : List Part)

inductive Param where
  | mk (sp : Span) (name : String) (type : Option Exp)

inductive Part where
  | missing
  | text (s : String)
  | number (n : Int)
  | exp (e : Exp)
  | stmt (s : Stmt)
  | keyword (sp : Span) (name : Option String) (value : Exp)
  | node (kind : String) (sp : Option Span) (parts : List Part)
  | list (ps : List Part)
  | field (label : String) (p : Part)

end

/-! ## names of kinds -/

def Arith.kind : Arith → String
  | add => "Add" | sub => "Sub" | mult => "Mult" | matMult => "MatMult" | div => "Div" | mod => "Mod"
  | lShift => "LShift" | rShift => "RShift" | bitOr => "BitOr" | bitXor => "BitXor" | bitAnd => "BitAnd"
  | floorDiv => "FloorDiv" | pow => "Pow"

def Sign.kind : Sign → String
  | invert => "Invert" | not => "Not" | plus => "UAdd" | minus => "USub"

def Logic.kind : Logic → String
  | and => "And" | or => "Or"

def Comparison.kind : Comparison → String
  | eq => "Eq" | notEq => "NotEq" | lt => "Lt" | ltE => "LtE" | gt => "Gt" | gtE => "GtE"
  | is => "Is" | isNot => "IsNot" | isIn => "In" | notIn => "NotIn"

def Arith.all : List Arith :=
  [add, sub, mult, matMult, div, mod, lShift, rShift, bitOr, bitXor, bitAnd, floorDiv, pow]

def Sign.all : List Sign := [invert, not, plus, minus]

def Logic.all : List Logic := [and, or]

def Comparison.all : List Comparison := [eq, notEq, lt, ltE, gt, gtE, is, isNot, isIn, notIn]

namespace Exp

def span : Exp → Span
  | constant sp _ | name sp _ | unary sp _ _ | binary sp _ _ _ | logic sp _ _ | compare sp _ _ _
  | ifElse sp _ _ _ | call sp _ _ _ | other sp _ _ => sp

def line (e : Exp) : Int := e.span.line

def kind : Exp → String
  | constant .. => "Constant" | name .. => "Name" | unary .. => "UnaryOp" | binary .. => "BinOp"
  | logic .. => "BoolOp" | compare .. => "Compare" | ifElse .. => "IfExp" | call .. => "Call"
  | other _ k _ => k

def isName : Exp → Bool
  | name .. => true
  | _ => false

def isCall : Exp → Bool
  | call .. => true
  | _ => false

def isIfElse : Exp → Bool
  | ifElse .. => true
  | _ => false

end Exp

namespace Stmt

def span : Stmt → Span
  | function sp _ _ _ _ _ _ | assign sp _ _ | declare sp _ _ _ | augment sp _ _ _ | exp sp _ | cond sp _ _ _
  | loop sp _ _ _ | ret sp _ | pass sp | brk sp | cont sp | other sp _ _ => sp

def line (s : Stmt) : Int := s.span.line

def kind : Stmt → String
  | function .. => "FunctionDef" | assign .. => "Assign" | declare .. => "AnnAssign"
  | augment .. => "AugAssign" | exp .. => "Expr" | cond .. => "If" | loop .. => "While"
  | ret .. => "Return" | pass .. => "Pass" | brk .. => "Break" | cont .. => "Continue"
  | other _ k _ => k

/-- The text of a loop invariant stated as `invariant("...")`. -/
def invariantText : Stmt → Option String
  | exp _ (.call _ (.name _ "invariant") [.constant _ (.text s)] []) => some s
  | _ => none

def isInvariant (s : Stmt) : Bool := s.invariantText.isSome

def isDocstring : Stmt → Bool
  | exp _ (.constant _ (.text _)) => true
  | _ => false

end Stmt

namespace Part

def kind : Part → String
  | missing => "None" | text _ => "str" | number _ => "int"
  | exp e => e.kind
  | stmt s => s.kind
  | keyword .. => "keyword"
  | node k _ _ => k
  | list _ => "list"
  | field _ p => p.kind

def line? : Part → Option Int
  | exp e => some e.line
  | stmt s => some s.line
  | keyword sp _ _ => some sp.line
  | node _ sp _ => sp.map (·.line)
  | field _ p => p.line?
  | _ => none

/-- The part with the given label. -/
def find? (label : String) : List Part → Option Part
  | [] => none
  | field l p :: ps => if l = label then some p else find? label ps
  | _ :: ps => find? label ps

end Part

/-- The labels of the parts of a construct, in the order in which its parts are visited. -/
def labels : List (String × List String) :=
  [("Assert", ["test", "msg"]),
   ("AsyncFunctionDef", ["name", "args", "body", "decorator_list", "returns"]),
   ("AsyncFor", ["target", "iter", "body", "orelse"]), ("AsyncWith", ["items", "body"]),
   ("Attribute", ["value", "attr"]), ("Await", ["value"]),
   ("ClassDef", ["name", "bases", "keywords", "body", "decorator_list"]), ("Delete", ["targets"]),
   ("Dict", ["keys", "values"]), ("DictComp", ["key", "value", "generators"]),
   ("ExceptHandler", ["type", "name", "body"]), ("For", ["target", "iter", "body", "orelse"]),
   ("FormattedValue", ["value", "conversion", "format_spec"]), ("GeneratorExp", ["elt", "generators"]),
   ("Global", ["names"]), ("Import", ["names"]), ("ImportFrom", ["module", "names", "level"]),
   ("JoinedStr", ["values"]), ("Lambda", ["args", "body"]), ("List", ["elts"]),
   ("ListComp", ["elt", "generators"]), ("Match", ["subject", "cases"]), ("MatchValue", ["value"]),
   ("Module", ["body"]), ("NamedExpr", ["target", "value"]), ("Nonlocal", ["names"]),
   ("Raise", ["exc", "cause"]), ("Set", ["elts"]), ("SetComp", ["elt", "generators"]),
   ("Slice", ["lower", "upper", "step"]), ("Starred", ["value"]), ("Subscript", ["value", "slice"]),
   ("Try", ["body", "handlers", "orelse", "finalbody"]),
   ("TryStar", ["body", "handlers", "orelse", "finalbody"]), ("Tuple", ["elts"]),
   ("With", ["items", "body"]), ("Yield", ["value"]), ("YieldFrom", ["value"]),
   ("alias", ["name", "asname"]), ("arg", ["arg", "annotation"]),
   ("arguments", ["posonlyargs", "args", "vararg", "kwonlyargs", "kw_defaults", "kwarg", "defaults"]),
   ("comprehension", ["target", "iter", "ifs", "is_async"]), ("match_case", ["pattern", "guard", "body"]),
   ("withitem", ["context_expr", "optional_vars"])]

/-- Kinds of expressions among `labels`. -/
def expKinds : List String :=
  ["Attribute", "Await", "Dict", "DictComp", "FormattedValue", "GeneratorExp", "JoinedStr", "Lambda", "List",
   "ListComp", "NamedExpr", "Set", "SetComp", "Slice", "Starred", "Subscript", "Tuple", "Yield", "YieldFrom"]

/-- Kinds of statements among `labels`. -/
def stmtKinds : List String :=
  ["Assert", "AsyncFunctionDef", "AsyncFor", "AsyncWith", "ClassDef", "Delete", "For", "Global", "Import",
   "ImportFrom", "Match", "Nonlocal", "Raise", "Try", "TryStar", "With"]

end ContractVerifier.Source
