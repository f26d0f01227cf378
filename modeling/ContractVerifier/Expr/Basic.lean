import ContractVerifier.Keyed
import ContractVerifier.Text.Digit

/-!
# Expressions

The trees that conditions, flow graphs and verification conditions are made of: integer and
boolean literals, typed variables, operators.  `substitute` replaces variables simultaneously,
`freeVars` lists them by first occurrence.
-/

namespace ContractVerifier

/-- `unknown` is the type of a variable that is not declared as an integer or a boolean. -/
inductive Ty where
  | int
  | bool
  | unknown
deriving DecidableEq, Inhabited

def Ty.text : Ty → String
  | .int => "Int"
  | .bool => "Bool"
  | .unknown => "Unknown"

inductive BinOp where
  | add | sub | mul | div | mod
  | eq | ne
  | lt | le | gt | ge
  | and | or | imp
deriving DecidableEq

inductive UnOp where
  | not
  | neg
deriving DecidableEq

namespace BinOp

def text : BinOp → String
  | add => "+" | sub => "-" | mul => "*" | div => "/" | mod => "%"
  | eq => "==" | ne => "!="
  | lt => "<" | le => "<=" | gt => ">" | ge => ">="
  | and => "&&" | or => "||" | imp => "==>"

/-- Binding strength, a higher one binds tighter. -/
def precedence : BinOp → Nat
  | imp => 1
  | or => 2
  | and => 3
  | eq | ne => 4
  | lt | le | gt | ge => 5
  | add | sub => 6
  | mul | div | mod => 7

def rightAssoc : BinOp → Bool
  | imp => true
  | _ => false

end BinOp

def UnOp.text : UnOp → String
  | .not => "!"
  | .neg => "-"

structure Var where
  name : String
  type : Ty := .unknown
deriving DecidableEq, Inhabited

/-- A value a literal denotes; `1` and `true` are different. -/
inductive Value where
  | int (n : Int)
  | bool (b : Bool)
deriving DecidableEq, Inhabited

namespace Value

def type : Value → Ty
  | int _ => .int
  | bool _ => .bool

def text : Value → String
  | int n => toString n
  | bool true => "true"
  | bool false => "false"

/-- Whether the value has a text: an integer of too many digits is not written. -/
def isWritable : Value → Bool
  | int n => Text.isShort n
  | bool _ => true

end Value

inductive Expr where
  | lit (v : Value)
  | var (v : Var)
  | bin (op : BinOp) (l r : Expr)
  | un (op : UnOp) (e : Expr)
deriving DecidableEq, Inhabited

namespace Expr

def truth : Expr := lit (.bool true)

def num (n : Int) : Expr := lit (.int n)

def unaryPrecedence : Nat := 8

def atomPrecedence : Nat := 9

def precedence : Expr → Nat
  | bin op _ _ => op.precedence
  | un _ _ => unaryPrecedence
  | _ => atomPrecedence

def isIntLit : Expr → Bool
  | lit (.int _) => true
  | _ => false

/-- Whether all literals have a text. -/
def isWritable : Expr → Bool
  | lit v => v.isWritable
  | var _ => true
  | bin _ l r => l.isWritable && r.isWritable
  | un _ e => e.isWritable

/-- Every variable whose name is a key of `m` gives way to the value of the key; what was put in is
not visited again. -/
def substitute (m : Keyed String Expr) : Expr → Expr
  | lit v => lit v
  | var v => (m.get? v.name).getD (var v)
  | bin op l r => bin op (l.substitute m) (r.substitute m)
  | un op e => un op (e.substitute m)

/-- `substitute` of one variable. -/
def subst (e : Expr) (x : String) (t : Expr) : Expr := e.substitute ⟨[(x, t)]⟩

def collectVars (seen : Keyed String Var) : Expr → Keyed String Var
  | lit _ => seen
  | var v => seen.putNew v.name v
  | bin _ l r => r.collectVars (l.collectVars seen)
  | un _ e => e.collectVars seen

/-- The variables in order of first occurrence, one entry for each name. -/
def freeVars (e : Expr) : Keyed String Var := e.collectVars .empty

def negate (e : Expr) : Expr := un .not e

def implies (a b : Expr) : Expr := bin .imp a b

/-- Left-nested conjunction, `truth` of nothing. -/
def conjoin : List Expr → Expr
  | [] => truth
  | e :: es => es.foldl (bin .and) e

end Expr

end ContractVerifier
