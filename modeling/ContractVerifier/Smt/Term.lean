import ContractVerifier.Expr.Basic

/-!
# Solver terms

Terms over integers and booleans, built node by node.

* `Term.type` : the sort of a term, read off its root;
* `Term.text`, `Term.shortText` : a term as text, whole or down to a depth;
* `Term.checked` : a node over terms, which is refused if one of them has the wrong sort;
* `Builder` : a way to build terms, with the operations of expressions in terms of it.
-/

namespace ContractVerifier.Smt

/-- The operators of two arguments. -/
inductive Op where
  | and | or | implies | iff
  | equals | lt | le
  | plus | minus | times | div
deriving DecidableEq

namespace Op

def text : Op → String
  | and => "&" | or => "|" | implies => "->" | iff => "<->"
  | equals => "=" | lt => "<" | le => "<="
  | plus => "+" | minus => "-" | times => "*" | div => "/"

/-- The sort of both arguments. -/
def operand : Op → Ty
  | and | or | implies | iff => .bool
  | equals | lt | le | plus | minus | times | div => .int

def type : Op → Ty
  | and | or | implies | iff | equals | lt | le => .bool
  | plus | minus | times | div => .int

end Op

inductive Term where
  | sym (v : Var)
  | lit (v : Value)
  | not (t : Term)
  | bin (op : Op) (l r : Term)
  | ite (c a b : Term)
deriving DecidableEq, Inhabited

/-! ## names of symbols -/

def isSymbolMark (c : Char) : Bool := "~!@$%^&*_-+=<>.?/".toList.contains c

def isSymbolStart (c : Char) : Bool := isSymbolMark c || c.isAlpha

/-- The rest of a simple name; a line break may end it. -/
def isSymbolRest : List Char → Bool
  | [] => true
  | ['\n'] => true
  | c :: cs => (isSymbolStart c || c.isDigit) && isSymbolRest cs

/-- A name that needs no quotes. -/
def isSimpleName (x : String) : Bool :=
  match x.toList with
  | [] => false
  | c :: cs => isSymbolStart c && isSymbolRest cs && !(["Int", "Real", "Bool"].contains x)

/-- The name of a symbol, between quotes unless it is simple. -/
def symbolText (x : String) : String :=
  if isSimpleName x then x
  else
    let escaped := x.toList.flatMap fun c => if c = '\\' || c = '\'' then ['\\', c] else [c]
    "'" ++ String.ofList escaped ++ "'"

namespace Term

/-- Sorts of arguments are not looked at. -/
def type : Term → Ty
  | sym v => v.type
  | lit v => v.type
  | not _ => .bool
  | bin op _ _ => op.type
  | ite _ a _ => a.type

/-! ## text -/

def valueText : Value → String
  | .int n => toString n
  | .bool true => "True"
  | .bool false => "False"

def text : Term → String
  | sym v => symbolText v.name
  | lit v => valueText v
  | not t => "(! " ++ t.text ++ ")"
  | bin op l r => "(" ++ l.text ++ " " ++ op.text ++ " " ++ r.text ++ ")"
  | ite c a b => "(" ++ c.text ++ " ? " ++ a.text ++ " : " ++ b.text ++ ")"

/-- `text` with dots for what lies deeper than `depth`. -/
def textTo : Nat → Term → String
  | 0, _ => "..."
  | _ + 1, sym v => symbolText v.name
  | _ + 1, lit v => valueText v
  | d + 1, not t => "(! " ++ t.textTo d ++ ")"
  | d + 1, bin op l r => "(" ++ l.textTo d ++ " " ++ op.text ++ " " ++ r.textTo d ++ ")"
  | d + 1, ite c a b => "(" ++ c.textTo d ++ " ? " ++ a.textTo d ++ " : " ++ b.textTo d ++ ")"

/-- The depth down to which a term is shown. -/
def shownDepth : Nat := 5

def shortText (t : Term) : String := t.textTo shownDepth

/-- Whether all literals have a text. -/
def isWritable : Term → Bool
  | sym _ => true
  | lit v => v.isWritable
  | not t => t.isWritable
  | bin _ l r => l.isWritable && r.isWritable
  | ite c a b => c.isWritable && a.isWritable && b.isWritable

/-- Whether the literals that `textTo` shows have a text. -/
def isWritableTo : Nat → Term → Bool
  | 0, _ => true
  | _ + 1, sym _ => true
  | _ + 1, lit v => v.isWritable
  | d + 1, not t => t.isWritableTo d
  | d + 1, bin _ l r => l.isWritableTo d && r.isWritableTo d
  | d + 1, ite c a b => c.isWritableTo d && a.isWritableTo d && b.isWritableTo d

end Term

/-! ## building terms -/

/-- Why there is no such term. -/
inductive Refusal where
  | emptyName
  | illSorted (t : Term)
deriving DecidableEq

def Refusal.message : Refusal → String
  | emptyName => "Empty string is not a valid name"
  | illSorted t => "The formula '" ++ t.shortText ++ "' is not well-formed"

def Refusal.isWritable : Refusal → Bool
  | emptyName => true
  | illSorted t => t.isWritableTo Term.shownDepth

namespace Term

def int (n : Int) : Term := lit (.int n)

/-- The arguments of the root. -/
def args : Term → List Term
  | sym _ | lit _ => []
  | not t => [t]
  | bin _ l r => [l, r]
  | ite c a b => [c, a, b]

/-- The sort of the root, from the sorts of its arguments.  There is none if one of these is missing
or wrong. -/
def rootSort? (sort? : Term → Option Ty) : Term → Option Ty
  | sym v => some v.type
  | lit v => some v.type
  | not t => if sort? t = some .bool then some .bool else none
  | bin op l r => if sort? l = some op.operand ∧ sort? r = some op.operand then some op.type else none
  | ite c a b => if sort? c = some .bool ∧ sort? a = sort? b then sort? a else none

/-- A node over terms. -/
def checked (t : Term) : Except Refusal Term :=
  match t.rootSort? fun a => some a.type with
  | some _ => .ok t
  | none => .error (.illSorted t)

/-- A double negation is left out. -/
def negationWith {m : Type → Type} [Monad m] (node : Term → m Term) : Term → m Term
  | not t => pure t
  | t => node (not t)

def negation (t : Term) : Except Refusal Term := t.negationWith checked

end Term

/-- A way to build terms: the node over terms that are built, the sort of such a term, and the
symbol of a variable. -/
structure Builder (m : Type → Type) where
  node : Term → m Term
  sortOf : Term → m Ty
  symbol : Var → m Term

namespace Builder

variable {m : Type → Type} [Monad m] (b : Builder m)

def binary (op : Op) (l r : Term) : m Term := b.node (.bin op l r)

/-- The solver rounds to the floor for positive divisors only, so both signs are turned for the
others. -/
def floorDiv (l r : Term) : m Term := do
  let zero ← b.node (.int 0)
  let positive ← b.binary .lt zero r
  let quotient ← b.binary .div l r
  let l' ← b.binary .minus zero l
  let r' ← b.binary .minus zero r
  let turned ← b.binary .div l' r'
  b.node (.ite positive quotient turned)

/-- What the floor quotient leaves, with the sign of the divisor. -/
def floorMod (l r : Term) : m Term := do
  let q ← b.floorDiv l r
  let p ← b.binary .times r q
  b.binary .minus l p

/-- The left side says which equality is meant. -/
def equality (l r : Term) : m Term := do
  let s ← b.sortOf l
  b.binary (if s = .bool then .iff else .equals) l r

end Builder

end ContractVerifier.Smt
