import ContractVerifier.Error

/-!
# Types of expressions

`Table` gives types to names: arguments, locals, temporaries and the returned value.  `resolve`
writes them into the variables of an expression, `typeOf` computes the type of a resolved one
bottom-up.
-/

namespace ContractVerifier

structure Table where
  args : Keyed String Ty := .empty
  locals : Keyed String Ty := .empty
  temps : Keyed String Ty := .empty
  result : Ty := .int
deriving DecidableEq

namespace Table

/-- `ret` comes first, then arguments before locals before temporaries. -/
def lookup (t : Table) (x : String) : Option Ty :=
  if x = resultName then some t.result
  else (t.args.get? x).or ((t.locals.get? x).or (t.temps.get? x))

def contains (t : Table) (x : String) : Bool := (t.lookup x).isSome

def typeOf (t : Table) (x : String) : Except TypeCause Ty :=
  match t.lookup x with
  | some u => .ok u
  | none => .error (.unknownVariable x)

/-- A reference to a declared name. -/
def var (t : Table) (x : String) : Except TypeCause Var := do
  let u ← t.typeOf x
  if u = .unknown then .error (.unknownType x) else .ok ⟨x, u⟩

def declareLocal (t : Table) (x : String) (u : Ty) : Table := { t with locals := t.locals.put x u }

def declareTemp (t : Table) (x : String) (u : Ty) : Table := { t with temps := t.temps.put x u }

def text (t : Table) : String :=
  let entries := t.args.entries ++ t.locals.entries ++ t.temps.entries ++ [(resultName, t.result)]
  "\x7b" ++ ", ".intercalate (entries.map fun e => e.1 ++ ": " ++ e.2.text) ++ "\x7d"

end Table

namespace Expr

/-- Every variable gets its declared type. -/
def resolve (t : Table) : Expr → Except TypeCause Expr
  | lit v => .ok (lit v)
  | var v => do
    let w ← t.var v.name
    .ok (var w)
  | bin op l r => do
    let l ← l.resolve t
    let r ← r.resolve t
    .ok (bin op l r)
  | un op e => do
    let e ← e.resolve t
    .ok (un op e)

/-- `actual`, the type of `e`, has to be `expected`. -/
def expect (e : Expr) (expected actual : Ty) : Except TypeCause Unit :=
  if actual = expected then .ok () else .error (.mismatch e.text expected actual)

end Expr

/-- The operand type an operator asks for; both sides of an equality have the type of the left
one. -/
def BinOp.operand : BinOp → Option Ty
  | .add | .sub | .mul | .div | .mod => some .int
  | .lt | .le | .gt | .ge => some .int
  | .eq | .ne => none
  | .and | .or | .imp => some .bool

def BinOp.type : BinOp → Ty
  | .add | .sub | .mul | .div | .mod => .int
  | _ => .bool

def UnOp.type : UnOp → Ty
  | .not => .bool
  | .neg => .int

namespace Expr

/-- The left operand is looked at before the right one. -/
def typeOf : Expr → Except TypeCause Ty
  | lit v => .ok v.type
  | var v => if v.type = .unknown then .error (.unknownType v.name) else .ok v.type
  | un op e => do
    let t ← e.typeOf
    e.expect op.type t
    .ok op.type
  | bin op l r => do
    let t ← l.typeOf
    match op.operand with
    | some u => l.expect u t
    | none => pure ()
    let t' ← r.typeOf
    r.expect (op.operand.getD t) t'
    .ok op.type

/-- The root of a condition is boolean. -/
def asCondition (e : Expr) : Except TypeCause Expr := do
  let t ← e.typeOf
  if t = .bool then .ok e else .error (.notBoolean e.text t)

end Expr

end ContractVerifier
