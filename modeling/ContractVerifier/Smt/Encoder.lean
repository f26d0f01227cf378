import ContractVerifier.Error
import ContractVerifier.Smt.Term

/-!
# Expressions as solver terms

* `Symbols` : the symbol of a name, which is one only;
* `Expr.build` : an expression as a term, left operands first, by any builder;
* `EncodeStop` : the ways in which that fails, and what is reported of them.
-/

namespace ContractVerifier

open Smt

/-- The symbols in use, in order of first use. -/
abbrev Symbols := Keyed String Ty

/-- Whether the symbol of a variable is yet to be made.  A name stands for one symbol only. -/
def Symbols.lacks (s : Symbols) (v : Var) : Except EncodingCause Bool :=
  if v.type = .unknown then .error (.noSort v.name v.type)
  else
    match s.get? v.name with
    | none => .ok true
    | some t => if t = v.type then .ok false else .error (.twoTypes v.name)

/-! ## building -/

section

variable {m : Type → Type} [Monad m] (b : Builder m)

/-- The term of an operator on two terms. -/
def BinOp.build (op : BinOp) (l r : Term) : m Term :=
  match op with
  | .add => b.binary .plus l r
  | .sub => b.binary .minus l r
  | .mul => b.binary .times l r
  | .div => b.floorDiv l r
  | .mod => b.floorMod l r
  | .eq => b.equality l r
  | .ne => do
    let e ← b.equality l r
    e.negationWith b.node
  | .lt => b.binary .lt l r
  | .le => b.binary .le l r
  | .gt => b.binary .lt r l
  | .ge => b.binary .le r l
  | .and => b.binary .and l r
  | .or => b.binary .or l r
  | .imp => b.binary .implies l r

def Expr.build : Expr → m Term
  | .lit v => b.node (.lit v)
  | .var v => b.symbol v
  | .un .not e => do
    let t ← e.build
    t.negationWith b.node
  | .un .neg e => do
    let zero ← b.node (.int 0)
    let t ← e.build
    b.binary .minus zero t
  | .bin op l r => do
    let l ← l.build
    let r ← r.build
    op.build b l r

end

/-! ## encoding -/

/-- Why an expression has no term: it misuses a name, or a node was refused. -/
inductive EncodeStop where
  | misuse (c : EncodingCause)
  | refused (r : Refusal)
deriving DecidableEq

/-- What is reported for the expression that was to be encoded.  The message about a refusal shows
the expression, and there is none if that has no text. -/
def EncodeStop.failure (e : Expr) : EncodeStop → Failure
  | misuse c => .error (.encoding c)
  | refused r => if e.isWritable then .error (.encoding (.rejected e.text r.message)) else .fault .numeralTooLong

end ContractVerifier
