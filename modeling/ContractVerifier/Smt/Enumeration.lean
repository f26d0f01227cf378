import ContractVerifier.Smt.Check

/-!
# Search for models

A solver for terms whose integers are looked for in a given list.

* `Term.eval?` : the value of a term under a partial assignment, as far as it is determined;
* `search` : the assignments under which a term is not false;
* `enumeration` : the solver.

A quotient by zero has no determined value, so a term that depends on one counts as true for some
meaning of the quotient.
-/

namespace ContractVerifier.Smt

/-! ## partial values -/

namespace Op

def conj : Option Value → Option Value → Option Value
  | some (.bool false), _ => some (.bool false)
  | _, some (.bool false) => some (.bool false)
  | some (.bool true), some (.bool true) => some (.bool true)
  | _, _ => none

def compl : Option Value → Option Value
  | some (.bool b) => some (.bool !b)
  | _ => none

/-- An operation on two integers that are both determined. -/
def onInts (f : Int → Int → Option Value) : Option Value → Option Value → Option Value
  | some (.int a), some (.int b) => f a b
  | _, _ => none

def onBools (f : Bool → Bool → Bool) : Option Value → Option Value → Option Value
  | some (.bool a), some (.bool b) => some (.bool (f a b))
  | _, _ => none

/-- A factor zero determines a product. -/
def product : Option Value → Option Value → Option Value
  | some (.int 0), _ => some (.int 0)
  | _, some (.int 0) => some (.int 0)
  | l, r => onInts (fun a b => some (.int (a * b))) l r

def eval? : Op → Option Value → Option Value → Option Value
  | and, l, r => conj l r
  | or, l, r => compl (conj (compl l) (compl r))
  | implies, l, r => compl (conj l (compl r))
  | iff, l, r => onBools (fun a b => a == b) l r
  | equals, l, r => onInts (fun a b => some (.bool (a == b))) l r
  | lt, l, r => onInts (fun a b => some (.bool (a < b))) l r
  | le, l, r => onInts (fun a b => some (.bool (a ≤ b))) l r
  | plus, l, r => onInts (fun a b => some (.int (a + b))) l r
  | minus, l, r => onInts (fun a b => some (.int (a - b))) l r
  | times, l, r => product l r
  | div, l, r => onInts (fun a b => if b = 0 then none else some (.int (a / b))) l r

end Op

namespace Term

def eval? (m : Model) : Term → Option Value
  | sym v => m.get? v.name
  | lit v => some v
  | not t => Op.compl (t.eval? m)
  | bin op l r => op.eval? (l.eval? m) (r.eval? m)
  | ite c a b =>
    match c.eval? m with
    | some (.bool true) => a.eval? m
    | some (.bool false) => b.eval? m
    | _ => none

def collectSymbols (seen : Symbols) : Term → Symbols
  | sym v => seen.putNew v.name v.type
  | lit _ => seen
  | not t => t.collectSymbols seen
  | bin _ l r => r.collectSymbols (l.collectSymbols seen)
  | ite c a b => b.collectSymbols (a.collectSymbols (c.collectSymbols seen))

def isFalse (m : Model) (t : Term) : Bool := t.eval? m == some (.bool false)

end Term

/-! ## search -/

/-- The values tried for a symbol. -/
def candidates (ints : List Int) : Ty → List Value
  | .bool => [.bool false, .bool true]
  | _ => ints.map .int

/-- Up to `n` extensions of `m` to the symbols `vs` under which `t` is not false.  A partial
assignment under which `t` is already false is given up. -/
def search (ints : List Int) (t : Term) : List (String × Ty) → Model → Nat → List Model
  | [], m, n => if n = 0 || t.isFalse m then [] else [m]
  | (x, ty) :: vs, m, n =>
    if t.isFalse m then []
    else (candidates ints ty).foldl
      (fun found v =>
        if found.length < n then found ++ search ints t vs (m.put x v) (n - found.length) else found) []

def models (ints : List Int) (t : Term) (n : Nat) : List Model :=
  search ints t (t.collectSymbols .empty).entries .empty n

/-- Any value of the type of `v`. -/
def someValue (v : Var) : Value :=
  match v.type with
  | .bool => .bool false
  | _ => .int 0

def enumeration (ints : List Int) : Solver := fun t =>
  match models ints t 1 with
  | [] => .unsat
  | m :: _ => .sat fun v => (m.get? v.name).getD (someValue v)

/-- Exactly one assignment to the symbols of `vc` makes it false. -/
def hasUniqueCounterexample (ints : List Int) (vc : Expr) : Bool :=
  match negated vc with
  | .ok (.ok (t, _)) => (models ints t 2).length == 1
  | _ => false

end ContractVerifier.Smt
