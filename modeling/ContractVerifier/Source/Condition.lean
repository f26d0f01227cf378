import ContractVerifier.Source.Fragment

/-!
# Expressions of the code as expressions of the verifier

`Exp.toExpr` takes an expression without calls.  A chained comparison becomes a conjunction; integer
division and remainder are those of the condition language.
-/

namespace ContractVerifier.Source

def Arith.binOp? : Arith → Option BinOp
  | add => some .add
  | sub => some .sub
  | mult => some .mul
  | floorDiv => some .div
  | mod => some .mod
  | _ => none

def Comparison.binOp? : Comparison → Option BinOp
  | eq => some .eq
  | notEq => some .ne
  | lt => some .lt
  | ltE => some .le
  | gt => some .gt
  | gtE => some .ge
  | _ => none

def Logic.binOp : Logic → BinOp
  | and => .and
  | or => .or

/-- `e` has no counterpart. -/
def unsupportedExp (e : Exp) : Failure :=
  .error (.unsupported (.construct (.expression e.text)) (some e.line))

/-- `a < b < c` is `a < b && b < c`; `none` if an operator has no counterpart. -/
def comparisons : List Comparison → Expr → List Expr → Except Fault (Option (List Expr))
  | [], _, _ => .ok (some [])
  | op :: ops, l, rs =>
    match op.binOp? with
    | none => .ok none
    | some o =>
      match rs with
      | [] => .error .emptyList
      | r :: rs => do
        let rest ← comparisons ops r rs
        .ok (rest.map (.bin o l r :: ·))

mutual

def Exp.toExpr : Exp → Except Failure Expr
  | .constant sp c =>
    match c with
    | .bool b => .ok (.lit (.bool b))
    | .int n => .ok (.num n)
    | c => .error (unsupportedExp (.constant sp c))
  | .name _ x => .ok (.var ⟨x, .unknown⟩)
  | .binary sp l op r =>
    match op.binOp? with
    | some o => do
      let a ← l.toExpr
      let b ← r.toExpr
      .ok (.bin o a b)
    | none => .error (unsupportedExp (.binary sp l op r))
  | .unary sp op e =>
    match op with
    | .not => do
      let a ← e.toExpr
      .ok (.un .not a)
    | .minus =>
      match e with
      | .constant _ (.int n) => .ok (.num (-n))
      | e => do
        let a ← e.toExpr
        .ok (.un .neg a)
    | .plus => e.toExpr
    | .invert => .error (unsupportedExp (.unary sp op e))
  | .logic _ op es =>
    match es with
    | [] => .error (.fault .emptyList)
    | e :: es => do
      let a ← e.toExpr
      let as ← Exp.toExprL es
      .ok (as.foldl (.bin op.binOp) a)
  | .compare sp l ops rs => do
    let a ← l.toExpr
    let bs ← Exp.toExprL rs
    match comparisons ops a bs with
    | .ok (some parts) => .ok (.conjoin parts)
    | .ok none => .error (unsupportedExp (.compare sp l ops rs))
    | .error f => .error (.fault f)
  | .ifElse sp t a b => .error (unsupportedExp (.ifElse sp t a b))
  | .call sp f args keywords => .error (unsupportedExp (.call sp f args keywords))
  | .other sp k ps => .error (unsupportedExp (.other sp k ps))

def Exp.toExprL : List Exp → Except Failure (List Expr)
  | [] => .ok []
  | e :: es => do
    let a ← e.toExpr
    let as ← Exp.toExprL es
    .ok (a :: as)

end

end ContractVerifier.Source
