import ContractVerifier.Expr.Basic

/-!
# Text of an expression

Operators stand between single blanks.  An operand gets parentheses only when it binds weaker than
its place asks for: at equal strength the right operand of a left-associative operator does, the
left operand of a right-associative one.
-/

namespace ContractVerifier

/-- `s` in parentheses if `b`. -/
def parenIf (b : Bool) (s : String) : String := if b then "(" ++ s ++ ")" else s

/-- The least strength of the left operand. -/
def BinOp.leftLevel (op : BinOp) : Nat := if op.rightAssoc then op.precedence + 1 else op.precedence

/-- The least strength of the right operand. -/
def BinOp.rightLevel (op : BinOp) : Nat :=
  if op.rightAssoc then op.precedence else op.precedence + 1

namespace Expr

/-- `-3` is a literal, so the negation of the literal `3` keeps its parentheses. -/
def text : Expr → String
  | lit v => v.text
  | var v => v.name
  | bin op l r =>
    parenIf (l.precedence < op.leftLevel) l.text ++ " " ++ op.text ++ " " ++
      parenIf (r.precedence < op.rightLevel) r.text
  | un op e => op.text ++ parenIf (op = .neg && e.isIntLit || e.precedence < unaryPrecedence) e.text

end Expr

end ContractVerifier
