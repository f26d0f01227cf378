import ContractVerifier.Error

/-!
# The decorator at run time

A decorated function runs as it is; the decorator only attaches two conditions to it, given by
position or by name.
-/

namespace ContractVerifier

/-- The conditions of a decorated function. -/
structure Attached (α : Type) where
  pre : Option α := none
  post : Option α := none
deriving DecidableEq

namespace Attached

variable {α : Type}

def ofPositional : List α → Except Fault (Attached α)
  | [] => .ok {}
  | [a] => .ok { pre := some a }
  | [a, b] => .ok { pre := some a, post := some b }
  | _ => .error .wrongArguments

/-- An argument by name; none may be given twice. -/
def addNamed (x : Attached α) : List (String × α) → Except Fault (Attached α)
  | [] => .ok x
  | (k, a) :: rest =>
    if k = "pre" ∧ x.pre.isNone then addNamed { x with pre := some a } rest
    else if k = "post" ∧ x.post.isNone then addNamed { x with post := some a } rest
    else .error .wrongArguments

def ofArguments (positional : List α) (named : List (String × α)) : Except Fault (Attached α) := do
  let x ← ofPositional positional
  x.addNamed named

end Attached

end ContractVerifier
