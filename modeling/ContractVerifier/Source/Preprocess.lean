import ContractVerifier.Source.Augment
import ContractVerifier.Source.Conditional
import ContractVerifier.Source.NestedCall

/-!
# Normal form of a function body

Three passes leave a body without augmented assignments, conditional expressions and nested calls.
They share one counter, so that their temporaries differ.
-/

namespace ContractVerifier.Source

inductive Pass where
  | augments
  | conditionals
  | calls
deriving DecidableEq

/-- A hoisting pass from a given number of temporaries on. -/
def hoisted (pass : List Stmt → HoistM (List Stmt)) (counter : Nat) (body : List Stmt) :
    List Stmt × Nat :=
  let (ss, st) := Id.run ((pass body).run ⟨counter, []⟩)
  (ss, st.counter)

/-- One pass over a body, with the number of temporaries before and after. -/
def Pass.run (p : Pass) (counter : Nat) (body : List Stmt) : Except Fault (List Stmt × Nat) :=
  match p with
  | .augments => do
    let body ← Stmt.expandAugmentsL body
    .ok (body, counter)
  | .conditionals => .ok (hoisted Stmt.liftIfL counter body)
  | .calls => .ok (hoisted Stmt.liftCallL counter body)

/-- Several passes, one after the other. -/
def runPasses : List Pass → Nat → List Stmt → Except Fault (List Stmt × Nat)
  | [], counter, body => .ok (body, counter)
  | p :: ps, counter, body => do
    let (body, counter) ← p.run counter body
    runPasses ps counter body

/-- A function definition. -/
structure Function where
  span : Span
  name : String
  params : List Param
  more : List Part
  body : List Stmt
  decorators : List Exp
  result : Option Exp

def Stmt.function? : Stmt → Option Function
  | .function sp x ps more body decorators result => some ⟨sp, x, ps, more, body, decorators, result⟩
  | _ => none

namespace Function

def toStmt (f : Function) : Stmt :=
  .function f.span f.name f.params f.more f.body f.decorators f.result

def runPasses (f : Function) (ps : List Pass) : Except Fault (Function × Nat) := do
  let (body, n) ← Source.runPasses ps 0 f.body
  .ok ({ f with body := body }, n)

/-- The function with its body in normal form. -/
def preprocess (f : Function) : Except Fault Function := do
  let (f, _) ← f.runPasses [.augments, .conditionals, .calls]
  .ok f

end Function

end ContractVerifier.Source
