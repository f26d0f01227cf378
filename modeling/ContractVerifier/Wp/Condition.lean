import ContractVerifier.Wp.Generator

/-!
# Verification conditions

The formula whose validity says that a function keeps its contract: the precondition implies the
weakest precondition of the body together with the obligations of its loops.
-/

namespace ContractVerifier.Wp

open ContractVerifier.Flow

/-- `pre ==> wp && obligations`, in a fresh state of the generator. -/
def Generator.condition (gen : Generator) (pre : Expr) : Gen Expr := do
  let e ← gen.generate
  note (.weakest e)
  let os := (← get).obligations
  for o in os do
    note (.obligation o)
  return pre.implies (.conjoin (e :: os))

/-- The verification condition, and the steps taken for it. -/
def traceVc (pre post : Expr) (g : Graph) (contracts : Contracts) :
    Except Failure Expr × List Step :=
  match Generator.make g post contracts with
  | .error f => (.error f, [])
  | .ok gen =>
    let (r, s) := (gen.condition pre).exec {}
    (r, s.steps.reverse)

def buildVc (pre post : Expr) (g : Graph) (contracts : Contracts) : Except Failure Expr :=
  (traceVc pre post g contracts).1

end ContractVerifier.Wp
