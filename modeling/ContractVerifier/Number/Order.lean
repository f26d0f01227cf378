import ContractVerifier.Number.Double

/-!
# The order of numbers

`Double.atLeast` compares numbers exactly; what is no number is not comparable to anything.
-/

namespace ContractVerifier.Double

/-- `± m · 2 ^ e` as a fraction. -/
def signedRatio (neg : Bool) (m : Nat) (e : Int) : Int × Nat :=
  let (n, d) := ratio m e
  (if neg then -(n : Int) else n, d)

/-- Whether `y ≤ x`. -/
def atLeast (x y : Double) : Bool :=
  match x, y with
  | nan, _ | _, nan => false
  | infinite neg, infinite neg' => !neg || neg'
  | infinite neg, finite .. => !neg
  | finite .., infinite neg => neg
  | finite neg m e, finite neg' m' e' =>
    let (n, d) := signedRatio neg m e
    let (n', d') := signedRatio neg' m' e'
    n' * d ≤ n * d'

/-- An integer as a fraction of one, of any size. -/
def whole (n : Int) : Double := finite (n < 0) n.natAbs 0

end ContractVerifier.Double
