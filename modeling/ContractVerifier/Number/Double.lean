/-!
# Binary fractions of 53 bits

The numbers of the 64-bit binary format, kept as exact fractions.

* `ofRatio` : the nearest number to a fraction, a tie goes to the even one;
* `thousandfold` : the rounded product with 1000;
* `truncate` : the integer towards zero.
-/

namespace ContractVerifier

/-- A finite number is `± m · 2 ^ e` with `m < 2 ^ 53` and `-1074 ≤ e`. -/
inductive Double where
  | finite (neg : Bool) (m : Nat) (e : Int)
  | infinite (neg : Bool)
  | nan
deriving DecidableEq

namespace Double

def leastExponent : Int := -1074

def greatestExponent : Int := 971

/-- The first integer that needs 54 bits. -/
def mantissaBound : Nat := 9007199254740992

/-- The quotient of two numbers, rounded to the nearest integer, a tie to the even one. -/
def roundEven (n d : Nat) : Nat :=
  let q := n / d
  let r := n % d
  if 2 * r < d then q
  else if d < 2 * r then q + 1
  else if q % 2 = 0 then q else q + 1

/-- Numerator and denominator of `n / d` divided by `b ^ e`. -/
def scaled (b n d : Nat) (e : Int) : Nat × Nat :=
  if e < 0 then (n * Nat.pow b (-e).toNat, d) else (n, d * Nat.pow b e.toNat)

/-- The `k` with `2 ^ k ≤ n / d < 2 ^ (k + 1)`. -/
def log2Ratio (n d : Nat) : Int :=
  let k : Int := (n.log2 : Int) - d.log2
  let (a, b) := scaled 2 n d k
  if b ≤ a then k else k - 1

/-- The number nearest to `± n / d`. -/
def ofRatio (neg : Bool) (n d : Nat) : Double :=
  if n = 0 then finite neg 0 leastExponent
  else
    let e := max leastExponent (log2Ratio n d - 52)
    let (a, b) := scaled 2 n d e
    let m := roundEven a b
    let (m, e) := if m = mantissaBound then (mantissaBound / 2, e + 1) else (m, e)
    if greatestExponent < e then infinite neg else finite neg m e

/-- The magnitude of `m · 2 ^ e` as numerator and denominator. -/
def ratio (m : Nat) (e : Int) : Nat × Nat := scaled 2 m 1 (-e)

def thousandfold : Double → Double
  | finite neg m e =>
    let (n, d) := ratio m e
    ofRatio neg (n * 1000) d
  | x => x

/-- The integer part; there is none of an infinite number. -/
def truncate : Double → Option Int
  | finite neg m e =>
    let (n, d) := ratio m e
    let q : Int := (n / d : Nat)
    some (if neg then -q else q)
  | _ => none

end Double

end ContractVerifier
