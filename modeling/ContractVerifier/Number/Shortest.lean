import ContractVerifier.Number.Double

/-!
# The text of a number

The fewest decimal digits that read back as the same number, and of these the nearest.  Numbers from
`10 ^ -4` up to `10 ^ 16` are written positionally, the others with an exponent.
-/

namespace ContractVerifier.Double

/-- The `k` with `10 ^ k ≤ n / d < 10 ^ (k + 1)`. -/
def log10Ratio (n d : Nat) : Int :=
  let k : Int := ((Nat.toDigits 10 n).length : Int) - (Nat.toDigits 10 d).length
  let (a, b) := scaled 10 n d k
  if b ≤ a then k else k - 1

/-- The decimal `digits · 10 ^ k`. -/
structure Decimal where
  digits : Nat
  k : Int

/-- The reals that round to `m · 2 ^ e`, as bounds in units of `2 ^ (e - 2)`.  Below a power of two
the numbers lie twice as close. -/
def bounds (m : Nat) (e : Int) : Nat × Nat :=
  (if m = mantissaBound / 2 ∧ leastExponent < e then 4 * m - 1 else 4 * m - 2, 4 * m + 2)

/-- Whether `x` rounds to `m · 2 ^ e`; the ends of the interval do so when `m` is even. -/
def readsBack (m : Nat) (e : Int) (x : Decimal) : Bool :=
  let (n, d) := scaled 10 x.digits 1 (-x.k)
  let (a, b) := scaled 2 n d (e - 2)
  let (lo, hi) := bounds m e
  if m % 2 = 0 then lo * b ≤ a && a ≤ hi * b else lo * b < a && a < hi * b

/-- The nearest of the two decimals around `m · 2 ^ e` that end at `10 ^ k`, if it reads back; of
two that are equally near the even one. -/
def onGrid (m : Nat) (e k : Int) (ratio : Nat × Nat) : Option Decimal :=
  let (a, b) := scaled 10 ratio.1 ratio.2 k
  let nearest := roundEven a b
  let other := if nearest = a / b then nearest + 1 else nearest - 1
  if readsBack m e ⟨nearest, k⟩ then some ⟨nearest, k⟩
  else if readsBack m e ⟨other, k⟩ then some ⟨other, k⟩
  else none

/-- Tries one digit after the other; `n` bounds their number. -/
def searchGrid (m : Nat) (e top : Int) (ratio : Nat × Nat) : Nat → Nat → Decimal
  | 0, digits => ⟨roundEven (scaled 10 ratio.1 ratio.2 (top - digits)).1 (scaled 10 ratio.1 ratio.2 (top - digits)).2,
      top - digits⟩
  | n + 1, digits =>
    match onGrid m e (top - digits) ratio with
    | some x => x
    | none => searchGrid m e top ratio n (digits + 1)

/-- The shortest decimal that reads back as `m · 2 ^ e`, for positive `m`. -/
def shortest (m : Nat) (e : Int) : Decimal :=
  let r := ratio m e
  searchGrid m e (log10Ratio r.1 r.2) r 17 0

/-- Drops zeros at the end. -/
def stripZeros : List Char → List Char
  | [] => []
  | c :: cs =>
    match stripZeros cs with
    | [] => if c = '0' then [] else [c]
    | ds => c :: ds

/-- An exponent has a sign and two digits at least. -/
def exponentText (k : Int) : String :=
  let s := toString k.natAbs
  (if k < 0 then "-" else "+") ++ (if s.length < 2 then "0" else "") ++ s

/-- The digits `ds` with the point behind the first one moved by `top` places. -/
def layout (ds : List Char) (top : Int) : String :=
  if -4 ≤ top ∧ top < 16 then
    if top < 0 then "0." ++ "".pushn '0' (top.natAbs - 1) ++ String.ofList ds
    else
      let n := top.natAbs + 1
      let whole := ds.take n ++ List.replicate (n - ds.length) '0'
      let rest := ds.drop n
      String.ofList whole ++ "." ++ (if rest.isEmpty then "0" else String.ofList rest)
  else
    let rest := ds.drop 1
    String.ofList (ds.take 1) ++ (if rest.isEmpty then "" else "." ++ String.ofList rest) ++ "e" ++ exponentText top

def text : Double → String
  | nan => "nan"
  | infinite neg => (if neg then "-" else "") ++ "inf"
  | finite neg m e =>
    let sign := if neg then "-" else ""
    if m = 0 then sign ++ "0.0"
    else
      let x := shortest m e
      let ds := Nat.toDigits 10 x.digits
      let top := x.k + ds.length - 1
      sign ++ layout (stripZeros ds) top

end ContractVerifier.Double
