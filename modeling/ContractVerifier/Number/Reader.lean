import ContractVerifier.Number.Double
import ContractVerifier.Text.Blank
import ContractVerifier.Text.Digit

/-!
# Reading numbers

The numbers of options: blanks around them are ignored, a sign may stand in front, digits may be of
any script, and an underscore may stand between two digits.
-/

namespace ContractVerifier.Number

/-- Blanks around a number; the separators U+001C to U+001F are none. -/
def isMargin (c : Char) : Bool := Text.isBlank c && !(0x1c ≤ c.toNat && c.toNat ≤ 0x1f)

def trim (cs : List Char) : List Char :=
  ((cs.dropWhile isMargin).reverse.dropWhile isMargin).reverse

/-- Splits a sign off, `true` for a minus. -/
def sign : List Char → Bool × List Char
  | '-' :: cs => (true, cs)
  | '+' :: cs => (false, cs)
  | cs => (false, cs)

/-- The digits at the front, as values; an underscore is passed over when a digit stands on either
side. -/
def digitsAfter : List Char → List Nat × List Char
  | [] => ([], [])
  | c :: cs =>
    match Text.digit? c with
    | some d =>
      let (ds, rest) := digitsAfter cs
      (d :: ds, rest)
    | none =>
      if c = '_' then
        match cs with
        | c' :: _ =>
          match Text.digit? c' with
          | some _ => digitsAfter cs
          | none => ([], c :: cs)
        | [] => ([], [c])
      else ([], c :: cs)

/-- A run of digits starts with a digit. -/
def digits (cs : List Char) : List Nat × List Char :=
  match cs with
  | '_' :: _ => ([], cs)
  | _ => digitsAfter cs

def valueOf (ds : List Nat) : Nat := ds.foldl (fun n d => 10 * n + d) 0

def int? (s : String) : Option Int :=
  let (neg, cs) := sign (trim s.toList)
  match digits cs with
  | (d :: ds, []) =>
    if ds.length < Text.maxDigits then
      let n : Int := valueOf (d :: ds)
      some (if neg then -n else n)
    else none
  | _ => none

/-- `digits · 10 ^ k`, where an exponent far outside the range of numbers gives zero or an infinite
one. -/
def decimal (neg : Bool) (digits : List Nat) (k : Int) : Double :=
  let ds := digits.dropWhile (· = 0)
  let top := k + ds.length
  if ds.isEmpty ∨ top < -400 then .ofRatio neg 0 1
  else if 400 < top then .infinite neg
  else
    let (n, d) := Double.scaled 10 (valueOf ds) 1 (-k)
    .ofRatio neg n d

/-- The exponent at the end of a number. -/
def exponent : List Char → Option Int
  | [] => some 0
  | c :: cs =>
    if c = 'e' ∨ c = 'E' then
      let (neg, cs) := sign cs
      match digits cs with
      | (d :: ds, []) =>
        let n : Int := valueOf (d :: ds)
        some (if neg then -n else n)
      | _ => none
    else none

/-- Fraction and exponent behind the digits `whole`. -/
def fraction (neg : Bool) (whole : List Nat) (cs : List Char) : Option Double :=
  let (frac, cs) := match cs with
    | '.' :: cs => digits cs
    | cs => ([], cs)
  if whole.isEmpty && frac.isEmpty then none
  else do
    let k ← exponent cs
    some (decimal neg (whole ++ frac) (k - frac.length))

def double? (s : String) : Option Double :=
  let (neg, cs) := sign (trim s.toList)
  let word := String.ofList (cs.map Char.toLower)
  if word = "inf" ∨ word = "infinity" then some (.infinite neg)
  else if word = "nan" then some .nan
  else
    let (whole, rest) := digits cs
    fraction neg whole rest

end ContractVerifier.Number
