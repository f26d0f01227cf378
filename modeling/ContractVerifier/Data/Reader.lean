import ContractVerifier.Data.Basic
import ContractVerifier.Keyed
import ContractVerifier.Number.Reader

/-!
# Reading data

The text form of plain data: `null`, `true`, `false`, numbers, quoted texts, lists in brackets and
maps in braces.  A number with a point or an exponent is a decimal, any other an integer.  Of a key
that occurs twice the last value counts.  Every function gives the value at the front of the
characters and what follows it.
-/

namespace ContractVerifier.Data

namespace Reader

def skip (cs : List Char) : List Char :=
  cs.dropWhile fun c => c = ' ' || c = '\n' || c = '\r' || c = '\t'

def hexDigit? (c : Char) : Option Nat :=
  if '0' ≤ c ∧ c ≤ '9' then some (c.toNat - '0'.toNat)
  else if 'a' ≤ c ∧ c ≤ 'f' then some (c.toNat - 'a'.toNat + 10)
  else if 'A' ≤ c ∧ c ≤ 'F' then some (c.toNat - 'A'.toNat + 10)
  else none

def unit? (a b c d : Char) : Option Nat := do
  let a ← hexDigit? a
  let b ← hexDigit? b
  let c ← hexDigit? c
  let d ← hexDigit? d
  some (((a * 16 + b) * 16 + c) * 16 + d)

/-- The character two surrogates stand for. -/
def pair (high low : Nat) : Char := Char.ofNat (0x10000 + (high - 0xd800) * 0x400 + (low - 0xdc00))

/-- What a letter behind a backslash stands for. -/
def escape? : Char → Option Char
  | 'n' => some '\n'
  | 't' => some '\t'
  | 'r' => some '\r'
  | 'b' => some (Char.ofNat 8)
  | 'f' => some (Char.ofNat 12)
  | '"' => some '"'
  | '\\' => some '\\'
  | '/' => some '/'
  | _ => none

/-- The characters up to the closing quote, behind those of `before`, latest first. -/
def quoted (before : List Char) : List Char → Option (String × List Char)
  | [] => none
  | '"' :: cs => some (String.ofList before.reverse, cs)
  | '\\' :: 'u' :: a :: b :: c :: d :: '\\' :: 'u' :: e :: f :: g :: h :: cs => do
    let x ← unit? a b c d
    let y ← unit? e f g h
    if 0xd800 ≤ x ∧ x < 0xdc00 ∧ 0xdc00 ≤ y ∧ y < 0xe000 then quoted (pair x y :: before) cs
    else quoted (Char.ofNat x :: before) ('\\' :: 'u' :: e :: f :: g :: h :: cs)
  | '\\' :: 'u' :: a :: b :: c :: d :: cs => do
    let x ← unit? a b c d
    quoted (Char.ofNat x :: before) cs
  | '\\' :: c :: cs => do
    let x ← escape? c
    quoted (x :: before) cs
  | c :: cs => quoted (c :: before) cs

def isNumberChar (c : Char) : Bool :=
  c.isDigit || c = '-' || c = '+' || c = '.' || c = 'e' || c = 'E'

def number (cs : List Char) : Option (Data × List Char) := do
  let word := cs.takeWhile isNumberChar
  let rest := cs.dropWhile isNumberChar
  let s := String.ofList word
  if word.any fun c => c = '.' || c = 'e' || c = 'E' then
    let x ← Number.double? s
    some (.decimal x, rest)
  else
    let n ← Number.int? s
    some (.int n, rest)

/-- `word`, if the characters start with it. -/
def keyword (word : String) (x : Data) (cs : List Char) : Option (Data × List Char) :=
  if word.toList.isPrefixOf cs then some (x, cs.drop word.length) else none

mutual

/-- `fuel` bounds the number of values. -/
def value : Nat → List Char → Option (Data × List Char)
  | 0, _ => none
  | fuel + 1, cs =>
    match skip cs with
    | '[' :: cs =>
      match skip cs with
      | ']' :: rest => some (.list [], rest)
      | cs => do
        let (xs, rest) ← elements fuel cs
        some (.list xs, rest)
    | '\x7b' :: cs =>
      match skip cs with
      | '\x7d' :: rest => some (.map [], rest)
      | cs => do
        let (es, rest) ← members fuel cs
        some (.map (Keyed.ofList es).entries, rest)
    | '"' :: cs => do
      let (s, rest) ← quoted [] cs
      some (.text s, rest)
    | 'n' :: cs => keyword "null" .null ('n' :: cs)
    | 't' :: cs => keyword "true" (.bool true) ('t' :: cs)
    | 'f' :: cs => keyword "false" (.bool false) ('f' :: cs)
    | 'N' :: cs => keyword "NaN" (.decimal .nan) ('N' :: cs)
    | 'I' :: cs => keyword "Infinity" (.decimal (.infinite false)) ('I' :: cs)
    | '-' :: 'I' :: cs => keyword "-Infinity" (.decimal (.infinite true)) ('-' :: 'I' :: cs)
    | cs => number cs

/-- The elements of a list up to its bracket. -/
def elements : Nat → List Char → Option (List Data × List Char)
  | 0, _ => none
  | fuel + 1, cs => do
    let (x, cs) ← value fuel cs
    match skip cs with
    | ']' :: rest => some ([x], rest)
    | ',' :: cs =>
      let (xs, rest) ← elements fuel cs
      some (x :: xs, rest)
    | _ => none

/-- The entries of a map up to its brace. -/
def members : Nat → List Char → Option (List (String × Data) × List Char)
  | 0, _ => none
  | fuel + 1, cs =>
    match skip cs with
    | '"' :: cs => do
      let (k, cs) ← quoted [] cs
      match skip cs with
      | ':' :: cs => do
        let (x, cs) ← value fuel cs
        match skip cs with
        | '\x7d' :: rest => some ([(k, x)], rest)
        | ',' :: cs =>
          let (es, rest) ← members fuel cs
          some ((k, x) :: es, rest)
        | _ => none
      | _ => none
    | _ => none

end

end Reader

/-- The data a whole text holds. -/
def ofText? (s : String) : Option Data := do
  let cs := s.toList
  let (x, rest) ← Reader.value (2 * cs.length + 1) cs
  if (Reader.skip rest).isEmpty then some x else none

end ContractVerifier.Data
