import ContractVerifier.Data.Basic
import ContractVerifier.Text.Lines
import ContractVerifier.Text.Quoted

/-!
# Data as text

* `Data.shown` : a value as messages show it, with quotes around texts;
* `Data.plain` : the same, but a text by itself stands as it is;
* `Data.document` : the text form that `Data.ofText?` reads.
-/

namespace ContractVerifier.Data

mutual

def shown : Data → String
  | null => "None"
  | bool b => if b then "True" else "False"
  | int n => toString n
  | decimal x => x.text
  | text s => Text.quoted s
  | list xs => "[" ++ ", ".intercalate (shownL xs) ++ "]"
  | map es => "\x7b" ++ ", ".intercalate (shownM es) ++ "\x7d"

def shownL : List Data → List String
  | [] => []
  | x :: xs => shown x :: shownL xs

def shownM : List (String × Data) → List String
  | [] => []
  | (k, x) :: es => (Text.quoted k ++ ": " ++ shown x) :: shownM es

end

def plain : Data → String
  | text s => s
  | d => d.shown

/-! ## documents -/

def hexDigit (n : Nat) : Char :=
  if n < 10 then Char.ofNat ('0'.toNat + n) else Char.ofNat ('a'.toNat + n - 10)

/-- A character by its number, in four digits. -/
def numbered (n : Nat) : String :=
  "\\u" ++ String.ofList ([n / 4096, n / 256, n / 16, n].map fun d => hexDigit (d % 16))

/-- A character between double quotes.  Whatever ends a line is written by number. -/
def escaped (c : Char) : String :=
  if c = '"' then "\\\""
  else if c = '\\' then "\\\\"
  else if c.toNat < 0x20 || Text.isLineBreak c then numbered c.toNat
  else String.singleton c

def inQuotes (s : String) : String := s.foldl (fun t c => t ++ escaped c) "\"" ++ "\""

def numberText : Double → String
  | .nan => "NaN"
  | .infinite neg => if neg then "-Infinity" else "Infinity"
  | x => x.text

mutual

def document : Data → String
  | null => "null"
  | bool b => if b then "true" else "false"
  | int n => toString n
  | decimal x => numberText x
  | text s => inQuotes s
  | list xs => "[" ++ ",".intercalate (documentL xs) ++ "]"
  | map es => "\x7b" ++ ",".intercalate (documentM es) ++ "\x7d"

def documentL : List Data → List String
  | [] => []
  | x :: xs => document x :: documentL xs

def documentM : List (String × Data) → List String
  | [] => []
  | (k, x) :: es => (inQuotes k ++ ":" ++ document x) :: documentM es

end

end ContractVerifier.Data
