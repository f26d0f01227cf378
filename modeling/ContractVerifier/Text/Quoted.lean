import ContractVerifier.Text.Printable

/-!
# Quoted text

A text between quotes: single ones, unless it holds a single quote and no double quote.
Backslash, the chosen quote and characters that are not printable are escaped.
-/

namespace ContractVerifier.Text

/-- `n` in lower-case hexadecimal, with at least `width` digits. -/
def hex (width n : Nat) : String :=
  let ds := Nat.toDigits 16 n
  String.ofList (List.replicate (width - ds.length) '0' ++ ds)

/-- `\xhh`, `\uhhhh` or `\Uhhhhhhhh`. -/
def numericEscape (c : Char) : String :=
  let n := c.toNat
  if n < 0x100 then "\\x" ++ hex 2 n
  else if n < 0x10000 then "\\u" ++ hex 4 n
  else "\\U" ++ hex 8 n

/-- One character of a text between quotes `q`. -/
def escape (q c : Char) : String :=
  if c = '\\' || c = q then String.ofList ['\\', c]
  else if c = '\n' then "\\n"
  else if c = '\r' then "\\r"
  else if c = '\t' then "\\t"
  else if isPrintable c then String.singleton c
  else numericEscape c

/-- The quote that needs the least escaping. -/
def quoteFor (s : String) : Char :=
  if s.toList.contains '\'' && !s.toList.contains '"' then '"' else '\''

def quoted (s : String) : String :=
  let q := quoteFor s
  String.singleton q ++ String.join (s.toList.map (escape q)) ++ String.singleton q

end ContractVerifier.Text
