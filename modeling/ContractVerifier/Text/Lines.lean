/-!
# Lines

Where a text breaks into lines.
-/

namespace ContractVerifier.Text

/-- The characters that end a line. -/
def isLineBreak (c : Char) : Bool :=
  [0x0a, 0x0b, 0x0c, 0x0d, 0x1c, 0x1d, 0x1e, 0x85, 0x2028, 0x2029].contains c.toNat

/-- The last line of `cs`, where `line` holds the characters of the current one, latest first. -/
def lastLineFrom (line : List Char) : List Char → List Char
  | [] => line.reverse
  | [c] => if isLineBreak c then line.reverse else (c :: line).reverse
  | '\r' :: '\n' :: cs => if cs.isEmpty then line.reverse else lastLineFrom [] cs
  | c :: cs => if isLineBreak c then lastLineFrom [] cs else lastLineFrom (c :: line) cs

/-- The last line of a text.  A break at the end of the text ends the last line and starts no
other. -/
def lastLine (s : String) : String := String.ofList (lastLineFrom [] s.toList)

end ContractVerifier.Text
