/-!
# White space

The characters with the Unicode property `White_Space`, and the four separators U+001C to U+001F.
-/

namespace ContractVerifier.Text

/-- A character that separates tokens. -/
def isBlank (c : Char) : Bool :=
  let n := c.toNat
  (0x09 ≤ n && n ≤ 0x0d) || (0x1c ≤ n && n ≤ 0x20) || n == 0x85 || n == 0xa0 || n == 0x1680 ||
    (0x2000 ≤ n && n ≤ 0x200a) || n == 0x2028 || n == 0x2029 || n == 0x202f || n == 0x205f || n == 0x3000

end ContractVerifier.Text
