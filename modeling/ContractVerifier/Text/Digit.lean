/-!
# Decimal digits

The characters of the Unicode 14.0 general category Nd.  They come in runs of ten, from zero to
nine; the table lists the zeros.  Integers of too many digits are neither read nor written.
-/

namespace ContractVerifier.Text

def zeros : List Nat := [
  0x30, 0x660, 0x6f0, 0x7c0, 0x966, 0x9e6, 0xa66, 0xae6, 0xb66, 0xbe6, 0xc66, 0xce6, 0xd66, 0xde6,
  0xe50, 0xed0, 0xf20, 0x1040, 0x1090, 0x17e0, 0x1810, 0x1946, 0x19d0, 0x1a80, 0x1a90, 0x1b50, 0x1bb0,
  0x1c40, 0x1c50, 0xa620, 0xa8d0, 0xa900, 0xa9d0, 0xa9f0, 0xaa50, 0xabf0, 0xff10, 0x104a0, 0x10d30,
  0x11066, 0x110f0, 0x11136, 0x111d0, 0x112f0, 0x11450, 0x114d0, 0x11650, 0x116c0, 0x11730, 0x118e0,
  0x11950, 0x11c50, 0x11d50, 0x11da0, 0x16a60, 0x16ac0, 0x16b50, 0x1d7ce, 0x1d7d8, 0x1d7e2, 0x1d7ec,
  0x1d7f6, 0x1e140, 0x1e2f0, 0x1e950, 0x1fbf0]

/-- The value of a decimal digit of any script. -/
def digit? (c : Char) : Option Nat :=
  (zeros.find? fun z => z ≤ c.toNat && c.toNat ≤ z + 9).map fun z => c.toNat - z

/-- The greatest number of digits with which an integer is read from text or written as text. -/
def maxDigits : Nat := 4300

/-- An integer that can be written out. -/
def isShort (n : Int) : Bool := n.natAbs < Nat.pow 10 maxDigits

theorem isShort_of_lt {n : Int} (h : n.natAbs < 10) : isShort n = true := by
  have hle : ∀ k, 1 ≤ k → Nat.pow 10 1 ≤ Nat.pow 10 k :=
    fun k hk => Nat.pow_le_pow_right (by decide) hk
  exact decide_eq_true (Nat.lt_of_lt_of_le h (hle maxDigits (by decide)))

theorem isShort_zero : isShort 0 = true := isShort_of_lt (by decide)

end ContractVerifier.Text
