-- SUMMARY: Reading a signed 64-bit integer from a text with blanks around it.

/-!
# Integers in text

A decimal integer is an optional sign followed by one or more of the digits `0` to `9`. Blanks on either side
are ignored, where a blank is any character with the white-space property. A value outside the signed 64-bit
range does not count as an integer.
-/
namespace ContextFree.Text

/-- The characters with the white-space property. -/
def isBlank (c : Char) : Bool :=
  let n := c.toNat
  (9 ≤ n && n ≤ 13) || n == 0x20 || n == 0x85 || n == 0xa0 || n == 0x1680 ||
  (0x2000 ≤ n && n ≤ 0x200a) || n == 0x2028 || n == 0x2029 || n == 0x202f ||
  n == 0x205f || n == 0x3000

/-- The text without the blanks around it. -/
def trimBlanks (cs : List Char) : List Char :=
  ((cs.dropWhile isBlank).reverse.dropWhile isBlank).reverse

/-- The value of a non-empty run of decimal digits. -/
def digits? (cs : List Char) : Option Nat :=
  if !cs.isEmpty && cs.all Char.isDigit then
    some (cs.foldl (fun n c => 10 * n + (c.toNat - '0'.toNat)) 0)
  else none

/-- A sign, if any, and digits. -/
def signed? : List Char → Option Int
  | '-' :: cs => (digits? cs).map fun n => -(n : Int)
  | '+' :: cs => (digits? cs).map fun n => (n : Int)
  | cs        => (digits? cs).map fun n => (n : Int)

/-- Whether `n` fits into a signed 64-bit word. -/
def fitsWord (n : Int) : Bool :=
  -9223372036854775808 ≤ n && n ≤ 9223372036854775807

/-- The integer that `s` denotes, if it denotes one that fits into a signed 64-bit word. -/
def word? (s : String) : Option Int :=
  (signed? (trimBlanks s.toList)).filter fitsWord

end ContextFree.Text
