/-! # White space

The characters of the White_Space property, and text without them at its ends. -/

namespace DrillCode.Text

/-- The character has the White_Space property. -/
def isSpace (c : Char) : Bool :=
  let n := c.toNat
  (0x09 ≤ n && n ≤ 0x0D) || n == 0x20 || n == 0x85 || n == 0xA0 || n == 0x1680 ||
    (0x2000 ≤ n && n ≤ 0x200A) || n == 0x2028 || n == 0x2029 || n == 0x202F || n == 0x205F ||
    n == 0x3000

/-- Text without the white space it starts with. -/
def trimStart (text : List Char) : List Char :=
  text.dropWhile isSpace

/-- Text without the white space it ends with. -/
def trimEnd (text : List Char) : List Char :=
  (text.reverse.dropWhile isSpace).reverse

/-- Text without white space at its ends. -/
def trim (text : List Char) : List Char :=
  trimEnd (trimStart text)

end DrillCode.Text
