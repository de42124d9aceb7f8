/-!
# Blank characters

The characters with the Unicode property `White_Space`, and the removal of such characters at
both ends of a text.
-/

namespace BinarySchema.Text

/-- Membership in the Unicode property `White_Space`, which holds of twenty-five characters. -/
def isBlank (c : Char) : Bool :=
  let code := c.toNat
  (0x0009 ≤ code && code ≤ 0x000D) || code == 0x0020 || code == 0x0085 || code == 0x00A0 ||
    code == 0x1680 || (0x2000 ≤ code && code ≤ 0x200A) || code == 0x2028 || code == 0x2029 ||
    code == 0x202F || code == 0x205F || code == 0x3000

def trimLeft (text : List Char) : List Char :=
  text.dropWhile isBlank

def trimRight (text : List Char) : List Char :=
  (text.reverse.dropWhile isBlank).reverse

def trim (text : List Char) : List Char :=
  trimRight (trimLeft text)

end BinarySchema.Text
