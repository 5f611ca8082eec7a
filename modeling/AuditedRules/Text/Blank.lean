/-!
# White space

The characters with the Unicode property White_Space, and trimming of a text by them.
-/

namespace AuditedRules.Text

/-- A character of white space. -/
def isBlank (c : Char) : Bool :=
  let n := c.toNat
  (9 ≤ n && n ≤ 13) || n == 0x20 || n == 0x85 || n == 0xA0 || n == 0x1680 ||
    (0x2000 ≤ n && n ≤ 0x200A) || n == 0x2028 || n == 0x2029 || n == 0x202F || n == 0x205F ||
    n == 0x3000

/-- The text without the white space at its end. -/
def trimRight (text : List Char) : List Char :=
  (text.reverse.dropWhile isBlank).reverse

/-- The text without the white space at its two ends. -/
def trim (text : List Char) : List Char :=
  trimRight (text.dropWhile isBlank)

end AuditedRules.Text
