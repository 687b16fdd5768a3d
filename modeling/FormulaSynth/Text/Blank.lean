/-!
# Blank characters

The characters that are white space by the Unicode property of that name. A text
of nothing else is blank, and texts are compared after the blank characters at
both ends are taken away.
-/

namespace FormulaSynth

namespace Text

/-- **Whether a character is white space.** -/
def isBlank (c : Char) : Bool :=
  let n := c.toNat
  (9 ≤ n && n ≤ 13) || n == 0x20 || n == 0x85 || n == 0xA0 || n == 0x1680 ||
    (0x2000 ≤ n && n ≤ 0x200A) || n == 0x2028 || n == 0x2029 || n == 0x202F ||
    n == 0x205F || n == 0x3000

/-- A text without the white space at its beginning and its end. -/
def trim (cs : List Char) : List Char :=
  ((cs.dropWhile isBlank).reverse.dropWhile isBlank).reverse

/-- Whether a text has nothing but white space. -/
def allBlank (cs : List Char) : Bool :=
  cs.all isBlank

end Text

end FormulaSynth
