/-! Blank characters and the two ways text is cut at them. A character is blank if it has the
Unicode property White_Space: the control characters U+0009 to U+000D and U+0085, the spaces, and
the line and paragraph separators. U+200B and U+FEFF are not blank. `trim` takes the blanks off
both ends of a text and `words` are the maximal runs without one. -/

namespace Retrace.Text

def isBlank (c : Char) : Bool :=
  let n := c.toNat
  (9 ≤ n && n ≤ 13) || n == 0x20 || n == 0x85 || n == 0xA0 || n == 0x1680 ||
    (0x2000 ≤ n && n ≤ 0x200A) || n == 0x2028 || n == 0x2029 || n == 0x202F || n == 0x205F ||
    n == 0x3000

def trimStart (text : List Char) : List Char :=
  text.dropWhile isBlank

def trimEnd (text : List Char) : List Char :=
  (text.reverse.dropWhile isBlank).reverse

def trim (text : List Char) : List Char :=
  trimEnd (trimStart text)

/-- The maximal runs of characters that are not blank, in order. -/
def words (text : List Char) : List (List Char) :=
  (text.splitOnP isBlank).filter (!·.isEmpty)

def allBlank (text : List Char) : Bool :=
  text.all isBlank

end Retrace.Text
