import Scriptlet.Text.CodeRanges

/-!
# Blank characters

The twenty-five characters with the Unicode property `White_Space`. The core class
`Char.isWhitespace` knows four of them.
-/

namespace Scriptlet

namespace Text

/-- The code points with the property `White_Space`. -/
def blankRanges : CodeRanges :=
  [(0x0009, 0x000D), (0x0020, 0x0020), (0x0085, 0x0085), (0x00A0, 0x00A0), (0x1680, 0x1680),
   (0x2000, 0x200A), (0x2028, 0x2029), (0x202F, 0x202F), (0x205F, 0x205F), (0x3000, 0x3000)]

def isBlank (c : Char) : Bool := blankRanges.contains c

example : blankRanges.isAscending ∧ blankRanges.size = 25 := by decide

end Text

end Scriptlet
