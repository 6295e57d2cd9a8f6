/-!
White space: the characters with the Unicode property White_Space, and what is left of a text
without them at its ends.
-/

namespace Entitlements.Text

/-- Whether a character has the Unicode property White_Space. -/
def isBlank (c : Char) : Bool :=
  let n := c.toNat
  (0x9 ≤ n && n ≤ 0xD) || n == 0x20 || n == 0x85 || n == 0xA0 || n == 0x1680
    || (0x2000 ≤ n && n ≤ 0x200A) || n == 0x2028 || n == 0x2029 || n == 0x202F
    || n == 0x205F || n == 0x3000

def isAllBlank (s : String) : Bool := s.toList.all isBlank

def skipBlank (l : List Char) : List Char := l.dropWhile isBlank

end Entitlements.Text
