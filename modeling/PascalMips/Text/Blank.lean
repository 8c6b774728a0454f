/-!
# Blank characters

The characters that separate tokens: the code points with the Unicode property `White_Space`. Core's
`Char.isWhitespace` knows four of them only.
-/

namespace PascalMips.Text

/-- The ranges of blank code points, in ascending order, both ends included. -/
def blankRanges : List (Nat × Nat) :=
  [(0x09, 0x0D), (0x20, 0x20), (0x85, 0x85), (0xA0, 0xA0), (0x1680, 0x1680), (0x2000, 0x200A),
    (0x2028, 0x2029), (0x202F, 0x202F), (0x205F, 0x205F), (0x3000, 0x3000)]

def isBlank (c : Char) : Bool :=
  blankRanges.any fun (lo, hi) => lo ≤ c.toNat && c.toNat ≤ hi

/-- There are twenty-five blanks. -/
example : (blankRanges.map fun (lo, hi) => hi + 1 - lo).sum = 25 := by decide

end PascalMips.Text
