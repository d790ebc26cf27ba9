/-!
# Ranges of code points

A character class is given by the ranges of code points it holds. The tables built on this are
those of Unicode 14.
-/

namespace PixelUnit.Text

/-- Inclusive ranges of code points. -/
abbrev Ranges := List (Nat × Nat)

/-- Whether a character lies in one of the ranges. -/
def Ranges.contains (r : Ranges) (c : Char) : Bool :=
  r.any fun (first, last) => first ≤ c.toNat && c.toNat ≤ last

end PixelUnit.Text
