import Mathlib.Data.List.Infix
import PixelUnit.Settings.Blacklist

/-!
# Texts in texts

The search for a text in another, read as what it decides: whether the one is a stretch of the
other.
-/

namespace PixelUnit.Text

/-- A part occurs in a text if it is a stretch of it. -/
theorem occursIn_iff {part : List Char} : ∀ {cs : List Char},
    occursIn part cs = true ↔ part <:+: cs
  | [] => by rw [occursIn, List.isEmpty_iff, List.infix_nil]
  | c :: r => by
    rw [occursIn, Bool.or_eq_true, List.isPrefixOf_iff_prefix, occursIn_iff, List.infix_cons_iff]

theorem contains_iff {whole part : String} :
    contains whole part = true ↔ part.toList <:+: whole.toList :=
  occursIn_iff

end PixelUnit.Text
