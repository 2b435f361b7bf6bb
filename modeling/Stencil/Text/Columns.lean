import Stencil.Text.Wide
import Stencil.Text.ZeroWidth

/-! The columns that a character takes on a page with a fixed pitch.
The main statement says that no column is taken exactly by the characters of `isZeroWidth`. -/
namespace Stencil
namespace Text

/-- How many columns a character takes. Two Khmer characters stand for words and are as wide as the
letters that spell them. -/
def columns (c : Char) : Nat :=
  if isZeroWidth c then 0
  else if c = '\u17D8' then 3
  else if isWide c || c == '\u17A4' then 2
  else 1

theorem columns_eq_zero_iff {c : Char} : columns c = 0 ↔ isZeroWidth c = true := by
  unfold columns
  grind

theorem columns_of_lt {c : Char} (h : c.toNat < 0xAD) : columns c = 1 := by
  have hzero : isZeroWidth c = false := inRanges_cons_of_lt h zeroWidthRanges.tail
  have hwide : isWide c = false :=
    inRanges_cons_of_lt (Nat.lt_trans h (by decide)) wideRanges.tail
  have hthree : c ≠ '\u17D8' := by rintro rfl; exact absurd h (by decide)
  have htwo : c ≠ '\u17A4' := by rintro rfl; exact absurd h (by decide)
  simp [columns, hzero, hwide, hthree, htwo]

example : ['\u0301', 'é', '日', '\u17D8'].map columns = [0, 1, 2, 3] := by decide +kernel

end Text
end Stencil
