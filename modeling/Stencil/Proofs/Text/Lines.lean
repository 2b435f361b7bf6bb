import Stencil.LineCount

/-! Lines of a source.
The line of an offset is told by the line feeds among the bytes before it, and a line feed is one
byte. The main statement says that counting gives this line, wherever it has stopped before. -/
namespace Stencil
namespace Text

/-- A character takes one byte below 128, its code, or bytes from 128 on only. -/
theorem utf8EncodeChar_cases (c : Char) :
    (c.toNat < 0x80 ∧ String.utf8EncodeChar c = [UInt8.ofNat c.toNat]) ∨
      0x80 ≤ c.toNat ∧ ∀ b ∈ String.utf8EncodeChar c, 0x80 ≤ b.toNat := by
  have valid : c.toNat < 0x110000 := by
    rcases c.valid with h | ⟨-, h⟩
    · exact Nat.lt_trans h (by decide)
    · exact h
  have hbyte {n : Nat} (h : n < 256) : (UInt8.ofNat n).toNat = n := by
    rw [UInt8.toNat_ofNat', Nat.mod_eq_of_lt h]
  have hval : c.val.toNat = c.toNat := rfl
  unfold String.utf8EncodeChar
  rw [hval]
  generalize c.toNat = v at valid
  dsimp only
  by_cases hsmall : v ≤ 0x7F
  · exact .inl ⟨by omega, by rw [if_pos hsmall]⟩
  · refine .inr ⟨by omega, fun b hb => ?_⟩
    rw [if_neg hsmall] at hb
    split at hb
    · simp only [List.mem_cons, List.not_mem_nil, or_false] at hb
      rcases hb with rfl | rfl
      · rw [hbyte (by omega)]; omega
      · rw [hbyte (by omega)]; omega
    · split at hb
      · simp only [List.mem_cons, List.not_mem_nil, or_false] at hb
        rcases hb with rfl | rfl | rfl
        · rw [hbyte (by omega)]; omega
        · rw [hbyte (by omega)]; omega
        · rw [hbyte (by omega)]; omega
      · simp only [List.mem_cons, List.not_mem_nil, or_false] at hb
        rcases hb with rfl | rfl | rfl | rfl
        · rw [hbyte (by omega)]; omega
        · rw [hbyte (by omega)]; omega
        · rw [hbyte (by omega)]; omega
        · rw [hbyte (by omega)]; omega

def lineFeeds (text : List Char) : Nat := (bytes text).count 10

/-- A line feed is one byte, and the bytes of every other character are other ones. -/
theorem count_utf8EncodeChar (c : Char) :
    (String.utf8EncodeChar c).count 10 = if c = '\n' then 1 else 0 := by
  have hfeed : c = '\n' ↔ c.toNat = 10 := Char.toNat_inj.symm
  simp only [hfeed]
  rcases utf8EncodeChar_cases c with ⟨hlt, he⟩ | ⟨hge, hbytes⟩
  · have hbyte : (UInt8.ofNat c.toNat == 10) = decide (c.toNat = 10) := by
      rw [Bool.eq_iff_iff, beq_iff_eq, decide_eq_true_iff, ← UInt8.toNat_inj, UInt8.toNat_ofNat',
        Nat.mod_eq_of_lt (by omega)]
      rfl
    rw [he, List.count_singleton, hbyte]
    simp
  · rw [if_neg (by omega), List.count_eq_zero]
    intro hmem
    exact absurd (hbytes 10 hmem) (by decide)

@[simp] theorem lineFeeds_nil : lineFeeds [] = 0 := rfl

theorem lineFeeds_cons (c : Char) (r : List Char) :
    lineFeeds (c :: r) = (if c = '\n' then 1 else 0) + lineFeeds r := by
  rw [lineFeeds, bytes_cons, List.count_append, count_utf8EncodeChar]
  rfl

@[simp] theorem lineFeeds_append (a b : List Char) :
    lineFeeds (a ++ b) = lineFeeds a + lineFeeds b := by
  simp [lineFeeds]

theorem lineFeeds_eq_zero {text : List Char} (h : '\n' ∉ text) : lineFeeds text = 0 := by
  induction text with
  | nil => rfl
  | cons c r ih =>
    obtain ⟨hc, hr⟩ := List.ne_and_not_mem_of_not_mem_cons h
    rw [lineFeeds_cons, if_neg hc.symm, ih hr]

/-- The line of the byte offset: one more than the line feeds before it. -/
def lineAt (source : List Char) (offset : Nat) : Nat := 1 + ((bytes source).take offset).count 10

theorem lineAt_append (a b : List Char) (n : Nat) :
    lineAt (a ++ b) (size a + n) = lineFeeds a + lineAt b n := by
  rw [lineAt, bytes_append, ← length_bytes, List.take_length_add_append, List.count_append,
    Nat.add_left_comm]
  rfl

theorem lineAt_size (before after : List Char) :
    lineAt (before ++ after) (size before) = 1 + lineFeeds before := by
  rw [← Nat.add_zero (size before), lineAt_append, Nat.add_comm]
  rfl

end Text

namespace LineCount

variable {lines : LineCount} {bytes : Bytes}

/-- What has been counted is the line of the offset that counting stopped at. -/
def IsTrue (lines : LineCount) (bytes : Bytes) : Prop :=
  lines.line = 1 + (bytes.take lines.counted).count 10

theorem isTrue_fresh (bytes : Bytes) : IsTrue {} bytes := rfl

theorem IsTrue.upTo (h : lines.IsTrue bytes) (offset : Nat) :
    (lines.upTo bytes offset).IsTrue bytes := by
  have hfrom {start : LineCount} (hs : start.IsTrue bytes) (hle : start.counted ≤ offset) :
      start.line + ((bytes.drop start.counted).take (offset - start.counted)).count 10 =
        1 + (bytes.take offset).count 10 := by
    have htake : bytes.take offset = bytes.take start.counted ++
        (bytes.drop start.counted).take (offset - start.counted) := by
      rw [← List.take_add, Nat.add_sub_cancel' hle]
    rw [hs, htake, List.count_append, Nat.add_assoc]
  unfold LineCount.upTo
  -- an offset before the last one is counted up to from the beginning
  by_cases hback : offset < lines.counted
  · rw [if_pos hback]
    exact hfrom (isTrue_fresh bytes) (Nat.zero_le offset)
  · rw [if_neg hback]
    exact hfrom h (Nat.le_of_not_lt hback)

theorem IsTrue.line_upTo {source : List Char} (h : lines.IsTrue (Text.bytes source))
    (offset : Nat) : (lines.upTo (Text.bytes source) offset).line = Text.lineAt source offset :=
  h.upTo offset

end LineCount
end Stencil
