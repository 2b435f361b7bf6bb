/-! Sets of code points as lists of ranges.
The main statement says that a search which ends at the first range behind the number finds every
range that holds it. -/
namespace Stencil
namespace Text

def inRanges (n : Nat) : List (Nat × Nat) → Bool
  | [] => false
  | r :: more => r.1 ≤ n && (n ≤ r.2 || inRanges n more)

def areIncreasing (least : Nat) : List (Nat × Nat) → Bool
  | [] => true
  | r :: more => least ≤ r.1 && r.1 ≤ r.2 && areIncreasing (r.2 + 1) more

theorem le_of_areIncreasing {least : Nat} {ranges : List (Nat × Nat)}
    (h : areIncreasing least ranges = true) {r : Nat × Nat} (hr : r ∈ ranges) : least ≤ r.1 := by
  induction ranges generalizing least with
  | nil => cases hr
  | cons first more ih =>
    simp only [areIncreasing, Bool.and_eq_true, decide_eq_true_eq] at h
    rcases List.mem_cons.mp hr with rfl | hmore
    · exact h.1.1
    · have := ih h.2 hmore
      omega

theorem inRanges_iff {n least : Nat} {ranges : List (Nat × Nat)}
    (h : areIncreasing least ranges = true) :
    inRanges n ranges = true ↔ ∃ r ∈ ranges, r.1 ≤ n ∧ n ≤ r.2 := by
  induction ranges generalizing least with
  | nil => simp [inRanges]
  | cons r more ih =>
    simp only [areIncreasing, Bool.and_eq_true, decide_eq_true_eq] at h
    simp only [inRanges, Bool.and_eq_true, Bool.or_eq_true, decide_eq_true_eq, ih h.2,
      List.mem_cons, exists_eq_or_imp]
    constructor
    · rintro ⟨hfirst, hlast | hs⟩
      · exact .inl ⟨hfirst, hlast⟩
      · exact .inr hs
    · rintro (⟨hfirst, hlast⟩ | ⟨s, hs, hfirst, hlast⟩)
      · exact ⟨hfirst, .inl hlast⟩
      · have := le_of_areIncreasing h.2 hs
        exact ⟨by omega, .inr ⟨s, hs, hfirst, hlast⟩⟩

theorem inRanges_cons_of_lt {n : Nat} {r : Nat × Nat} (h : n < r.1) (more : List (Nat × Nat)) :
    inRanges n (r :: more) = false := by
  simp [inRanges, Nat.not_le.mpr h]

end Text
end Stencil
