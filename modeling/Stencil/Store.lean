import Stencil.Assoc
import Stencil.Template

/-! Included templates that have been resolved.
A position is the chain of inclusions that leads to a template from the top-level one, each given
by where its tag begins, the innermost first. Every position keeps the template that it was first
resolved to. -/
namespace Stencil

abbrev Position := List Nat

structure Store where
  entries : List (Position × Template) := []

namespace Store

def find? (s : Store) (position : Position) : Option Template := Assoc.get? position s.entries

/-- Fills a position that is still empty. -/
def fill (s : Store) (position : Position) (t : Template) : Store :=
  match s.find? position with
  | some _ => s
  | none => ⟨(position, t) :: s.entries⟩

/-- How long the longest filled position is. -/
def reach (s : Store) : Nat := s.entries.foldr (fun e n => max e.1.length n) 0

theorem find?_fill (s : Store) (position other : Position) (t : Template) :
    (s.fill position t).find? other =
      if other = position then some ((s.find? position).getD t) else s.find? other := by
  unfold fill
  cases h : s.find? position with
  | some u => by_cases ho : other = position <;> simp [ho, h]
  | none =>
    by_cases ho : other = position
    · simp [find?, ho]
    · simp [find?, ho, Ne.symm ho]

theorem length_le_reach {s : Store} {position : Position} {t : Template}
    (h : s.find? position = some t) : position.length ≤ s.reach := by
  obtain ⟨entries⟩ := s
  simp only [find?, reach] at h ⊢
  induction entries with
  | nil => simp at h
  | cons e r ih =>
    obtain ⟨p, u⟩ := e
    simp only [Assoc.get?_cons, List.foldr_cons] at h ⊢
    by_cases he : p = position
    · subst he
      exact Nat.le_max_left _ _
    · rw [if_neg he] at h
      exact Nat.le_trans (ih h) (Nat.le_max_right _ _)

end Store
end Stencil
