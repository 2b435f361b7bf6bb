import Stencil.Proofs.Item.Leftmost
import Stencil.Proofs.Item.Order
import Stencil.Proofs.Written.Spelling

/-! The order of what scanning finds.
Scanning goes on behind each tag and behind the first character of each fault, so no two of them are
at one place. Only after an endless comment it goes on where the comment opens, since a tag may open
there too if the delimiters allow it. The main statements say that tags and findings stand in that
order whatever the delimiters are, and that the default ones keep comments and tags apart. -/
namespace Stencil

/-- Whether the problem is that of a construct without its terminator. -/
def Problem.isUnclosed : Problem → Bool
  | unclosed .. => true
  | _ => false

def Finding.isUnclosed (f : Finding) : Bool := f.problem.isUnclosed

/-- No tag is read where a comment opens. -/
def TagSet.CommentsApart (tags : TagSet) : Prop :=
  ∀ source rest offset, Tag.read tags source (tags.commentOpening.toList ++ rest) offset = .none

theorem TagSet.commentsApart_default : ({} : TagSet).CommentsApart := by
  intro source rest offset
  have hwrapped : Text.after? ({} : TagSet).wrappedOpening.toList
      (({} : TagSet).commentOpening.toList ++ rest) = none := by
    simp [Text.after?]
  have hopening : Text.after? ({} : TagSet).opening.toList
      (({} : TagSet).commentOpening.toList ++ rest) = some ('*' :: rest) := by
    simp [Text.after?]
  rw [Tag.read_eq, Tag.open?, hwrapped, hopening]
  simp only [Option.map_some, TagSet.matchKeyword?_sign (.inr rfl)]

/-- What is found comes before a place. That a comment is endless may be found at the place itself,
unless no tag is read there. -/
def Finding.Before (tags : TagSet) (f : Finding) (place : Nat) : Prop :=
  f.span.start < place ∨ f.span.start = place ∧ f.ofComment = true ∧ ¬ tags.CommentsApart

/-- From a place on, each tag and each finding comes before the next one. -/
inductive Sequenced (tags : TagSet) : Nat → List Item → Prop
  | nil {place : Nat} : Sequenced tags place []
  | text {place : Nat} {span : Span} {items : List Item} :
    Sequenced tags place items → Sequenced tags place (.text span :: items)
  | finding {place next : Nat} {f : Finding} {items : List Item} :
    f.isUnclosed = false → place ≤ f.span.start → f.Before tags next →
    Sequenced tags next items → Sequenced tags place (.finding f :: items)
  | tag {place next : Nat} {t : Tag} {items : List Item} :
    place ≤ t.span.start → t.span.start < next →
    Sequenced tags next items → Sequenced tags place (.tag t :: items)

variable {tags : TagSet} {source : List Char} {offset place : Nat} {items : List Item}

namespace Sequenced

theorem mono (h : Sequenced tags place items) {earlier : Nat} (he : earlier ≤ place) :
    Sequenced tags earlier items := by
  induction h with
  | nil => exact .nil
  | text _ ih => exact .text (ih he)
  | finding hu hle hb more _ => exact .finding hu (Nat.le_trans he hle) hb more
  | tag hle hlt more _ => exact .tag (Nat.le_trans he hle) hlt more

theorem flush (h : Sequenced tags place items) (start stop : Nat) :
    Sequenced tags place (Item.flush start stop items) := by
  unfold Item.flush
  split
  · exact .text h
  · exact h

end Sequenced

namespace Tag

theorem attributesOf_ne_unclosed {found : TagSet.KeywordMatch} {tokens : List Token}
    {problem : Problem} (h : attributesOf tags found tokens = .error problem) :
    problem.isUnclosed = false := by
  unfold attributesOf at h
  split at h
  · cases h
    rfl
  · split at h
    · cases h
    · cases h
      rfl

theorem fault_of_read {text : List Char} {f : Finding}
    (h : read tags source text offset = .faulty f) :
    f.span.start = offset ∧ f.ofComment = false ∧ f.isUnclosed = false := by
  have hextends : (read tags source text offset).Extends tags text offset := extends_read ..
  rw [h] at hextends
  obtain ⟨hstart, hcomment⟩ := hextends
  refine ⟨hstart, ?_, ?_⟩
  · unfold Finding.ofComment
    split
    · rename_i opening closing hp
      exact absurd hp (hcomment opening closing)
    · rfl
  · rw [read_eq] at h
    split at h
    · cases h
    · split at h
      · cases h
      · unfold readFound at h
        dsimp only at h
        split at h
        · split at h
          · cases h
          · rename_i hp
            cases h
            exact attributesOf_ne_unclosed hp
        · split at h
          · cases h
            rfl
          · split at h
            · cases h
            · rename_i hp
              cases h
              exact attributesOf_ne_unclosed hp
        · cases h
          rfl
        · cases h
          rfl

end Tag

theorem CommentReading.endless_of_read {text : List Char} {f : Finding}
    (h : CommentReading.read tags source text offset = .endless f) :
    (∃ rest, text = tags.commentOpening.toList ++ rest) ∧ f.span.start = offset ∧
      f.ofComment = true ∧ f.isUnclosed = false := by
  rw [CommentReading.read_eq] at h
  split at h
  · cases h
  · rename_i body ho
    dsimp only at h
    split at h
    · cases h
    · cases h
      exact ⟨⟨body, Text.after?_eq_some_iff.mp ho⟩, rfl, rfl, rfl⟩

mutual

theorem sequenced_scanFrom (tags : TagSet) (source text : List Char) (offset run : Nat)
    (comments : Bool) :
    Sequenced tags offset (Item.scanFrom tags source text offset run comments) := by
  rw [Item.scanFrom_eq]
  by_cases ht : text = []
  · rw [if_pos ht]
    exact Sequenced.nil.flush ..
  · rw [if_neg ht]
    have hhere (comments : Bool) := sequenced_scanHere tags source text offset run comments
    cases comments with
    | false => exact hhere false
    | true =>
      rw [if_pos rfl]
      cases hr : CommentReading.read tags source text offset with
      | none => exact hhere true
      | endless f =>
        obtain ⟨⟨body, hbody⟩, hstart, hcomment, hu⟩ := CommentReading.endless_of_read hr
        by_cases hapart : tags.CommentsApart
        · -- no tag is read here, so that scanning goes on behind the first character
          obtain ⟨c, left, htext⟩ := List.exists_cons_of_ne_nil ht
          have hlength : left.length < text.length := by
            rw [htext]
            exact Nat.lt_succ_self _
          have hnone : Tag.read tags source (c :: left) offset = .none := by
            rw [← htext, hbody]
            exact hapart ..
          have hleft := sequenced_scanFrom tags source left (offset + c.utf8Size) run false
          have hlt : f.span.start < offset + c.utf8Size := by
            have := c.utf8Size_pos
            omega
          refine .finding hu (Nat.le_of_eq hstart.symm) (.inl hlt) ?_
          rwa [htext, Item.scanHere_cons, hnone]
        · have hbefore : f.Before tags offset := .inr ⟨hstart, hcomment, hapart⟩
          exact .finding hu (Nat.le_of_eq hstart.symm) hbefore (hhere false)
      | closed stop rest =>
        dsimp only
        split
        · obtain ⟨comment, -, rfl⟩ := CommentReading.extends_read hr
          exact ((sequenced_scanFrom ..).mono (Nat.le_add_right ..)).flush ..
        · rw [Item.stuckAt_eq]
          exact Sequenced.nil.flush ..
termination_by 2 * text.length + 1

theorem sequenced_scanHere (tags : TagSet) (source text : List Char) (offset run : Nat)
    (comments : Bool) :
    Sequenced tags offset (Item.scanHere tags source text offset run comments) := by
  match text with
  | [] =>
    rw [Item.scanHere_nil]
    exact Sequenced.nil.flush ..
  | c :: left =>
    rw [Item.scanHere_cons]
    have hpos := c.utf8Size_pos
    have hleft := sequenced_scanFrom tags source left (offset + c.utf8Size) run comments
    have hextends : (Tag.read tags source (c :: left) offset).Extends tags (c :: left) offset :=
      Tag.extends_read ..
    cases hr : Tag.read tags source (c :: left) offset with
    | none => exact hleft.mono (Nat.le_add_right ..)
    | faulty f =>
      obtain ⟨hstart, -, hu⟩ := Tag.fault_of_read hr
      exact .finding hu (Nat.le_of_eq hstart.symm) (.inl (by omega)) hleft
    | tag t rest =>
      rw [hr] at hextends
      obtain ⟨covered, -, htext, hspan⟩ := hextends
      have hstart : t.span.start = offset := by rw [hspan]
      dsimp only
      split
      · rename_i hle
        have hne : covered ≠ [] := by
          rintro rfl
          have hlen := congrArg List.length htext
          simp only [List.nil_append, List.length_cons] at hlen
          omega
        have hstop : t.span.start < t.span.stop := by
          rw [hspan]
          exact Nat.lt_add_of_pos_right (Text.size_pos hne)
        exact (Sequenced.tag (Nat.le_of_eq hstart.symm) hstop (sequenced_scanFrom ..)).flush ..
      · rw [Item.stuckAt_eq]
        exact (Sequenced.tag (Nat.le_of_eq hstart.symm) (Nat.lt_succ_self _) .nil).flush ..
termination_by 2 * text.length + 0

end

theorem sequenced_scan (tags : TagSet) (source : String) :
    Sequenced tags 0 (Item.scan tags source) :=
  sequenced_scanFrom tags source.toList source.toList 0 0 true

end Stencil
