import Stencil.Proofs.Tag.Extent

/-! The order of the items of a source, whatever its delimiters are.
A delimiter may be empty here, so that a tag covers nothing; no item is behind it. The main
statements say that the texts are parts of the source that are not empty, one behind the other, and
that no two tags begin at the same place. -/
namespace Stencil

/-- Whether the span is a part of these characters, not empty and cut between characters. -/
def Span.IsPart (source : List Char) (span : Span) : Prop :=
  ∃ before covered after, source = before ++ covered ++ after ∧ covered ≠ [] ∧
    span = ⟨Text.size before, Text.size (before ++ covered)⟩

theorem Span.IsPart.start_lt {source : List Char} {span : Span} (h : span.IsPart source) :
    span.start < span.stop := by
  obtain ⟨before, covered, after, _, hne, rfl⟩ := h
  have := Text.size_pos hne
  simp only [Text.size_append]
  omega

theorem Span.IsPart.exists_slice? {source : List Char} {span : Span} (h : span.IsPart source) :
    ∃ covered, covered ≠ [] ∧ Text.slice? source span = some covered := by
  obtain ⟨before, covered, after, rfl, hne, rfl⟩ := h
  exact ⟨covered, hne, Text.slice?_append before covered after⟩

/-- The items stand in order from `offset` on: no text before it, and each part after those that
come first. Findings may be anywhere. -/
inductive InOrder (source : List Char) : Nat → List Item → Prop
  | nil {offset : Nat} : InOrder source offset []
  | finding {offset : Nat} {f : Finding} {items : List Item} :
    InOrder source offset items → InOrder source offset (.finding f :: items)
  | text {offset : Nat} {span : Span} {items : List Item} :
    offset ≤ span.start → span.IsPart source → InOrder source span.stop items →
    InOrder source offset (.text span :: items)
  | tag {offset : Nat} {t : Tag} {items : List Item} :
    offset ≤ t.span.start → InOrder source (t.span.start + 1) items →
    InOrder source offset (.tag t :: items)

namespace Item

def text? : Item → Option Span
  | text span => some span
  | _ => none

def tag? : Item → Option Tag
  | tag t => some t
  | _ => none

end Item

namespace InOrder

variable {source : List Char} {offset : Nat} {items : List Item}

theorem mono (h : InOrder source offset items) {earlier : Nat} (he : earlier ≤ offset) :
    InOrder source earlier items := by
  induction h with
  | nil => exact .nil
  | finding _ ih => exact .finding (ih he)
  | text hle hpart more _ => exact .text (Nat.le_trans he hle) hpart more
  | tag hle more _ => exact .tag (Nat.le_trans he hle) more

theorem flush {before pending after : List Char} (hs : source = before ++ pending ++ after)
    (h : InOrder source (Text.size (before ++ pending)) items) :
    InOrder source (Text.size before)
      (Item.flush (Text.size before) (Text.size (before ++ pending)) items) := by
  unfold Item.flush
  split
  · rename_i hlt
    refine .text (Nat.le_refl _) ⟨before, pending, after, hs, ?_, rfl⟩ h
    rintro rfl
    simp at hlt
  · exact h.mono (by simp)

theorem texts_isPart (h : InOrder source offset items) {span : Span}
    (hm : span ∈ items.filterMap Item.text?) : offset ≤ span.start ∧ span.IsPart source := by
  induction h with
  | nil => simp at hm
  | finding _ ih => exact ih (by simpa [Item.text?] using hm)
  | text hle hpart more ih =>
    simp only [List.filterMap_cons, Item.text?, List.mem_cons] at hm
    rcases hm with rfl | hm
    · exact ⟨hle, hpart⟩
    · obtain ⟨hstart, hp⟩ := ih hm
      have := hpart.start_lt
      exact ⟨by omega, hp⟩
  | tag hle more ih =>
    obtain ⟨hstart, hp⟩ := ih (by simpa [Item.text?] using hm)
    exact ⟨by omega, hp⟩

theorem texts_pairwise (h : InOrder source offset items) :
    (items.filterMap Item.text?).Pairwise fun span later => span.stop ≤ later.start := by
  induction h with
  | nil => exact .nil
  | finding _ ih => exact ih
  | text _ _ more ih => exact List.pairwise_cons.mpr ⟨fun later hl => (more.texts_isPart hl).1, ih⟩
  | tag _ _ ih => exact ih

theorem le_tag_start (h : InOrder source offset items) {t : Tag}
    (hm : t ∈ items.filterMap Item.tag?) : offset ≤ t.span.start := by
  induction h with
  | nil => simp at hm
  | finding _ ih => exact ih (by simpa [Item.tag?] using hm)
  | text hle hpart more ih =>
    have := ih (by simpa [Item.tag?] using hm)
    have := hpart.start_lt
    omega
  | tag hle more ih =>
    simp only [List.filterMap_cons, Item.tag?, List.mem_cons] at hm
    rcases hm with rfl | hm
    · exact hle
    · have := ih hm
      omega

theorem eq_of_tag_start (h : InOrder source offset items) {t u : Tag}
    (ht : t ∈ items.filterMap Item.tag?) (hu : u ∈ items.filterMap Item.tag?)
    (hs : t.span.start = u.span.start) : t = u := by
  induction h with
  | nil => simp at ht
  | finding _ ih => exact ih ht hu
  | text _ _ _ ih => exact ih ht hu
  | tag _ more ih =>
    simp only [List.filterMap_cons, Item.tag?, List.mem_cons] at ht hu
    rcases ht with rfl | ht
    · rcases hu with rfl | hu
      · rfl
      · have := more.le_tag_start hu
        omega
    · rcases hu with rfl | hu
      · have := more.le_tag_start ht
        omega
      · exact ih ht hu

end InOrder

section Scan

variable {tags : TagSet} {source : List Char}

theorem CommentReading.extends_read {text rest : List Char} {offset stop : Nat}
    (h : CommentReading.read tags source text offset = .closed stop rest) :
    ∃ comment, text = comment ++ rest ∧ stop = offset + Text.size comment := by
  rw [CommentReading.read_eq] at h
  split at h
  · cases h
  · rename_i body ho
    dsimp only at h
    split at h
    · rename_i skipped left hc
      cases h
      refine ⟨tags.commentOpening.toList ++ skipped ++ tags.commentClosing.toList, ?_, ?_⟩
      · rw [Text.after?_eq_some_iff.mp ho, Text.eq_of_cut? hc]
        simp
      · simp [Nat.add_assoc]
    · cases h

mutual

/-- Scanning goes on in order, after a run of text that is still open. -/
theorem inOrder_scanFrom (before pending text : List Char) (comments : Bool)
    (hs : source = before ++ pending ++ text) :
    InOrder source (Text.size before)
      (Item.scanFrom tags source text (Text.size (before ++ pending)) (Text.size before)
        comments) := by
  rw [Item.scanFrom_eq]
  by_cases ht : text = []
  · rw [if_pos ht]
    exact InOrder.nil.flush hs
  · rw [if_neg ht]
    have hhere (comments : Bool) := inOrder_scanHere before pending text comments hs
    cases comments with
    | false => exact hhere false
    | true =>
      rw [if_pos rfl]
      cases hr : CommentReading.read tags source text (Text.size (before ++ pending)) with
      | none => exact hhere true
      | endless f => exact .finding (hhere false)
      | closed stop rest =>
        dsimp only
        split
        · obtain ⟨comment, rfl, rfl⟩ := CommentReading.extends_read hr
          refine InOrder.flush hs ?_
          have hrest := inOrder_scanFrom (before ++ pending ++ comment) [] rest true (by simp [hs])
          rw [List.append_nil, Text.size_append _ comment] at hrest
          exact hrest.mono (Nat.le_add_right ..)
        · rw [Item.stuckAt_eq]
          exact InOrder.nil.flush hs
termination_by 2 * text.length + 1

theorem inOrder_scanHere (before pending text : List Char) (comments : Bool)
    (hs : source = before ++ pending ++ text) :
    InOrder source (Text.size before)
      (Item.scanHere tags source text (Text.size (before ++ pending)) (Text.size before)
        comments) := by
  match text with
  | [] =>
    rw [Item.scanHere_nil]
    exact InOrder.nil.flush hs
  | c :: left =>
    rw [Item.scanHere_cons]
    have hchar := inOrder_scanFrom before (pending ++ [c]) left comments (by simp [hs])
    rw [← List.append_assoc, Text.size_append _ [c], Text.size_cons, Text.size_nil,
      Nat.add_zero] at hchar
    have hextends : (Tag.read tags source (c :: left) (Text.size (before ++ pending))).Extends
        tags (c :: left) (Text.size (before ++ pending)) := Tag.extends_read ..
    cases hr : Tag.read tags source (c :: left) (Text.size (before ++ pending)) with
    | none => exact hchar
    | faulty f => exact .finding hchar
    | tag t rest =>
      rw [hr] at hextends
      obtain ⟨covered, -, htext, hspan⟩ := hextends
      have hstart : t.span.start = Text.size (before ++ pending) := by rw [hspan]
      have hstop : t.span.stop = Text.size (before ++ pending ++ covered) := by
        rw [hspan, Text.size_append _ covered]
      dsimp only
      split
      · rename_i hle
        have hne : covered ≠ [] := by
          rintro rfl
          have hlen := congrArg List.length htext
          simp only [List.nil_append, List.length_cons] at hlen
          omega
        have hpos := Text.size_pos hne
        have hrest := inOrder_scanFrom (before ++ pending ++ covered) [] rest comments
          (by rw [hs, htext]; simp)
        rw [List.append_nil, ← hstop] at hrest
        have hmore : t.span.start + 1 ≤ t.span.stop := by
          rw [hstart, hstop, Text.size_append _ covered]
          omega
        exact InOrder.flush hs (.tag (Nat.le_of_eq hstart.symm) (hrest.mono hmore))
      · rw [Item.stuckAt_eq]
        exact InOrder.flush hs (.tag (Nat.le_of_eq hstart.symm) .nil)
termination_by 2 * text.length + 0

end

theorem inOrder_scan (tags : TagSet) (source : String) :
    InOrder source.toList 0 (Item.scan tags source) :=
  inOrder_scanFrom [] [] source.toList true rfl

end Scan
end Stencil
