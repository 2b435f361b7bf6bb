import Stencil.Proofs.Item.Counting

/-! How much of a text a tag covers.
A tag covers what stands before its rest, and its span begins where it was read and is as long as
what it covers. In a valid tag set that is never nothing. -/
namespace Stencil

namespace Text

theorem size_pos {text : List Char} (h : text ≠ []) : 0 < size text := by
  cases text with
  | nil => exact absurd rfl h
  | cons c r =>
    have := c.utf8Size_pos
    rw [size_cons]
    omega

end Text

namespace TagSet

variable {tags : TagSet}

theorem ne_nil_of_mem_entries (h : tags.emptyEntry? = none) {e : String × String}
    (he : e ∈ tags.entries) : e.2.toList ≠ [] := by
  rw [ emptyEntry?, Option.map_eq_none_iff, List.find?_eq_none] at h
  have := h e he
  simpa [String.isEmpty_iff] using this

theorem opening_ne_nil (h : tags.emptyEntry? = none) : tags.opening.toList ≠ [] := by
  have := ne_nil_of_mem_entries h (e := ("start", tags.opening)) (by simp [entries])
  exact this

theorem commentOpening_ne_nil (h : tags.emptyEntry? = none) :
    tags.commentOpening.toList ≠ [] := by
  have := ne_nil_of_mem_entries h (e := ("comment_start", tags.commentOpening))
    (by simp [entries])
  exact this

theorem wrappedOpening_ne_nil (h : tags.emptyEntry? = none) :
    tags.wrappedOpening.toList ≠ [] := by
  have := ne_nil_of_mem_entries h (e := ("tag_comment_start", tags.wrappedOpening))
    (by simp [entries])
  exact this

theorem append_of_matchKeyword? {text : List Char} {m : KeywordMatch}
    (h : tags.matchKeyword? text = some m) : ∃ read, text = read ++ m.rest := by
  unfold matchKeyword? at h
  dsimp only at h
  split at h
  · rename_i m' hm
    cases h
    obtain ⟨e, _, he⟩ := List.exists_of_findSome?_eq_some hm
    obtain ⟨rest, hr, rfl⟩ := Option.map_eq_some_iff.mp he
    obtain ⟨read, rfl, -⟩ := afterFolded?_eq_some_iff.mp hr
    exact ⟨read, rfl⟩
  · obtain ⟨rest, hr, rfl⟩ := Option.map_eq_some_iff.mp h
    exact ⟨_, Text.after?_eq_some_iff.mp hr⟩

end TagSet

namespace TagBody

/-- Whether the body ends where its rest begins, if it is read from this offset of this text. -/
def Covers (text : List Char) (offset : Nat) : TagBody → Prop
  | closed _ stop rest | slashed _ stop rest =>
    ∃ covered, text = covered ++ rest ∧ stop = offset + Text.size covered
  | _ => True

theorem Covers.push {text covered rest : List Char} {offset : Nat} {token : Token} {b : TagBody}
    (h : b.Covers rest (offset + Text.size covered)) (ht : text = covered ++ rest) :
    (b.push token).Covers text offset := by
  cases b with
  | closed tokens stop left =>
    obtain ⟨more, rfl, rfl⟩ := h
    exact ⟨covered ++ more, by simp [ht], by simp [Nat.add_assoc]⟩
  | slashed tokens stop left =>
    obtain ⟨more, rfl, rfl⟩ := h
    exact ⟨covered ++ more, by simp [ht], by simp [Nat.add_assoc]⟩
  | stray c stop => trivial
  | endless => trivial

theorem covers_read (closing : List Char) (wrapped : Bool) (text : List Char) (offset : Nat) :
    (read closing wrapped text offset).Covers text offset := by
  fun_induction read closing wrapped text offset with
  | case1 text offset r hr => exact ⟨closing, Text.after?_eq_some_iff.mp hr, rfl⟩
  | case2 text offset _ r hr =>
    split at hr
    · simp at hr
    · unfold afterSlashed? at hr
      split at hr
      · rename_i left
        refine ⟨'/' :: closing, ?_, ?_⟩
        · rw [Text.after?_eq_some_iff.mp hr]
          rfl
        · rw [Text.size_cons, ← Nat.add_assoc]
          rfl
      · simp at hr
  | case3 => trivial
  | case4 => trivial
  | case5 text offset _ _ token covered rest hr _ ih =>
    exact ih.push (Lexeme.append_of_read? hr).symm

end TagBody

namespace Tag

variable {tags : TagSet} {source text rest : List Char} {offset : Nat}

theorem append_of_open? {wrapped : Bool} (h : open? tags text = some (wrapped, rest)) :
    ∃ read, (tags.emptyEntry? = none → read ≠ []) ∧ text = read ++ rest := by
  unfold open? at h
  split at h
  · rename_i left hl
    simp only [Option.some.injEq, Prod.mk.injEq] at h
    obtain ⟨_, rfl⟩ := h
    refine ⟨tags.wrappedOpening.toList ++ left.takeWhile Text.isBlank, ?_, ?_⟩
    · intro hv
      simp [TagSet.wrappedOpening_ne_nil hv]
    · rw [List.append_assoc, List.takeWhile_append_dropWhile]
      exact Text.after?_eq_some_iff.mp hl
  · obtain ⟨left, hl, he⟩ := Option.map_eq_some_iff.mp h
    cases he
    exact ⟨_, TagSet.opening_ne_nil, Text.after?_eq_some_iff.mp hl⟩

end Tag

/-- Whether what has been read begins at this offset of this text: a tag covers what stands before
its rest, and a fault is found there and is none of a comment. -/
def TagReading.Covers (text : List Char) (offset : Nat) : TagReading → Prop
  | tag t rest => ∃ covered, covered ≠ [] ∧ text = covered ++ rest ∧
    t.span = ⟨offset, offset + Text.size covered⟩
  | faulty f => f.span.start = offset ∧ ∀ opening closing,
    f.problem ≠ .unterminatedComment opening closing
  | none => True

def TagReading.Extends (tags : TagSet) (text : List Char) (offset : Nat) : TagReading → Prop
  | tag t rest => ∃ covered, (tags.emptyEntry? = .none → covered ≠ []) ∧ text = covered ++ rest ∧
    t.span = ⟨offset, offset + Text.size covered⟩
  | r => r.Covers text offset

namespace Tag

variable {tags : TagSet}

theorem attributesOf_ne {found : TagSet.KeywordMatch} {tokens : List Token} {problem : Problem}
    (h : attributesOf tags found tokens = .error problem) (opening closing : String) :
    problem ≠ .unterminatedComment opening closing := by
  unfold attributesOf at h
  split at h
  · cases h
    simp
  · split at h
    · cases h
    · cases h
      simp

theorem extends_read (source text : List Char) (offset : Nat) :
    (read tags source text offset).Extends tags text offset := by
  rw [read_eq]
  split
  · trivial
  · rename_i wrapped afterOpening ho
    split
    · trivial
    · rename_i found hf
      obtain ⟨delimiter, hd, htext⟩ := append_of_open? ho
      obtain ⟨keyword, hk⟩ := TagSet.append_of_matchKeyword? hf
      have hall : text = (delimiter ++ keyword) ++ found.rest := by
        rw [htext, hk, List.append_assoc]
      have hstart : offset + (Text.size text - Text.size found.rest) =
          offset + Text.size (delimiter ++ keyword) := by
        rw [hall, Text.size_append _ found.rest]
        omega
      have hne (covered : List Char) (hv : tags.emptyEntry? = none) :
          delimiter ++ keyword ++ covered ≠ [] := by simp [hd hv]
      have hbody := TagBody.covers_read
        (if wrapped then tags.wrappedClosing else tags.closing).toList wrapped found.rest
        (offset + (Text.size text - Text.size found.rest))
      have htag : ∀ attributes stop rest, (∃ covered, found.rest = covered ++ rest ∧
          stop = offset + (Text.size text - Text.size found.rest) + Text.size covered) →
          TagReading.Extends tags text offset
            (.tag ⟨found.kind, attributes, ⟨offset, stop⟩, Text.lineAt source offset⟩ rest) := by
        rintro attributes stop rest ⟨covered, hrest, hstop⟩
        refine ⟨delimiter ++ keyword ++ covered, hne covered, ?_, ?_⟩
        · rw [hall, hrest, List.append_assoc _ covered]
        · rw [hstop, hstart, Text.size_append _ covered, Nat.add_assoc]
      unfold readFound
      dsimp only
      -- the attributes decide between a tag and a fault, both of the same extent
      split
      · rename_i tokens stop rest hb
        rw [hb] at hbody
        split
        · exact htag _ _ _ hbody
        · rename_i problem hp
          exact ⟨rfl, attributesOf_ne hp⟩
      · rename_i tokens stop rest hb
        rw [hb] at hbody
        split
        · exact ⟨rfl, by simp⟩
        · split
          · exact htag _ _ _ hbody
          · rename_i problem hp
            exact ⟨rfl, attributesOf_ne hp⟩
      · exact ⟨rfl, by simp⟩
      · exact ⟨rfl, by simp⟩

theorem covers_read (hv : tags.emptyEntry? = none) (source text : List Char) (offset : Nat) :
    (read tags source text offset).Covers text offset := by
  have h : (read tags source text offset).Extends tags text offset := extends_read ..
  cases hr : read tags source text offset with
  | tag t rest =>
    rw [hr] at h
    obtain ⟨covered, hne, htext, hspan⟩ := h
    exact ⟨covered, hne hv, htext, hspan⟩
  | faulty f =>
    rw [hr] at h
    exact h
  | none => trivial

end Tag
end Stencil
