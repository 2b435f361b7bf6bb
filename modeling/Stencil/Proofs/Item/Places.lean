import Stencil.Proofs.Item.Order

/-! Where the tags and the findings of a source stand.
Lines are counted from the beginning of the source, and spans grow while a tag is read, so that a
finding is as wide as what has been read by then. The main statement says that every tag and every
finding is at a part of the source that begins with an opening delimiter, on the line that the line
feeds before it give. -/
namespace Stencil

namespace TagBody

def stop? : TagBody → Option Nat
  | closed _ stop _ | slashed _ stop _ | stray _ stop => some stop
  | endless => none

@[simp] theorem stop?_push (token : Token) (b : TagBody) : (b.push token).stop? = b.stop? := by
  cases b <;> rfl

theorem exists_of_stop?_read {closing text : List Char} {wrapped : Bool} {offset stop : Nat}
    (h : (read closing wrapped text offset).stop? = some stop) :
    ∃ covered left, text = covered ++ left ∧ stop = offset + Text.size covered := by
  fun_induction read closing wrapped text offset with
  | case1 text offset rest hr =>
    cases h
    exact ⟨closing, rest, Text.after?_eq_some_iff.mp hr, rfl⟩
  | case2 text offset _ rest hr =>
    cases h
    split at hr
    · cases hr
    · unfold afterSlashed? at hr
      split at hr
      · refine ⟨'/' :: closing, rest, congrArg _ (Text.after?_eq_some_iff.mp hr), ?_⟩
        rw [Text.size_cons, ← Nat.add_assoc]
        rfl
      · cases hr
  | case3 => cases h
  | case4 text offset _ _ covered rest hr =>
    cases h
    exact ⟨covered, rest, (Lexeme.append_of_read? hr).symm, rfl⟩
  | case5 text offset _ _ token covered rest hr _ ih =>
    rw [stop?_push] at h
    obtain ⟨more, left, rfl, rfl⟩ := ih h
    refine ⟨covered ++ more, left, ?_, ?_⟩
    · rw [List.append_assoc]
      exact (Lexeme.append_of_read? hr).symm
    · rw [Text.size_append, Nat.add_assoc]

end TagBody

def TagReading.place? : TagReading → Option (Nat × Span)
  | tag t _ => some (t.line, t.span)
  | faulty f => some (f.line, f.span)
  | none => Option.none

namespace Tag

variable {tags : TagSet} {source text rest : List Char} {offset : Nat}

/-- A part of the text that begins, at this offset, with the opening delimiter of a tag. -/
def Heads (tags : TagSet) (text : List Char) (offset : Nat) (span : Span) : Prop :=
  ∃ covered left, text = covered ++ left ∧ span = ⟨offset, offset + Text.size covered⟩ ∧
    (tags.wrappedOpening.toList <+: covered ∨ tags.opening.toList <+: covered)

theorem exists_of_open? {wrapped : Bool} (h : open? tags text = some (wrapped, rest)) :
    ∃ read, text = read ++ rest ∧
      (tags.wrappedOpening.toList <+: read ∨ tags.opening.toList <+: read) := by
  unfold open? at h
  split at h
  · rename_i left hl
    cases h
    refine ⟨tags.wrappedOpening.toList ++ left.takeWhile Text.isBlank, ?_,
      .inl (List.prefix_append ..)⟩
    rw [List.append_assoc, List.takeWhile_append_dropWhile]
    exact Text.after?_eq_some_iff.mp hl
  · obtain ⟨left, hl, he⟩ := Option.map_eq_some_iff.mp h
    cases he
    exact ⟨_, Text.after?_eq_some_iff.mp hl, .inr List.prefix_rfl⟩

/-- A tag and what is wrong with one are on the line where reading began, and at a span that begins
there. -/
theorem heads_of_place?_read {place : Nat × Span}
    (h : (read tags source text offset).place? = some place) :
    place.1 = Text.lineAt source offset ∧ Heads tags text offset place.2 := by
  rw [read_eq] at h
  split at h
  · cases h
  · rename_i wrapped afterOpening ho
    split at h
    · cases h
    · rename_i found hf
      obtain ⟨delimiter, htext, hd⟩ := exists_of_open? ho
      obtain ⟨keyword, hk⟩ := TagSet.append_of_matchKeyword? hf
      have hall : text = (delimiter ++ keyword) ++ found.rest := by
        rw [htext, hk, List.append_assoc]
      have hstart : offset + (Text.size text - Text.size found.rest) =
          offset + Text.size (delimiter ++ keyword) := by
        rw [hall, Text.size_append _ found.rest]
        omega
      have hheads (more left : List Char) (hm : found.rest = more ++ left) {stop : Nat}
          (hs : stop = offset + (Text.size text - Text.size found.rest) + Text.size more) :
          Heads tags text offset ⟨offset, stop⟩ := by
        have hp : delimiter <+: delimiter ++ keyword ++ more := by
          rw [List.append_assoc]
          exact List.prefix_append ..
        refine ⟨delimiter ++ keyword ++ more, left, ?_, ?_,
          hd.imp (fun h => h.trans hp) fun h => h.trans hp⟩
        · rw [hall, hm, List.append_assoc _ more]
        · rw [hs, hstart, Text.size_append _ more, Nat.add_assoc]
      have hstop {stop : Nat} (hs : (TagBody.read
          (if wrapped then tags.wrappedClosing else tags.closing).toList wrapped found.rest
          (offset + (Text.size text - Text.size found.rest))).stop? = some stop) :
          Heads tags text offset ⟨offset, stop⟩ := by
        obtain ⟨more, left, hm, he⟩ := TagBody.exists_of_stop?_read hs
        exact hheads more left hm he
      unfold readFound at h
      dsimp only at h
      -- the attributes decide between a tag and a fault, both at the same place
      split at h
      · rename_i tokens stop rest hb
        have hat := @hstop stop (by rw [hb]; rfl)
        split at h <;> cases h <;> exact ⟨rfl, hat⟩
      · rename_i tokens stop rest hb
        have hat := @hstop stop (by rw [hb]; rfl)
        split at h
        · cases h
          exact ⟨rfl, hat⟩
        · split at h <;> cases h <;> exact ⟨rfl, hat⟩
      · rename_i c stop hb
        have hat := @hstop stop (by rw [hb]; rfl)
        cases h
        exact ⟨rfl, hat⟩
      · cases h
        exact ⟨rfl, hheads [] found.rest rfl rfl⟩

end Tag

/-- At the span of the source stand characters, and not none of them, that begin with an opening
delimiter, and the line is one more than the line feeds among the bytes before them. -/
def TagSet.OpensAt (tags : TagSet) (source : List Char) (line : Nat) (span : Span) : Prop :=
  ∃ before covered after, source = before ++ covered ++ after ∧ covered ≠ [] ∧
    span = ⟨Text.size before, Text.size (before ++ covered)⟩ ∧
    (tags.commentOpening.toList <+: covered ∨ tags.wrappedOpening.toList <+: covered ∨
      tags.opening.toList <+: covered) ∧
    line = 1 + (Text.bytes before).count 10

def Item.place? : Item → Option (Nat × Span)
  | text _ => none
  | tag t => some (t.line, t.span)
  | finding f => some (f.line, f.span)

section Scan

variable {tags : TagSet} {source : List Char} {place : Nat × Span}

theorem Item.exists_of_place?_flush {start stop : Nat} {items : List Item} {item : Item}
    (hm : item ∈ flush start stop items) (hp : item.place? = some place) : item ∈ items := by
  unfold flush at hm
  split at hm
  · rcases List.mem_cons.mp hm with rfl | hm
    · cases hp
    · exact hm
  · exact hm

theorem TagReading.opensAt (hv : tags.emptyEntry? = Option.none) {before text : List Char}
    (hs : source = before ++ text)
    (h : (Tag.read tags source text (Text.size before)).place? = some place) :
    tags.OpensAt source place.1 place.2 := by
  obtain ⟨hline, covered, left, rfl, hspan, hd⟩ := Tag.heads_of_place?_read h
  have hne : covered ≠ [] := by
    rintro rfl
    rcases hd with hd | hd
    · exact TagSet.wrappedOpening_ne_nil hv (List.prefix_nil.mp hd)
    · exact TagSet.opening_ne_nil hv (List.prefix_nil.mp hd)
  refine ⟨before, covered, left, by rw [hs, List.append_assoc], hne, ?_, .inr hd, ?_⟩
  · rw [hspan, Text.size_append]
  · rw [hline, hs, Text.lineAt_size]
    rfl

theorem CommentReading.opensAt (hv : tags.emptyEntry? = Option.none) {before text : List Char}
    (hs : source = before ++ text) {f : Finding}
    (h : CommentReading.read tags source text (Text.size before) = .endless f) :
    tags.OpensAt source f.line f.span := by
  rw [CommentReading.read_eq] at h
  split at h
  · cases h
  · rename_i body ho
    dsimp only at h
    split at h
    · cases h
    · cases h
      refine ⟨before, tags.commentOpening.toList, body, ?_, TagSet.commentOpening_ne_nil hv, ?_,
        .inl List.prefix_rfl, ?_⟩
      · rw [hs, Text.after?_eq_some_iff.mp ho, List.append_assoc]
      · rw [Text.size_append]
      · rw [hs, Text.lineAt_size]
        rfl

mutual

/-- Every tag and every finding of what is left of the source is where a delimiter opens. -/
theorem opensAt_of_mem_scanFrom (hv : tags.emptyEntry? = none) (before text : List Char)
    (runStart : Nat) (comments : Bool) (hs : source = before ++ text) :
    ∀ item ∈ Item.scanFrom tags source text (Text.size before) runStart comments,
      ∀ place, item.place? = some place → tags.OpensAt source place.1 place.2 := by
  rw [Item.scanFrom_eq]
  intro item hm place hp
  by_cases ht : text = []
  · rw [if_pos ht] at hm
    cases Item.exists_of_place?_flush hm hp
  · rw [if_neg ht] at hm
    have hhere (comments : Bool) :=
      opensAt_of_mem_scanHere hv before text runStart comments hs item
    cases comments with
    | false => exact hhere false hm place hp
    | true =>
      rw [if_pos rfl] at hm
      cases hr : CommentReading.read tags source text (Text.size before) with
      | none =>
        rw [hr] at hm
        exact hhere true hm place hp
      | endless f =>
        rw [hr] at hm
        rcases List.mem_cons.mp hm with rfl | hm
        · cases hp
          exact CommentReading.opensAt hv hs hr
        · exact hhere false hm place hp
      | closed stop rest =>
        rw [hr] at hm
        dsimp only at hm
        split at hm
        · obtain ⟨comment, rfl, rfl⟩ := CommentReading.extends_read hr
          have hrest := opensAt_of_mem_scanFrom hv (before ++ comment) rest
            (Text.size (before ++ comment)) true (by simp [hs])
          rw [Text.size_append] at hrest
          exact hrest item (Item.exists_of_place?_flush hm hp) place hp
        · rw [Item.stuckAt_eq] at hm
          cases Item.exists_of_place?_flush hm hp
termination_by 2 * text.length + 1

theorem opensAt_of_mem_scanHere (hv : tags.emptyEntry? = none) (before text : List Char)
    (runStart : Nat) (comments : Bool) (hs : source = before ++ text) :
    ∀ item ∈ Item.scanHere tags source text (Text.size before) runStart comments,
      ∀ place, item.place? = some place → tags.OpensAt source place.1 place.2 := by
  intro item hm place hp
  match text with
  | [] =>
    rw [Item.scanHere_nil] at hm
    cases Item.exists_of_place?_flush hm hp
  | c :: left =>
    rw [Item.scanHere_cons] at hm
    have hchar := opensAt_of_mem_scanFrom hv (before ++ [c]) left runStart comments
      (by simp [hs]) item
    rw [Text.size_append, Text.size_cons, Text.size_nil, Nat.add_zero] at hchar
    have hextends : (Tag.read tags source (c :: left) (Text.size before)).Extends tags
        (c :: left) (Text.size before) := Tag.extends_read ..
    cases hr : Tag.read tags source (c :: left) (Text.size before) with
    | none =>
      rw [hr] at hm
      exact hchar hm place hp
    | faulty f =>
      rw [hr] at hm
      rcases List.mem_cons.mp hm with rfl | hm
      · exact TagReading.opensAt hv hs (hr ▸ hp)
      · exact hchar hm place hp
    | tag t rest =>
      rw [hr] at hm hextends
      obtain ⟨covered, hne, htext, hspan⟩ := hextends
      have htag (he : item = .tag t) : tags.OpensAt source place.1 place.2 := by
        subst he
        exact TagReading.opensAt hv hs (hr ▸ hp)
      dsimp only at hm
      split at hm
      · rename_i hle
        rcases List.mem_cons.mp (Item.exists_of_place?_flush hm hp) with he | hm
        · exact htag he
        · have hstop : t.span.stop = Text.size (before ++ covered) := by
            rw [hspan, Text.size_append]
          rw [hstop] at hm
          exact opensAt_of_mem_scanFrom hv (before ++ covered) rest _ comments
            (by rw [hs, htext, List.append_assoc]) item hm place hp
      · rw [Item.stuckAt_eq] at hm
        exact htag (List.mem_singleton.mp (Item.exists_of_place?_flush hm hp))
termination_by 2 * text.length + 0

end

theorem opensAt_of_mem_scan {tags : TagSet} (hv : tags.emptyEntry? = none) {source : String}
    {item : Item} (hm : item ∈ Item.scan tags source) {place : Nat × Span}
    (hp : item.place? = some place) : tags.OpensAt source.toList place.1 place.2 :=
  opensAt_of_mem_scanFrom hv [] source.toList 0 true rfl item hm place hp

end Scan
end Stencil
