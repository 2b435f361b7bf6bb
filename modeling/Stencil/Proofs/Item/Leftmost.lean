import Stencil.Proofs.Tag.Extent

/-! The leftmost-first decomposition of a source.
At each place a closed comment is taken, else a tag, else a single character, and no source has
two decompositions. The main statement says that scanning agrees with one: its units are the tags
and the longest runs of characters, and it finds one fault for each place where a tag cannot be
read. Scanning looks for no comment after an endless one, which the decomposition knows nothing
of. -/
namespace Stencil

namespace Text

theorem length_le_of_cut? {mark text before rest a b : List Char}
    (h : cut? mark text = some (before, rest)) (ho : text = a ++ mark ++ b) :
    before.length ≤ a.length := by
  induction text generalizing before a with
  | nil =>
    simp only [cut?, Option.map_eq_some_iff] at h
    obtain ⟨r, _, he⟩ := h
    cases he
    exact Nat.zero_le _
  | cons c text ih =>
    unfold cut? at h
    split at h
    · cases h
      exact Nat.zero_le _
    · rename_i hn
      obtain ⟨p, hp, he⟩ := Option.map_eq_some_iff.mp h
      cases he
      cases a with
      | nil =>
        have : after? mark (c :: text) = some b := after?_eq_some_iff.mpr (by simpa using ho)
        rw [hn] at this
        cases this
      | cons d a =>
        simp only [List.cons_append, List.cons.injEq] at ho
        have := ih hp ho.2
        simpa using this

theorem ne_of_cut?_eq_none {mark text : List Char} (h : cut? mark text = none)
    (a b : List Char) : text ≠ a ++ mark ++ b := by
  induction text generalizing a with
  | nil =>
    intro ho
    have : after? mark [] = some b := by
      simp only [List.nil_eq, List.append_eq_nil_iff] at ho
      obtain ⟨⟨_, rfl⟩, rfl⟩ := ho
      rfl
    simp [cut?, this] at h
  | cons c text ih =>
    intro ho
    unfold cut? at h
    split at h
    · cases h
    · rename_i hn
      rw [Option.map_eq_none_iff] at h
      cases a with
      | nil =>
        have : after? mark (c :: text) = some b := after?_eq_some_iff.mpr (by simpa using ho)
        rw [hn] at this
        cases this
      | cons d a =>
        simp only [List.cons_append, List.cons.injEq] at ho
        exact ih h a ho.2

end Text

def Terminated (tags : TagSet) (text : List Char) : Prop :=
  ∃ body rest, text = tags.commentOpening.toList ++ body ++ tags.commentClosing.toList ++ rest

/-- A comment: an opening delimiter and what follows it up to the first closing delimiter. -/
def IsComment (tags : TagSet) (comment rest : List Char) : Prop :=
  ∃ body, comment = tags.commentOpening.toList ++ body ++ tags.commentClosing.toList ∧
    ∀ a b, body ++ tags.commentClosing.toList ++ rest = a ++ tags.commentClosing.toList ++ b →
      body.length ≤ a.length

/-- What is found if a comment begins here that is not closed. -/
def unclosedComment? (tags : TagSet) (source text : List Char) (offset : Nat) : Option Finding :=
  (Text.after? tags.commentOpening.toList text).map fun _ =>
    ⟨.unterminatedComment tags.commentOpening tags.commentClosing, Text.lineAt source offset,
      ⟨offset, offset + Text.size tags.commentOpening.toList⟩⟩

/-- What is found if a tag begins here that cannot be read. -/
def TagReading.fault? : TagReading → Option Finding
  | faulty f => some f
  | _ => Option.none

/-- A piece of a source. A tag or a character may stand where an endless comment begins, and a
character where a tag that cannot be read begins. -/
inductive Piece
  | comment (text : List Char)
  | tag (tag : Tag) (unclosed : Option Finding)
  | char (c : Char) (unclosed fault : Option Finding)

namespace Piece

def unclosed? : Piece → Option Finding
  | comment _ => none
  | tag _ unclosed => unclosed
  | char _ unclosed _ => unclosed

def fault? : Piece → Option Finding
  | char _ _ fault => fault
  | _ => none

/-- The units of the pieces from `offset` on, where the run of text that is open began at `run`:
the tags, and the longest runs of characters between tags and comments. -/
def units (run offset : Nat) : List Piece → List Item
  | [] => Item.flush run offset []
  | comment text :: pieces =>
    Item.flush run offset (units (offset + Text.size text) (offset + Text.size text) pieces)
  | tag t _ :: pieces => Item.flush run offset (.tag t :: units t.span.stop t.span.stop pieces)
  | char c _ _ :: pieces => units run (offset + c.utf8Size) pieces

end Piece

/-- The leftmost-first decomposition of `text`, which is what is left of the source at `offset`. -/
inductive Leftmost (tags : TagSet) (source : List Char) : Nat → List Char → List Piece → Prop
  | done {offset : Nat} : Leftmost tags source offset [] []
  | comment {offset : Nat} {comment rest : List Char} {pieces : List Piece} :
    IsComment tags comment rest →
    Leftmost tags source (offset + Text.size comment) rest pieces →
    Leftmost tags source offset (comment ++ rest) (.comment comment :: pieces)
  | tag {offset : Nat} {text rest : List Char} {t : Tag} {pieces : List Piece} :
    ¬ Terminated tags text → Tag.read tags source text offset = .tag t rest →
    Leftmost tags source t.span.stop rest pieces →
    Leftmost tags source offset text (.tag t (unclosedComment? tags source text offset) :: pieces)
  | char {offset : Nat} {c : Char} {rest : List Char} {pieces : List Piece} :
    ¬ Terminated tags (c :: rest) →
    (∀ t left, Tag.read tags source (c :: rest) offset ≠ .tag t left) →
    Leftmost tags source (offset + c.utf8Size) rest pieces →
    Leftmost tags source offset (c :: rest)
      (.char c (unclosedComment? tags source (c :: rest) offset)
        (Tag.read tags source (c :: rest) offset).fault? :: pieces)

section Comments

variable {tags : TagSet}

theorem IsComment.terminated {comment rest : List Char} (h : IsComment tags comment rest) :
    Terminated tags (comment ++ rest) := by
  obtain ⟨body, rfl, _⟩ := h
  exact ⟨body, rest, rfl⟩

theorem IsComment.unique {comment rest comment' rest' : List Char}
    (h : IsComment tags comment rest) (h' : IsComment tags comment' rest')
    (he : comment ++ rest = comment' ++ rest') : comment = comment' ∧ rest = rest' := by
  obtain ⟨body, rfl, hfirst⟩ := h
  obtain ⟨body', rfl, hfirst'⟩ := h'
  have hbody : body ++ tags.commentClosing.toList ++ rest =
      body' ++ tags.commentClosing.toList ++ rest' := by
    simpa [List.append_assoc] using he
  have hlen : body.length = body'.length :=
    Nat.le_antisymm (hfirst body' rest' hbody) (hfirst' body rest hbody.symm)
  rw [List.append_assoc, List.append_assoc] at hbody
  obtain ⟨rfl, hrest⟩ := List.append_inj hbody hlen
  exact ⟨rfl, List.append_cancel_left hrest⟩

theorem not_terminated_of_suffix {body text : List Char}
    (hb : Text.cut? tags.commentClosing.toList body = none)
    (hs : text <:+ tags.commentOpening.toList ++ body) : ¬ Terminated tags text := by
  rintro ⟨inner, rest, rfl⟩
  have hlen := hs.length_le
  have hsuffix : inner ++ tags.commentClosing.toList ++ rest <:+ body := by
    have hin : inner ++ tags.commentClosing.toList ++ rest <:+
        tags.commentOpening.toList ++ body :=
      List.IsSuffix.trans ⟨tags.commentOpening.toList, by simp [List.append_assoc]⟩ hs
    refine List.suffix_of_suffix_length_le hin (List.suffix_append ..) ?_
    simp only [List.length_append] at hlen ⊢
    omega
  obtain ⟨before, hbefore⟩ := hsuffix
  apply Text.ne_of_cut?_eq_none hb (before ++ inner) rest
  rw [← hbefore]
  simp [List.append_assoc]

end Comments

namespace Leftmost

variable {tags : TagSet} {source text : List Char} {offset : Nat} {pieces pieces' : List Piece}

theorem eq_nil (hv : tags.emptyEntry? = none) (h : Leftmost tags source offset [] pieces) :
    pieces = [] := by
  generalize ht : ([] : List Char) = text at h
  cases h with
  | done => rfl
  | comment hc more =>
    obtain ⟨body, rfl, _⟩ := hc
    simp [TagSet.commentOpening_ne_nil hv] at ht
  | tag hc hr more =>
    have hcovers := Tag.covers_read hv source text offset
    rw [hr] at hcovers
    obtain ⟨covered, hne, heq, _⟩ := hcovers
    rw [← ht] at heq
    simp only [List.nil_eq, List.append_eq_nil_iff] at heq
    exact absurd heq.1 hne
  | char hc hr more => cases ht

theorem unique (hv : tags.emptyEntry? = none) (h : Leftmost tags source offset text pieces)
    (h' : Leftmost tags source offset text pieces') : pieces' = pieces := by
  induction h generalizing pieces' with
  | done => exact eq_nil hv h'
  | @comment offset comment rest pieces hc more ih =>
    generalize ht : comment ++ rest = text at h'
    cases h' with
    | done =>
      obtain ⟨body, rfl, _⟩ := hc
      simp [TagSet.commentOpening_ne_nil hv] at ht
    | comment hc' more' =>
      obtain ⟨rfl, rfl⟩ := hc.unique hc' ht
      rw [ih more']
    | tag hn _ _ => exact absurd (ht ▸ hc.terminated) hn
    | char hn _ _ => exact absurd (ht ▸ hc.terminated) hn
  | @tag offset text rest t pieces hn hr more ih =>
    cases h' with
    | done =>
      have hall := eq_nil hv (.tag hn hr more)
      cases hall
    | comment hc' _ => exact absurd hc'.terminated hn
    | tag _ hr' more' =>
      rw [hr] at hr'
      cases hr'
      rw [ih more']
    | char _ hr' _ => exact absurd hr (hr' _ _)
  | @char offset c rest pieces hn hr more ih =>
    generalize ht : c :: rest = text at h'
    cases h' with
    | done => cases ht
    | comment hc' _ => exact absurd (ht ▸ hc'.terminated) hn
    | tag _ hr' _ => exact absurd (ht ▸ hr') (hr _ _)
    | char _ _ more' =>
      cases ht
      rw [ih more']

end Leftmost

namespace Item

/-- Whether the item is a piece of the template and not a finding. -/
def isUnit : Item → Bool
  | finding _ => false
  | _ => true

def finding? : Item → Option Finding
  | finding f => some f
  | _ => none

end Item

/-- Whether the finding is that of an endless comment. -/
def Finding.ofComment (f : Finding) : Bool :=
  match f.problem with
  | .unterminatedComment .. => true
  | _ => false

/-- The items are those of the pieces: the same units and faults, and of the endless comments the
first one if comments are looked for. -/
structure Agrees (run offset : Nat) (comments : Bool) (items : List Item)
    (pieces : List Piece) : Prop where
  units : items.filter Item.isUnit = Piece.units run offset pieces
  faults : (items.filterMap Item.finding?).filter (fun f => !f.ofComment) =
    pieces.filterMap Piece.fault?
  unclosed : (items.filterMap Item.finding?).filter Finding.ofComment =
    if comments then (pieces.findSome? Piece.unclosed?).toList else []

namespace Agrees

variable {tags : TagSet} {source text : List Char} {run offset : Nat} {comments : Bool}
  {items : List Item} {pieces : List Piece}

@[simp] theorem filter_flush (p : Item → Bool) (hp : ∀ span, p (.text span) = true) :
    (Item.flush run offset items).filter p = Item.flush run offset (items.filter p) := by
  unfold Item.flush
  split
  · rw [List.filter_cons_of_pos (hp _)]
  · rfl

@[simp] theorem finding?_flush :
    (Item.flush run offset items).filterMap Item.finding? = items.filterMap Item.finding? := by
  unfold Item.flush
  split
  · rw [List.filterMap_cons_none rfl]
  · rfl

theorem done : Agrees run offset comments (Item.flush run offset []) [] := by
  refine ⟨?_, ?_, ?_⟩
  · rw [filter_flush _ fun _ => rfl]
    rfl
  · simp
  · simp

theorem comment {comment : List Char}
    (h : Agrees (offset + Text.size comment) (offset + Text.size comment) comments items pieces) :
    Agrees run offset comments (Item.flush run offset items) (.comment comment :: pieces) := by
  refine ⟨?_, ?_, ?_⟩
  · rw [filter_flush _ fun _ => rfl, h.units, Piece.units]
  · rw [finding?_flush, h.faults]
    rfl
  · rw [finding?_flush, h.unclosed]
    rfl

theorem tag {t : Tag} {unclosed : Option Finding} (hu : comments = true → unclosed = none)
    (h : Agrees t.span.stop t.span.stop comments items pieces) :
    Agrees run offset comments (Item.flush run offset (.tag t :: items))
      (.tag t unclosed :: pieces) := by
  refine ⟨?_, ?_, ?_⟩
  · rw [filter_flush _ fun _ => rfl, List.filter_cons_of_pos rfl, h.units, Piece.units]
  · rw [finding?_flush, List.filterMap_cons_none rfl, h.faults]
    rfl
  · rw [finding?_flush, List.filterMap_cons_none rfl, h.unclosed]
    cases comments with
    | false => rfl
    | true =>
      rw [hu rfl]
      rfl

theorem char {c : Char} {unclosed : Option Finding} (hu : comments = true → unclosed = none)
    (h : Agrees run (offset + c.utf8Size) comments items pieces) :
    Agrees run offset comments items (.char c unclosed none :: pieces) := by
  refine ⟨h.units, h.faults, ?_⟩
  rw [h.unclosed]
  cases comments with
  | false => rfl
  | true =>
    rw [hu rfl]
    rfl

theorem fault {c : Char} {unclosed : Option Finding} {f : Finding} (hf : f.ofComment = false)
    (h : Agrees run offset comments items (.char c unclosed none :: pieces)) :
    Agrees run offset comments (.finding f :: items) (.char c unclosed (some f) :: pieces) := by
  refine ⟨h.units, ?_, ?_⟩
  · rw [List.filterMap_cons_some (show Item.finding? (.finding f) = some f from rfl),
      List.filter_cons_of_pos (by simp [hf]), h.faults]
    rfl
  · rw [List.filterMap_cons_some (show Item.finding? (.finding f) = some f from rfl),
      List.filter_cons_of_neg (by simp [hf]), h.unclosed]
    rfl

theorem endless {piece : Piece} {f : Finding}
    (h : Agrees run offset false items (piece :: pieces)) (hf : f.ofComment = true)
    (hp : piece.unclosed? = some f) :
    Agrees run offset true (.finding f :: items) (piece :: pieces) := by
  refine ⟨h.units, ?_, ?_⟩
  · rw [List.filterMap_cons_some (show Item.finding? (.finding f) = some f from rfl),
      List.filter_cons_of_neg (by simp [hf]), h.faults]
  · rw [List.filterMap_cons_some (show Item.finding? (.finding f) = some f from rfl),
      List.filter_cons_of_pos hf, h.unclosed]
    simp [List.findSome?, hp]

end Agrees

section Scan

variable {tags : TagSet} {source : List Char}

/-- What the reading of a comment says of the text: a closed comment begins it, or one that is
endless, after which none is closed, or none. -/
def CommentReading.Describes (tags : TagSet) (source text : List Char) (offset : Nat) :
    CommentReading → Prop
  | closed stop rest => ∃ comment, IsComment tags comment rest ∧ comment ≠ [] ∧
    text = comment ++ rest ∧ stop = offset + Text.size comment
  | endless f => unclosedComment? tags source text offset = some f ∧ f.ofComment = true ∧
    ∀ left, left <:+ text → ¬ Terminated tags left
  | none => unclosedComment? tags source text offset = Option.none ∧ ¬ Terminated tags text

theorem CommentReading.describes_read (hv : tags.emptyEntry? = Option.none)
    (source text : List Char) (offset : Nat) :
    (CommentReading.read tags source text offset).Describes tags source text offset := by
  rw [CommentReading.read_eq]
  cases ho : Text.after? tags.commentOpening.toList text with
  | none =>
    refine ⟨by simp [unclosedComment?, ho], ?_⟩
    rintro ⟨body, rest, rfl⟩
    simp only [List.append_assoc] at ho
    rw [Text.after?_eq_some_iff.mpr rfl] at ho
    cases ho
  | some body =>
    have hbody := Text.after?_eq_some_iff.mp ho
    simp only
    cases hc : Text.cut? tags.commentClosing.toList body with
    | none =>
      refine ⟨by simp [unclosedComment?, ho], rfl, fun left hs => ?_⟩
      exact not_terminated_of_suffix hc (hbody ▸ hs)
    | some p =>
      obtain ⟨inner, rest⟩ := p
      have hcut := Text.eq_of_cut? hc
      refine ⟨tags.commentOpening.toList ++ inner ++ tags.commentClosing.toList, ⟨inner, rfl, ?_⟩,
        by simp [TagSet.commentOpening_ne_nil hv], ?_, ?_⟩
      · intro a b h
        exact Text.length_le_of_cut? (hcut ▸ hc) h
      · rw [hbody, hcut]
        simp [List.append_assoc]
      · simp [Nat.add_assoc]

theorem ofComment_of_fault (hv : tags.emptyEntry? = none) {text : List Char} {offset : Nat}
    {f : Finding} (h : Tag.read tags source text offset = .faulty f) : f.ofComment = false := by
  have hc := Tag.covers_read hv source text offset
  rw [h] at hc
  unfold Finding.ofComment
  split
  · rename_i opening closing hp
    exact absurd hp (hc.2 opening closing)
  · rfl

mutual

/-- Scanning decomposes what is left of the source, also if it looks for no comments because none
can be closed any more. -/
theorem exists_leftmost_scanFrom (hv : tags.emptyEntry? = none) (text : List Char)
    (offset run : Nat) (comments : Bool)
    (hn : comments = false → ∀ left, left <:+ text → ¬ Terminated tags left) :
    ∃ pieces, Leftmost tags source offset text pieces ∧
      Agrees run offset comments (Item.scanFrom tags source text offset run comments) pieces := by
  rw [Item.scanFrom_eq]
  by_cases ht : text = []
  · subst ht
    exact ⟨[], .done, by simpa using Agrees.done⟩
  · rw [if_neg ht]
    cases comments with
    | false =>
      obtain ⟨piece, pieces, hl, _, ha⟩ := exists_leftmost_scanHere hv text ht offset run false
        (hn rfl text (List.suffix_refl _)) (by simp) hn
      exact ⟨piece :: pieces, hl, ha⟩
    | true =>
      have hcomment := CommentReading.describes_read hv source text offset
      rw [if_pos rfl]
      cases hr : CommentReading.read tags source text offset with
      | none =>
        rw [hr] at hcomment
        obtain ⟨piece, pieces, hl, _, ha⟩ := exists_leftmost_scanHere hv text ht offset run true
          hcomment.2 (fun _ => hcomment.1) hn
        exact ⟨piece :: pieces, hl, ha⟩
      | endless f =>
        rw [hr] at hcomment
        obtain ⟨hf, hof, hno⟩ := hcomment
        obtain ⟨piece, pieces, hl, hp, ha⟩ := exists_leftmost_scanHere hv text ht offset run
          false (hno text (List.suffix_refl _)) (by simp) fun _ => hno
        exact ⟨piece :: pieces, hl, ha.endless hof (hp.trans hf)⟩
      | closed stop rest =>
        rw [hr] at hcomment
        obtain ⟨comment, hc, hne, htext, hstop⟩ := hcomment
        have hlt : rest.length < text.length := by
          have := List.length_pos_iff.mpr hne
          rw [htext, List.length_append]
          omega
        obtain ⟨pieces, hl, ha⟩ := exists_leftmost_scanFrom hv rest stop stop true (by simp)
        simp only
        rw [if_pos hlt]
        subst hstop
        exact ⟨_, htext ▸ .comment hc hl, ha.comment⟩
termination_by 2 * text.length + 1

theorem exists_leftmost_scanHere (hv : tags.emptyEntry? = none) (text : List Char)
    (ht : text ≠ []) (offset run : Nat) (comments : Bool) (hc : ¬ Terminated tags text)
    (hu : comments = true → unclosedComment? tags source text offset = none)
    (hn : comments = false → ∀ left, left <:+ text → ¬ Terminated tags left) :
    ∃ piece pieces, Leftmost tags source offset text (piece :: pieces) ∧
      piece.unclosed? = unclosedComment? tags source text offset ∧
      Agrees run offset comments (Item.scanHere tags source text offset run comments)
        (piece :: pieces) := by
  match text with
  | [] => exact absurd rfl ht
  | c :: left =>
    rw [Item.scanHere_cons]
    have hcovers := Tag.covers_read hv source (c :: left) offset
    have hchar := exists_leftmost_scanFrom hv left (offset + c.utf8Size) run comments
      fun h rest hs => hn h rest (hs.trans (List.suffix_cons ..))
    obtain ⟨pieces, hl, ha⟩ := hchar
    cases hr : Tag.read tags source (c :: left) offset with
    | none =>
      have hall := Leftmost.char hc (by simp [hr]) hl
      rw [hr] at hall
      exact ⟨_, pieces, hall, rfl, ha.char hu⟩
    | faulty f =>
      have hall := Leftmost.char hc (by simp [hr]) hl
      rw [hr] at hall
      exact ⟨_, pieces, hall, rfl, (ha.char hu).fault (ofComment_of_fault hv hr)⟩
    | tag t rest =>
      rw [hr] at hcovers
      obtain ⟨covered, hne, htext, hspan⟩ := hcovers
      have hlt : rest.length ≤ left.length := by
        have hlen := congrArg List.length htext
        have := List.length_pos_iff.mpr hne
        simp only [List.length_cons, List.length_append] at hlen
        omega
      obtain ⟨more, hm, hma⟩ := exists_leftmost_scanFrom hv rest t.span.stop t.span.stop comments
        fun h text hs => hn h text (hs.trans ⟨covered, htext.symm⟩)
      simp only
      rw [if_pos hlt]
      exact ⟨_, more, .tag hc hr hm, rfl, hma.tag hu⟩
termination_by 2 * text.length + 0

end

end Scan

section Consuming

variable {tags : TagSet} {source text rest : List Char} {offset : Nat}

theorem CommentReading.length_lt_of_read (hv : tags.emptyEntry? = Option.none) {stop : Nat}
    (h : CommentReading.read tags source text offset = .closed stop rest) :
    rest.length < text.length := by
  have hcomment := CommentReading.describes_read hv source text offset
  rw [h] at hcomment
  obtain ⟨comment, -, hne, rfl, -⟩ := hcomment
  have := List.length_pos_iff.mpr hne
  rw [List.length_append]
  omega

theorem Tag.length_lt_of_read (hv : tags.emptyEntry? = none) {tag : Tag}
    (h : Tag.read tags source text offset = .tag tag rest) : rest.length < text.length := by
  have hcovers := Tag.covers_read hv source text offset
  rw [h] at hcovers
  obtain ⟨covered, hne, rfl, -⟩ := hcovers
  have := List.length_pos_iff.mpr hne
  rw [List.length_append]
  omega

end Consuming

end Stencil
