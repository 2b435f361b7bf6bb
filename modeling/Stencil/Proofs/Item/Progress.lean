import Mathlib.Data.List.Basic
import Mathlib.Data.List.Perm.Subperm
import Stencil.Proofs.Item.Order
import Stencil.Proofs.Item.Sealed

/-! Whether scanning gets on, for any tag set that can be put together.
A comment takes up nothing only if both of its marks are empty, a tag only if its delimiters and its
keyword are and no name is wanted. `TagSet.stalls` decides this from the tag set. The main statement
says that scanning ends on every source exactly for the tag sets that do not stall, among them all
valid ones, and `empty_comment_marks_stall` shows one that does. -/
namespace Stencil

namespace TagSet

/-- What can be built from the default tag set. -/
inductive Built : TagSet → Prop
  | standard : Built {}
  | delimiters {t : TagSet} (opening closing : String) : Built t →
    Built (t.withDelimiters opening closing)
  | comment {t : TagSet} (opening closing : String) : Built t →
    Built (t.withComment opening closing)
  | wrapped {t : TagSet} (opening closing : String) : Built t →
    Built (t.withWrapped opening closing)
  | shorthand {t : TagSet} (text : String) : Built t → Built (t.withShorthand text)
  | keyword {t : TagSet} (kind : TagKind) (text : String) : Built t →
    Built (t.withKeyword kind text)

theorem built (t : TagSet) : t.Built := by
  obtain ⟨opening, closing, commentOpening, commentClosing, wrappedOpening, wrappedClosing,
    shorthand, ⟨var, embed, cond, elsif, alt, endif, loop, endloop, leave, next⟩⟩ := t
  have hmarks := (((Built.standard.delimiters opening closing).comment commentOpening
    commentClosing).wrapped wrappedOpening wrappedClosing).shorthand shorthand
  have hfirst := ((((hmarks.keyword .var var).keyword .embed embed).keyword .cond cond).keyword
    .elsif elsif).keyword .alt alt
  have hall := ((((hfirst.keyword .endif endif).keyword .loop loop).keyword .endloop
    endloop).keyword .leave leave).keyword .next next
  exact hall

/-- The kind whose keyword is the empty text, if there is one: the first, as they are tried. -/
def bareKind? (t : TagSet) : Option TagKind := TagKind.all.find? fun kind => t.keyword kind = ""

/-- Whether a tag can stand without any text between its delimiters. -/
def hasBareTag (t : TagSet) : Bool :=
  match t.bareKind? with
  | some kind => !kind.requiresName
  | none => t.shorthand = ""

def commentStalls (t : TagSet) : Bool := t.commentOpening = "" && t.commentClosing = ""

/-- Whether a tag can take up nothing. Where the opening delimiter for tags inside a document
comment is empty, every tag is one of these. -/
def tagStalls (t : TagSet) : Bool :=
  t.hasBareTag &&
    if t.wrappedOpening = "" then t.wrappedClosing = "" else t.opening = "" && t.closing = ""

def stalls (t : TagSet) : Bool := t.commentStalls || t.tagStalls

variable {tags : TagSet}

theorem stalls_of_valid (h : tags.emptyEntry? = none) : tags.stalls = false := by
  have hc := commentOpening_ne_nil h
  have hw := wrappedOpening_ne_nil h
  have ho := opening_ne_nil h
  rw [ne_eq, String.toList_eq_nil_iff] at hc hw ho
  simp [stalls, commentStalls, tagStalls, hc, hw, ho]

/-! ### Which keyword takes up nothing -/

theorem filter_insertLongest (e : TagKind × List Char) (l : List (TagKind × List Char)) :
    (insertLongest e l).filter (·.2.isEmpty) = (l ++ [e]).filter (·.2.isEmpty) := by
  induction l with
  | nil => rfl
  | cons f r ih =>
    unfold insertLongest
    split
    · rename_i hlt
      have hne : e.2.isEmpty = false := by
        cases he : e.2 with
        | nil => simp [he] at hlt
        | cons => rfl
      have hlast : [e].filter (·.2.isEmpty) = [] := List.filter_cons_of_neg (by simp [hne])
      rw [List.filter_append, hlast, List.append_nil, List.filter_cons_of_neg (by simp [hne])]
    · rw [List.cons_append, List.filter_cons, List.filter_cons, ih]

theorem filter_foldl_insertLongest (l sorted : List (TagKind × List Char)) :
    (l.foldl (fun sorted e => insertLongest e sorted) sorted).filter (·.2.isEmpty) =
      (sorted ++ l).filter (·.2.isEmpty) := by
  induction l generalizing sorted with
  | nil => simp
  | cons e l ih =>
    rw [List.foldl_cons, ih, List.filter_append, filter_insertLongest, ← List.filter_append,
      List.append_assoc]
    rfl

/-- The empty keywords keep their order, so that the first of them is the first to be tried. -/
theorem find?_keywordsByLength (tags : TagSet) :
    tags.keywordsByLength.find? (·.2.isEmpty) = tags.bareKind?.map fun kind => (kind, []) := by
  rw [← List.head?_filter, keywordsByLength, filter_foldl_insertLongest, List.nil_append,
    List.head?_filter, List.find?_map, bareKind?]
  have hempty : ((fun e : TagKind × List Char => e.2.isEmpty) ∘
      fun kind => (kind, (tags.keyword kind).toList)) = fun kind => tags.keyword kind = "" := by
    funext kind
    exact (Bool.eq_iff_iff.mpr (by simp [String.toList_eq_nil_iff]))
  rw [hempty]
  cases hf : TagKind.all.find? fun kind => tags.keyword kind = "" with
  | none => rfl
  | some kind =>
    have hk := List.find?_some hf
    simp only [decide_eq_true_eq] at hk
    simp [hk]

theorem bare_of_matchKeyword? {text : List Char} {m : KeywordMatch}
    (h : tags.matchKeyword? text = some m) (hr : text.length ≤ m.rest.length) :
    m.shorthand = false ∧ tags.bareKind? = some m.kind ∨
      m.shorthand = true ∧ tags.bareKind? = none ∧ tags.shorthand = "" := by
  have hfind := find?_keywordsByLength tags
  unfold matchKeyword? at h
  dsimp only at h
  split at h
  · rename_i m' hm
    cases h
    obtain ⟨before, e, after, hl, he, hbefore⟩ := List.findSome?_eq_some_iff.mp hm
    obtain ⟨rest, hrest, rfl⟩ := Option.map_eq_some_iff.mp he
    have hlen := length_of_afterFolded? hrest
    have hempty : e.2.isEmpty = true :=
      List.isEmpty_iff.mpr (List.length_eq_zero_iff.mp (by simp only at hr; omega))
    have hfirst : tags.keywordsByLength.find? (·.2.isEmpty) = some e := by
      refine List.find?_eq_some_iff_append.mpr ⟨hempty, before, after, hl, fun f hf => ?_⟩
      cases hword : f.2 with
      | nil =>
        have := hbefore f hf
        simp [hword, afterFolded?] at this
      | cons => rfl
    rw [hfirst] at hfind
    obtain ⟨kind, hk, he⟩ := Option.map_eq_some_iff.mp hfind.symm
    exact .inl ⟨rfl, hk.trans (congrArg (some ·.1) he)⟩
  · rename_i hm
    obtain ⟨rest, hrest, rfl⟩ := Option.map_eq_some_iff.mp h
    refine .inr ⟨rfl, ?_, ?_⟩
    · cases hk : tags.bareKind? with
      | none => rfl
      | some kind =>
        rw [hk] at hfind
        have hnone := List.findSome?_eq_none_iff.mp hm _ (List.mem_of_find?_eq_some hfind)
        simp [afterFolded?] at hnone
    · have hlen := congrArg List.length (Text.after?_eq_some_iff.mp hrest)
      rw [List.length_append] at hlen
      exact String.toList_eq_nil_iff.mp (List.length_eq_zero_iff.mp (by simp only at hr; omega))

/-- Where no keyword begins the text but the empty one, if there is one, that is what is found. -/
theorem matchKeyword?_of_clash {text : List Char}
    (hk : ∀ kind, tags.keyword kind ≠ "" →
      afterFolded? (tags.keyword kind).toList text = none)
    (hs : tags.bareKind? = none → tags.shorthand = "") :
    tags.matchKeyword? text = some (match tags.bareKind? with
      | some kind => ⟨kind, false, text⟩
      | none => ⟨.var, true, text⟩) := by
  have hfound : (tags.keywordsByLength.findSome? fun e =>
      (afterFolded? e.2 text).map fun rest => (⟨e.1, false, rest⟩ : KeywordMatch)) =
      tags.bareKind?.map fun kind => ⟨kind, false, text⟩ := by
    have hfind := find?_keywordsByLength tags
    have hentry : ∀ e ∈ tags.keywordsByLength, e.2.isEmpty = false →
        afterFolded? e.2 text = none := by
      intro e he hne
      have hspelled := mem_keywordsByLength.mp he
      rw [hspelled]
      refine hk e.1 fun h => ?_
      simp [hspelled, h] at hne
    cases hb : tags.bareKind? with
    | none =>
      rw [hb, Option.map_none, List.find?_eq_none] at hfind
      refine List.findSome?_eq_none_iff.mpr fun e he => ?_
      rw [hentry e he (by simpa using hfind e he), Option.map_none]
    | some kind =>
      rw [hb, Option.map_some] at hfind
      obtain ⟨-, before, after, hl, hbefore⟩ := List.find?_eq_some_iff_append.mp hfind
      refine List.findSome?_eq_some_iff.mpr ⟨before, _, after, hl, by simp [afterFolded?], ?_⟩
      intro e he
      rw [hentry e (hl ▸ List.mem_append_left _ he) (by simpa using hbefore e he),
        Option.map_none]
  unfold matchKeyword?
  dsimp only
  rw [hfound]
  cases hb : tags.bareKind? with
  | none => simp [hs hb, Text.after?]
  | some kind => rfl

end TagSet

/-! ### What takes up nothing -/

section Standstill

variable {tags : TagSet} {source text rest : List Char} {offset : Nat}

/-- A closed comment takes up some of the text, unless both of its marks are empty. -/
theorem CommentReading.length_lt_of_not_stalls (hs : tags.commentStalls = false) {stop : Nat}
    (h : CommentReading.read tags source text offset = .closed stop rest) :
    rest.length < text.length := by
  rw [CommentReading.read_eq] at h
  split at h
  · cases h
  · rename_i body ho
    dsimp only at h
    split at h
    · rename_i skipped left hc
      cases h
      have hopen := congrArg List.length (Text.after?_eq_some_iff.mp ho)
      have hclose := congrArg List.length (Text.eq_of_cut? hc)
      simp only [List.length_append] at hopen hclose
      have hmarks : tags.commentOpening.toList ≠ [] ∨ tags.commentClosing.toList ≠ [] := by
        rw [ne_eq, String.toList_eq_nil_iff, ne_eq, String.toList_eq_nil_iff]
        simpa [TagSet.commentStalls, imp_iff_not_or] using hs
      rcases hmarks with hm | hm
      · have := List.length_pos_iff.mpr hm
        omega
      · have := List.length_pos_iff.mpr hm
        omega
    · cases h

theorem CommentReading.read_of_stalls (hs : tags.commentStalls = true) (source text : List Char)
    (offset : Nat) : CommentReading.read tags source text offset = .closed offset text := by
  simp only [TagSet.commentStalls, Bool.and_eq_true, decide_eq_true_eq] at hs
  cases text <;> simp [CommentReading.read_eq, hs.1, hs.2, Text.after?, Text.cut?]

theorem TagBody.bare_of_read {closing : List Char} {wrapped : Bool}
    (h : (read closing wrapped text offset).rest? = some rest)
    (hr : text.length ≤ rest.length) :
    closing = [] ∧ read closing wrapped text offset = .closed [] offset text := by
  obtain ⟨inner, htext⟩ := exists_of_rest?_read h
  have hlen := congrArg List.length htext
  simp only [List.length_append] at hlen
  obtain rfl : closing = [] := List.length_eq_zero_iff.mp (by omega)
  refine ⟨rfl, ?_⟩
  rw [read, Text.after?]
  rfl

theorem Tag.bare_of_open? {wrapped : Bool} (h : open? tags text = some (wrapped, rest))
    (hr : text.length ≤ rest.length) :
    if wrapped then tags.wrappedOpening = "" else tags.wrappedOpening ≠ "" ∧ tags.opening = "" := by
  unfold open? at h
  split at h
  · rename_i left hl
    cases h
    have hlen := congrArg List.length (Text.after?_eq_some_iff.mp hl)
    have hdrop := (List.dropWhile_suffix Text.isBlank (l := left)).length_le
    rw [List.length_append] at hlen
    rw [if_pos rfl]
    exact String.toList_eq_nil_iff.mp (List.length_eq_zero_iff.mp (by omega))
  · rename_i hnone
    obtain ⟨left, hl, he⟩ := Option.map_eq_some_iff.mp h
    cases he
    have hlen := congrArg List.length (Text.after?_eq_some_iff.mp hl)
    rw [List.length_append] at hlen
    refine ⟨fun hw => ?_, ?_⟩
    · rw [hw] at hnone
      cases hnone
    · exact String.toList_eq_nil_iff.mp (List.length_eq_zero_iff.mp (by omega))

theorem Tag.exists_of_read {t : Tag} (h : read tags source text offset = .tag t rest) :
    ∃ wrapped afterOpening found start stop tokens, open? tags text = some (wrapped, afterOpening) ∧
      tags.matchKeyword? afterOpening = some found ∧ lacksBlank found tokens = false ∧
      (TagBody.read (if wrapped then tags.wrappedClosing else tags.closing).toList wrapped
          found.rest start = .closed tokens stop rest ∨
        TagBody.read (if wrapped then tags.wrappedClosing else tags.closing).toList wrapped
          found.rest start = .slashed tokens stop rest) := by
  have hblank {found : TagSet.KeywordMatch} {tokens : List Token} {attributes : List Attribute}
      (ha : attributesOf tags found tokens = .ok attributes) : lacksBlank found tokens = false := by
    unfold attributesOf at ha
    split at ha
    · cases ha
    · rename_i hl
      exact Bool.eq_false_iff.mpr hl
  rw [read_eq] at h
  split at h
  · cases h
  rename_i wrapped afterOpening ho
  split at h
  · cases h
  rename_i found hf
  unfold readFound at h
  dsimp only at h
  split at h
  · rename_i tokens stop left hb
    split at h
    · rename_i attributes ha
      cases h
      exact ⟨wrapped, _, found, _, stop, tokens, ho, hf, hblank ha, .inl hb⟩
    · cases h
  · rename_i tokens stop left hb
    split at h
    · cases h
    · split at h
      · rename_i attributes ha
        cases h
        exact ⟨wrapped, _, found, _, stop, tokens, ho, hf, hblank ha, .inr hb⟩
      · cases h
  · cases h
  · cases h

/-- A tag takes up some of the text, unless the tag set lets one take up nothing. -/
theorem Tag.length_lt_of_not_stalls (hs : tags.tagStalls = false) {t : Tag}
    (h : read tags source text offset = .tag t rest) : rest.length < text.length := by
  by_contra hlen
  obtain ⟨wrapped, afterOpening, found, start, stop, tokens, ho, hf, hl, hb⟩ := exists_of_read h
  obtain ⟨delimiter, -, hopen⟩ := append_of_open? ho
  obtain ⟨keyword, hkeyword⟩ := TagSet.append_of_matchKeyword? hf
  replace hopen := congrArg List.length hopen
  replace hkeyword := congrArg List.length hkeyword
  rw [List.length_append] at hopen hkeyword
  have hrest : (TagBody.read (if wrapped then tags.wrappedClosing else tags.closing).toList wrapped
      found.rest start).rest? = some rest := by
    rcases hb with hb | hb <;> rw [hb] <;> rfl
  obtain ⟨inner, hinner⟩ := TagBody.exists_of_rest?_read hrest
  replace hinner := congrArg List.length hinner
  simp only [List.length_append] at hinner
  -- each reader leaves as much as it was given, so that each of them has read nothing
  obtain ⟨hclosing, hempty⟩ := TagBody.bare_of_read hrest (by omega)
  have hopening := bare_of_open? ho (by omega)
  have hword := TagSet.bare_of_matchKeyword? hf (by omega)
  have htokens : tokens = [] := by
    rw [hempty] at hb
    rcases hb with hb | hb <;> cases hb
    rfl
  subst htokens
  have hbare : tags.hasBareTag = true := by
    rcases hword with ⟨hm, hk⟩ | ⟨-, hk, hw⟩
    · simpa [TagSet.hasBareTag, hk, lacksBlank, hm] using hl
    · simp [TagSet.hasBareTag, hk, hw]
  rw [String.toList_eq_nil_iff] at hclosing
  have hstalls : tags.tagStalls = true := by
    cases wrapped with
    | true => simp_all [TagSet.tagStalls]
    | false => simp_all [TagSet.tagStalls]
  rw [hs] at hstalls
  cases hstalls

/-- Where nothing but what is empty can be found, a tag that may take up nothing does. -/
theorem Tag.read_of_stalls (hs : tags.tagStalls = true)
    (hblank : text.dropWhile Text.isBlank = text)
    (ho : tags.wrappedOpening ≠ "" → Text.after? tags.wrappedOpening.toList text = none)
    (hk : ∀ kind, tags.keyword kind ≠ "" →
      TagSet.afterFolded? (tags.keyword kind).toList text = none) (source : List Char)
    (offset : Nat) : ∃ t, read tags source text offset = .tag t text ∧ t.span = ⟨offset, offset⟩ := by
  simp only [TagSet.tagStalls, Bool.and_eq_true] at hs
  obtain ⟨hbare, hdelimiters⟩ := hs
  obtain ⟨wrapped, hopen, hclosing⟩ : ∃ wrapped, open? tags text = some (wrapped, text) ∧
      (if wrapped then tags.wrappedClosing else tags.closing) = "" := by
    by_cases hw : tags.wrappedOpening = ""
    · rw [if_pos hw, decide_eq_true_eq] at hdelimiters
      exact ⟨true, by simp [open?, hw, Text.after?, hblank], hdelimiters⟩
    · simp only [hw, if_false, Bool.and_eq_true, decide_eq_true_eq] at hdelimiters
      exact ⟨false, by simp [open?, ho hw, hdelimiters.1, Text.after?], hdelimiters.2⟩
  have hword := TagSet.matchKeyword?_of_clash hk fun hb => by
    simpa [TagSet.hasBareTag, hb] using hbare
  have hread (found : TagSet.KeywordMatch) (hf : tags.matchKeyword? text = some found)
      (hr : found.rest = text) (hl : lacksBlank found [] = false) :
      ∃ t, read tags source text offset = .tag t text ∧ t.span = ⟨offset, offset⟩ := by
    have hbody (start : Nat) : TagBody.read [] wrapped text start = .closed [] start text := by
      rw [TagBody.read, Text.after?]
      rfl
    refine ⟨⟨found.kind, [], ⟨offset, offset⟩, Text.lineAt source offset⟩, ?_, rfl⟩
    simp [read_eq, readFound, hopen, hf, hr, hclosing, hbody, attributesOf, hl, Attribute.parse]
  cases hb : tags.bareKind? with
  | none =>
    rw [hb] at hword
    exact hread _ hword rfl (by simp [lacksBlank])
  | some kind =>
    rw [hb] at hword
    exact hread _ hword rfl (by simpa [TagSet.hasBareTag, hb, lacksBlank] using hbare)

end Standstill

/-! ### The loop -/

/-- Scanning as a loop that is left at the end of the text only: what is left of the source at
`offset`, the beginning of the current run of text and whether comments are looked for give these
items after finitely many turns. -/
inductive Item.Scans (tags : TagSet) (source : List Char) :
    List Char → Nat → Nat → Bool → List Item → Prop
  | done {offset run : Nat} {comments : Bool} :
    Scans tags source [] offset run comments (flush run offset [])
  | comment {text rest : List Char} {offset run stop : Nat} {items : List Item} :
    text ≠ [] → CommentReading.read tags source text offset = .closed stop rest →
    Scans tags source rest stop stop true items →
    Scans tags source text offset run true (flush run offset items)
  | endless {text : List Char} {offset run : Nat} {f : Finding} {items : List Item} :
    text ≠ [] → CommentReading.read tags source text offset = .endless f →
    Scans tags source text offset run false items →
    Scans tags source text offset run true (.finding f :: items)
  | tag {text rest : List Char} {offset run : Nat} {comments : Bool} {t : Tag}
    {items : List Item} : text ≠ [] →
    (comments = true → CommentReading.read tags source text offset = .none) →
    Tag.read tags source text offset = .tag t rest →
    Scans tags source rest t.span.stop t.span.stop comments items →
    Scans tags source text offset run comments (flush run offset (.tag t :: items))
  | faulty {c : Char} {left : List Char} {offset run : Nat} {comments : Bool} {f : Finding}
    {items : List Item} :
    (comments = true → CommentReading.read tags source (c :: left) offset = .none) →
    Tag.read tags source (c :: left) offset = .faulty f →
    Scans tags source left (offset + c.utf8Size) run comments items →
    Scans tags source (c :: left) offset run comments (.finding f :: items)
  | char {c : Char} {left : List Char} {offset run : Nat} {comments : Bool} {items : List Item} :
    (comments = true → CommentReading.read tags source (c :: left) offset = .none) →
    Tag.read tags source (c :: left) offset = .none →
    Scans tags source left (offset + c.utf8Size) run comments items →
    Scans tags source (c :: left) offset run comments items

namespace Item.Scans

variable {tags : TagSet} {source text rest : List Char} {offset run : Nat} {comments : Bool}
  {items : List Item}

/-- A comment that took up nothing would be read again at once, and the loop would not be left. -/
theorem comment_advances (h : Scans tags source text offset run true items) (hne : text ≠ [])
    {stop : Nat} (hr : CommentReading.read tags source text offset = .closed stop rest) :
    rest.length < text.length := by
  generalize hc : true = comments at h
  induction h with
  | done => exact absurd rfl hne
  | comment _ hr' _ ih =>
    rw [hr] at hr'
    cases hr'
    obtain ⟨read, htext, hstop⟩ := CommentReading.extends_read hr
    by_contra hlen
    have hnil : read = [] := List.length_eq_zero_iff.mp (by
      have := congrArg List.length htext
      rw [List.length_append] at this
      omega)
    subst hnil
    rw [List.nil_append] at htext
    rw [Text.size_nil, Nat.add_zero] at hstop
    subst htext hstop
    exact hlen (ih hne hr rfl)
  | endless _ hr' => rw [hr] at hr'; cases hr'
  | tag _ hn => rw [hr] at hn; cases hn hc.symm
  | faulty hn => rw [hr] at hn; cases hn hc.symm
  | char hn => rw [hr] at hn; cases hn hc.symm

theorem tag_advances (h : Scans tags source text offset run comments items) (hne : text ≠ [])
    (hn : comments = true → ∀ stop rest,
      CommentReading.read tags source text offset ≠ .closed stop rest) {t : Tag}
    (hr : Tag.read tags source text offset = .tag t rest) : rest.length < text.length := by
  induction h with
  | done => exact absurd rfl hne
  | comment _ hc => exact absurd hc (hn rfl _ _)
  | endless _ _ _ ih => exact ih hne (fun h => Bool.noConfusion h) hr
  | tag _ _ hr' _ ih =>
    rw [hr] at hr'
    cases hr'
    rename_i text offset _ _ _ _ _ _
    have hextends : (Tag.read tags source text offset).Extends tags text offset :=
      Tag.extends_read ..
    rw [hr] at hextends
    obtain ⟨covered, -, htext, hspan⟩ := hextends
    by_contra hlen
    have hnil : covered = [] := List.length_eq_zero_iff.mp (by
      have := congrArg List.length htext
      rw [List.length_append] at this
      omega)
    subst hnil
    rw [List.nil_append] at htext
    rw [Text.size_nil, Nat.add_zero] at hspan
    subst htext
    rw [hspan] at ih
    exact hlen (ih hne hn hr)
  | faulty _ hr' => rw [hr] at hr'; cases hr'
  | char _ hr' => rw [hr] at hr'; cases hr'

theorem eq_scanFrom (h : Scans tags source text offset run comments items) :
    items = Item.scanFrom tags source text offset run comments := by
  have hhere {text : List Char} {offset run : Nat} {comments : Bool} (hne : text ≠ [])
      (hn : comments = true → CommentReading.read tags source text offset = .none) :
      scanFrom tags source text offset run comments =
        scanHere tags source text offset run comments := by
    rw [scanFrom_eq, if_neg hne]
    cases comments with
    | true => rw [if_pos rfl, hn rfl]
    | false => rfl
  induction h with
  | done => rw [scanFrom_eq, if_pos rfl]
  | comment hne hr more ih =>
    have hlt := (comment hne hr more : Scans tags source _ _ 0 _ _).comment_advances hne hr
    rw [scanFrom_eq, if_neg hne, if_pos rfl, hr]
    simp only
    rw [if_pos hlt, ← ih]
  | @endless text offset run f items hne hr _ ih =>
    have hfalse : scanFrom tags source text offset run false =
        scanHere tags source text offset run false := hhere hne (by simp)
    rw [scanFrom_eq, if_neg hne, if_pos rfl, hr, ih, hfalse]
  | @tag text rest offset run comments t items hne hn hr more ih =>
    have hlt := (tag hne hn hr more : Scans tags source _ _ 0 _ _).tag_advances hne
      (fun h _ _ hc => by rw [hn h] at hc; cases hc) hr
    rw [hhere hne hn]
    cases text with
    | nil => exact absurd rfl hne
    | cons c left =>
      rw [scanHere_cons, hr]
      simp only
      rw [if_pos (Nat.le_of_lt_succ hlt), ← ih]
  | faulty hn hr _ ih => rw [hhere (List.cons_ne_nil _ _) hn, scanHere_cons, hr, ih]
  | char hn hr _ ih => rw [hhere (List.cons_ne_nil _ _) hn, scanHere_cons, hr, ih]

end Item.Scans

/-- Where nothing stalls the loop is left: each turn leaves less text, or stops looking for
comments. -/
theorem Item.exists_scans {tags : TagSet} (hs : tags.stalls = false) (source text : List Char)
    (offset run : Nat) (comments : Bool) :
    ∃ items, Scans tags source text offset run comments items := by
  have hs' := hs
  rw [TagSet.stalls, Bool.or_eq_false_iff] at hs'
  cases text with
  | nil => exact ⟨_, .done⟩
  | cons c left =>
    have hhere (hn : comments = true → CommentReading.read tags source (c :: left) offset = .none) :
        ∃ items, Scans tags source (c :: left) offset run comments items := by
      cases hr : Tag.read tags source (c :: left) offset with
      | tag t rest =>
        have hlt := Tag.length_lt_of_not_stalls hs'.2 hr
        obtain ⟨items, hi⟩ := exists_scans hs source rest t.span.stop t.span.stop comments
        exact ⟨_, .tag (List.cons_ne_nil _ _) hn hr hi⟩
      | faulty f =>
        obtain ⟨items, hi⟩ := exists_scans hs source left (offset + c.utf8Size) run comments
        exact ⟨_, .faulty hn hr hi⟩
      | none =>
        obtain ⟨items, hi⟩ := exists_scans hs source left (offset + c.utf8Size) run comments
        exact ⟨_, .char hn hr hi⟩
    cases comments with
    | false => exact hhere (by simp)
    | true =>
      cases hr : CommentReading.read tags source (c :: left) offset with
      | closed stop rest =>
        have hlt := CommentReading.length_lt_of_not_stalls hs'.1 hr
        obtain ⟨items, hi⟩ := exists_scans hs source rest stop stop true
        exact ⟨_, .comment (List.cons_ne_nil _ _) hr hi⟩
      | endless f =>
        obtain ⟨items, hi⟩ := exists_scans hs source (c :: left) offset run false
        exact ⟨_, .endless (List.cons_ne_nil _ _) hr hi⟩
      | none => exact hhere fun _ => hr
termination_by 2 * text.length + comments.toNat
decreasing_by
  all_goals
    first
    | (simp only [List.length_cons] at *; have := Bool.toNat_le comments; omega)
    | simp

/-! ### A text that stalls -/

namespace TagSet

variable {tags : TagSet}

def heads (tags : TagSet) : List Char :=
  ([tags.commentOpening, tags.commentClosing, tags.wrappedOpening] ++
    TagKind.all.map tags.keyword).filterMap fun s => s.toList.head?.map Char.toLower

def letters : List Char := "abcdefghijklmnop".toList

theorem exists_letter_not_mem_heads (tags : TagSet) : ∃ c ∈ letters, c ∉ tags.heads := by
  by_contra hall
  push Not at hall
  have hnodup : letters.Nodup := by decide
  have hle := (hnodup.subperm hall).length_le
  have hheads : tags.heads.length ≤ 13 := List.length_filterMap_le ..
  have hletters : letters.length = 16 := by decide
  omega

theorem lower_of_mem_letters {c : Char} (hc : c ∈ letters) : c.toLower = c := by
  have hall : letters.all (fun c => c.toLower = c) = true := by decide
  exact of_decide_eq_true (List.all_eq_true.mp hall c hc)

theorem isBlank_of_mem_letters {c : Char} (hc : c ∈ letters) : Text.isBlank c = false := by
  have hall : letters.all (fun c => !Text.isBlank c) = true := by decide
  exact Bool.not_eq_true' _ ▸ List.all_eq_true.mp hall c hc

theorem after?_of_not_mem_heads {c : Char} (hc : c ∈ letters) (hn : c ∉ tags.heads) {s : String}
    (hs : s ∈ [tags.commentOpening, tags.commentClosing, tags.wrappedOpening] ++
      TagKind.all.map tags.keyword) (hne : s ≠ "") :
    Text.after? s.toList [c] = none ∧ afterFolded? s.toList [c] = none := by
  cases hl : s.toList with
  | nil => exact absurd (String.toList_eq_nil_iff.mp hl) hne
  | cons d word =>
    have hlower : d.toLower ≠ c.toLower := by
      rw [lower_of_mem_letters hc]
      rintro rfl
      exact hn (List.mem_filterMap.mpr ⟨s, hs, by rw [hl]; rfl⟩)
    have hchar : d ≠ c := by
      rintro rfl
      exact hlower rfl
    exact ⟨by rw [Text.after?, if_neg hchar], by rw [afterFolded?, if_neg hlower]⟩

theorem read_ne_closed_of_letter {c : Char} (hc : c ∈ letters) (hn : c ∉ tags.heads)
    (hs : tags.commentStalls = false) (source : List Char) (offset stop : Nat) (rest : List Char) :
    CommentReading.read tags source [c] offset ≠ .closed stop rest := by
  by_cases ho : tags.commentOpening = ""
  · have hclosing : tags.commentClosing ≠ "" := by simpa [commentStalls, ho] using hs
    have hnone := (after?_of_not_mem_heads hc hn (by simp) hclosing).1
    have hnil : Text.after? tags.commentClosing.toList [] = none := by
      cases hl : tags.commentClosing.toList with
      | nil => exact absurd (String.toList_eq_nil_iff.mp hl) hclosing
      | cons d word => rfl
    simp [CommentReading.read_eq, ho, Text.after?, Text.cut?, hnone, hnil]
  · have hnone := (after?_of_not_mem_heads hc hn (by simp) ho).1
    simp [CommentReading.read_eq, hnone]

theorem exists_stalled_letter (hs : tags.stalls = true) :
    ∃ c : Char, CommentReading.read tags [c] [c] 0 = .closed 0 [c] ∨
      (∀ stop rest, CommentReading.read tags [c] [c] 0 ≠ .closed stop rest) ∧
      ∃ t, Tag.read tags [c] [c] 0 = .tag t [c] ∧ t.span = ⟨0, 0⟩ := by
  obtain ⟨c, hc, hn⟩ := exists_letter_not_mem_heads tags
  refine ⟨c, ?_⟩
  cases hcomment : tags.commentStalls with
  | true => exact .inl (CommentReading.read_of_stalls hcomment ..)
  | false =>
    refine .inr ⟨read_ne_closed_of_letter hc hn hcomment [c] 0, ?_⟩
    have htag : tags.tagStalls = true := by simpa [stalls, hcomment] using hs
    have hblank : [c].dropWhile Text.isBlank = [c] :=
      List.dropWhile_cons_of_neg (by simp [isBlank_of_mem_letters hc])
    exact Tag.read_of_stalls htag hblank
      (fun hne => (after?_of_not_mem_heads hc hn (by simp) hne).1)
      (fun kind hne => (after?_of_not_mem_heads hc hn
        (List.mem_append_right _ (List.mem_map_of_mem (by cases kind <;> decide))) hne).2) [c] 0

end TagSet

/-- Whether whatever is left out or read as a tag ends behind its beginning, wherever it stands. -/
def TagSet.Advances (tags : TagSet) : Prop :=
  ∀ source before text : List Char, text ≠ [] → source = before ++ text →
    (∀ stop rest, CommentReading.read tags source text (Text.size before) = .closed stop rest →
      Text.size before < stop) ∧
    ∀ t rest, Tag.read tags source text (Text.size before) = .tag t rest →
      t.span.start = Text.size before ∧ t.span.start < t.span.stop

theorem TagSet.advances_of_not_stalls {tags : TagSet} (hs : tags.stalls = false) :
    tags.Advances := by
  rw [stalls, Bool.or_eq_false_iff] at hs
  rintro source before text - -
  refine ⟨fun stop rest h => ?_, fun t rest h => ?_⟩
  · have hlt := CommentReading.length_lt_of_not_stalls hs.1 h
    obtain ⟨comment, rfl, rfl⟩ := CommentReading.extends_read h
    have hne : comment ≠ [] := by
      rintro rfl
      simp at hlt
    have := Text.size_pos hne
    omega
  · have hlt := Tag.length_lt_of_not_stalls hs.2 h
    have hextends : (Tag.read tags source text (Text.size before)).Extends tags text
      (Text.size before) := Tag.extends_read ..
    rw [h] at hextends
    obtain ⟨covered, -, rfl, hspan⟩ := hextends
    have hne : covered ≠ [] := by
      rintro rfl
      simp at hlt
    have := Text.size_pos hne
    rw [hspan]
    exact ⟨rfl, Nat.lt_add_of_pos_right this⟩

/-- Scanning gets on, and ends on every source, exactly if the tag set does not stall. Each valid tag
set is one of these, but a tag set need not be valid to be built or used. -/
theorem scanning_gets_on (tags : TagSet) :
    tags.Built ∧ (tags.emptyEntry? = none → tags.stalls = false) ∧
    (tags.stalls = false ↔ tags.Advances) ∧
    (tags.stalls = false ↔
      ∀ source : String, ∃ items, Item.Scans tags source.toList source.toList 0 0 true items) ∧
    ∀ (source : String) (items : List Item),
      Item.Scans tags source.toList source.toList 0 0 true items →
      items = Item.scan tags source := by
  refine ⟨tags.built, TagSet.stalls_of_valid, ⟨TagSet.advances_of_not_stalls, fun h => ?_⟩,
    ⟨fun h source => Item.exists_scans h .., fun h => ?_⟩, fun _ _ h => h.eq_scanFrom⟩
  · cases hs : tags.stalls with
    | false => rfl
    | true =>
      obtain ⟨c, hr | ⟨-, t, hr, hspan⟩⟩ := TagSet.exists_stalled_letter hs
      · exact absurd ((h [c] [] [c] (List.cons_ne_nil _ _) rfl).1 _ _ hr) (Nat.lt_irrefl 0)
      · have hlt := ((h [c] [] [c] (List.cons_ne_nil _ _) rfl).2 _ _ hr).2
        rw [hspan] at hlt
        exact absurd hlt (Nat.lt_irrefl 0)
  · cases hs : tags.stalls with
    | false => rfl
    | true =>
      obtain ⟨c, hstalled⟩ := TagSet.exists_stalled_letter hs
      obtain ⟨items, hi⟩ := h (String.singleton c)
      rw [String.toList_singleton] at hi
      rcases hstalled with hr | ⟨hn, t, hr, -⟩
      · exact absurd (hi.comment_advances (List.cons_ne_nil _ _) hr) (Nat.lt_irrefl _)
      · exact absurd (hi.tag_advances (List.cons_ne_nil _ _) (fun _ => hn) hr) (Nat.lt_irrefl _)

/-- Comments whose marks are both empty: one is closed where it begins, again and again. -/
theorem empty_comment_marks_stall :
    (TagSet.withComment {} "" "").Built ∧ TagSet.emptyEntry? (TagSet.withComment {} "" "") ≠ none ∧
    CommentReading.read (TagSet.withComment {} "" "") ['x'] ['x'] 0 = .closed 0 ['x'] ∧
    ¬ ∃ items, Item.Scans (TagSet.withComment {} "" "") ['x'] ['x'] 0 0 true items := by
  refine ⟨.comment "" "" .standard, by decide, by decide, ?_⟩
  rintro ⟨items, h⟩
  have hread : CommentReading.read (TagSet.withComment {} "" "") ['x'] ['x'] 0 = .closed 0 ['x'] :=
    by decide
  exact absurd (h.comment_advances (List.cons_ne_nil _ _) hread) (Nat.lt_irrefl _)

end Stencil
