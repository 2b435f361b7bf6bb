import Stencil.Proofs.Item.Places
import Mathlib.Data.List.TakeWhile

/-! Reading a tag where more text follows.
A delimiter, a keyword or a token that is not cut short by the end of a text is read alike where
more text follows. A tag set may have a character that seals its tags: every closing delimiter has
it, and nothing that opens a tag. The main statement says that a text with this character in it
begins with the same tag or with none, whatever follows the text. -/
namespace Stencil

namespace Text

/-- A mark is looked for in the same way where more text follows, unless the text ends inside it. -/
theorem after?_append {mark text : List Char} (h : text <+: mark → mark.length ≤ text.length)
    (more : List Char) : after? mark (text ++ more) = (after? mark text).map (· ++ more) := by
  induction mark generalizing text with
  | nil => rfl
  | cons m mark ih =>
    cases text with
    | nil => exact absurd (h (List.nil_prefix)) (by simp)
    | cons c text =>
      simp only [List.cons_append, after?]
      split
      · rename_i hm
        subst hm
        exact ih fun hp => Nat.le_of_succ_le_succ (h (List.cons_prefix_cons.mpr ⟨rfl, hp⟩))
      · rfl

theorem after?_append_of_length {mark text : List Char} (h : mark.length ≤ text.length)
    (more : List Char) : after? mark (text ++ more) = (after? mark text).map (· ++ more) :=
  after?_append (fun _ => h) more

theorem after?_append_of_mem {mark text : List Char} {c : Char} (hc : c ∈ text) (hm : c ∉ mark)
    (more : List Char) : after? mark (text ++ more) = (after? mark text).map (· ++ more) :=
  after?_append (fun h => absurd (h.subset hc) hm) more

theorem begins_append {mark text : List Char} (h : mark.length ≤ text.length)
    (more : List Char) : begins mark (text ++ more) = begins mark text := by
  rw [begins, after?_append_of_length h, Option.isSome_map, begins]

theorem cut?_append {mark text a b : List Char} (h : cut? mark text = some (a, b))
    (more : List Char) : cut? mark (text ++ more) = some (a, b ++ more) := by
  have hlen : mark.length ≤ text.length := by
    rw [eq_of_cut? h, List.length_append, List.length_append]
    omega
  induction text generalizing a with
  | nil =>
    obtain rfl := List.length_eq_zero_iff.mp (Nat.le_zero.mp hlen)
    cases h
    cases more <;> rfl
  | cons c text ih =>
    have hafter := after?_append_of_length hlen more
    unfold cut? at h
    rw [List.cons_append, cut?, ← List.cons_append, hafter]
    cases hm : after? mark (c :: text) with
    | some rest =>
      rw [hm] at h
      cases h
      rfl
    | none =>
      rw [hm] at h
      obtain ⟨p, hp, he⟩ := Option.map_eq_some_iff.mp h
      cases he
      have hlen : mark.length ≤ text.length := by
        rw [eq_of_cut? hp, List.length_append, List.length_append]
        omega
      rw [Option.map_none]
      dsimp only
      rw [ih hp hlen]
      rfl

end Text

namespace Lexeme

variable {halt : List Char → Bool} {rest : List Char}

/-- A run of characters ends at the same place where more text follows what ends it. -/
theorem spanUntil_before {keep : Char → Bool} {text : List Char} (more : List Char)
    (h : (spanUntil keep halt text).2 = rest) (hne : rest ≠ [])
    (hh : ∀ left, rest.length ≤ left.length → halt (left ++ more) = halt left) :
    spanUntil keep halt (text ++ more) = ((spanUntil keep halt text).1, rest ++ more) := by
  induction text with
  | nil => exact absurd h.symm hne
  | cons c text ih =>
    have hlen : rest.length ≤ (c :: text).length := by
      rw [← spanUntil_append keep halt (c :: text), h, List.length_append]
      omega
    have hhalt : halt (c :: (text ++ more)) = halt (c :: text) := hh _ hlen
    unfold spanUntil at h
    rw [List.cons_append, spanUntil, spanUntil, hhalt]
    split
    · rename_i hk
      rw [if_pos hk] at h
      rw [ih h]
    · rename_i hk
      rw [if_neg hk] at h
      subst h
      rfl

theorem spanOf_before {keep : Char → Bool} {text : List Char} (more : List Char)
    (h : (spanOf keep text).2 = rest) (hne : rest ≠ []) :
    spanOf keep (text ++ more) = ((spanOf keep text).1, rest ++ more) :=
  spanUntil_before more h hne fun _ _ => rfl

theorem readQuoted_before {quote : Char} {text covered : List Char} {token : Token}
    (more : List Char) (h : readQuoted quote text = (⟨some token, covered⟩, rest)) :
    readQuoted quote (text ++ more) = (⟨some token, covered⟩, rest ++ more) := by
  unfold readQuoted at h ⊢
  cases hs : (spanOf (fun c => c != quote && c != '\n') text).2 with
  | nil =>
    simp only [hs] at h
    cases h
  | cons c left =>
    rw [spanOf_before more hs (by simp)]
    simp only [hs, List.cons_append] at h ⊢
    split at h
    · rename_i hq
      cases h
      rw [if_pos hq]
    · cases h

theorem read?_before {text covered : List Char} {token : Token} (more : List Char)
    (h : read? halt text = some (⟨some token, covered⟩, rest)) (hne : rest ≠ [])
    (hh : ∀ left, rest.length ≤ left.length → halt (left ++ more) = halt left) :
    read? halt (text ++ more) = some (⟨some token, covered⟩, rest ++ more) := by
  cases text with
  | nil => cases h
  | cons c text =>
    simp only [read?, List.cons_append, Option.some.injEq] at h ⊢
    split at h
    · rename_i hb
      cases h
      rw [if_pos hb, spanOf_before more rfl hne]
    · rename_i hb
      rw [if_neg hb]
      split at h
      · rename_i ho
        cases h
        rw [if_pos ho, spanOf_before more rfl hne]
      · rename_i ho
        rw [if_neg ho]
        split at h
        · rename_i hs
          cases h
          rw [if_pos hs]
        · rename_i hs
          rw [if_neg hs]
          split at h
          · rename_i hw
            cases h
            rw [if_pos hw, spanUntil_before more rfl hne hh]
          · rename_i hw
            rw [if_neg hw]
            split at h
            · rename_i hq
              rw [if_pos hq]
              exact readQuoted_before more h
            · cases h

end Lexeme

namespace TagBody

theorem read_eq (closing : List Char) (wrapped : Bool) (text : List Char) (offset : Nat) :
    read closing wrapped text offset =
      match Text.after? closing text with
      | some rest => closed [] (offset + Text.size closing) rest
      | none =>
        match if wrapped then none else afterSlashed? closing text with
        | some rest => slashed [] (offset + 1 + Text.size closing) rest
        | none =>
          match Lexeme.read? (Text.begins closing) text with
          | none => endless
          | some (⟨none, covered⟩, _) => stray (covered.headD ' ') (offset + Text.size covered)
          | some (⟨some token, covered⟩, rest) =>
            (read closing wrapped rest (offset + Text.size covered)).push token := by
  rw [read]
  cases Text.after? closing text with
  | some rest => rfl
  | none =>
    cases if wrapped then none else afterSlashed? closing text with
    | some rest => rfl
    | none =>
      dsimp only
      split
      · rename_i hr
        simp only [hr]
      · rename_i hr
        simp only [hr]
      · rename_i hr
        simp only [hr]

def before (more : List Char) : TagBody → TagBody
  | closed tokens stop rest => closed tokens stop (rest ++ more)
  | slashed tokens stop rest => slashed tokens stop (rest ++ more)
  | other => other

theorem before_push (more : List Char) (token : Token) (b : TagBody) :
    (b.push token).before more = (b.before more).push token := by
  cases b <;> rfl

theorem afterSlashed?_append {closing text : List Char} (h : closing.length < text.length)
    (more : List Char) :
    afterSlashed? closing (text ++ more) = (afterSlashed? closing text).map (· ++ more) := by
  cases text with
  | nil => exact absurd h (Nat.not_lt_zero _)
  | cons c text =>
    have hafter := Text.after?_append_of_length (Nat.le_of_lt_succ h) more
    by_cases hc : c = '/'
    · subst hc
      exact hafter
    · unfold afterSlashed?
      rw [List.cons_append]
      split
      · rename_i he
        cases he
        exact absurd rfl hc
      · split
        · rename_i he
          cases he
          exact absurd rfl hc
        · rfl

theorem slashed_append (wrapped : Bool) {closing text : List Char}
    (h : closing.length < text.length) (more : List Char) :
    (if wrapped then none else afterSlashed? closing (text ++ more)) =
      (if wrapped then none else afterSlashed? closing text).map (· ++ more) := by
  cases wrapped with
  | true => rfl
  | false => exact afterSlashed?_append h more

theorem length_of_afterSlashed? {closing text rest : List Char}
    (h : afterSlashed? closing text = some rest) : closing.length < text.length := by
  unfold afterSlashed? at h
  split at h
  · rw [Text.after?_eq_some_iff.mp h, List.length_cons, List.length_append]
    omega
  · cases h

theorem exists_of_rest?_read {closing text rest : List Char} {wrapped : Bool} {offset : Nat}
    (h : (read closing wrapped text offset).rest? = some rest) :
    ∃ inner, text = inner ++ closing ++ rest := by
  fun_induction read closing wrapped text offset with
  | case1 text offset r hr =>
    cases h
    exact ⟨[], Text.after?_eq_some_iff.mp hr⟩
  | case2 text offset _ r hr =>
    cases h
    split at hr
    · cases hr
    · unfold afterSlashed? at hr
      split at hr
      · exact ⟨['/'], congrArg _ (Text.after?_eq_some_iff.mp hr)⟩
      · cases hr
  | case3 => cases h
  | case4 => cases h
  | case5 text offset _ _ token covered r hr _ ih =>
    rw [rest?_push] at h
    obtain ⟨inner, rfl⟩ := ih h
    refine ⟨covered ++ inner, ?_⟩
    rw [← Lexeme.append_of_read? hr]
    simp only [List.append_assoc]

theorem length_of_rest?_read {closing text rest : List Char} {wrapped : Bool} {offset : Nat}
    (h : (read closing wrapped text offset).rest? = some rest) :
    closing.length ≤ text.length := by
  obtain ⟨inner, rfl⟩ := exists_of_rest?_read h
  rw [List.length_append, List.length_append]
  omega

theorem read_before {closing text rest : List Char} {wrapped : Bool} {offset : Nat}
    (hne : closing ≠ []) (h : (read closing wrapped text offset).rest? = some rest)
    (more : List Char) :
    read closing wrapped (text ++ more) offset =
      (read closing wrapped text offset).before more := by
  have hlen := length_of_rest?_read h
  rw [read_eq] at h
  rw [read_eq, read_eq closing wrapped text offset, Text.after?_append_of_length hlen]
  cases hc : Text.after? closing text with
  | some left => rfl
  | none =>
    simp only [hc, Option.map_none] at h ⊢
    cases hs : if wrapped then none else afterSlashed? closing text with
    | some left =>
      have hlt : closing.length < text.length := by
        cases wrapped with
        | true => cases hs
        | false => exact length_of_afterSlashed? hs
      rw [slashed_append wrapped hlt, hs]
      rfl
    | none =>
      simp only [hs] at h
      cases hr : Lexeme.read? (Text.begins closing) text with
      | none =>
        simp only [hr] at h
        cases h
      | some p =>
        obtain ⟨⟨found, covered⟩, left⟩ := p
        cases found with
        | none =>
          simp only [hr] at h
          cases h
        | some token =>
          simp only [hr, rest?_push] at h
          have hlt : left.length < text.length := Lexeme.length_lt_of_read? hr
          have hleft := length_of_rest?_read h
          have hnil : left ≠ [] := by
            rintro rfl
            exact hne (List.length_eq_zero_iff.mp (Nat.le_zero.mp hleft))
          have hlexeme := Lexeme.read?_before more hr hnil fun t ht =>
            Text.begins_append (Nat.le_trans hleft ht) more
          rw [slashed_append wrapped (Nat.lt_of_le_of_lt hleft hlt), hs, hlexeme]
          dsimp only [Option.map_none]
          rw [read_before hne h more, before_push]
termination_by text.length

end TagBody

namespace TagSet

/-- A character of every closing delimiter that occurs in nothing that opens a tag. -/
structure SealedBy (tags : TagSet) (c : Char) : Prop where
  closing : c ∈ tags.closing.toList
  wrappedClosing : c ∈ tags.wrappedClosing.toList
  commentClosing : c ∈ tags.commentClosing.toList
  opening : c ∉ tags.opening.toList
  wrappedOpening : c ∉ tags.wrappedOpening.toList
  commentOpening : c ∉ tags.commentOpening.toList
  keyword : ∀ kind, ∀ k ∈ (tags.keyword kind).toList, k.toLower ≠ c.toLower
  shorthand : c ∉ tags.shorthand.toList
  blank : Text.isBlank c = false

theorem sealedBy_default : SealedBy {} '\x7d' where
  closing := by decide
  wrappedClosing := by decide
  commentClosing := by decide
  opening := by decide
  wrappedOpening := by decide
  commentOpening := by decide
  keyword kind := by cases kind <;> simp [keyword, Keywords.spelling]
  shorthand := by decide
  blank := by decide

variable {tags : TagSet} {c : Char} {text : List Char}

theorem afterFolded?_before {word : List Char} (hw : ∀ w ∈ word, w.toLower ≠ c.toLower)
    (hc : c ∈ text) (more : List Char) :
    afterFolded? word (text ++ more) = (afterFolded? word text).map (· ++ more) := by
  induction word generalizing text with
  | nil => rfl
  | cons w word ih =>
    cases text with
    | nil => cases hc
    | cons d text =>
      obtain ⟨hd, hword⟩ := List.forall_mem_cons.mp hw
      simp only [List.cons_append, afterFolded?]
      split
      · rename_i he
        rcases List.mem_cons.mp hc with rfl | hc
        · exact absurd he hd
        · exact ih hword hc
      · rfl

def KeywordMatch.before (more : List Char) (found : KeywordMatch) : KeywordMatch :=
  { found with rest := found.rest ++ more }

theorem matchKeyword?_before (h : tags.SealedBy c) (hc : c ∈ text) (more : List Char) :
    tags.matchKeyword? (text ++ more) = (tags.matchKeyword? text).map (·.before more) := by
  have hfind : (tags.keywordsByLength.findSome? fun e =>
        (afterFolded? e.2 (text ++ more)).map fun rest => (⟨e.1, false, rest⟩ : KeywordMatch)) =
      (tags.keywordsByLength.findSome? fun e =>
        (afterFolded? e.2 text).map fun rest => (⟨e.1, false, rest⟩ : KeywordMatch)).map
          (·.before more) := by
    have hword : ∀ e ∈ tags.keywordsByLength, afterFolded? e.2 (text ++ more) =
        (afterFolded? e.2 text).map (· ++ more) := by
      intro e he
      rw [mem_keywordsByLength.mp he]
      exact afterFolded?_before (h.keyword e.1) hc more
    generalize tags.keywordsByLength = sorted at hword
    induction sorted with
    | nil => rfl
    | cons e sorted ih =>
      obtain ⟨he, hsorted⟩ := List.forall_mem_cons.mp hword
      rw [List.findSome?_cons, List.findSome?_cons, he]
      cases afterFolded? e.2 text with
      | some rest => rfl
      | none => exact ih hsorted
  unfold matchKeyword?
  dsimp only
  rw [hfind, Text.after?_append_of_mem hc h.shorthand]
  cases tags.keywordsByLength.findSome? fun e =>
      (afterFolded? e.2 text).map fun rest => (⟨e.1, false, rest⟩ : KeywordMatch) with
  | some found => rfl
  | none => cases Text.after? tags.shorthand.toList text <;> rfl

end TagSet

def TagReading.before (more : List Char) : TagReading → TagReading
  | tag t rest => tag t (rest ++ more)
  | other => other

section Sealed

variable {tags : TagSet} {c : Char} {source text : List Char} {offset : Nat}

namespace Tag

theorem open?_before (h : tags.SealedBy c) (hc : c ∈ text) (more : List Char) :
    open? tags (text ++ more) = (open? tags text).map fun p => (p.1, p.2 ++ more) := by
  unfold open?
  rw [Text.after?_append_of_mem hc h.wrappedOpening, Text.after?_append_of_mem hc h.opening]
  cases hw : Text.after? tags.wrappedOpening.toList text with
  | none => cases Text.after? tags.opening.toList text <;> rfl
  | some rest =>
    -- the blanks end before the sealing character
    have hrest : c ∈ rest := by
      rw [Text.after?_eq_some_iff.mp hw] at hc
      exact (List.mem_append.mp hc).resolve_left h.wrappedOpening
    have hdrop : (rest ++ more).dropWhile Text.isBlank =
        rest.dropWhile Text.isBlank ++ more := by
      rw [List.dropWhile_append, if_neg]
      intro hnil
      rw [List.isEmpty_iff, List.dropWhile_eq_nil_iff] at hnil
      exact Bool.false_ne_true (h.blank.symm.trans (hnil c hrest))
    simp only [Option.map_some, hdrop]

theorem mem_of_open? (h : tags.SealedBy c) (hc : c ∈ text) {wrapped : Bool} {rest : List Char}
    (ho : open? tags text = some (wrapped, rest)) : c ∈ rest := by
  unfold open? at ho
  split at ho
  · rename_i left hl
    cases ho
    rw [Text.after?_eq_some_iff.mp hl] at hc
    have hleft := (List.mem_append.mp hc).resolve_left h.wrappedOpening
    rw [← List.takeWhile_append_dropWhile (p := Text.isBlank) (l := left)] at hleft
    refine (List.mem_append.mp hleft).resolve_left fun hb => ?_
    exact Bool.false_ne_true (h.blank.symm.trans (List.mem_takeWhile_imp hb))
  · obtain ⟨left, hl, he⟩ := Option.map_eq_some_iff.mp ho
    cases he
    rw [Text.after?_eq_some_iff.mp hl] at hc
    exact (List.mem_append.mp hc).resolve_left h.opening

/-- A sealed text is read alike where more text follows, unless a tag in it cannot be read. -/
theorem read_before (h : tags.SealedBy c) (hc : c ∈ text) {start : List Char}
    (hs : source = start ++ text) (ho : offset = Text.size start)
    (hf : ∀ f, read tags source text offset ≠ .faulty f) (more : List Char) :
    read tags (source ++ more) (text ++ more) offset =
      (read tags source text offset).before more := by
  have hline : Text.lineAt (source ++ more) offset = Text.lineAt source offset := by
    rw [hs, ho, List.append_assoc, Text.lineAt_size, Text.lineAt_size]
  rw [read_eq] at hf
  rw [read_eq, read_eq]
  rw [open?_before h hc]
  cases hopen : open? tags text with
  | none => rfl
  | some opened =>
    obtain ⟨wrapped, afterOpening⟩ := opened
    simp only [hopen, Option.map_some] at hf ⊢
    rw [TagSet.matchKeyword?_before h (mem_of_open? h hc hopen)]
    cases hfound : tags.matchKeyword? afterOpening with
    | none => rfl
    | some found =>
      have hstart : Text.size (text ++ more) - Text.size (found.rest ++ more) =
          Text.size text - Text.size found.rest := by
        rw [Text.size_append, Text.size_append, Nat.add_sub_add_right]
      have hclosing : (if wrapped then tags.wrappedClosing else tags.closing).toList ≠ [] := by
        cases wrapped with
        | true => exact List.ne_nil_of_mem h.wrappedClosing
        | false => exact List.ne_nil_of_mem h.closing
      simp only [hfound, Option.map_some, TagSet.KeywordMatch.before, readFound] at hf ⊢
      rw [hline, hstart]
      generalize (if wrapped then tags.wrappedClosing else tags.closing) = closing at hf hclosing ⊢
      generalize offset + (Text.size text - Text.size found.rest) = bodyStart at hf ⊢
      have hattributes (tokens : List Token) :
          attributesOf tags ⟨found.kind, found.shorthand, found.rest ++ more⟩ tokens =
            attributesOf tags found tokens := rfl
      cases hb : TagBody.read closing.toList wrapped found.rest bodyStart with
      | closed tokens stop rest =>
        rw [TagBody.read_before hclosing (congrArg TagBody.rest? hb), hb]
        simp only [hb] at hf
        simp only [TagBody.before, hattributes]
        cases ha : attributesOf tags found tokens with
        | ok attributes => rfl
        | error problem =>
          rw [ha] at hf
          exact absurd rfl (hf _)
      | slashed tokens stop rest =>
        rw [TagBody.read_before hclosing (congrArg TagBody.rest? hb), hb]
        simp only [hb] at hf
        simp only [TagBody.before, hattributes]
        cases hk : found.kind.isContainer with
        | true =>
          rw [if_pos hk] at hf
          exact absurd rfl (hf _)
        | false =>
          simp only [hk, Bool.false_eq_true, if_false] at hf ⊢
          cases ha : attributesOf tags found tokens with
          | ok attributes => rfl
          | error problem =>
            rw [ha] at hf
            exact absurd rfl (hf _)
      | stray d stop =>
        simp only [hb] at hf
        exact absurd rfl (hf _)
      | endless =>
        simp only [hb] at hf
        exact absurd rfl (hf _)

theorem mem_of_read (h : tags.SealedBy c) {t : Tag} {rest : List Char}
    (hr : read tags source text offset = .tag t rest) :
    ∃ covered, text = covered ++ rest ∧ c ∈ covered := by
  rw [read_eq] at hr
  split at hr
  · cases hr
  · rename_i wrapped afterOpening ho
    split at hr
    · cases hr
    · rename_i found hfound
      obtain ⟨delimiter, -, rfl⟩ := append_of_open? ho
      obtain ⟨keyword, rfl⟩ := TagSet.append_of_matchKeyword? hfound
      have hclosing : c ∈ (if wrapped then tags.wrappedClosing else tags.closing).toList := by
        cases wrapped with
        | true => exact h.wrappedClosing
        | false => exact h.closing
      unfold readFound at hr
      dsimp only at hr
      generalize (if wrapped then tags.wrappedClosing else tags.closing) = closing at hr hclosing
      generalize offset + (Text.size (delimiter ++ (keyword ++ found.rest)) -
        Text.size found.rest) = bodyStart at hr
      have hrest (left : List Char)
          (hb : (TagBody.read closing.toList wrapped found.rest bodyStart).rest? = some left) :
          ∃ covered, delimiter ++ (keyword ++ found.rest) = covered ++ left ∧ c ∈ covered := by
        obtain ⟨inner, hi⟩ := TagBody.exists_of_rest?_read hb
        refine ⟨delimiter ++ keyword ++ (inner ++ closing.toList), ?_, ?_⟩
        · rw [hi]
          simp only [List.append_assoc]
        · exact List.mem_append_right _ (List.mem_append_right _ hclosing)
      split at hr
      · rename_i tokens stop left hb
        split at hr
        · cases hr
          exact hrest _ (congrArg TagBody.rest? hb)
        · cases hr
      · rename_i tokens stop left hb
        split at hr
        · cases hr
        · split at hr
          · cases hr
            exact hrest _ (congrArg TagBody.rest? hb)
          · cases hr
      · cases hr
      · cases hr

end Tag

end Sealed

end Stencil
