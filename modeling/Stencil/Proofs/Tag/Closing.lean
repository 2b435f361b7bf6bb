import Stencil.Proofs.Attribute.Grammar
import Stencil.Proofs.Tag.Extent
import Stencil.Proofs.Written.Spelling

/-! Where the body of a tag ends.
Reading looks for the closing delimiter where a lexeme may begin and inside words. The main
statement says that this misses none outside quoted values, and that the tokens are those of the
text before the delimiter, if the delimiter begins with a character that no other lexeme takes in.
-/
namespace Stencil

namespace Lexeme

section Runs

variable {keep : Char → Bool} {halt : List Char → Bool} {text : List Char}

theorem of_mem_spanUntil {before left : List Char} {c : Char}
    (h : (spanUntil keep halt text).1 = before ++ c :: left) :
    keep c = true ∧ halt (c :: left ++ (spanUntil keep halt text).2) = false := by
  induction text generalizing before with
  | nil => cases before <;> cases h
  | cons d text ih =>
    unfold spanUntil at h ⊢
    split at h
    · rename_i hk
      rw [if_pos hk]
      cases before with
      | nil =>
        obtain ⟨rfl, hleft⟩ := List.cons.inj h
        rw [Bool.and_eq_true, Bool.not_eq_true'] at hk
        rw [← hleft, List.cons_append, spanUntil_append]
        exact hk
      | cons e before =>
        obtain ⟨-, h⟩ := List.cons.inj h
        exact ih h
    · cases before <;> cases h

theorem of_spanUntil_eq_cons {c : Char} {left : List Char}
    (h : (spanUntil keep halt text).2 = c :: left) : keep c = false ∨ halt (c :: left) = true := by
  induction text with
  | nil => cases h
  | cons d text ih =>
    unfold spanUntil at h
    split at h
    · exact ih h
    · rename_i hk
      cases h
      simpa [Bool.and_eq_true, imp_iff_not_or] using hk

theorem spanUntil_again {other : List Char} (ho : ∀ c ∈ other.head?,
    c ∈ (spanUntil keep halt text).2.head? ∧ halt (spanUntil keep halt text).2 = false) :
    spanUntil keep (fun _ => false) ((spanUntil keep halt text).1 ++ other) =
      ((spanUntil keep halt text).1, other) := by
  refine spanUntil_append_of_all (fun c hc => ?_) (fun _ _ _ => rfl) fun c hc => ?_
  · obtain ⟨before, left, h⟩ := List.append_of_mem hc
    exact (of_mem_spanUntil h).1
  · obtain ⟨hhead, hhalt⟩ := ho c hc
    obtain ⟨left, hleft⟩ := List.head?_eq_some_iff.mp hhead
    rw [hleft] at hhalt
    exact (of_spanUntil_eq_cons hleft).resolve_right (by simp [hhalt])

end Runs

variable {halt : List Char → Bool} {text covered rest : List Char} {token : Token}

theorem eq_of_readQuoted {quote : Char}
    (h : readQuoted quote text = (⟨some token, covered⟩, rest)) :
    ∃ value, token = .quoted value ∧ covered = quote :: value.toList ++ [quote] ∧
      quote ∉ value.toList ∧ '\n' ∉ value.toList := by
  have hkeep (c : Char) (hc : c ∈ (spanOf (fun c => c != quote && c != '\n') text).1) :
      c ≠ quote ∧ c ≠ '\n' := by
    obtain ⟨before, left, hs⟩ := List.append_of_mem hc
    simpa using (of_mem_spanUntil hs).1
  unfold readQuoted at h
  dsimp only at h
  split at h
  · split at h
    · cases h
      refine ⟨_, rfl, by rw [String.toList_ofList], ?_, ?_⟩
      · rw [String.toList_ofList]
        exact fun hm => (hkeep _ hm).1 rfl
      · rw [String.toList_ofList]
        exact fun hm => (hkeep _ hm).2 rfl
    · cases h
  · cases h

/-- A token is read alike before anything that begins as what followed it, unless a word was cut
short. -/
theorem read?_again {other : List Char} (h : read? halt text = some (⟨some token, covered⟩, rest))
    (ho : ∀ c ∈ other.head?, c ∈ rest.head? ∧ halt rest = false) :
    read? (fun _ => false) (covered ++ other) = some (⟨some token, covered⟩, other) := by
  have hspan {keep : Char → Bool} {text : List Char} (hr : (spanOf keep text).2 = rest) :
      spanOf keep ((spanOf keep text).1 ++ other) = ((spanOf keep text).1, other) :=
    spanUntil_again fun c hc => ⟨hr ▸ (ho c hc).1, rfl⟩
  cases text with
  | nil => cases h
  | cons c text =>
    simp only [read?, Option.some.injEq] at h
    split at h
    · rename_i hb
      cases h
      simp [read?, hb, hspan rfl]
    · rename_i hb
      split at h
      · rename_i hop
        cases h
        simp [read?, hb, hop, hspan rfl]
      · rename_i hop
        split at h
        · rename_i hs
          subst hs
          cases h
          rfl
        · rename_i hs
          split at h
          · rename_i hw
            cases h
            simp [read?, hb, hop, hs, hw, spanUntil_again ho]
          · rename_i hw
            split at h
            · rename_i hq
              obtain ⟨value, rfl, rfl, hv, hn⟩ := eq_of_readQuoted h
              have hread := read?_quoted (fun _ => false) other hq hv hn
              simpa using hread
            · cases h

/-- What a token covers beyond its first character: no place where a word is cut, and nothing but
blanks in a blank token, operator characters in an operator, and a value with its quotes. -/
theorem of_mem_covered {before left : List Char} {c : Char}
    (h : read? halt text = some (⟨some token, covered⟩, rest)) (hc : covered = before ++ c :: left)
    (hb : before ≠ []) :
    Token.isBlank c = true ∨ Token.isOperator c = true ∨ halt (c :: left ++ rest) = false ∨
      ∃ quote value, Token.isQuote quote = true ∧ token = .quoted value ∧
        covered = quote :: value.toList ++ [quote] := by
  obtain ⟨first, before, rfl⟩ := List.exists_cons_of_ne_nil hb
  cases text with
  | nil => cases h
  | cons d text =>
    simp only [read?, Option.some.injEq] at h
    split at h
    · cases h
      exact .inl (of_mem_spanUntil (List.cons.inj hc).2).1
    · split at h
      · cases h
        exact .inr (.inl (of_mem_spanUntil (List.cons.inj hc).2).1)
      · split at h
        · cases h
          cases before <;> cases (List.cons.inj hc).2
        · split at h
          · cases h
            exact .inr (.inr (.inl (of_mem_spanUntil (List.cons.inj hc).2).2))
          · split at h
            · rename_i hq
              obtain ⟨value, ht, hv, -⟩ := eq_of_readQuoted h
              exact .inr (.inr (.inr ⟨d, value, hq, ht, hv⟩))
            · cases h

def chars (lexemes : List Lexeme) : List Char := (lexemes.map Lexeme.text).flatten

@[simp] theorem chars_nil : chars [] = [] := rfl

@[simp] theorem chars_cons (l : Lexeme) (lexemes : List Lexeme) :
    chars (l :: lexemes) = l.text ++ chars lexemes := rfl

/-- Whether the place behind these characters is before a character of a quoted value. -/
def Hides (lexemes : List Lexeme) (place : List Char) (value : String) : Prop :=
  ∃ before quote u v after,
    lexemes = before ++ ⟨some (.quoted value), quote :: value.toList ++ [quote]⟩ :: after ∧
      value.toList = u ++ v ∧ v ≠ [] ∧ place = chars before ++ quote :: u

theorem Hides.ne_nil {lexemes : List Lexeme} {place : List Char} {value : String}
    (h : Hides lexemes place value) : place ≠ [] := by
  obtain ⟨before, quote, u, v, after, -, -, -, rfl⟩ := h
  simp

theorem Hides.cons {lexemes : List Lexeme} {place : List Char} {value : String}
    (h : Hides lexemes place value) (l : Lexeme) :
    Hides (l :: lexemes) (l.text ++ place) value := by
  obtain ⟨before, quote, u, v, after, rfl, hv, hne, rfl⟩ := h
  exact ⟨l :: before, quote, u, v, after, rfl, hv, hne, by simp⟩

/-- Each mark that begins among the first `n` characters of the text begins in a quoted value. -/
def Guards (mark text : List Char) (n : Nat) (lexemes : List Lexeme) : Prop :=
  ∀ place left, text = place ++ mark ++ left → place.length < n →
    ∃ value, Hides lexemes place value

/-- Whether no lexeme but a quoted value takes in the mark's first character behind its own. -/
def Stands (mark : List Char) : Prop :=
  ∀ c ∈ mark.head?, Token.isQuote c = false ∧ Token.isBlank c = false ∧ Token.isOperator c = false

namespace Guards

variable {mark : List Char} {n : Nat} {lexemes : List Lexeme}

theorem zero : Guards mark text 0 lexemes := fun _ _ _ h => absurd h (Nat.not_lt_zero _)

theorem not_begins (h : Guards mark rest n lexemes) (hn : 0 < n) :
    Text.begins mark rest = false := by
  cases ha : Text.after? mark rest with
  | none => rw [Text.begins, ha, Option.isSome_none]
  | some left =>
    obtain ⟨value, hv⟩ := h [] left (Text.after?_eq_some_iff.mp ha) hn
    exact absurd rfl hv.ne_nil

theorem cons (hm : Stands mark) (hnone : Text.after? mark text = none)
    (h : read? (Text.begins mark) text = some (⟨some token, covered⟩, rest))
    (hg : Guards mark rest n lexemes) :
    Guards mark text (covered.length + n) (⟨some token, covered⟩ :: lexemes) := by
  intro place left ht hlt
  have happend : covered ++ rest = place ++ (mark ++ left) := by
    rw [← List.append_assoc, ← ht]
    exact append_of_read? h
  rcases List.append_eq_append_iff.mp happend with ⟨more, rfl, hrest⟩ | ⟨inner, hinner, hrest⟩
  · -- the mark begins behind the token
    rw [List.length_append] at hlt
    obtain ⟨value, hv⟩ := hg more left (by rw [hrest, List.append_assoc]) (by omega)
    exact ⟨value, hv.cons ⟨some token, covered⟩⟩
  · cases inner with
    | nil =>
      rw [List.append_nil] at hinner
      subst hinner
      obtain ⟨value, hv⟩ := hg [] left hrest.symm (by simpa using hlt)
      exact absurd rfl hv.ne_nil
    | cons c inner =>
      -- it begins inside the token, and not at its beginning
      have hne : mark ≠ [] := by
        rintro rfl
        cases hnone
      obtain ⟨d, tail, rfl⟩ := List.exists_cons_of_ne_nil hne
      obtain ⟨rfl, -⟩ := List.cons.inj hrest
      obtain ⟨hquote, hblank, hoperator⟩ := hm d rfl
      have hplace : place ≠ [] := by
        rintro rfl
        have hat : Text.after? (d :: tail) text = some left := Text.after?_eq_some_iff.mpr ht
        rw [hat] at hnone
        cases hnone
      rcases of_mem_covered h hinner hplace with hb | ho | hh | ⟨quote, value, hq, rfl, rfl⟩
      · rw [hblank] at hb
        cases hb
      · rw [hoperator] at ho
        cases ho
      · have hat : Text.after? (d :: tail) (d :: inner ++ rest) = some left :=
          Text.after?_eq_some_iff.mpr hrest.symm
        rw [Text.begins, hat] at hh
        cases hh
      · obtain ⟨first, u, rfl⟩ := List.exists_cons_of_ne_nil hplace
        obtain ⟨rfl, hvalue⟩ := List.cons.inj hinner
        -- the last character is a quote, with which no mark begins
        rcases List.eq_nil_or_concat inner with rfl | ⟨v, last, rfl⟩
        · obtain ⟨-, hlast⟩ := List.append_inj' hvalue rfl
          cases hlast
          rw [hq] at hquote
          cases hquote
        · have hsplit : value.toList ++ [quote] = (u ++ d :: v) ++ [last] := by
            simpa using hvalue
          exact ⟨value, [], quote, u, d :: v, lexemes, rfl, (List.append_inj' hsplit rfl).1,
            List.cons_ne_nil _ _, rfl⟩

end Guards

@[simp] theorem all_nil : all [] = [] := by
  rw [all]
  rfl

theorem all_append {l : Lexeme} (h : read? (fun _ => false) text = some (l, rest)) :
    all text = l :: all rest := by
  rw [all]
  split
  · rename_i hn
    rw [hn] at h
    cases h
  · rename_i hs
    rw [hs] at h
    cases h
    rfl

theorem all_covered {mark body tail : List Char} {n : Nat}
    (h : read? (Text.begins mark) text = some (⟨some token, covered⟩, rest))
    (hr : rest = body ++ tail) (hg : Guards mark rest n (all body)) (hn : body.length ≤ n) :
    all (covered ++ body) = ⟨some token, covered⟩ :: all body := by
  refine all_append (read?_again h fun c hc => ?_)
  obtain ⟨left, rfl⟩ := List.head?_eq_some_iff.mp hc
  exact ⟨hr ▸ rfl, hg.not_begins (Nat.lt_of_lt_of_le (Nat.zero_lt_succ _) hn)⟩

end Lexeme

namespace TagBody

open Lexeme (Guards Stands)

/-- How the text of a body is cut: what stands before the slash and the closing delimiter has these
tokens, and no delimiter begins earlier, but in a quoted value. -/
def Cuts (closing text : List Char) (tokens : List Token) (slash rest : List Char) : Prop :=
  ∃ body, text = body ++ (slash ++ closing ++ rest) ∧
    (Lexeme.all body).map Lexeme.token = tokens.map some ∧
    Guards closing text (body.length + slash.length) (Lexeme.all body)

/-- What has been found out about the text when a body has been read. -/
def Settles (closing : List Char) (wrapped : Bool) (text : List Char) : TagBody → Prop
  | closed tokens _ rest => Cuts closing text tokens [] rest
  | slashed tokens _ rest => wrapped = false ∧ Cuts closing text tokens ['/'] rest
  | stray _ _ => True
  | endless => Guards closing text text.length (Lexeme.all text)

section Reading

variable {closing text covered rest : List Char} {token : Token}

theorem Cuts.cons {tokens : List Token} {slash left : List Char} (hm : Stands closing)
    (hnone : Text.after? closing text = none)
    (hr : Lexeme.read? (Text.begins closing) text = some (⟨some token, covered⟩, rest))
    (h : Cuts closing rest tokens slash left) : Cuts closing text (token :: tokens) slash left := by
  obtain ⟨body, rfl, htokens, hg⟩ := h
  have hall := Lexeme.all_covered hr rfl hg (Nat.le_add_right ..)
  refine ⟨covered ++ body, ?_, ?_, ?_⟩
  · rw [List.append_assoc]
    exact (Lexeme.append_of_read? hr).symm
  · rw [hall, List.map_cons, htokens, List.map_cons]
  · rw [hall, List.length_append, Nat.add_assoc]
    exact hg.cons hm hnone hr

theorem Settles.push {wrapped : Bool} {b : TagBody} (hm : Stands closing)
    (hnone : Text.after? closing text = none)
    (hr : Lexeme.read? (Text.begins closing) text = some (⟨some token, covered⟩, rest))
    (h : b.Settles closing wrapped rest) : (b.push token).Settles closing wrapped text := by
  cases b with
  | closed tokens stop left => exact Cuts.cons hm hnone hr h
  | slashed tokens stop left => exact ⟨h.1, h.2.cons hm hnone hr⟩
  | stray c stop => trivial
  | endless =>
    have hall := Lexeme.all_covered hr (List.append_nil rest).symm h (Nat.le_refl _)
    have hcons := Guards.cons hm hnone hr h
    rw [← hall, ← List.length_append, Lexeme.append_of_read? hr] at hcons
    exact hcons

theorem settles_read (hm : Stands closing) (wrapped : Bool) (text : List Char) (offset : Nat) :
    (read closing wrapped text offset).Settles closing wrapped text := by
  fun_induction read closing wrapped text offset with
  | case1 text offset rest hr =>
    exact ⟨[], by simpa using Text.after?_eq_some_iff.mp hr, by simp,
      by simpa using Guards.zero⟩
  | case2 text offset hnone rest hr =>
    split at hr
    · cases hr
    · rename_i hw
      unfold afterSlashed? at hr
      split at hr
      · rename_i left
        refine ⟨by simpa using hw, [], congrArg _ (Text.after?_eq_some_iff.mp hr), by simp, ?_⟩
        intro place more ht hlt
        obtain rfl : place = [] := List.length_eq_zero_iff.mp (by simpa using hlt)
        have hat : Text.after? closing ('/' :: left) = some more := Text.after?_eq_some_iff.mpr ht
        rw [hat] at hnone
        cases hnone
      · cases hr
  | case3 text offset _ _ hr =>
    cases text with
    | nil => exact Guards.zero
    | cons c text => cases hr
  | case4 => trivial
  | case5 text offset hnone _ token covered rest hr _ ih => exact ih.push hm hnone hr

end Reading

end TagBody

namespace Attribute

def value : Attribute → String
  | named _ value | compare _ value | bare value => value

theorem Phrase.value_meaning {p : Phrase} {text : String} (h : .quoted text ∈ p.tokens) :
    p.meaning.value = text := by
  have hvalue (v : Value) (hv : .quoted text = v.token) : v.text = text := by
    cases v with
    | word word => cases hv
    | quoted other =>
      cases hv
      rfl
  cases p with
  | named key v => exact hvalue v (by simpa [tokens] using h)
  | compare operator v => exact hvalue v (by simpa [tokens] using h)
  | bare v => exact hvalue v (by simpa [tokens] using h)

theorem exists_of_quoted {ts : List Token} {attributes : List Attribute} {text : String}
    (h : parse ts = .ok attributes) (hq : .quoted text ∈ ts) :
    ∃ a ∈ attributes, a.value = text := by
  obtain ⟨tree, rfl, rfl⟩ := parse_eq_ok_iff.mp h
  obtain ⟨p, hp, hm⟩ := List.mem_flatMap.mp hq
  exact ⟨p.meaning, List.mem_map_of_mem hp, Phrase.value_meaning hm⟩

end Attribute

namespace Tag

def closing (tags : TagSet) (wrapped : Bool) : List Char :=
  (if wrapped then tags.wrappedClosing else tags.closing).toList

section Opened

variable {tags : TagSet} {source text afterOpening rest : List Char} {offset : Nat}
  {wrapped : Bool} {found : TagSet.KeywordMatch}

theorem parse_of_attributesOf {tokens : List Token} {attributes : List Attribute}
    (h : attributesOf tags found tokens = .ok attributes) :
    Attribute.parse (tokens.filter (· != .blank)) = .ok attributes := by
  unfold attributesOf at h
  split at h
  · cases h
  · split at h
    · rename_i hp
      cases h
      exact hp
    · cases h

theorem exists_body (ho : open? tags text = some (wrapped, afterOpening))
    (hk : tags.matchKeyword? afterOpening = some found) {t : Tag}
    (h : read tags source text offset = .tag t rest) :
    ∃ start tokens stop, attributesOf tags found tokens = .ok t.attributes ∧
      (TagBody.read (closing tags wrapped) wrapped found.rest start = .closed tokens stop rest ∨
        found.kind.isContainer = false ∧
          TagBody.read (closing tags wrapped) wrapped found.rest start =
            .slashed tokens stop rest) := by
  simp only [read_eq, readFound, ho, hk] at h
  refine ⟨offset + (Text.size text - Text.size found.rest), ?_⟩
  split at h
  · rename_i tokens stop left hb
    split at h
    · rename_i attributes ha
      cases h
      exact ⟨tokens, stop, ha, .inl hb⟩
    · cases h
  · rename_i tokens stop left hb
    split at h
    · cases h
    · rename_i hc
      split at h
      · rename_i attributes ha
        cases h
        exact ⟨tokens, stop, ha, .inr ⟨by simpa using hc, hb⟩⟩
      · cases h
  · cases h
  · cases h

theorem endless_of_read (ho : open? tags text = some (wrapped, afterOpening))
    (hk : tags.matchKeyword? afterOpening = some found) {f : Finding} {spelling mark : String}
    (h : read tags source text offset = .faulty f)
    (hp : f.problem = .unterminatedTag spelling mark) :
    ∃ start, TagBody.read (closing tags wrapped) wrapped found.rest start = .endless := by
  have hattributes {tokens : List Token} {problem : Problem}
      (ha : attributesOf tags found tokens = .error problem) :
      problem ≠ .unterminatedTag spelling mark := by
    unfold attributesOf at ha
    split at ha
    · cases ha
      nofun
    · split at ha
      · cases ha
      · cases ha
        nofun
  simp only [read_eq, readFound, ho, hk] at h
  refine ⟨offset + (Text.size text - Text.size found.rest), ?_⟩
  split at h
  · split at h
    · cases h
    · rename_i problem ha
      cases h
      exact absurd hp (hattributes ha)
  · split at h
    · cases h
      cases hp
    · split at h
      · cases h
      · rename_i problem ha
        cases h
        exact absurd hp (hattributes ha)
  · cases h
    cases hp
  · rename_i hb
    exact hb

end Opened

end Tag

/-- No closing delimiter is missed. Let a tag open and its keyword be found, and let its closing
delimiter begin with no quote, blank or operator character. If the tag is read, the delimiter
stands right before its end, behind a slash or not, the tokens of its attributes are the lexemes of
the text between the keyword and there, and no delimiter begins in this text but in a quoted value
of an attribute. If it is not terminated, no delimiter follows the keyword but in quoted values. -/
theorem closing_is_found (tags : TagSet) (source text : List Char) (offset : Nat)
    {wrapped : Bool} {afterOpening : List Char} {found : TagSet.KeywordMatch}
    (ho : Tag.open? tags text = some (wrapped, afterOpening))
    (hk : tags.matchKeyword? afterOpening = some found)
    (hm : Lexeme.Stands (Tag.closing tags wrapped)) :
    (∀ t rest, Tag.read tags source text offset = .tag t rest →
      ∃ (opened body slash : List Char) (tokens : List Token), text = opened ++ found.rest ∧
        found.rest = body ++ (slash ++ Tag.closing tags wrapped ++ rest) ∧
        (slash = [] ∨ slash = ['/'] ∧ wrapped = false ∧ found.kind.isContainer = false) ∧
        t.span = ⟨offset, offset +
          Text.size (opened ++ (body ++ (slash ++ Tag.closing tags wrapped)))⟩ ∧
        (Lexeme.all body).map Lexeme.token = tokens.map some ∧
        Attribute.parse (tokens.filter (· != .blank)) = .ok t.attributes ∧
        ∀ place left, found.rest = place ++ Tag.closing tags wrapped ++ left →
          place.length < body.length + slash.length →
          ∃ a ∈ t.attributes, Lexeme.Hides (Lexeme.all body) place a.value) ∧
    ∀ f spelling mark, Tag.read tags source text offset = .faulty f →
      f.problem = .unterminatedTag spelling mark →
      ∀ place left, found.rest = place ++ Tag.closing tags wrapped ++ left →
        ∃ value, Lexeme.Hides (Lexeme.all found.rest) place value := by
  refine ⟨fun t rest h => ?_, fun f spelling mark h hp place left hplace => ?_⟩
  · obtain ⟨start, tokens, stop, ha, hb⟩ := Tag.exists_body ho hk h
    have hsettles := TagBody.settles_read hm wrapped found.rest start
    obtain ⟨slash, hslash, body, hrest, htokens, hg⟩ : ∃ slash,
        (slash = [] ∨ slash = ['/'] ∧ wrapped = false ∧ found.kind.isContainer = false) ∧
          TagBody.Cuts (Tag.closing tags wrapped) found.rest tokens slash rest := by
      rcases hb with hb | ⟨hc, hb⟩
      · rw [hb] at hsettles
        exact ⟨[], .inl rfl, hsettles⟩
      · rw [hb] at hsettles
        exact ⟨['/'], .inr ⟨rfl, hsettles.1, hc⟩, hsettles.2⟩
    obtain ⟨delimiter, -, htext⟩ := Tag.append_of_open? ho
    obtain ⟨keyword, hkeyword⟩ := TagSet.append_of_matchKeyword? hk
    have hopened : text = delimiter ++ keyword ++ found.rest := by
      rw [htext, hkeyword, List.append_assoc]
    have hextends : (Tag.read tags source text offset).Extends tags text offset :=
      Tag.extends_read ..
    rw [h] at hextends
    obtain ⟨covered, -, hcovered, hspan⟩ := hextends
    have hparse := Tag.parse_of_attributesOf ha
    refine ⟨delimiter ++ keyword, body, slash, tokens, hopened, hrest, hslash, ?_, htokens, hparse,
      fun place left hplace hlt => ?_⟩
    · have heq : covered ++ rest =
          delimiter ++ keyword ++ (body ++ (slash ++ Tag.closing tags wrapped)) ++ rest := by
        rw [← hcovered, hopened, hrest]
        simp only [List.append_assoc]
      rw [hspan, List.append_cancel_right heq]
    · obtain ⟨value, hv⟩ := hg place left hplace hlt
      have hquoted : .quoted value ∈ tokens := by
        obtain ⟨before, quote, _, _, after, hall, -⟩ := hv
        rw [hall, List.map_append, List.map_cons] at htokens
        have hmem : some (.quoted value) ∈ tokens.map some := by
          rw [← htokens]
          exact List.mem_append_right _ List.mem_cons_self
        simpa using hmem
      obtain ⟨a, hm, rfl⟩ := Attribute.exists_of_quoted hparse
        (List.mem_filter.mpr ⟨hquoted, by simp⟩)
      exact ⟨a, hm, hv⟩
  · obtain ⟨start, hb⟩ := Tag.endless_of_read ho hk h hp
    have hsettles := TagBody.settles_read hm wrapped found.rest start
    rw [hb] at hsettles
    refine hsettles place left hplace ?_
    have hne : Tag.closing tags wrapped ≠ [] := by
      intro hnil
      have hat : Text.after? [] found.rest = some found.rest := rfl
      rw [hnil, TagBody.read, hat] at hb
      cases hb
    have := List.length_pos_iff.mpr hne
    rw [hplace, List.length_append, List.length_append]
    omega

/-- A tag that ends inside a word, with its closing delimiter in a quoted value before. -/
def dashedTag : List Char := "\x7b\x7b!-- VAR name='--\x7d\x7d' default=x--\x7d\x7dy".toList

theorem closing_is_found_dashed :
    let found : TagSet.KeywordMatch := ⟨.var, false, dashedTag.drop 9⟩
    Tag.open? {} dashedTag = some (true, dashedTag.drop 6) ∧
    ({} : TagSet).matchKeyword? (dashedTag.drop 6) = some found ∧
    Lexeme.Stands (Tag.closing {} true) ∧
    ∃ t, Tag.read {} dashedTag dashedTag 0 = .tag t ['y'] ∧
      t.attributes = [.named "name" "--\x7d\x7d", .named "default" "x"] ∧
      ∃ opened body slash : List Char, dashedTag = opened ++ found.rest ∧
        found.rest = body ++ (slash ++ Tag.closing {} true ++ ['y']) ∧
        ∀ place left, found.rest = place ++ Tag.closing {} true ++ left →
          place.length < body.length + slash.length →
          ∃ a ∈ t.attributes, Lexeme.Hides (Lexeme.all body) place a.value := by
  intro found
  have ho : Tag.open? {} dashedTag = some (true, dashedTag.drop 6) := by decide +kernel
  have hk : ({} : TagSet).matchKeyword? (dashedTag.drop 6) = some found := by decide +kernel
  have hm : Lexeme.Stands (Tag.closing {} true) := by
    rintro c ⟨⟩
    decide
  refine ⟨ho, hk, hm, ⟨.var, [.named "name" "--\x7d\x7d", .named "default" "x"], ⟨0, 35⟩, 1⟩,
    by decide +kernel, rfl, ?_⟩
  obtain ⟨opened, body, slash, _, hopened, hrest, -, -, -, -, hplaces⟩ :=
    (closing_is_found {} dashedTag dashedTag 0 ho hk hm).1
      ⟨.var, [.named "name" "--\x7d\x7d", .named "default" "x"], ⟨0, 35⟩, 1⟩ ['y']
      (by decide +kernel)
  exact ⟨opened, body, slash, hopened, hrest, hplaces⟩

end Stencil
