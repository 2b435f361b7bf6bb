import Stencil.Proofs.Item.Counting
import Stencil.Proofs.Written.Draft

/-! Reading what spells a tag.
An attribute is read back as the tokens it was spelled with, whatever a quoted value contains, and
a keyword is read back in any case of its letters, since no keyword begins another one. The main
statement is that a spelled tag is read with the kind and attributes that it spells. -/
namespace Stencil

theorem isAlpha_of_isLower_toLower {c : Char} (h : c.toLower.isLower = true) :
    c.isAlpha = true := by
  unfold Char.toLower at h
  unfold Char.isAlpha
  split at h
  · rename_i hc
    have : c.isUpper = true := decide_eq_true hc
    simp [this]
  · simp [h]

namespace Token

theorem isWord_of_isAlpha {c : Char} (h : c.isAlpha = true) : isWord c = true := by
  simp [isWord, Char.isAlphanum, h]

theorem isBlank_of_isWord {c : Char} (h : isWord c = true) : isBlank c = false := by
  rw [Bool.eq_false_iff]
  intro hb
  simp only [isBlank, Bool.or_eq_true, beq_iff_eq] at hb
  rcases hb with (((rfl | rfl) | rfl) | rfl) | rfl <;> exact absurd h (by decide)

theorem isOperator_of_isWord {c : Char} (h : isWord c = true) : isOperator c = false := by
  rw [Bool.eq_false_iff]
  intro ho
  simp only [isOperator, Bool.or_eq_true, beq_iff_eq] at ho
  rcases ho with ((rfl | rfl) | rfl) | rfl <;> exact absurd h (by decide)

theorem ne_of_isWord {c d : Char} (h : isWord c = true) (hd : isWord d = false) : c ≠ d := by
  rintro rfl
  rw [h] at hd
  cases hd

theorem eq_of_isQuote {c : Char} (h : isQuote c = true) : c = '"' ∨ c = '\'' := by
  simpa [isQuote] using h

end Token

namespace Lexeme

theorem spanUntil_append_of_all {keep : Char → Bool} {halt : List Char → Bool} {a b : List Char}
    (ha : ∀ c ∈ a, keep c = true) (hh : ∀ c ∈ a, ∀ r, halt (c :: r) = false)
    (hb : ∀ c ∈ b.head?, keep c = false) : spanUntil keep halt (a ++ b) = (a, b) := by
  induction a with
  | nil =>
    cases b with
    | nil => rfl
    | cons c r => simp [spanUntil, hb c rfl]
  | cons c a ih =>
    have hc : (keep c && !halt (c :: (a ++ b))) = true := by simp [ha c, hh c]
    rw [List.cons_append, spanUntil, if_pos hc,
      ih (fun d hd => ha d (List.mem_cons_of_mem _ hd))
        (fun d hd => hh d (List.mem_cons_of_mem _ hd))]

variable (halt : List Char → Bool) (more : List Char)

theorem read?_blank {c : Char} (hc : Token.isBlank c = false) :
    read? halt (' ' :: c :: more) = some (⟨some .blank, [' ']⟩, c :: more) := by
  have hspan : spanOf Token.isBlank (c :: more) = ([], c :: more) :=
    spanUntil_append_of_all (a := []) (by simp) (by simp) (by simpa using hc)
  simp [read?, hspan, show Token.isBlank ' ' = true from rfl]

theorem read?_assign {quote : Char} (hq : Token.isQuote quote) :
    read? halt ('=' :: quote :: more) = some (⟨some .assign, ['=']⟩, quote :: more) := by
  rcases Token.eq_of_isQuote hq with rfl | rfl
  · rfl
  · rfl

theorem read?_operator (operator : Operator) :
    read? halt (operator.text.toList ++ ' ' :: more) =
      some (⟨some (.operator operator.text), operator.text.toList⟩, ' ' :: more) := by
  cases operator <;> rfl

theorem read?_word {word : List Char} (hne : word ≠ []) (hw : ∀ c ∈ word, Token.isWord c = true)
    (hh : ∀ c ∈ word, ∀ r, halt (c :: r) = false) (hm : ∀ c ∈ more.head?, Token.isWord c = false) :
    read? halt (word ++ more) = some (⟨some (.word (String.ofList word)), word⟩, more) := by
  cases word with
  | nil => exact absurd rfl hne
  | cons c word =>
    have hc := hw c List.mem_cons_self
    have hspan : spanUntil Token.isWord halt (word ++ more) = (word, more) :=
      spanUntil_append_of_all (fun d hd => hw d (List.mem_cons_of_mem _ hd))
        (fun d hd => hh d (List.mem_cons_of_mem _ hd)) hm
    simp [read?, Token.isBlank_of_isWord hc, Token.isOperator_of_isWord hc, hc, hspan,
      Token.ne_of_isWord hc (d := '/') (by decide)]

theorem read?_quoted {quote : Char} (hq : Token.isQuote quote) {value : List Char}
    (hv : quote ∉ value) (hn : '\n' ∉ value) :
    read? halt (quote :: value ++ quote :: more) =
      some (⟨some (.quoted (String.ofList value)), quote :: value ++ [quote]⟩, more) := by
  have hspan : spanOf (fun c => c != quote && c != '\n') (value ++ quote :: more) =
      (value, quote :: more) := by
    refine spanUntil_append_of_all (fun c hc => ?_) (by simp) (by simp)
    have hcq : c ≠ quote := fun h => hv (h ▸ hc)
    have hcn : c ≠ '\n' := fun h => hn (h ▸ hc)
    simp [hcq, hcn]
  have hread : readQuoted quote (value ++ quote :: more) =
      (⟨some (.quoted (String.ofList value)), quote :: value ++ [quote]⟩, more) := by
    simp [readQuoted, hspan]
  rcases Token.eq_of_isQuote hq with rfl | rfl
  · exact congrArg some hread
  · exact congrArg some hread

end Lexeme

namespace TagBody

theorem read_token {closing covered rest : List Char} {token : Token} {offset : Nat}
    (hc : Text.after? closing (covered ++ rest) = none)
    (hs : afterSlashed? closing (covered ++ rest) = none)
    (hl : Lexeme.read? (Text.begins closing) (covered ++ rest) =
      some (⟨some token, covered⟩, rest)) :
    read closing false (covered ++ rest) offset =
      (read closing false rest (offset + Text.size covered)).push token := by
  rw [read, hc]
  simp only [Bool.false_eq_true, if_false, hs]
  split
  · rename_i h
    rw [hl] at h
    cases h
  · rename_i h
    rw [hl] at h
    cases h
  · rename_i h
    rw [hl] at h
    cases h
    rfl

theorem after?_of_ne {mark text : List Char} {c m : Char} (h : c ≠ m) :
    Text.after? (m :: mark) (c :: text) = none := by
  rw [Text.after?, if_neg (Ne.symm h)]

theorem afterSlashed?_of_ne {closing text : List Char} {c : Char} (h : c ≠ '/') :
    afterSlashed? closing (c :: text) = none := by
  unfold afterSlashed?
  split
  · rename_i he
    cases he
    exact absurd rfl h
  · rfl

def closing : List Char := ['\x7d', '\x7d']

theorem read_lexeme {c : Char} (covered : List Char) {rest : List Char} {token : Token} {offset : Nat}
    (hc : c ≠ '\x7d') (hs : c ≠ '/')
    (hl : Lexeme.read? (Text.begins closing) (c :: covered ++ rest) =
      some (⟨some token, c :: covered⟩, rest)) :
    read closing false (c :: covered ++ rest) offset =
      (read closing false rest (offset + Text.size (c :: covered))).push token :=
  read_token (after?_of_ne hc) (afterSlashed?_of_ne hs) hl

theorem read_closing (rest : List Char) (offset : Nat) :
    read closing false (closing ++ rest) offset = .closed [] (offset + Text.size closing) rest := by
  rw [read, Text.after?_eq_some_iff.mpr rfl]

@[simp] theorem foldr_push_closed (tokens : List Token) (stop : Nat) (rest : List Char) :
    tokens.foldr push (.closed [] stop rest) = .closed tokens stop rest := by
  induction tokens with
  | nil => rfl
  | cons token tokens ih => rw [List.foldr_cons, ih, push]

/-- Where such a rest follows, the tokens of the text are read first. -/
def Reads (follow : List Char → Prop) (text : List Char) (tokens : List Token) : Prop :=
  ∀ rest offset, follow rest → read closing false (text ++ rest) offset =
    tokens.foldr push (read closing false rest (offset + Text.size text))

namespace Reads

variable {follow next : List Char → Prop} {a b : List Char} {tokens others : List Token}

theorem append (h : Reads follow a tokens) (h' : Reads next b others)
    (hf : ∀ rest, next rest → follow (b ++ rest)) : Reads next (a ++ b) (tokens ++ others) := by
  intro rest offset hn
  rw [List.append_assoc, h _ _ (hf rest hn), h' _ _ hn, List.foldr_append, Text.size_append,
    Nat.add_assoc]

theorem blank : Reads (fun rest => ∃ c r, rest = c :: r ∧ Token.isBlank c = false) [' ']
    [.blank] := by
  rintro _ offset ⟨c, r, rfl, hc⟩
  exact read_lexeme [] (by decide) (by decide) (Lexeme.read?_blank _ r hc)

theorem assign : Reads (fun rest => ∃ c r, rest = c :: r ∧ Token.isQuote c = true) ['=']
    [.assign] := by
  rintro _ offset ⟨c, r, rfl, hc⟩
  exact read_lexeme [] (by decide) (by decide) (Lexeme.read?_assign _ r hc)

theorem operator (operator : Operator) :
    Reads (fun rest => ∃ r, rest = ' ' :: r) operator.text.toList [.operator operator.text] := by
  rintro _ offset ⟨r, rfl⟩
  have hl := Lexeme.read?_operator (Text.begins closing) r operator
  cases operator with
  | equal | unequal | less | greater | atMost | atLeast =>
    exact read_lexeme _ (by decide) (by decide) hl

theorem word {word : List Char} (hne : word ≠ []) (hw : ∀ c ∈ word, Token.isWord c = true) :
    Reads (fun rest => ∃ r, rest = '=' :: r) word [.word (String.ofList word)] := by
  rintro _ offset ⟨r, rfl⟩
  have hne' : ∀ c ∈ word, ∀ d, Token.isWord d = false → c ≠ d := fun c hc d hd =>
    Token.ne_of_isWord (hw c hc) hd
  have hl := Lexeme.read?_word (Text.begins closing) ('=' :: r) hne hw
    (fun c hc r => by
      rw [Text.begins, closing, after?_of_ne (hne' c hc '\x7d' (by decide))]
      rfl)
    (by simp [Token.isWord])
  cases word with
  | nil => exact absurd rfl hne
  | cons c word =>
    exact read_lexeme word (hne' c List.mem_cons_self _ (by decide))
      (hne' c List.mem_cons_self _ (by decide)) hl

theorem quoted {quote : Char} (hq : Token.isQuote quote) {value : String}
    (hv : quote ∉ value.toList) (hn : '\n' ∉ value.toList) :
    Reads (fun _ => True) (quote :: value.toList ++ [quote]) [.quoted value] := by
  intro rest offset _
  have hne : quote ≠ '\x7d' ∧ quote ≠ '/' := by
    rcases Token.eq_of_isQuote hq with rfl | rfl
    · decide
    · decide
  have hl := Lexeme.read?_quoted (Text.begins closing) rest hq hv hn
  rw [String.ofList_toList] at hl
  exact read_lexeme (value.toList ++ [quote]) hne.1 hne.2
    (by simpa [List.append_assoc] using hl)

end Reads
end TagBody

namespace Attribute

/-- Attributes with which drafts are written: a key has small letters only, and a value can be
quoted. -/
def Plain : Attribute → Prop
  | named key value => key.toList ≠ [] ∧ (∀ c ∈ key.toList, c.isLower = true) ∧ Quotable value
  | compare operator value => (∃ o : Operator, operator = o.text) ∧ Quotable value
  | bare _ => False

variable {a : Attribute} {attributes : List Attribute} {text : List Char}

theorem lower_ofList {word : List Char} {key : String}
    (h : word.map Char.toLower = key.toList) : lower (String.ofList word) = key := by
  rw [lower, String.toList_ofList, h, String.ofList_toList]

/-- A spelled attribute is read back. -/
theorem exists_reads (hp : a.Plain) (hs : a.Spells text) :
    ∃ tokens, TagBody.Reads (fun _ => True) text (.blank :: tokens) ∧
      ∀ others, parse ((.blank :: tokens ++ others).filter (· != .blank)) =
        (parse (others.filter (· != .blank))).map (a :: ·) := by
  cases hs with
  | @named key value word quote hw hq hv =>
    obtain ⟨hkey, hlower, hn⟩ := hp
    have hne : word ≠ [] := fun h => hkey (by rw [← hw, h]; rfl)
    have hword : ∀ c ∈ word, Token.isWord c = true := by
      intro c hc
      have : c.toLower ∈ key.toList := hw ▸ List.mem_map_of_mem hc
      exact Token.isWord_of_isAlpha (isAlpha_of_isLower_toLower (hlower _ this))
    refine ⟨[.word (String.ofList word), .assign, .quoted value], ?_, fun others => ?_⟩
    · have hread := (TagBody.Reads.blank.append (TagBody.Reads.word hne hword) ?_).append
        (TagBody.Reads.assign.append (TagBody.Reads.quoted hq hv hn.1) ?_) ?_
      · simpa [List.append_assoc] using hread
      · rintro _ ⟨r, rfl⟩
        obtain ⟨c, left, rfl⟩ := List.exists_cons_of_ne_nil hne
        exact ⟨c, _, rfl, Token.isBlank_of_isWord (hword c List.mem_cons_self)⟩
      · intro rest _
        exact ⟨quote, _, rfl, hq⟩
      · intro rest _
        exact ⟨_, rfl⟩
    · simp [parse, value?, lower_ofList hw]
  | @compare operator value quote hq hv =>
    obtain ⟨⟨o, rfl⟩, hn⟩ := hp
    refine ⟨[.operator o.text, .blank, .quoted value], ?_, fun others => ?_⟩
    · have hread := (TagBody.Reads.blank.append (TagBody.Reads.operator o) ?_).append
        (TagBody.Reads.blank.append (TagBody.Reads.quoted hq hv hn.1) ?_) ?_
      · simpa [List.append_assoc] using hread
      · rintro _ ⟨r, rfl⟩
        cases o <;> exact ⟨_, _, rfl, rfl⟩
      · intro rest _
        refine ⟨quote, _, rfl, ?_⟩
        rcases Token.eq_of_isQuote hq with rfl | rfl <;> rfl
      · intro rest _
        exact ⟨_, rfl⟩
    · simp [parse, value?]

theorem exists_reads_all (hp : ∀ a ∈ attributes, a.Plain) (hs : AllSpell attributes text) :
    ∃ tokens, TagBody.Reads (fun _ => True) text tokens ∧
      parse (tokens.filter (· != .blank)) = .ok attributes ∧
      (attributes = [] → tokens = []) ∧ (attributes ≠ [] → tokens.head? = some .blank) := by
  induction hs with
  | nil => exact ⟨[], fun _ _ _ => rfl, rfl, fun _ => rfl, fun h => absurd rfl h⟩
  | @cons a rest text more ha _ ih =>
    obtain ⟨tokens, hread, hparse⟩ := exists_reads (hp a List.mem_cons_self) ha
    obtain ⟨others, hread', hparse', _, _⟩ := ih fun b hb => hp b (List.mem_cons_of_mem _ hb)
    refine ⟨.blank :: tokens ++ others, hread.append hread' fun _ _ => trivial, ?_,
      fun h => absurd h (List.cons_ne_nil _ _), fun _ => rfl⟩
    rw [hparse, hparse']
    rfl

end Attribute
namespace TagSet

/-- Whether two words differ at a place that both of them have. -/
def clash : List Char → List Char → Bool
  | a :: u, b :: v => a.toLower != b.toLower || clash u v
  | _, _ => false

theorem afterFolded?_of_clash {keyword other word rest : List Char}
    (h : word.map Char.toLower = keyword.map Char.toLower) (hc : clash other keyword = true) :
    afterFolded? other (word ++ rest) = none := by
  induction other generalizing keyword word with
  | nil => simp [clash] at hc
  | cons o other ih =>
    cases keyword with
    | nil => simp [clash] at hc
    | cons k keyword =>
      cases word with
      | nil => simp at h
      | cons c word =>
        simp only [List.map_cons, List.cons.injEq] at h
        simp only [clash, Bool.or_eq_true, bne_iff_ne] at hc
        rw [List.cons_append, afterFolded?, h.1]
        by_cases ho : o.toLower = k.toLower
        · rw [if_pos ho]
          exact ih h.2 (hc.resolve_left fun hne => hne ho)
        · rw [if_neg ho]

theorem clash_keyword {kind other : TagKind} (h : other ≠ kind) :
    clash (({} : TagSet).keyword other).toList (({} : TagSet).keyword kind).toList = true := by
  cases kind <;> cases other <;> first | rfl | exact absurd rfl h

theorem matchKeyword?_append {kind : TagKind} {word : List Char}
    (h : word.map Char.toLower = (({} : TagSet).keyword kind).toList.map Char.toLower)
    (rest : List Char) :
    ({} : TagSet).matchKeyword? (word ++ rest) = some ⟨kind, false, rest⟩ := by
  have hfind : (({} : TagSet).keywordsByLength.findSome? fun e =>
      (afterFolded? e.2 (word ++ rest)).map fun rest => (⟨e.1, false, rest⟩ : KeywordMatch)) =
        some ⟨kind, false, rest⟩ := by
    cases hr : ({} : TagSet).keywordsByLength.findSome? fun e =>
      (afterFolded? e.2 (word ++ rest)).map fun rest => (⟨e.1, false, rest⟩ : KeywordMatch) with
    | none =>
      have hmem : (kind, (({} : TagSet).keyword kind).toList) ∈ ({} : TagSet).keywordsByLength :=
        mem_keywordsByLength.mpr rfl
      have := List.findSome?_eq_none_iff.mp hr _ hmem
      simp [afterFolded?_eq_some_iff.mpr ⟨word, rfl, h⟩] at this
    | some m =>
      obtain ⟨⟨other, spelling⟩, hmem, hm⟩ := List.exists_of_findSome?_eq_some hr
      have hs : spelling = (({} : TagSet).keyword other).toList := mem_keywordsByLength.mp hmem
      subst hs
      by_cases ho : other = kind
      · subst ho
        simpa [afterFolded?_eq_some_iff.mpr ⟨word, rfl, h⟩] using hm.symm
      · simp [afterFolded?_of_clash h (clash_keyword ho)] at hm
  rw [matchKeyword?, hfind]

theorem matchKeyword?_sign {c : Char} (hc : c = '\x7b' ∨ c = '*') (text : List Char) :
    ({} : TagSet).matchKeyword? (c :: text) = none := by
  have hfind : (({} : TagSet).keywordsByLength.findSome? fun e =>
      (afterFolded? e.2 (c :: text)).map fun rest => (⟨e.1, false, rest⟩ : KeywordMatch)) =
        none := by
    refine List.findSome?_eq_none_iff.mpr fun ⟨kind, spelling⟩ hmem => ?_
    have hs : spelling = (({} : TagSet).keyword kind).toList := mem_keywordsByLength.mp hmem
    subst hs
    rcases hc with rfl | rfl <;> cases kind <;> rfl
  rw [matchKeyword?, hfind]
  rcases hc with rfl | rfl <;> rfl

theorem exists_letter {kind : TagKind} {word : List Char}
    (h : word.map Char.toLower = (({} : TagSet).keyword kind).toList.map Char.toLower) :
    ∃ c left, word = c :: left ∧ c.isAlpha = true := by
  have hk : ∃ k tail, (({} : TagSet).keyword kind).toList.map Char.toLower = k :: tail ∧
      k.isLower = true := by
    cases kind <;> exact ⟨_, _, rfl, rfl⟩
  obtain ⟨k, tail, hk, hlower⟩ := hk
  rw [hk] at h
  obtain ⟨c, left, rfl, hc, _⟩ := List.map_eq_cons_iff.mp h
  exact ⟨c, left, rfl, isAlpha_of_isLower_toLower (hc ▸ hlower)⟩

end TagSet

namespace Tag

theorem open?_letter {c : Char} (hc : c.isAlpha = true) (text : List Char) :
    open? {} ('\x7b' :: '\x7b' :: c :: text) = some (false, c :: text) := by
  have hne : c ≠ '!' := Token.ne_of_isWord (Token.isWord_of_isAlpha hc) (by decide)
  have hw : Text.after? ({} : TagSet).wrappedOpening.toList ('\x7b' :: '\x7b' :: c :: text) =
      none := by
    simp [Text.after?, Ne.symm hne]
  rw [open?, hw]
  simp [Text.after?]

/-- A spelled tag is read. -/
theorem read_spelled {kind : TagKind} {attributes : List Attribute} {word written : List Char}
    (hw : word.map Char.toLower = (({} : TagSet).keyword kind).toList.map Char.toLower)
    (hp : ∀ a ∈ attributes, a.Plain) (hs : Attribute.AllSpell attributes written)
    (hr : kind.requiresName = true → attributes ≠ []) (source rest : List Char) (offset : Nat) :
    Tag.read {} source ('\x7b' :: '\x7b' :: word ++ written ++ '\x7d' :: '\x7d' :: rest) offset =
      .tag ⟨kind, attributes,
        ⟨offset, offset + Text.size ('\x7b' :: '\x7b' :: word ++ written ++ ['\x7d', '\x7d'])⟩,
        Text.lineAt source offset⟩ rest := by
  obtain ⟨c, left, rfl, hc⟩ := TagSet.exists_letter hw
  obtain ⟨tokens, hread, hparse, hnil, hhead⟩ := Attribute.exists_reads_all hp hs
  generalize htail : '\x7d' :: '\x7d' :: rest = tail
  have hbody : ∀ start, TagBody.read TagBody.closing false (written ++ tail) start =
      .closed tokens (start + Text.size written + Text.size TagBody.closing) rest := by
    intro start
    rw [hread _ _ trivial, ← htail]
    exact (congrArg (tokens.foldr TagBody.push) (TagBody.read_closing rest _)).trans
      (TagBody.foldr_push_closed ..)
  have hblank : lacksBlank ⟨kind, false, written ++ tail⟩ tokens = false := by
    by_cases ha : attributes = []
    · have hn : kind.requiresName = false := by
        rw [Bool.eq_false_iff]
        exact fun h => hr h ha
      simp [lacksBlank, hnil ha, hn]
    · simp [lacksBlank, hhead ha]
  have hattributes : attributesOf {} ⟨kind, false, written ++ tail⟩ tokens = .ok attributes := by
    rw [attributesOf, hblank, hparse]
    rfl
  have htext : '\x7b' :: '\x7b' :: (c :: left) ++ written ++ tail =
      '\x7b' :: '\x7b' :: c :: (left ++ (written ++ tail)) := by simp
  have hmatch := TagSet.matchKeyword?_append hw (written ++ tail)
  rw [List.cons_append] at hmatch
  rw [htext, Tag.read_eq, open?_letter hc]
  simp only [hmatch, readFound, Bool.false_eq_true, if_false]
  rw [show ({} : TagSet).closing.toList = TagBody.closing from rfl, hbody]
  simp only [hattributes, TagReading.tag.injEq, Tag.mk.injEq, Span.mk.injEq, true_and, and_true]
  simp only [Text.size_cons, Text.size_append, List.cons_append, TagBody.closing]
  omega

end Tag
end Stencil
