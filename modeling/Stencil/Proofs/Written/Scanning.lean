import Stencil.Proofs.Tag.Extent
import Stencil.Proofs.Written.Spelling

/-! Scanning what spells marks.
A text that holds no opening delimiter is scanned as text, also if it ends in a brace and a tag
follows: three braces open nothing. The main statement is that scanning gives back the marks that
a source spells, each run of text with its content. -/
namespace Stencil

namespace Text

theorem after?_append_eq_none {mark text : List Char} (h : after? mark text = none)
    (more : List Char) : after? (mark ++ more) text = none := by
  cases hm : after? (mark ++ more) text with
  | none => rfl
  | some rest =>
    rw [after?_eq_some_iff, List.append_assoc] at hm
    rw [after?_eq_some_iff.mpr hm] at h
    cases h

end Text

def Silent (source text : List Char) (offset : Nat) : Prop :=
  CommentReading.read {} source text offset = .none ∧ Tag.read {} source text offset = .none

namespace Silent

variable {source text : List Char} {offset : Nat}

theorem of_after? (h : Text.after? ['\x7b', '\x7b'] text = none) : Silent source text offset := by
  have hcomment : Text.after? ({} : TagSet).commentOpening.toList text = none :=
    Text.after?_append_eq_none h ['*']
  have hwrapped : Text.after? ({} : TagSet).wrappedOpening.toList text = none :=
    Text.after?_append_eq_none h ['!', '-', '-']
  have hopening : Text.after? ({} : TagSet).opening.toList text = none := h
  constructor
  · rw [CommentReading.read_eq, hcomment]
  · rw [Tag.read_eq, Tag.open?, hwrapped, hopening]
    rfl

theorem braces : Silent source ('\x7b' :: '\x7b' :: '\x7b' :: text) offset := by
  have hcomment : Text.after? ({} : TagSet).commentOpening.toList
      ('\x7b' :: '\x7b' :: '\x7b' :: text) = none := by
    simp [Text.after?]
  have hwrapped : Text.after? ({} : TagSet).wrappedOpening.toList
      ('\x7b' :: '\x7b' :: '\x7b' :: text) = none := by
    simp [Text.after?]
  have hopening : Text.after? ({} : TagSet).opening.toList
      ('\x7b' :: '\x7b' :: '\x7b' :: text) = some ('\x7b' :: text) := by
    simp [Text.after?]
  constructor
  · rw [CommentReading.read_eq, hcomment]
  · rw [Tag.read_eq, Tag.open?, hwrapped, hopening]
    simp only [Option.map_some, TagSet.matchKeyword?_sign (.inl rfl)]

theorem scanFrom {c : Char} (h : Silent source (c :: text) offset) (run : Nat) :
    Item.scanFrom {} source (c :: text) offset run true =
      Item.scanFrom {} source text (offset + c.utf8Size) run true := by
  rw [Item.scanFrom_eq, if_neg (List.cons_ne_nil _ _), if_pos rfl, h.1]
  simp only
  rw [Item.scanHere_cons, h.2]

end Silent
def Opens (text : List Char) : Prop :=
  text = [] ∨ ∃ c more, text = '\x7b' :: '\x7b' :: c :: more ∧ c.isAlpha = true

theorem scanFrom_text {source content rest : List Char} (hc : ¬ ['\x7b', '\x7b'] <:+: content)
    (ho : Opens rest) (offset run : Nat) :
    Item.scanFrom {} source (content ++ rest) offset run true =
      Item.scanFrom {} source rest (offset + Text.size content) run true := by
  induction content generalizing offset with
  | nil => rfl
  | cons c content ih =>
    have hsilent : Silent source (c :: (content ++ rest)) offset := by
      cases ha : Text.after? ['\x7b', '\x7b'] (c :: (content ++ rest)) with
      | none => exact .of_after? ha
      | some left =>
        have heq := Text.after?_eq_some_iff.mp ha
        simp only [List.cons_append, List.nil_append, List.cons.injEq] at heq
        obtain ⟨rfl, hleft⟩ := heq
        cases content with
        | nil =>
          obtain rfl | ⟨d, more, rfl, _⟩ := ho
          · cases hleft
          · exact .braces
        | cons d content =>
          simp only [List.cons_append, List.cons.injEq] at hleft
          obtain ⟨rfl, _⟩ := hleft
          exact absurd ⟨[], content, rfl⟩ hc
    have hin : ¬ ['\x7b', '\x7b'] <:+: content := fun h => hc (h.trans (List.suffix_cons ..).isInfix)
    rw [List.cons_append, hsilent.scanFrom, ih hin, Text.size_cons, Nat.add_assoc]

theorem scanFrom_tag {kind : TagKind} {attributes : List Attribute} {word written : List Char}
    (hw : word.map Char.toLower = (({} : TagSet).keyword kind).toList.map Char.toLower)
    (hp : ∀ a ∈ attributes, a.Plain) (hs : Attribute.AllSpell attributes written)
    (hr : kind.requiresName = true → attributes ≠ []) (source rest : List Char)
    (offset run : Nat) :
    let stop := offset + Text.size ('\x7b' :: '\x7b' :: word ++ written ++ ['\x7d', '\x7d'])
    Item.scanFrom {} source ('\x7b' :: '\x7b' :: word ++ written ++ '\x7d' :: '\x7d' :: rest)
        offset run true =
      Item.flush run offset
        (.tag ⟨kind, attributes, ⟨offset, stop⟩, Text.lineAt source offset⟩ ::
          Item.scanFrom {} source rest stop stop true) := by
  have hread := Tag.read_spelled hw hp hs hr source rest offset
  obtain ⟨c, left, rfl, hc⟩ := TagSet.exists_letter hw
  have hne : c ≠ '*' := Token.ne_of_isWord (Token.isWord_of_isAlpha hc) (by decide)
  have hcomment : CommentReading.read {} source
      ('\x7b' :: '\x7b' :: (c :: left) ++ written ++ '\x7d' :: '\x7d' :: rest) offset = .none := by
    have : Text.after? ({} : TagSet).commentOpening.toList
        ('\x7b' :: '\x7b' :: (c :: left) ++ written ++ '\x7d' :: '\x7d' :: rest) = none := by
      simp [Text.after?, Ne.symm hne]
    rw [CommentReading.read_eq, this]
  simp only [List.cons_append] at hread hcomment ⊢
  rw [Item.scanFrom_eq, if_neg (List.cons_ne_nil _ _), if_pos rfl, hcomment]
  simp only
  rw [Item.scanHere_cons, hread]
  simp only
  rw [if_pos (by simp only [List.length_append, List.length_cons]; omega)]

namespace Mark

def isText : Mark → Bool
  | text _ => true
  | _ => false

def Plain : Mark → Prop
  | text content => content ≠ [] ∧ ¬ ['\x7b', '\x7b'] <:+: content
  | tag kind attributes => (∀ a ∈ attributes, a.Plain) ∧
      (kind.requiresName = true → attributes ≠ [])

def Apart : List Mark → Prop
  | [] => True
  | m :: rest => (m.isText = true → ∀ other ∈ rest.head?, other.isText = false) ∧ Apart rest

/-- The mark of an item: a text with its content, or a tag with its kind and attributes. -/
def ofItem? (source : List Char) : Item → Option Mark
  | .text span => (Text.slice? source span).map text
  | .tag t => some (tag t.kind t.attributes)
  | .finding _ => none

variable {source text : List Char} {marks : List Mark}

theorem AllSpell.opens (h : AllSpell marks text) (hm : ∀ m ∈ marks.head?, m.isText = false) :
    Opens text := by
  cases h with
  | nil => exact .inl rfl
  | text more => cases hm _ rfl
  | tag hw _ _ =>
    obtain ⟨c, left, rfl, hc⟩ := TagSet.exists_letter hw
    exact .inr ⟨c, _, rfl, hc⟩

def pending (content : List Char) : List (Option Mark) :=
  if content = [] then [] else [some (.text content)]

theorem map_flush {before content after : List Char} {items : List Item}
    (hs : source = before ++ content ++ after) :
    (Item.flush (Text.size before) (Text.size (before ++ content)) items).map (ofItem? source) =
      pending content ++ items.map (ofItem? source) := by
  unfold Item.flush pending
  by_cases hc : content = []
  · subst hc
    simp
  · have hpos := Text.size_pos hc
    rw [if_pos (by rw [Text.size_append]; omega), if_neg hc, List.map_cons, ofItem?, hs,
      Text.slice?_append]
    rfl

/-- Scanning gives back the marks, also after a run of text that is still open. -/
theorem map_scanFrom (h : AllSpell marks text) (hp : ∀ m ∈ marks, m.Plain) (ha : Apart marks)
    (before content : List Char) (hs : source = before ++ content ++ text)
    (hc : content ≠ [] → ∀ m ∈ marks.head?, m.isText = false) :
    (Item.scanFrom {} source text (Text.size (before ++ content)) (Text.size before) true).map
      (ofItem? source) = pending content ++ marks.map some := by
  induction h generalizing before content with
  | nil =>
    rw [Item.scanFrom_eq, if_pos rfl, map_flush hs]
    rfl
  | @text run more rest hmore ih =>
    obtain ⟨hne, hin⟩ := hp _ List.mem_cons_self
    have hopen : content = [] := by
      by_cases hn : content = []
      · exact hn
      · cases hc hn _ rfl
    subst hopen
    have hrest := ha.1 rfl
    rw [scanFrom_text hin (hmore.opens hrest), List.append_nil, ← Text.size_append]
    rw [ih (fun m hm => hp m (List.mem_cons_of_mem _ hm)) ha.2 before run (by simpa using hs)
      fun _ => hrest]
    simp [pending, hne]
  | @tag kind attributes word written more rest hw hspell hmore ih =>
    obtain ⟨hplain, hname⟩ := hp _ List.mem_cons_self
    rw [scanFrom_tag hw hplain hspell hname, map_flush hs, List.map_cons, ← Text.size_append]
    have hrest := ih (fun m hm => hp m (List.mem_cons_of_mem _ hm)) ha.2
      (before ++ content ++ ('\x7b' :: '\x7b' :: word ++ written ++ ['\x7d', '\x7d'])) []
      (by simp [hs]) (fun h => absurd rfl h)
    rw [List.append_nil] at hrest
    rw [hrest]
    rfl

/-- Scanning a source gives back the marks that it spells. -/
theorem map_scan {source : String} (h : AllSpell marks source.toList)
    (hp : ∀ m ∈ marks, m.Plain) (ha : Apart marks) :
    (Item.scan {} source).map (ofItem? source.toList) = marks.map some := by
  have := map_scanFrom h hp ha [] [] rfl (fun h => absurd rfl h)
  simpa [Item.scan_eq, pending] using this

end Mark
end Stencil
