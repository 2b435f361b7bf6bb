import Mathlib.Data.List.Basic
import Stencil.TagSet

/-! Which keyword a text begins with.
Keywords may be prefixes of each other, or the same, and have letters of any width. The main
statement says that the one with the most bytes is found, of several the one that is listed first,
and that the shorthand only counts where no keyword does. -/
namespace Stencil

namespace Text

theorem utf8Size_toLower (c : Char) : c.toLower.utf8Size = c.utf8Size := by
  unfold Char.toLower
  split
  · rename_i h
    have hle : c.val.toNat ≤ 90 := h.2
    have hlower : (c.val + ('a'.val - 'A'.val)).toNat ≤ 127 := by
      rw [UInt32.toNat_add]
      have hshift : ('a'.val - 'A'.val).toNat = 32 := rfl
      omega
    rw [Char.utf8Size_eq_one_iff.mpr hlower,
      Char.utf8Size_eq_one_iff.mpr (Nat.le_trans hle (by decide))]
  · rfl

theorem size_map_toLower (text : List Char) : size (text.map Char.toLower) = size text := by
  induction text with
  | nil => rfl
  | cons c text ih => rw [List.map_cons, size_cons, size_cons, ih, utf8Size_toLower]

theorem size_of_map_toLower {a b : List Char} (h : a.map Char.toLower = b.map Char.toLower) :
    size a = size b := by
  rw [← size_map_toLower a, h, size_map_toLower]

end Text

def TagKind.rank (kind : TagKind) : Nat := TagKind.all.idxOf kind

theorem TagKind.rank_injective {kind other : TagKind} (h : kind.rank = other.rank) :
    kind = other := by
  revert h
  cases kind <;> cases other <;> decide

namespace TagSet

def width (t : TagSet) (kind : TagKind) : Nat := Text.size (t.keyword kind).toList

/-- The text begins with the keyword of the kind, up to the case of ASCII letters. -/
def Begins (t : TagSet) (text : List Char) (kind : TagKind) : Prop :=
  (t.keyword kind).toList.map Char.toLower <+: text.map Char.toLower

/-- Of the keywords that the text begins with, that of this kind has the most bytes, and the kind
comes before the others with as many. -/
structure IsLongest (t : TagSet) (text : List Char) (kind : TagKind) : Prop where
  begins : t.Begins text kind
  longest : ∀ other, t.Begins text other → t.width other ≤ t.width kind
  first : ∀ other, t.Begins text other → t.width other = t.width kind → kind.rank ≤ other.rank

variable {t : TagSet} {text : List Char} {kind other : TagKind}

theorem begins_iff :
    t.Begins text kind ↔ ∃ rest, afterFolded? (t.keyword kind).toList text = some rest := by
  constructor
  · rintro ⟨more, hmore⟩
    obtain ⟨read, rest, rfl, hread, -⟩ := List.map_eq_append_iff.mp hmore.symm
    exact ⟨rest, afterFolded?_eq_some_iff.mpr ⟨read, rfl, hread⟩⟩
  · rintro ⟨rest, hrest⟩
    obtain ⟨read, rfl, hread⟩ := afterFolded?_eq_some_iff.mp hrest
    exact ⟨rest.map Char.toLower, by rw [← hread, List.map_append]⟩

theorem split?_of_afterFolded? {word rest : List Char} (h : afterFolded? word text = some rest) :
    ∃ read, Text.split? text (Text.size word) = some (read, rest) := by
  obtain ⟨read, rfl, hread⟩ := afterFolded?_eq_some_iff.mp h
  exact ⟨read, by rw [← Text.size_of_map_toLower hread, Text.split?_append]⟩

theorem IsLongest.unique (h : t.IsLongest text kind) (ho : t.IsLongest text other) :
    kind = other := by
  have hwidth : t.width kind = t.width other :=
    Nat.le_antisymm (ho.longest kind h.begins) (h.longest other ho.begins)
  exact TagKind.rank_injective
    (Nat.le_antisymm (h.first other ho.begins hwidth.symm) (ho.first kind h.begins hwidth))

/-! ### The order in which keywords are tried -/

/-- A longer keyword comes first, and of two of one length the one that is listed first. -/
def Precedes (e f : TagKind × List Char) : Prop :=
  Text.size f.2 < Text.size e.2 ∨ Text.size f.2 = Text.size e.2 ∧ e.1.rank < f.1.rank

theorem pairwise_insertLongest {e : TagKind × List Char} {l : List (TagKind × List Char)}
    (h : l.Pairwise Precedes) (hl : ∀ f ∈ l, f.1.rank < e.1.rank) :
    (insertLongest e l).Pairwise Precedes := by
  induction l with
  | nil => exact List.pairwise_singleton _ _
  | cons f r ih =>
    obtain ⟨hf, hr⟩ := List.pairwise_cons.mp h
    unfold insertLongest
    split
    · rename_i hlt
      refine List.pairwise_cons.mpr ⟨fun g hg => .inl ?_, h⟩
      rcases List.mem_cons.mp hg with rfl | hg
      · exact hlt
      · rcases hf g hg with hfg | ⟨hfg, -⟩
        · exact Nat.lt_trans hfg hlt
        · rwa [hfg]
    · rename_i hle
      refine List.pairwise_cons.mpr
        ⟨fun g hg => ?_, ih hr fun g hg => hl g (List.mem_cons_of_mem f hg)⟩
      rcases mem_insertLongest.mp hg with rfl | hg
      · have hrank := hl f List.mem_cons_self
        unfold Precedes
        omega
      · exact hf g hg

theorem pairwise_foldl_insertLongest {entries sorted : List (TagKind × List Char)}
    (hs : sorted.Pairwise Precedes) (he : (entries.map (·.1.rank)).Pairwise (· < ·))
    (hse : ∀ f ∈ sorted, ∀ e ∈ entries, f.1.rank < e.1.rank) :
    (entries.foldl (fun sorted e => insertLongest e sorted) sorted).Pairwise Precedes := by
  induction entries generalizing sorted with
  | nil => exact hs
  | cons e entries ih =>
    obtain ⟨hlater, hentries⟩ := List.pairwise_cons.mp he
    refine ih (pairwise_insertLongest hs fun f hf => hse f hf e List.mem_cons_self) hentries ?_
    intro f hf g hg
    rcases mem_insertLongest.mp hf with rfl | hf
    · exact hlater _ (List.mem_map_of_mem hg)
    · exact hse f hf g (List.mem_cons_of_mem e hg)

theorem pairwise_keywordsByLength (t : TagSet) : t.keywordsByLength.Pairwise Precedes := by
  refine pairwise_foldl_insertLongest List.Pairwise.nil ?_ nofun
  rw [List.map_map]
  show (TagKind.all.map TagKind.rank).Pairwise (· < ·)
  decide

/-! ### What is found -/

theorem isLongest_of_findSome? {m : KeywordMatch}
    (h : (t.keywordsByLength.findSome? fun e =>
      (afterFolded? e.2 text).map fun rest => (⟨e.1, false, rest⟩ : KeywordMatch)) = some m) :
    m.shorthand = false ∧ t.IsLongest text m.kind ∧
      afterFolded? (t.keyword m.kind).toList text = some m.rest := by
  obtain ⟨before, ⟨kind, word⟩, after, hl, he, hbefore⟩ := List.findSome?_eq_some_iff.mp h
  obtain ⟨rest, hrest, rfl⟩ := Option.map_eq_some_iff.mp he
  have hself : (kind, word) ∈ t.keywordsByLength := by simp [hl]
  obtain rfl : word = (t.keyword kind).toList := mem_keywordsByLength.mp hself
  -- every other keyword that begins the text is tried later
  have hlater (other : TagKind) (ho : t.Begins text other) : other = kind ∨
      t.width other < t.width kind ∨ t.width other = t.width kind ∧ kind.rank < other.rank := by
    have hmem : (other, (t.keyword other).toList) ∈ t.keywordsByLength :=
      mem_keywordsByLength.mpr rfl
    rw [hl] at hmem
    rcases List.mem_append.mp hmem with hmem | hmem
    · obtain ⟨more, hmore⟩ := begins_iff.mp ho
      have hnone := hbefore _ hmem
      rw [hmore] at hnone
      cases hnone
    · rcases List.mem_cons.mp hmem with hmem | hmem
      · exact .inl (congrArg Prod.fst hmem)
      · have hsorted := pairwise_keywordsByLength t
        rw [hl] at hsorted
        have hafter := (List.pairwise_append.mp hsorted).2.1
        exact .inr ((List.pairwise_cons.mp hafter).1 _ hmem)
  refine ⟨rfl, ⟨begins_iff.mpr ⟨rest, hrest⟩, fun other ho => ?_, fun other ho hwidth => ?_⟩,
    hrest⟩
  · rcases hlater other ho with rfl | hlt | ⟨heq, -⟩
    · exact Nat.le_refl _
    · exact Nat.le_of_lt hlt
    · exact Nat.le_of_eq heq
  · rcases hlater other ho with rfl | hlt | ⟨-, hrank⟩
    · exact Nat.le_refl _
    · exact absurd hwidth (Nat.ne_of_lt hlt)
    · exact Nat.le_of_lt hrank

/-- All that can be found: the longest keyword, or, where the text begins with none, the shorthand
or nothing. -/
theorem matchKeyword?_cases (t : TagSet) (text : List Char) :
    (∃ kind rest, t.matchKeyword? text = some ⟨kind, false, rest⟩ ∧ t.IsLongest text kind ∧
      afterFolded? (t.keyword kind).toList text = some rest) ∨
    (∀ kind, ¬ t.Begins text kind) ∧
      t.matchKeyword? text = (Text.after? t.shorthand.toList text).map (⟨.var, true, ·⟩) := by
  unfold matchKeyword?
  dsimp only
  split
  · rename_i m hm
    obtain ⟨hshort, hlongest, hrest⟩ := isLongest_of_findSome? hm
    obtain ⟨kind, shorthand, rest⟩ := m
    subst hshort
    exact .inl ⟨kind, rest, rfl, hlongest, hrest⟩
  · rename_i hm
    refine .inr ⟨fun kind hb => ?_, rfl⟩
    obtain ⟨rest, hrest⟩ := begins_iff.mp hb
    have hmem : (kind, (t.keyword kind).toList) ∈ t.keywordsByLength := mem_keywordsByLength.mpr rfl
    have hnone := List.findSome?_eq_none_iff.mp hm _ hmem
    rw [hrest] at hnone
    cases hnone

theorem matchKeyword?_eq_keyword_iff {rest : List Char} :
    t.matchKeyword? text = some ⟨kind, false, rest⟩ ↔
      t.IsLongest text kind ∧ ∃ word, Text.split? text (t.width kind) = some (word, rest) := by
  rcases matchKeyword?_cases t text with ⟨found, left, hm, hlongest, hleft⟩ | ⟨hnone, hm⟩
  · obtain ⟨word, hword⟩ := split?_of_afterFolded? hleft
    rw [hm]
    constructor
    · rintro ⟨⟩
      exact ⟨hlongest, word, hword⟩
    · rintro ⟨hk, other, hother⟩
      obtain rfl := hk.unique hlongest
      obtain ⟨-, rfl⟩ := Prod.mk.inj (Option.some.inj (hword.symm.trans hother))
      rfl
  · rw [hm]
    constructor
    · intro h
      obtain ⟨_, -, hshort⟩ := Option.map_eq_some_iff.mp h
      cases hshort
    · exact fun h => absurd h.1.begins (hnone kind)

theorem matchKeyword?_eq_shorthand_iff {rest : List Char} :
    t.matchKeyword? text = some ⟨kind, true, rest⟩ ↔
      kind = .var ∧ (∀ other, ¬ t.Begins text other) ∧ text = t.shorthand.toList ++ rest := by
  rcases matchKeyword?_cases t text with ⟨found, left, hm, hlongest, -⟩ | ⟨hnone, hm⟩
  · rw [hm]
    exact ⟨nofun, fun h => absurd hlongest.begins (h.2.1 found)⟩
  · rw [hm, Option.map_eq_some_iff]
    constructor
    · rintro ⟨_, hafter, ⟨⟩⟩
      exact ⟨rfl, hnone, Text.after?_eq_some_iff.mp hafter⟩
    · rintro ⟨rfl, -, htext⟩
      exact ⟨rest, Text.after?_eq_some_iff.mpr htext, rfl⟩

theorem matchKeyword?_eq_none_iff :
    t.matchKeyword? text = none ↔
      (∀ kind, ¬ t.Begins text kind) ∧ ¬ t.shorthand.toList <+: text := by
  rcases matchKeyword?_cases t text with ⟨found, left, hm, hlongest, -⟩ | ⟨hnone, hm⟩
  · rw [hm]
    exact ⟨nofun, fun h => absurd hlongest.begins (h.1 found)⟩
  · rw [hm, Option.map_eq_none_iff, Option.eq_none_iff_forall_ne_some]
    constructor
    · intro h
      refine ⟨hnone, ?_⟩
      rintro ⟨rest, hrest⟩
      exact h rest (Text.after?_eq_some_iff.mpr hrest.symm)
    · exact fun h rest hafter => h.2 ⟨rest, (Text.after?_eq_some_iff.mp hafter).symm⟩

theorem IsLongest.of_map_toLower {text' : List Char} (h : t.IsLongest text kind)
    (ht : text'.map Char.toLower = text.map Char.toLower) : t.IsLongest text' kind := by
  have hbegins (other : TagKind) : t.Begins text' other ↔ t.Begins text other := by
    unfold Begins
    rw [ht]
  exact ⟨(hbegins kind).mpr h.begins, fun other ho => h.longest other ((hbegins other).mp ho),
    fun other ho => h.first other ((hbegins other).mp ho)⟩

theorem matchKeyword?_of_map_toLower {word word' rest : List Char}
    (hm : t.matchKeyword? (word ++ rest) = some ⟨kind, false, rest⟩)
    (hcase : word'.map Char.toLower = word.map Char.toLower) :
    t.matchKeyword? (word' ++ rest) = some ⟨kind, false, rest⟩ := by
  obtain ⟨hlongest, taken, htaken⟩ := matchKeyword?_eq_keyword_iff.mp hm
  obtain ⟨left, hleft⟩ := begins_iff.mp hlongest.begins
  obtain ⟨read, hread⟩ := split?_of_afterFolded? hleft
  obtain ⟨-, rfl⟩ := Prod.mk.inj (Option.some.inj (htaken.symm.trans hread))
  -- what is taken is the word, and so the other word is the keyword too
  obtain ⟨spelled, hspelled, hkeyword⟩ := afterFolded?_eq_some_iff.mp hleft
  obtain rfl := List.append_cancel_right hspelled
  have hafter : afterFolded? (t.keyword kind).toList (word' ++ rest) = some rest :=
    afterFolded?_eq_some_iff.mpr ⟨word', rfl, hcase.trans hkeyword⟩
  have htext : (word' ++ rest).map Char.toLower = (word ++ rest).map Char.toLower := by
    rw [List.map_append, List.map_append, hcase]
  exact matchKeyword?_eq_keyword_iff.mpr
    ⟨hlongest.of_map_toLower htext, split?_of_afterFolded? hafter⟩

/-- The longest keyword is found. It is the one with the most bytes among those that the text begins
with, up to the case of ASCII letters, and the one that is listed first among several with as many;
as many bytes of the text are taken, and they are whole characters. Only where the text begins with
no keyword does it matter whether it begins with the shorthand, which stands for a variable; where
it does not either, nothing is found. Changing the case of letters in the characters that are taken
changes nothing. -/
theorem longest_keyword_is_found (t : TagSet) (text : List Char) :
    (∀ kind rest, t.matchKeyword? text = some ⟨kind, false, rest⟩ ↔
      t.IsLongest text kind ∧ ∃ word, Text.split? text (t.width kind) = some (word, rest)) ∧
    (∀ kind rest, t.matchKeyword? text = some ⟨kind, true, rest⟩ ↔
      kind = .var ∧ (∀ other, ¬ t.Begins text other) ∧ text = t.shorthand.toList ++ rest) ∧
    (t.matchKeyword? text = none ↔
      (∀ kind, ¬ t.Begins text kind) ∧ ¬ t.shorthand.toList <+: text) ∧
    ∀ kind word word' rest, text = word ++ rest →
      t.matchKeyword? text = some ⟨kind, false, rest⟩ →
      word'.map Char.toLower = word.map Char.toLower →
      t.matchKeyword? (word' ++ rest) = some ⟨kind, false, rest⟩ := by
  refine ⟨fun _ _ => matchKeyword?_eq_keyword_iff, fun _ _ => matchKeyword?_eq_shorthand_iff,
    matchKeyword?_eq_none_iff, ?_⟩
  rintro kind word word' rest rfl hm hcase
  exact matchKeyword?_of_map_toLower hm hcase

/-- A keyword that goes on longer comes before one that ends sooner, and of two that are the same
the one that is listed first; the shorthand counts where no keyword stands. -/
example :
    let tags := ((({} : TagSet).withKeyword .cond "é").withKeyword .next "éA").withKeyword .loop "éa"
    (tags.matchKeyword? "éAx".toList).map (fun m => (m.kind, m.rest)) = some (.loop, ['x']) ∧
      (tags.matchKeyword? "é=".toList).map (fun m => (m.kind, m.rest)) = some (.cond, ['=']) ∧
      tags.matchKeyword? "=é".toList = some ⟨.var, true, ['é']⟩ := by decide +kernel

end TagSet
end Stencil
