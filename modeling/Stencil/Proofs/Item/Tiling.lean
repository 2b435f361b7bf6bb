import Stencil.Proofs.Item.Leftmost

/-! The units of a source tile it.
Whatever lies between two units is whole comments, and a run of text is as long as it can be. The
main statement is that scanning yields the units of the one leftmost-first decomposition, which
tile the source, and its findings: one for each fault, in the order of their places, and one for
the first endless comment. -/
namespace Stencil

/-- The units tile `text`, which is what is left of the source at `offset`. A run of text may
begin here if `fresh` holds: it does not follow another one immediately. -/
inductive Tiles (tags : TagSet) : Bool → Nat → List Char → List Item → Prop
  | done {fresh : Bool} {offset : Nat} : Tiles tags fresh offset [] []
  | comment {fresh : Bool} {offset : Nat} {comment rest : List Char} {units : List Item} :
    IsComment tags comment rest → Tiles tags true (offset + Text.size comment) rest units →
    Tiles tags fresh offset (comment ++ rest) units
  | tag {fresh : Bool} {offset : Nat} {covered rest : List Char} {t : Tag} {units : List Item} :
    covered ≠ [] → t.span = ⟨offset, offset + Text.size covered⟩ →
    Tiles tags true (offset + Text.size covered) rest units →
    Tiles tags fresh offset (covered ++ rest) (.tag t :: units)
  | text {offset : Nat} {covered rest : List Char} {units : List Item} :
    covered ≠ [] → Tiles tags false (offset + Text.size covered) rest units →
    Tiles tags true offset (covered ++ rest)
      (.text ⟨offset, offset + Text.size covered⟩ :: units)

namespace Item

def span : Item → Span
  | text s => s
  | tag t => t.span
  | finding f => f.span

/-- Whether the item is about characters of `text`, and not about none of them. -/
def Within (offset : Nat) (text : List Char) (item : Item) : Prop :=
  ∃ before covered after, text = before ++ covered ++ after ∧ covered ≠ [] ∧
    item.span = ⟨offset + Text.size before, offset + Text.size (before ++ covered)⟩

variable {offset : Nat} {first rest : List Char} {item : Item}

theorem Within.head (hne : first ≠ []) (hs : item.span = ⟨offset, offset + Text.size first⟩) :
    item.Within offset (first ++ rest) :=
  ⟨[], first, rest, rfl, hne, by simpa using hs⟩

theorem Within.append (h : item.Within (offset + Text.size first) rest) :
    item.Within offset (first ++ rest) := by
  obtain ⟨before, covered, after, rfl, hne, hspan⟩ := h
  refine ⟨first ++ before, covered, after, by simp, hne, ?_⟩
  rw [hspan]
  simp [Nat.add_assoc]

end Item

namespace Tiles

variable {tags : TagSet} {fresh : Bool} {offset : Nat} {text : List Char} {units : List Item}

theorem flush {pending : List Char}
    (h : ∀ fresh, Tiles tags fresh (offset + Text.size pending) text units) :
    Tiles tags true offset (pending ++ text)
      (Item.flush offset (offset + Text.size pending) units) := by
  unfold Item.flush
  by_cases hp : pending = []
  · subst hp
    simpa using h true
  · have hpos := Text.size_pos hp
    rw [if_pos (by omega)]
    exact .text hp (h false)

theorem within (h : Tiles tags fresh offset text units) :
    ∀ unit ∈ units, unit.Within offset text := by
  induction h with
  | done => simp
  | comment _ _ ih => exact fun unit hu => (ih unit hu).append
  | tag hne hspan _ ih =>
    intro unit hu
    rcases List.mem_cons.mp hu with rfl | hu
    · exact .head hne hspan
    · exact (ih unit hu).append
  | text hne _ ih =>
    intro unit hu
    rcases List.mem_cons.mp hu with rfl | hu
    · exact .head hne rfl
    · exact (ih unit hu).append

theorem le_start (h : Tiles tags fresh offset text units) {unit : Item} (hu : unit ∈ units) :
    offset ≤ unit.span.start := by
  obtain ⟨before, _, _, _, _, hspan⟩ := h.within unit hu
  rw [hspan]
  exact Nat.le_add_right ..

theorem pairwise (h : Tiles tags fresh offset text units) :
    units.Pairwise fun unit later => unit.span.stop ≤ later.span.start := by
  induction h with
  | done => exact .nil
  | comment _ _ ih => exact ih
  | tag _ hspan more ih =>
    refine List.pairwise_cons.mpr ⟨fun unit hu => ?_, ih⟩
    rw [Item.span, hspan]
    exact more.le_start hu
  | text _ more ih => exact List.pairwise_cons.mpr ⟨fun unit hu => more.le_start hu, ih⟩

theorem length_le (h : Tiles tags fresh offset text units) : units.length ≤ Text.size text := by
  induction h with
  | done => simp
  | comment _ _ ih =>
    rw [Text.size_append]
    omega
  | tag hne _ _ ih =>
    have := Text.size_pos hne
    rw [Text.size_append, List.length_cons]
    omega
  | text hne _ ih =>
    have := Text.size_pos hne
    rw [Text.size_append, List.length_cons]
    omega

end Tiles

namespace Leftmost

variable {tags : TagSet} {source text : List Char} {offset : Nat} {pieces : List Piece}

/-- The units of a decomposition tile the text, the open run of text before it included. -/
theorem tiles (hv : tags.emptyEntry? = none) (h : Leftmost tags source offset text pieces)
    (run : Nat) (pending : List Char) (ho : offset = run + Text.size pending) :
    Tiles tags true run (pending ++ text) (Piece.units run offset pieces) := by
  induction h generalizing run pending with
  | done =>
    subst ho
    exact Tiles.flush fun _ => .done
  | @comment _ comment rest pieces hc _ ih =>
    subst ho
    exact Tiles.flush fun _ => .comment hc (ih _ [] (by simp))
  | @tag _ text rest t pieces _ hr _ ih =>
    subst ho
    have hcovers := Tag.covers_read hv source text (run + Text.size pending)
    rw [hr] at hcovers
    obtain ⟨covered, hne, rfl, hspan⟩ := hcovers
    have hstop : t.span.stop = run + Text.size pending + Text.size covered := by rw [hspan]
    refine Tiles.flush fun _ => .tag hne hspan ?_
    rw [← hstop]
    exact ih _ [] (by simp)
  | @char _ c rest pieces _ _ _ ih =>
    have := ih run (pending ++ [c]) (by simp [ho, Nat.add_assoc])
    simpa [Piece.units] using this

theorem faults (hv : tags.emptyEntry? = none) (h : Leftmost tags source offset text pieces) :
    (∀ f ∈ pieces.filterMap Piece.fault?, offset ≤ f.span.start) ∧
      (pieces.filterMap Piece.fault?).Pairwise fun f later => f.span.start < later.span.start := by
  induction h with
  | done => simp
  | comment _ _ ih =>
    refine ⟨fun f hf => ?_, ih.2⟩
    have := ih.1 f hf
    omega
  | @tag offset text rest t pieces _ hr _ ih =>
    refine ⟨fun f hf => ?_, ih.2⟩
    have hcovers := Tag.covers_read hv source text offset
    rw [hr] at hcovers
    obtain ⟨covered, _, _, hspan⟩ := hcovers
    have := ih.1 f hf
    rw [hspan] at this
    exact Nat.le_trans (Nat.le_add_right ..) this
  | @char offset c rest pieces _ _ _ ih =>
    have hlater : ∀ f ∈ pieces.filterMap Piece.fault?, offset < f.span.start := by
      intro f hf
      have hpos := c.utf8Size_pos
      have := ih.1 f hf
      omega
    cases hr : Tag.read tags source (c :: rest) offset with
    | faulty g =>
      have hcovers := Tag.covers_read hv source (c :: rest) offset
      rw [hr] at hcovers
      have hg : g.span.start = offset := hcovers.1
      simp only [List.filterMap_cons, Piece.fault?, TagReading.fault?]
      refine ⟨fun f hf => ?_, List.pairwise_cons.mpr ⟨fun f hf => hg ▸ hlater f hf, ih.2⟩⟩
      rcases List.mem_cons.mp hf with rfl | hf
      · exact Nat.le_of_eq hg.symm
      · exact Nat.le_of_lt (hlater f hf)
    | tag t left => exact ⟨fun f hf => Nat.le_of_lt (hlater f hf), ih.2⟩
    | none => exact ⟨fun f hf => Nat.le_of_lt (hlater f hf), ih.2⟩

end Leftmost

/-- Scanning finds the one leftmost-first decomposition of a source: its units, which tile the
source, and its findings. -/
theorem scan_is_leftmost (tags : TagSet) (source : String) (hv : tags.emptyEntry? = none) :
    ∃ pieces, (∀ other, Leftmost tags source.toList 0 source.toList other ↔ other = pieces) ∧
      (Item.scan tags source).filter Item.isUnit = Piece.units 0 0 pieces ∧
      Tiles tags true 0 source.toList ((Item.scan tags source).filter Item.isUnit) ∧
      (∀ unit ∈ (Item.scan tags source).filter Item.isUnit, ∃ before covered after,
        source.toList = before ++ covered ++ after ∧ covered ≠ [] ∧
          unit.span = ⟨Text.size before, Text.size (before ++ covered)⟩) ∧
      ((Item.scan tags source).filter Item.isUnit).Pairwise
        (fun unit later => unit.span.stop ≤ later.span.start) ∧
      ((Item.scan tags source).filter Item.isUnit).length ≤ Text.size source.toList ∧
      ((Item.scan tags source).filterMap Item.finding?).filter (fun f => !f.ofComment) =
        pieces.filterMap Piece.fault? ∧
      (pieces.filterMap Piece.fault?).Pairwise
        (fun f later => f.span.start < later.span.start) ∧
      ((Item.scan tags source).filterMap Item.finding?).filter Finding.ofComment =
        (pieces.findSome? Piece.unclosed?).toList := by
  obtain ⟨pieces, hl, ha⟩ : ∃ pieces, Leftmost tags source.toList 0 source.toList pieces ∧
      Agrees 0 0 true (Item.scan tags source) pieces :=
    exists_leftmost_scanFrom hv source.toList 0 0 true (by simp)
  have htiles : Tiles tags true 0 source.toList ((Item.scan tags source).filter Item.isUnit) := by
    have := hl.tiles hv 0 [] rfl
    rw [← ha.units] at this
    exact this
  refine ⟨pieces, fun other => ⟨fun ho => hl.unique hv ho, fun ho => ho ▸ hl⟩, ha.units, htiles,
    fun unit hu => ?_, htiles.pairwise, htiles.length_le, ha.faults, (hl.faults hv).2, ?_⟩
  · simpa [Item.Within] using htiles.within unit hu
  · simpa using ha.unclosed

/-- A comment and an endless one in a source. -/
theorem scan_is_leftmost_default : TagSet.emptyEntry? {} = none ∧
    ∃ pieces, (∀ other, Leftmost {} "a\x7b\x7b* b *\x7d\x7dc\x7b\x7b*".toList 0
        "a\x7b\x7b* b *\x7d\x7dc\x7b\x7b*".toList other ↔ other = pieces) ∧
      (Item.scan {} "a\x7b\x7b* b *\x7d\x7dc\x7b\x7b*").filter Item.isUnit =
        Piece.units 0 0 pieces := by
  have hv : TagSet.emptyEntry? {} = none := by decide
  obtain ⟨pieces, hl, hu, _⟩ := scan_is_leftmost {} "a\x7b\x7b* b *\x7d\x7dc\x7b\x7b*" hv
  exact ⟨hv, pieces, hl, hu⟩

end Stencil
