import Stencil.Proofs.Item.Counting
import Stencil.Proofs.Render.Meets
import Stencil.Proofs.Sink.Pour
import Stencil.Proofs.Text.Continued

/-! Templates without tags.
Where no opening delimiter occurs nothing is a comment, a tag or a finding, so that all of the text
is one run. The main statement says what a sink that does not fail holds of a text, in terms of its
lines, and that a template without tags is rendered as that text in every scope. -/
namespace Stencil

namespace Text

theorem after?_eq_none {mark text : List Char} (h : ¬ mark <:+: text) :
    after? mark text = none := by
  cases ha : after? mark text with
  | none => rfl
  | some rest => exact absurd ⟨[], rest, (after?_eq_some_iff.mp ha).symm⟩ h

end Text

namespace TagSet

/-- No opening delimiter occurs in the text. -/
structure Absent (tags : TagSet) (text : List Char) : Prop where
  opening : ¬ tags.opening.toList <:+: text
  wrapped : ¬ tags.wrappedOpening.toList <:+: text
  comment : ¬ tags.commentOpening.toList <:+: text

namespace Absent

variable {tags : TagSet} {c : Char} {text : List Char}

theorem tail (h : tags.Absent (c :: text)) : tags.Absent text where
  opening hi := h.opening (hi.trans (List.suffix_cons ..).isInfix)
  wrapped hi := h.wrapped (hi.trans (List.suffix_cons ..).isInfix)
  comment hi := h.comment (hi.trans (List.suffix_cons ..).isInfix)

theorem scanFrom (h : tags.Absent text) (source : List Char) (offset run : Nat) (comments : Bool) :
    Item.scanFrom tags source text offset run comments =
      Item.flush run (offset + Text.size text) [] := by
  induction text generalizing offset with
  | nil => simp [Item.scanFrom_eq]
  | cons c text ih =>
    have hcomment : CommentReading.read tags source (c :: text) offset = .none := by
      rw [CommentReading.read_eq, Text.after?_eq_none h.comment]
    have htag : Tag.read tags source (c :: text) offset = .none := by
      rw [Tag.read_eq, Tag.open?, Text.after?_eq_none h.wrapped, Text.after?_eq_none h.opening]
      rfl
    rw [Item.scanFrom_eq, if_neg (List.cons_ne_nil _ _), hcomment, ite_self]
    simp only
    rw [Item.scanHere_cons, htag]
    simp only
    rw [ih h.tail, Text.size_cons, Nat.add_assoc]

end Absent
end TagSet

namespace Text

theorem flatten_map_joined (text : List Char) :
    ((joined text).map bytes).flatten = bytes (continued text) := by
  rw [← flatten_joined]
  induction joined text with
  | nil => rfl
  | cons piece rest ih => rw [List.map_cons, List.flatten_cons, ih, List.flatten_cons, bytes_append]

end Text

/-- The tree of a template without tags: its text, if it has any. -/
def Node.plain (text : List Char) : List Node :=
  if text = [] then [] else [.text ⟨0, Text.size text⟩]

theorem Template.parse_plain {settings : Settings} {text : String}
    (h : settings.tags.Absent text.toList) (name : String) (path : Option String) (depth : Nat) :
    parse settings name path text depth =
      ⟨name, path, text, Node.plain text.toList, depth, []⟩ := by
  have hscan : Item.scan settings.tags text = Item.flush 0 (Text.size text.toList) [] := by
    rw [Item.scan_eq, h.scanFrom, Nat.zero_add]
  have htree : Tree.ofItems settings depth (Item.scan settings.tags text) =
      (Node.plain text.toList, []) := by
    rw [hscan, Item.flush, Node.plain]
    cases text.toList with
    | nil => simp [Tree.ofItems, Tree.readList]
    | cons c r =>
      have hpos : 0 < Text.size (c :: r) := Nat.add_pos_left c.utf8Size_pos _
      rw [if_pos hpos, if_neg (List.cons_ne_nil _ _)]
      simp [Tree.ofItems, Tree.readList]
  unfold parse
  rw [htree]
  rfl

namespace Render

theorem walkList_plain (enter : Inclusion) {v : Visit} {text : List Char}
    (hv : v.template.source.toList = text) (c : Context) {p : Progress} (hp : p.halted = false)
    (hfits : p.out.Fits (Text.bytes (Text.continued text))) :
    ∃ out, walkList enter v c (Node.plain text) p = .ok .on { p with out } ∧
      out.contents = p.out.contents ++ Text.bytes (Text.continued text) := by
  unfold Node.plain
  split
  · rename_i hnil
    subst hnil
    exact ⟨p.out, rfl, (List.append_nil _).symm⟩
  · have hslice : v.template.text ⟨0, Text.size text⟩ = text := by
      have hcut := Text.slice?_append [] text []
      rw [List.append_nil, List.nil_append, ← hv] at hcut
      rw [Template.text, ← hv]
      exact congrArg (Option.getD · []) hcut
    rw [← Text.flatten_map_joined] at hfits ⊢
    obtain ⟨out, hout⟩ : ∃ out, p.out.writeAll ((Text.joined text).map Text.bytes) = (out, true) :=
      ⟨_, Prod.ext rfl (Sink.writeAll_iff_fits.mpr hfits)⟩
    refine ⟨out, ?_, Sink.contents_writeAll hout⟩
    have hemit : emit { pieces := (Text.joined text).map Text.bytes } p =
        .ok () { p with out := out } := by
      rw [emit, Emission.writeTo, hout]
    rw [walkList_cons _ _ _ _ _ hp, walkNode, hslice, walkList]
    simp only [bind, EStateM.bind, hemit]
    rfl

end Render

theorem Held.renderAfter_plain {settings : Settings} {text : String}
    (h : settings.tags.Absent text.toList) (held : Held) {name : String} {path : Option String}
    {depth : Nat} (ht : held.template = Template.parse settings name path text depth)
    (loads : List (String × Nat)) (loader : Loader) (scope : Scope) {out : Sink} (err : Sink)
    (hfits : out.Fits (Text.bytes (Text.continued text.toList))) :
    ∃ out', held.renderAfter loads settings loader scope out err =
        ⟨.ok (), out', err, held.taken, loads⟩ ∧
      out'.contents = out.contents ++ Text.bytes (Text.continued text.toList) := by
  rw [Template.parse_plain h] at ht
  have hv : held.taken.template.source = text := by rw [Held.taken, ht]
  have hroot : held.taken.template.root = Node.plain text.toList := by rw [Held.taken, ht]
  obtain ⟨out', hwalk, hcontents⟩ := Render.walkList_plain
    (Render.enter settings loader (held.levels settings)) (v := ⟨held.taken.template, []⟩)
    (congrArg String.toList hv) ⟨scope, []⟩ (p := { out, err, store := held.store, loads })
    rfl hfits
  refine ⟨out', ?_, hcontents⟩
  have hstart : held.start settings loader scope { out, err, store := held.store, loads } =
      .ok () { out := out', err, store := held.store, loads } := by
    rw [Held.start, Render.walk_eq, ht]
    simp only [Render.reportAll, pure_bind, hroot]
    simp only [bind, EStateM.bind, hwalk]
    rfl
  rw [Held.renderAfter, hstart]
  rfl

/-- A text is written line by line, and so is a template in which no opening delimiter occurs. A
text has its lines in one way; a sink that takes all of the text holds each line as it is written,
and what has stood in the sink before. -/
theorem plain_text_is_written_by_lines (text : String) :
    let lines := Text.Lines.read text.toList
    (∀ other : Text.Lines, other.Of text.toList ↔ other = lines) ∧
    (∀ sink : Sink,
      (sink.Fits (Text.bytes lines.written) ↔
        (sink.writeAll ((Text.joined text.toList).map Text.bytes)).2 = true) ∧
      ∀ sink', sink.writeAll ((Text.joined text.toList).map Text.bytes) = (sink', true) →
        sink'.contents = sink.contents ++ Text.bytes lines.written) ∧
    ∀ (settings : Settings) (loader : Loader) (scope : Scope),
      settings.tags.Absent text.toList →
      (∀ name path depth, (Template.parse settings name path text depth).diagnostics = []) ∧
      renderToString settings loader text scope = .ok (String.ofList lines.written) ∧
      ∀ out err : Sink, out.Fits (Text.bytes lines.written) →
        let outcome := (Source.text text).render settings loader scope out err
        outcome.result = .ok () ∧
        outcome.out.contents = out.contents ++ Text.bytes lines.written ∧
        outcome.err = err ∧ outcome.loads = [] := by
  intro lines
  refine ⟨fun other => ⟨Text.Lines.Of.eq_read, ?_⟩, fun sink => ⟨?_, fun sink' hw => ?_⟩,
    fun settings loader scope h => ⟨fun name path depth => ?_, ?_, fun out err hfits => ?_⟩⟩
  · rintro rfl
    exact Text.Lines.of_read _
  · rw [Sink.writeAll_iff_fits, Text.flatten_map_joined, Text.continued]
  · rw [Sink.contents_writeAll hw, Text.flatten_map_joined, Text.continued]
  · rw [Template.parse_plain h]
  · obtain ⟨out, hrun, hcontents⟩ := Held.renderAfter_plain h
      { template := Template.ofText settings text } rfl [] loader scope {}
      (Sink.fits_of_room (s := {}) rfl _)
    rw [renderToString, Source.render]
    simp only [hrun]
    have hencode : ({} : Sink).contents ++ Text.bytes lines.written =
        Text.encode (String.ofList lines.written) := by
      rw [Text.encode, String.toList_ofList]
      rfl
    rw [hcontents, Text.continued, hencode, Text.decodeLossy_encode]
  · obtain ⟨out', hrun, hcontents⟩ := Held.renderAfter_plain h
      { template := Template.ofText settings text } rfl [] loader scope err hfits
    rw [Source.render]
    simp only [hrun]
    exact ⟨trivial, hcontents, trivial, trivial⟩

/-- Backslashes at the ends of lines, one to three of them, with a brace and a return among them. -/
def slashedText : String := "one \\\ntwo\\\\\r\n\x7b three\\\\\\\n\r\\"

theorem plain_text_is_written_by_lines_slashed :
    ({} : TagSet).Absent slashedText.toList ∧
    ({} : Sink).Fits (Text.bytes (Text.Lines.read slashedText.toList).written) ∧
    renderToString {} (Library.loader ⟨[]⟩) slashedText .empty =
      .ok "one two\\\r\n\x7b three\\\\\n\r\\" ∧
    ((Source.text slashedText).render {} (Library.loader ⟨[]⟩) .empty {} {}).result = .ok () := by
  have habsent : ({} : TagSet).Absent slashedText.toList :=
    ⟨by decide +kernel, by decide +kernel, by decide +kernel⟩
  have hfits := Sink.fits_of_room (s := {}) rfl
    (Text.bytes (Text.Lines.read slashedText.toList).written)
  have hwritten : String.ofList (Text.Lines.read slashedText.toList).written =
      "one two\\\r\n\x7b three\\\\\n\r\\" := by decide +kernel
  obtain ⟨-, hstring, hrender⟩ := (plain_text_is_written_by_lines slashedText).2.2 {}
    (Library.loader ⟨[]⟩) .empty habsent
  refine ⟨habsent, hfits, ?_, (hrender {} {} hfits).1⟩
  rw [hstring, hwritten]

end Stencil
