import Stencil.Proofs.Text.Utf8
import Stencil.Proofs.Render.Texts
import Stencil.Proofs.Render.Channels
import Stencil.Proofs.Render.Again

/-! The output of a render as UTF-8.
What one step adds to the output are the bytes of a text: of a part of some source that is cut
between characters, of a value, or of what a formatter makes of a value. The main statement says
that the whole output is UTF-8 if no write fails, so that a render to a text replaces nothing. -/
namespace Stencil

def Progress.AddsText (p p' : Progress) : Prop :=
  ∃ written, Text.IsUtf8 written ∧ p'.out.contents = p.out.contents ++ written

namespace Progress.AddsText

variable {p p' : Progress}

theorem of_out (h : p'.out = p.out) : p.AddsText p' := ⟨[], Text.isUtf8_nil, by rw [h]; simp⟩

theorem isUtf8 (h : p.AddsText p') (hp : Text.IsUtf8 p.out.contents) :
    Text.IsUtf8 p'.out.contents := by
  obtain ⟨written, hw, he⟩ := h
  rw [he]
  exact hp.append hw

end Progress.AddsText

namespace Render

variable {settings : Settings} {loader : Loader} {p : Progress}

theorem meets_emit_text {e : Emission} (h : e.failure = none → Text.IsUtf8 e.pieces.flatten) :
    Meets (emit e) p (fun _ => p.AddsText) fun _ _ => True := by
  cases hf : e.failure with
  | none =>
    refine (meets_emit_pieces e).mono ?_ fun _ _ h => h
    rintro _ p' ⟨hout, -⟩
    exact ⟨_, h hf, hout⟩
  | some reason =>
    rw [meets_emit]
    unfold Emission.writeTo
    rw [hf]
    cases p.out.writeAll e.pieces with
    | mk out taken => cases taken <;> trivial

/-- Doing a task that stands in a parsed template adds the bytes of a text. -/
theorem meets_doTask_text (hf : ∀ f ∈ settings.formats.formatters, f.WritesUtf8)
    (rest : Agenda) {task : Task} (hin : task.Inside)
    (ht : task.visit.template.Parsed settings.formats.formatters) :
    Meets (doTask settings loader rest task) p (fun _ => p.AddsText) fun _ _ => True := by
  have hkeeps (agenda : Agenda) :
      Meets (pure agenda) p (fun _ => p.AddsText) fun _ _ => True := .of_out rfl
  match task with
  | .nodes v c [] => exact hkeeps _
  | .rows v owner body [] => exact hkeeps _
  | .rows v owner body (row :: left) => exact hkeeps _
  | .nodes v c (node :: left) =>
    rw [doTask]
    match node with
    | .text span =>
      rw [doNode, meets_bind]
      exact (meets_emit_text fun _ => Text.isUtf8_flatten_map _).mono (fun _ _ h => h)
        fun _ _ h => h
    | .value name default formatter =>
      rw [doNode]
      split
      · rename_i value _
        rw [meets_bind]
        refine (meets_emit_text fun hnone => ?_).mono (fun _ _ h => h) fun _ _ h => h
        cases formatter with
        | none => exact Text.isUtf8_flatten_map [value.toList]
        | some f =>
          obtain ⟨loops, list, hinside, hsuffix⟩ := hin
          have hsound := Node.allLeaves_iff.mp (hinside.allLeaves ht.sound) _
            (hsuffix.subset List.mem_cons_self)
          exact hf f hsound value hnone
      · exact hkeeps _
    | .cond test yes no => exact hkeeps _
    | .loop name body =>
      rw [doNode]
      split
      · exact hkeeps _
      · exact hkeeps _
    | .leave level => exact hkeeps _
    | .next level => exact hkeeps _
    | .embed reference line span =>
      rw [doNode, meets_bind]
      exact meets_resolve_out.mono (fun _ _ h => .of_out h) fun _ _ _ => trivial

end Render

theorem Render.inherited_parsed (settings : Settings) (loader : Loader) :
    Inherited settings loader fun t _ => t.Parsed settings.formats.formatters := by
  intro v span moment path t _ _ hload
  have ht : t.Parsed settings.formats.formatters :=
    Template.parsed_load (List.Subset.refl _) hload
  exact ht

namespace Rendering

variable {x : Rendering} {s : Stage}

theorem Fresh.parsed (hx : x.Fresh) (h : x.Reaches s) :
    s.Holds fun t _ => t.Parsed x.settings.formats.formatters := by
  obtain ⟨name, path, source, hheld⟩ := hx.held
  refine h.holds ?_ ?_ (Render.inherited_parsed x.settings x.loader)
  · rw [hheld]
    intro position t ht
    cases ht
  · rw [hheld]
    exact ⟨x.settings, name, path, source, 0, List.Subset.refl _, rfl⟩

/-- However far the render comes, its output is UTF-8 if it was at the beginning. -/
theorem Fresh.isUtf8 (hx : x.Fresh) (hf : ∀ f ∈ x.settings.formats.formatters, f.WritesUtf8)
    (hout : Text.IsUtf8 x.out.contents) (h : x.Reaches s) :
    Text.IsUtf8 s.progress.out.contents := by
  obtain ⟨first, hb, hr⟩ := h
  induction hr with
  | refl => rwa [hb.out]
  | @tail a b ha hstep ih =>
    have hreaches : x.Reaches a := ⟨first, hb, ha⟩
    obtain ⟨task, rest, he, -⟩ := hstep.does
    have hm : task ∈ a.agenda := he ▸ List.mem_cons_self
    have hadds : Render.Meets (Render.doTask x.settings x.loader rest task) a.progress
        (fun _ => a.progress.AddsText) fun _ _ => True :=
      Render.meets_doTask_text hf rest (hreaches.inside task hm)
        ((hx.parsed hreaches).agenda task hm)
    obtain ⟨_, p⟩ := a
    simp only at he
    subst he
    exact (hadds.of_ok hstep).isUtf8 ih

end Rendering

theorem Source.out_of_rendering?_eq_none {settings : Settings} {loader : Loader} {source : Source}
    {scope : Scope} {out err : Sink}
    (h : source.rendering? settings loader scope out err = none) :
    (source.render settings loader scope out err).out = out := by
  obtain ⟨d, loads, hunread⟩ := Source.exists_render_eq_unread h
  rw [hunread out err rfl]
  have hreport := Render.meets_report_out (p := { out, err, store := {} }) d
  unfold Render.Meets at hreport
  cases hr : Render.report d { out, err, store := {} } with
  | ok _ p =>
    rw [hr] at hreport
    exact hreport
  | error e p =>
    rw [hr] at hreport
    exact hreport

theorem Source.isUtf8_of_finishes {settings : Settings} {loader : Loader} {source : Source}
    {scope : Scope} {out err : Sink} (hf : ∀ f ∈ settings.formats.formatters, f.WritesUtf8)
    (hout : Text.IsUtf8 out.contents)
    (hr : Render.Finishes (source.render settings loader scope out err).result) :
    Text.IsUtf8 (source.render settings loader scope out err).out.contents := by
  cases hx : source.rendering? settings loader scope out err with
  | none => rwa [Source.out_of_rendering?_eq_none hx]
  | some x =>
    obtain ⟨rfl, -, hfresh⟩ := Source.fresh_of_rendering? hx
    obtain ⟨rfl, rfl⟩ := Source.sinks_of_rendering? hx
    rw [Source.render_of_rendering? hx] at hr ⊢
    obtain ⟨p, hlast⟩ := Rendering.exists_last hfresh.arises hr
    have hrun : x.run = x.leaves (.ok () p) := hlast.run_of_ends hfresh.arises rfl
    rw [hrun]
    exact hfresh.isUtf8 hf hout hlast

theorem Rendering.Reaches.cuts {x : Rendering} {s : Stage} (h : x.Reaches s)
    (hx : x.held.Arises) {v : Visit} {c : Context} {span : Span} {left : List Node}
    (hm : .nodes v c (.text span :: left) ∈ s.agenda) :
    Text.IsUtf8 (Text.sliceBytes (Text.encode v.template.source) span) ∧
      (Text.joined (v.template.text span)).map Text.bytes =
        Text.joinedBytes (Text.sliceBytes (Text.encode v.template.source) span) := by
  obtain ⟨loops, list, hi, hsuffix⟩ := h.inside _ hm
  have hread : v.template.IsRead := (h.isRead hx).agenda _ hm
  have hpart := hread.isPart hi (hsuffix.subset List.mem_cons_self)
  have hslice : Text.sliceBytes (Text.encode v.template.source) span =
      Text.bytes (v.template.text span) := Text.sliceBytes_of_isPart hpart
  rw [hslice]
  exact ⟨Text.isUtf8_bytes _, Text.map_joined _⟩

/-- What a render writes is UTF-8. Let the formatters of the registry write the bytes of texts, as
`entity` and `url` do, and the sink hold such bytes at the beginning. Then a render that no write
stops leaves such bytes, whatever is included and reported; each text of a template is cut out of
the bytes of its source between characters and joined byte by byte. So a render to a text gives
exactly what a render to a sink writes. -/
theorem output_is_utf8 (settings : Settings)
    (hf : ∀ f ∈ settings.formats.formatters, f.WritesUtf8) (loader : Loader) (scope : Scope) :
    (∀ value, (Emission.entity value).failure = none ∧
      Text.IsUtf8 (Emission.entity value).pieces.flatten ∧
      (Emission.url value).failure = none ∧ Text.IsUtf8 (Emission.url value).pieces.flatten) ∧
    (∀ (source : Source) (out err : Sink), Text.IsUtf8 out.contents →
      let outcome := source.render settings loader scope out err
      (Render.Finishes outcome.result →
        Text.IsUtf8 outcome.out.contents ∧
        (∀ c ∈ Text.decodeFrom none outcome.out.contents, c.isSome) ∧
        Text.encode (Text.decodeLossy outcome.out.contents) = outcome.out.contents) ∧
      ∀ x, source.rendering? settings loader scope out err = some x → ∀ s, x.Reaches s →
        ∀ v c span left, .nodes v c (.text span :: left) ∈ s.agenda →
          Text.IsUtf8 (Text.sliceBytes (Text.encode v.template.source) span) ∧
          (Text.joined (v.template.text span)).map Text.bytes =
            Text.joinedBytes (Text.sliceBytes (Text.encode v.template.source) span)) ∧
    ∀ text, let outcome := (Source.text text).render settings loader scope {} {}
      (∀ s, renderToString settings loader text scope = .ok s ↔
        outcome.result = .ok () ∧ Text.encode s = outcome.out.contents) ∧
      ∀ e, renderToString settings loader text scope = .error e ↔ outcome.result = .error e := by
  have hrender (source : Source) (out err : Sink) (hout : Text.IsUtf8 out.contents)
      (hr : Render.Finishes (source.render settings loader scope out err).result) :=
    Source.isUtf8_of_finishes hf hout hr
  refine ⟨fun value => ⟨rfl, Emission.isUtf8_entity value, rfl, Emission.isUtf8_url value⟩,
    fun source out err hout => ⟨fun hr => ?_, fun x hx s hs v c span left hm => ?_⟩,
    fun text => ⟨fun s => ?_, fun e => ?_⟩⟩
  · have hutf8 := hrender source out err hout hr
    exact ⟨hutf8, hutf8.exists_of_mem, hutf8.encode_decodeLossy⟩
  · obtain ⟨-, -, hfresh⟩ := Source.fresh_of_rendering? hx
    exact hs.cuts hfresh.arises hm
  · have htext := hrender (.text text) {} {} Text.isUtf8_nil
    unfold renderToString
    dsimp only
    cases hresult : ((Source.text text).render settings loader scope {} {}).result with
    | error e => simp
    | ok u =>
      rw [hresult] at htext
      have hencode := (htext trivial).encode_decodeLossy
      simp only [Except.ok.injEq, true_and]
      constructor
      · rintro rfl
        exact hencode
      · intro hs
        rw [← hs, Text.decodeLossy_encode]
  · unfold renderToString
    dsimp only
    cases ((Source.text text).render settings loader scope {} {}).result with
    | error e' => simp
    | ok u => simp

/-- A template and an included one with characters of two to four bytes, a line that goes on after
one of them, and a value that is escaped for a query. -/
def wideText : String :=
  "\u00fc\\\n\u20ac\x7b\x7bINCLUDE p\x7d\x7d\x7b\x7bVAR name=n format=url\x7d\x7d"

def wideLoader : Loader := Library.loader ⟨[("p", "😀\x7b\x7bVAR n\x7d\x7d")]⟩

theorem output_is_utf8_wide :
    let scope := Scope.empty.withValue "n" "\u00e9<"
    (∀ f ∈ FormatRegistry.standard.formatters, f.WritesUtf8) ∧
    renderToString {} wideLoader wideText scope =
      .ok "\u00fc\u20ac😀\u00e9<%C3%A9%3C" := by
  intro scope
  have hf := FormatRegistry.writesUtf8_standard
  have hresult : ((Source.text wideText).render {} wideLoader scope {} {}).result = .ok () := by
    decide +kernel
  have hcontents : Text.encode "\u00fc\u20ac😀\u00e9<%C3%A9%3C" =
      ((Source.text wideText).render {} wideLoader scope {} {}).out.contents := by
    decide +kernel
  refine ⟨hf, ?_⟩
  exact (((output_is_utf8 {} hf wideLoader scope).2.2 wideText).1 _).mpr ⟨hresult, hcontents⟩

end Stencil
