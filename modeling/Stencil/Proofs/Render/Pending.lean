import Stencil.Proofs.Render.Channels
import Stencil.Proofs.Sink.Pour

/-! What is still to be told.
What is wrong with a held template is held with it, and what is wrong with an included one is read
again as long as nothing is kept at its position. The main statement says that over any number of
renders both are told before they are given up, but for one case: a render takes all that is held
before it writes any of it, so that what it cannot write then is told by no one. -/
namespace Stencil

namespace Render

variable {p : Progress}

theorem meets_report_stops (d : Diagnostic) :
    Meets (report d) p (fun _ _ => True) (fun e p' => e = .full ∧
      ∃ part, p'.err.contents = p.err.contents ++ part ∧ part <+: lines [d] ∧
        part.length < (lines [d]).length) := by
  have hline : lines [d] = Text.encode (d.text ++ "\n") := by simp [lines]
  rw [meets_report, hline]
  by_cases hfits : p.err.Fits (Text.encode (d.text ++ "\n"))
  · rw [Sink.write_of_fits hfits]
    trivial
  · obtain ⟨n, -, hn, hw⟩ := Sink.write_of_not_fits hfits
    rw [hw]
    refine ⟨rfl, (Text.encode (d.text ++ "\n")).take n, by simp [Sink.contents],
      List.take_prefix _ _, ?_⟩
    rw [List.length_take]
    omega

theorem meets_reportAll_stops (ds : List Diagnostic) :
    Meets (reportAll ds) p (fun _ _ => True) (fun e p' => e = .full ∧
      ∃ written d lost part, ds = written ++ d :: lost ∧
        p'.err.contents = p.err.contents ++ lines written ++ part ∧
        part <+: lines [d] ∧ part.length < (lines [d]).length) := by
  induction ds generalizing p with
  | nil => trivial
  | cons d ds ih =>
    rw [reportAll, meets_bind]
    refine ((meets_report_line d).and (meets_report_stops d)).mono ?_ ?_
    · rintro _ p' ⟨hd, -⟩
      refine ih.mono (fun _ _ h => h) ?_
      rintro e q ⟨he, written, d', lost, part, rfl, hc, hpart⟩
      refine ⟨he, d :: written, d', lost, part, rfl, ?_, hpart⟩
      rw [hc, hd.contents, List.append_assoc p.err.contents, ← lines_append]
      rfl
    · rintro e p' ⟨-, he, part, hc, hpart⟩
      exact ⟨he, [], d, ds, part, rfl, by simpa using hc, hpart⟩

end Render

namespace Rendering

variable {x : Rendering} {s : Stage} {d : Diagnostic}

/-- The render has written the diagnostics, each in a whole line, one after the other. -/
def Writes (x : Rendering) (ds : List Diagnostic) : Prop :=
  ∃ before, x.err.contents ++ before ++ Render.lines ds <+: x.run.err.contents

theorem Writes.eq_nil {ds : List Diagnostic} (h : x.Writes ds)
    (hx : x.run.err.contents = x.err.contents) : ds = [] := by
  obtain ⟨before, hprefix⟩ := h
  have hlength := hprefix.length_le
  rw [hx, List.length_append, List.length_append] at hlength
  exact Render.lines_eq_nil.mp (List.eq_nil_of_length_eq_zero (by omega))

theorem Begins.writes_held (h : x.Begins s) (hx : x.held.Arises) :
    x.Writes x.held.template.diagnostics := by
  have hreaches : x.Reaches s := ⟨s, h, .refl⟩
  have hc : s.progress.err.contents =
      x.err.contents ++ Render.lines x.held.template.diagnostics := h.reports.contents
  refine ⟨[], ?_⟩
  rw [List.append_nil, ← hc]
  exact hreaches.grows_run hx

theorem Fills.writes {position : Position} {t read : Template} {v : Visit} {reference : String}
    {span : Span} {q : Progress} (h : x.Fills position t s v reference span read q) :
    x.Writes read.diagnostics := by
  have hq : q.err.contents = s.progress.err.contents ++ Render.lines read.diagnostics :=
    h.reports.contents
  refine ⟨Render.lines s.progress.reported, ?_⟩
  rw [← h.reaches.told.1, ← hq]
  exact h.written

theorem diagnostics_of_ok (hx : x.held.Arises) (hr : x.run.result = .ok ()) :
    x.held.template.diagnostics = [] ∧
      ∀ position t s v reference span read q, x.Fills position t s v reference span read q →
        read.diagnostics = [] := by
  have hfinishes : Render.Finishes x.run.result := by
    rw [hr]
    trivial
  obtain ⟨first, later, hb, -, -, -, htells⟩ := exists_tells hx hfinishes
  have hsame : x.run.err.contents = x.err.contents := htells.ok_iff.mp hr
  exact ⟨(hb.writes_held hx).eq_nil hsame, fun _ _ _ _ _ _ _ _ hfills =>
    hfills.writes.eq_nil hsame⟩

/-- The render is stopped while it writes what was held. Some lines are written, and a part of the
next; all diagnostics are taken nevertheless, so that this one and those after it are held no
more. -/
structure Loses (x : Rendering) (written : List Diagnostic) (d : Diagnostic)
    (lost : List Diagnostic) (part : Bytes) : Prop where
  held : x.held.template.diagnostics = written ++ d :: lost
  result : x.run.result = .error (.write .full)
  err : x.run.err.contents = x.err.contents ++ Render.lines written ++ part
  part_prefix : part <+: Render.lines [d]
  part_lt : part.length < (Render.lines [d]).length
  taken : x.run.held = { x.held.taken with store := x.held.store }

theorem Loses.length_lt {written lost : List Diagnostic} {part : Bytes}
    (h : x.Loses written d lost part) : x.run.err.contents.length <
      x.err.contents.length + (Render.lines x.held.template.diagnostics).length := by
  have hlt := h.part_lt
  rw [h.err, h.held, List.append_cons, Render.lines_append, Render.lines_append]
  simp only [List.length_append]
  omega

theorem begins_or_loses (hx : x.held.Arises) :
    (∃ first, x.Begins first) ∨ ∃ written d lost part, x.Loses written d lost part := by
  cases ho : x.opening with
  | ok _ p => exact .inl ⟨⟨x.agenda, p⟩, ho, rfl⟩
  | error e p =>
    obtain ⟨rfl, written, d, lost, part, hheld, herr, hpart, hlt⟩ :=
      (Render.meets_reportAll_stops (p := x.progress) x.held.template.diagnostics).of_error ho
    have hrun : x.run = x.leaves (.error .full p) := by
      rw [x.run_eq_leaves, (yields_start hx.coherent).unique (yields_of_opening ho)]
    have hstore : p.store = x.held.store := (x.opening_writes.of_error ho).store
    refine .inr ⟨written, d, lost, part, hheld, ?_, ?_, hpart, hlt, ?_⟩
    · rw [hrun]
      rfl
    · rw [hrun]
      exact herr
    · rw [hrun, held_leaves, Ending.progress, hstore]

/-- The render fills the position with `t` once it has written everything that is wrong with it. -/
def Settles (x : Rendering) (position : Position) (t : Template) : Prop :=
  ∃ s v reference span read q, x.Fills position t s v reference span read q ∧
    x.Writes read.diagnostics

theorem Fills.settles {position : Position} {t read : Template} {v : Visit} {reference : String}
    {span : Span} {q : Progress} (h : x.Fills position t s v reference span read q) :
    x.Settles position t := ⟨s, v, reference, span, read, q, h, h.writes⟩

end Rendering

namespace Held

/-- A session of renders of a held template: each is of what the one before has left behind. -/
inductive Session : Held → List Rendering → Held → Prop
  | nil {h : Held} : Session h [] h
  | cons {x : Rendering} {xs : List Rendering} {h : Held} :
    Session x.run.held xs h → Session x.held (x :: xs) h

namespace Session

variable {h h' : Held} {x : Rendering} {xs : List Rendering}

theorem renders (hs : h.Session xs h') : h.Renders h' := by
  induction hs with
  | nil => exact .refl
  | @cons x xs h' _ ih => exact .head ⟨x, rfl, rfl⟩ ih

theorem arises_of_mem (hs : h.Session xs h') (hh : h.Arises) (hx : x ∈ xs) : x.held.Arises := by
  induction hs with
  | nil => cases hx
  | cons _ ih =>
    rcases List.mem_cons.mp hx with rfl | hx
    · exact hh
    · exact ih hh.rendered hx

theorem held_or_writes (hs : h.Session xs h') (hh : h.Arises)
    (hb : ∀ x ∈ xs, ∃ first, x.Begins first) :
    h'.template.diagnostics = h.template.diagnostics ∨
      ∃ x ∈ xs, x.Writes h.template.diagnostics := by
  cases hs with
  | nil => exact .inl rfl
  | @cons x xs _ hrest =>
    obtain ⟨first, hfirst⟩ := hb x (List.mem_cons_self ..)
    exact .inr ⟨x, List.mem_cons_self .., hfirst.writes_held hh⟩

theorem exists_fills (hs : h.Session xs h') (hh : h.Arises) {position : Position} {t : Template}
    (hnone : h.store.find? position = none) (hsome : h'.store.find? position = some t) :
    ∃ x ∈ xs, ∃ s v reference span read q, x.Fills position t s v reference span read q := by
  induction hs with
  | nil =>
    rw [hnone] at hsome
    cases hsome
  | @cons x xs h' hrest ih =>
    cases hk : x.run.held.store.find? position with
    | none =>
      obtain ⟨y, hy, hfills⟩ := ih hh.rendered hk hsome
      exact ⟨y, List.mem_cons_of_mem _ hy, hfills⟩
    | some u =>
      -- what the first render has filled the position with is still there at the end
      have hstays := hrest.renders.find? hh.rendered hk
      rw [hsome] at hstays
      cases hstays
      exact ⟨x, List.mem_cons_self .., x.exists_fills hh hnone hk⟩

/-- If the render that comes after a session succeeds, then all that was wrong with the templates
kept by then has been written in the session. -/
theorem settles_of_ok (hs : h.Session xs h') (hh : h.Arises) {y : Rendering} (hy : y.held = h')
    (hr : y.run.result = .ok ()) {position : Position} {t : Template}
    (hnone : h.store.find? position = none)
    (hsome : y.run.held.store.find? position = some t) :
    (∃ x ∈ xs, x.Settles position t) ∨
      ∃ s v reference span read q, y.Fills position t s v reference span read q ∧
        read.diagnostics = [] := by
  subst hy
  have hheld : y.held.Arises := hs.renders.arises hh
  cases hk : y.held.store.find? position with
  | none =>
    obtain ⟨s, v, reference, span, read, q, hfills⟩ := y.exists_fills hheld hk hsome
    have hquiet := (Rendering.diagnostics_of_ok hheld hr).2 _ _ _ _ _ _ _ _ hfills
    exact .inr ⟨s, v, reference, span, read, q, hfills, hquiet⟩
  | some u =>
    have hstays := y.find?_run hheld hk
    rw [hsome] at hstays
    cases hstays
    obtain ⟨x, hx, _, _, _, _, _, _, hfills⟩ := hs.exists_fills hh hnone hk
    exact .inl ⟨x, hx, hfills.settles⟩

end Session
end Held

/-- Nothing is given up before it has been told, unless a render is stopped while it writes what is
held. In a session a position is filled once everything that is wrong with its template has been
written; a render that fails while that is being written leaves the position empty, and the render
that comes to an empty position reports everything again. What is held is written by the first
render, or this is stopped and loses what it has not written. So if no render of the session has lost
anything, then a render that succeeds comes after everything has been written that was held, or was
wrong with a template that is kept by then. -/
theorem told_before_given_up (h : Held) (hh : h.Arises) (xs : List Rendering) (h' : Held)
    (hs : h.Session xs h') :
    (∀ position t, h.store.find? position = none → h'.store.find? position = some t →
      ∃ x ∈ xs, x.Settles position t) ∧
    (∀ x ∈ xs, ∀ s, x.Reaches s → ∀ v c reference line span, s.Faces v c reference line span →
      ∀ read, Render.look x.settings x.loader v reference span s.progress = .read read →
      ∀ e q, Render.reportAll read.diagnostics (s.progress.asking v reference) = .error e q →
        x.run.result = .error (.write e) ∧ x.run.held.store.find? (v.inside span) = none) ∧
    (∀ y : Rendering, y.held = h' → ∀ position, h'.store.find? position = none →
      (∀ s, y.Reaches s → s.At position → ∃ first, y.ComesTo position first) ∧
      ∀ first, y.ComesTo position first → y.ReportsAgain position first) ∧
    (∀ x ∈ xs, (∃ first, x.Begins first ∧ x.Writes x.held.template.diagnostics) ∨
      ∃ written d lost part, x.Loses written d lost part) ∧
    ((∀ x ∈ xs, ∃ first, x.Begins first) → h'.template.diagnostics = h.template.diagnostics ∨
      ∃ x ∈ xs, x.Writes h.template.diagnostics) ∧
    ∀ y : Rendering, y.held = h' → y.run.result = .ok () →
      ((∀ x ∈ xs, ∃ first, x.Begins first) →
        h.template.diagnostics = [] ∨ ∃ x ∈ xs, x.Writes h.template.diagnostics) ∧
      ∀ position t, h.store.find? position = none → y.run.held.store.find? position = some t →
        (∃ x ∈ xs, x.Settles position t) ∨
          ∃ s v reference span read q, y.Fills position t s v reference span read q ∧
            read.diagnostics = [] := by
  refine ⟨?_, ?_, ?_, ?_, fun hb => hs.held_or_writes hh hb, ?_⟩
  · intro position t hnone hsome
    obtain ⟨x, hx, _, _, _, _, _, _, hfills⟩ := hs.exists_fills hh hnone hsome
    exact ⟨x, hx, hfills.settles⟩
  · intro x hx s hreaches v c reference line span hf read hl e q hr
    exact hreaches.run_of_unreported (hs.arises_of_mem hh hx) hf hl hr
  · rintro y rfl position hnone
    exact ⟨fun s hreaches hat => hreaches.exists_comesTo hat,
      fun first hfirst => hfirst.reportsAgain hnone⟩
  · intro x hx
    have hheld := hs.arises_of_mem hh hx
    rcases Rendering.begins_or_loses hheld with ⟨first, hb⟩ | hlost
    · exact .inl ⟨first, hb, hb.writes_held hheld⟩
    · exact .inr hlost
  · intro y hy hr
    refine ⟨fun hb => ?_, fun position t hnone hsome =>
      hs.settles_of_ok hh hy hr hnone hsome⟩
    have hquiet : h'.template.diagnostics = [] := by
      rw [← hy]
      exact (Rendering.diagnostics_of_ok (hy ▸ hs.renders.arises hh) hr).1
    rcases hs.held_or_writes hh hb with hheld | hwrites
    · exact .inl (hheld.symm.trans hquiet)
    · exact .inr hwrites

/-- Something is wrong with the template, and with the one that it includes; there is room to say
the first, but not the second. -/
def cutRender : Rendering where
  settings := {}
  loader := Library.loader ⟨[("part", "\x7b\x7bVAR \x7d\x7d")]⟩
  held := { template := Template.ofText {} "\x7b\x7bVAR \x7d\x7d\x7b\x7bINCLUDE part\x7d\x7d" }
  scope := Scope.empty
  err := { room := some 64 }

theorem told_before_given_up_cut :
    let second := cutRender.again {} {} []
    let third := second.again {} {} []
    let xs := [cutRender, second]
    cutRender.held.Arises ∧ cutRender.held.Session xs third.held ∧
    (∀ x ∈ xs, ∃ first, x.Begins first) ∧ cutRender.run.result = .error (.write .full) ∧
    cutRender.held.template.diagnostics.length = 1 ∧ third.run.result = .ok () ∧
    (∃ x ∈ xs, x.Writes cutRender.held.template.diagnostics) ∧
    ∃ t, third.held.store.find? [8] = some t ∧ ∃ x ∈ xs, x.Settles [8] t := by
  intro second third xs
  have hx : cutRender.held.Arises := .read ..
  have hrest : second.held.Session [second] third.held := .cons .nil
  have hs : cutRender.held.Session xs third.held := .cons hrest
  have hok : third.run.result = .ok () := by decide +kernel
  have hquiet : second.held.template.diagnostics = [] :=
    congrArg Template.diagnostics cutRender.template_run
  have hlength : (Render.lines cutRender.held.template.diagnostics).length ≤
      cutRender.run.err.contents.length := by decide +kernel
  have hb : ∀ x ∈ xs, ∃ first, x.Begins first := by
    refine List.forall_mem_cons.mpr ⟨?_, List.forall_mem_singleton.mpr
      ⟨_, Rendering.begins_of_quiet hquiet⟩⟩
    rcases Rendering.begins_or_loses hx with hfirst | ⟨written, d, lost, part, hloses⟩
    · exact hfirst
    · have hlt : _ < 0 + _ := hloses.length_lt
      omega
  obtain ⟨hsettles, -, -, -, -, hthird⟩ := told_before_given_up cutRender.held hx xs third.held hs
  obtain ⟨t, ht⟩ := Option.isSome_iff_exists.mp
    (by decide +kernel : (third.held.store.find? [8]).isSome)
  have hheld : cutRender.held.template.diagnostics.length = 1 := by decide +kernel
  refine ⟨hx, hs, hb, by decide +kernel, hheld, hok, ?_, t, ht, hsettles [8] t rfl ht⟩
  rcases (hthird third rfl hok).1 hb with hnone | hwrites
  · rw [hnone] at hheld
    cases hheld
  · exact hwrites

def silencedRender : Rendering where
  settings := {}
  loader := Library.loader {}
  held := { template := Template.ofText {} "a\x7b\x7bVAR \x7d\x7db" }
  scope := Scope.empty
  err := { room := some 0 }

/-- What a render loses is told by no one: the next one succeeds. -/
theorem lost_diagnostics_untold :
    ¬ ∀ (h : Held) (xs : List Rendering) (h' : Held), h.Arises → h.Session xs h' →
      ∀ y : Rendering, y.held = h' → y.run.result = .ok () →
        ∀ d ∈ h.template.diagnostics, ∃ x ∈ xs, x.Writes [d] := by
  intro hall
  have hpos : 0 < silencedRender.held.template.diagnostics.length := by decide +kernel
  obtain ⟨d, hd⟩ := List.exists_mem_of_length_pos hpos
  obtain ⟨x, hx, hw⟩ := hall silencedRender.held [silencedRender] _ (.read ..) (.cons .nil)
    (silencedRender.again {} {} []) rfl (by decide +kernel) d hd
  cases List.mem_singleton.mp hx
  have hnothing : silencedRender.run.err.contents = silencedRender.err.contents := by
    decide +kernel
  exact List.cons_ne_nil _ _ (hw.eq_nil hnothing)

end Stencil
