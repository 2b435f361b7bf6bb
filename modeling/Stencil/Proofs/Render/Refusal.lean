import Stencil.Proofs.Render.Session

/-! Inclusions that fail.
A render in which an inclusion comes upon nothing ends at that tag with its report, and leaves the
position empty, so that a later render asks again. -/
namespace Stencil

namespace Stage

/-- The next thing to do is the inclusion at this position. -/
def At (position : Position) (s : Stage) : Prop :=
  ∃ v c reference line span, s.Faces v c reference line span ∧ v.inside span = position

variable {settings : Settings} {loader : Loader} {position : Position} {a b : Stage}

theorem Step.find?_of_not_at (h : Step settings loader a b) (hn : ¬ a.At position) :
    b.progress.store.find? position = a.progress.store.find? position := by
  rcases h.writes_or_resolves with hw | ⟨v, c, reference, line, span, found, hf, hr⟩
  · exact congrArg (fun store => store.find? position) hw.store
  · exact hr.find?_of_ne fun he => hn ⟨v, c, reference, line, span, hf, he.symm⟩

theorem Step.room_err (h : Step settings loader a b) (hr : a.progress.err.room = none) :
    b.progress.err.room = none := by
  rcases h.writes_or_resolves with hw | ⟨_, _, _, _, _, _, _, hres⟩
  · exact hw.err hr
  · exact hres.room_err hr

end Stage

namespace Rendering

variable {x : Rendering} {s : Stage} {position : Position}

theorem Reaches.room_err (h : x.Reaches s) (hx : x.err.room = none) :
    s.progress.err.room = none :=
  h.keeps (fun _ hb => hb.writes.err hx) fun _ _ ha hstep => hstep.room_err ha

/-- The first stage at which the render comes to the inclusion at a position. -/
def ComesTo (x : Rendering) (position : Position) (s : Stage) : Prop :=
  s.At position ∧ ∃ first, x.Begins first ∧
    Relation.ReflTransGen
      (fun a b => Stage.Step x.settings x.loader a b ∧ ¬ a.At position) first s

theorem Reaches.exists_comesTo (h : x.Reaches s) (hs : s.At position) :
    ∃ s', x.ComesTo position s' := by
  obtain ⟨first, hb, hr⟩ := h
  have hfirst : ∃ s', s'.At position ∧ Relation.ReflTransGen
      (fun a b => Stage.Step x.settings x.loader a b ∧ ¬ a.At position) first s' := by
    clear hb
    -- from the end backwards: the earliest such stage is this one or one that is known already
    induction hr using Relation.ReflTransGen.head_induction_on with
    | refl => exact ⟨s, hs, .refl⟩
    | @head a b hstep _ ih =>
      by_cases ha : a.At position
      · exact ⟨a, ha, .refl⟩
      · obtain ⟨s', hs', hr'⟩ := ih
        exact ⟨s', hs', .head ⟨hstep, ha⟩ hr'⟩
  obtain ⟨s', hs', hr'⟩ := hfirst
  exact ⟨s', hs', first, hb, hr'⟩

theorem ComesTo.find? (h : x.ComesTo position s) :
    s.progress.store.find? position = x.held.store.find? position := by
  obtain ⟨-, first, hb, hr⟩ := h
  induction hr with
  | refl => exact congrArg (fun store => store.find? position) hb.writes.store
  | tail _ hstep ih => exact (hstep.1.find?_of_not_at hstep.2).trans ih

end Rendering

namespace Render

variable {settings : Settings} {loader : Loader} {v : Visit} {reference : String} {line : Nat}
  {span : Span} {p : Progress}

/-- The progress after an inclusion has been refused: one more line of diagnostics, and a halt. -/
def refusing (p : Progress) (d : Diagnostic) : Progress :=
  { p with
    err := (p.err.write (Text.encode (d.text ++ "\n"))).1
    reported := p.reported ++ [d]
    halted := true }

theorem resolve_of_refused {problem : Problem} {asked : Bool} (line : Nat)
    (hp : p.err.room = none)
    (h : look settings loader v reference span p = .refused problem asked) :
    resolve settings loader v reference line span p =
      .ok none (refusing (p.finding v reference (.refused problem asked))
        (v.template.diagnostic problem line span)) := by
  refine (meets_result (P := (· = .ok none (refusing (p.finding v reference
    (.refused problem asked)) (v.template.diagnostic problem line span))))).mp ?_
  rw [meets_resolve_iff, h]
  simp only
  rw [meets_halt, meets_report, Progress.err_finding, Sink.write_of_room hp]
  simp [refusing, Sink.write_of_room hp]

theorem meets_resolve_refused {problem : Problem} {asked : Bool}
    (h : look settings loader v reference span p = .refused problem asked) :
    Meets (resolve settings loader v reference line span) p
      (fun found p' => found = none ∧
        p' = refusing (p.finding v reference (.refused problem asked))
          (v.template.diagnostic problem line span) ∧
        p'.err.contents = p.err.contents ++
          Text.encode ((v.template.diagnostic problem line span).text ++ "\n"))
      fun _ _ => True := by
  rw [meets_resolve_iff, h]
  dsimp only
  rw [meets_halt, meets_report, Progress.err_finding]
  cases hw : p.err.write (Text.encode ((v.template.diagnostic problem line span).text ++ "\n")) with
  | mk err taken =>
    have hc := Sink.contents_write p.err
      (Text.encode ((v.template.diagnostic problem line span).text ++ "\n"))
    rw [hw] at hc
    cases taken with
    | true =>
      rw [Sink.taken_of_write hw] at hc
      exact ⟨rfl, by simp [refusing, hw], hc⟩
    | false => trivial

theorem meets_resolve_asks (hp : p.store.find? (v.inside span) = none)
    (hd : v.template.depth < settings.includeLimit) :
    Meets (resolve settings loader v reference line span) p
      (fun _ p' => p'.loads = (p.asking v reference).loads)
      (fun _ p' => p'.loads = (p.asking v reference).loads) := by
  have hasked : (look settings loader v reference span p).isAsked := by
    unfold look
    rw [hp]
    simp only
    rw [if_neg (by omega)]
    split <;> rfl
  have hfinding : (p.finding v reference (look settings loader v reference span p)).loads =
      (p.asking v reference).loads := by
    unfold Progress.finding
    rw [if_pos hasked]
  exact meets_resolves.mono (fun _ _ hr => hr.loads.trans hfinding)
    fun _ _ hq => hq.loads.trans hfinding

end Render

namespace Rendering

variable {x : Rendering} {s : Stage}

theorem Reaches.run_of_step_of_refused (hs : x.Reaches s) (hx : x.held.Arises) {v : Visit}
    {c : Context} {reference : String} {line : Nat} {span : Span}
    (hf : s.Faces v c reference line span) {problem : Problem} {asked : Bool}
    (hl : Render.look x.settings x.loader v reference span s.progress = .refused problem asked)
    {s' : Stage} (hstep : Stage.Step x.settings x.loader s s') :
    x.run = x.leaves (.ok () (Render.refusing
        (s.progress.finding v reference (.refused problem asked))
        (v.template.diagnostic problem line span))) ∧
      x.run.err.contents = s.progress.err.contents ++
        Text.encode ((v.template.diagnostic problem line span).text ++ "\n") := by
  obtain ⟨found, hok⟩ := hstep.resolve_of_faces hf
  obtain ⟨rfl, hprogress, hc⟩ := (Render.meets_resolve_refused hl).of_ok hok
  obtain ⟨left, rest, ha⟩ := hf
  have hlast : x.Reaches ⟨[], s'.progress⟩ := hs.tail (Stage.step_of_faces ha hok)
  have hrun : x.run = x.leaves (.ok () s'.progress) := hlast.run_of_ends hx rfl
  refine ⟨hprogress ▸ hrun, ?_⟩
  rw [hrun]
  exact hc

theorem Reaches.run_of_refused (hs : x.Reaches s) (hx : x.held.Arises) (herr : x.err.room = none)
    {v : Visit} {c : Context} {reference : String} {line : Nat} {span : Span}
    (hf : s.Faces v c reference line span) {problem : Problem} {asked : Bool}
    (hl : Render.look x.settings x.loader v reference span s.progress = .refused problem asked) :
    x.run = x.leaves (.ok () (Render.refusing
      (s.progress.finding v reference (.refused problem asked))
      (v.template.diagnostic problem line span))) := by
  have hres := Render.resolve_of_refused line (hs.room_err herr) hl
  obtain ⟨left, rest, ha⟩ := id hf
  exact (hs.run_of_step_of_refused hx hf hl (Stage.step_of_faces ha hres)).1

/-- At this stage an inclusion at the position, which is empty, is tried: its template is asked for,
unless it is too deep. -/
def Tries (x : Rendering) (position : Position) (s : Stage) : Prop :=
  s.progress.store.find? position = none ∧
  ∃ v c reference line span, s.Faces v c reference line span ∧ v.inside span = position ∧
    (v.template.depth < x.settings.includeLimit →
      Render.Meets (Render.resolve x.settings x.loader v reference line span) s.progress
        (fun _ p => p.loads = (s.progress.asking v reference).loads)
        (fun _ p => p.loads = (s.progress.asking v reference).loads))

theorem ComesTo.tries {position : Position} (h : x.ComesTo position s)
    (hx : x.held.store.find? position = none) : x.Tries position s := by
  have hs : s.progress.store.find? position = none := h.find?.trans hx
  obtain ⟨⟨v, c, reference, line, span, hf, rfl⟩, _⟩ := h
  exact ⟨hs, v, c, reference, line, span, hf, rfl, Render.meets_resolve_asks hs⟩

end Rendering

/-- Where an inclusion comes upon nothing, the render ends. The output, the kept templates and the
paths asked for are what they were when it came to this tag, but for the path of the inclusion
itself; the one line more of diagnostics is the report of the tag, and this report is the last of
the error that the render ends with. The position stays empty. A later render begins unhalted, and
whenever it gets to an inclusion at this position, the first time it does so it tries it again. -/
theorem render_ends_at_refusal (x : Rendering) (hx : x.held.Arises) (herr : x.err.room = none)
    (s : Stage) (hs : x.Reaches s) (v : Visit) (c : Context) (reference : String) (line : Nat)
    (span : Span) (hf : s.Faces v c reference line span) (problem : Problem) (asked : Bool)
    (hl : Render.look x.settings x.loader v reference span s.progress = .refused problem asked) :
    let d := v.template.diagnostic problem line span
    x.run.result = .error (.template (s.progress.reported ++ [d])) ∧
    x.run.out = s.progress.out ∧
    x.run.err.contents = s.progress.err.contents ++ Text.encode (d.text ++ "\n") ∧
    x.run.held = { x.held.taken with store := s.progress.store } ∧
    x.run.loads = (s.progress.finding v reference (.refused problem asked)).loads ∧
    x.run.held.store.find? (v.inside span) = none ∧
    ∀ y : Rendering, y.held.store.find? (v.inside span) = none →
      (∀ first, y.Begins first → first.progress.halted = false) ∧
      (∀ later, y.Reaches later → later.At (v.inside span) →
        ∃ first, y.ComesTo (v.inside span) first) ∧
      ∀ first, y.ComesTo (v.inside span) first → y.Tries (v.inside span) first := by
  intro d
  have hrun := hs.run_of_refused hx herr hf hl
  have hroom := hs.room_err herr
  rw [Progress.finding_eq] at hrun
  have hheld : x.run.held = { x.held.taken with store := s.progress.store } := by
    rw [hrun, Rendering.held_leaves]
    rfl
  refine ⟨?_, ?_, ?_, hheld, ?_, ?_, ?_⟩
  · rw [hrun]
    simp [Rendering.leaves, Render.refusing, d]
  · rw [hrun]
    rfl
  · rw [hrun]
    simp [Rendering.leaves, Render.refusing, Sink.write_of_room hroom, Sink.contents, d]
  · rw [hrun]
    rfl
  · rw [hheld]
    exact Render.find?_of_refused hl
  · intro y hy
    exact ⟨fun first hb => hb.writes.halted, fun later hr => hr.exists_comesTo,
      fun first hf => hf.tries hy⟩

def refusedRender : Rendering where
  settings := {}
  loader := Library.loader {}
  held :=
    { template := Template.ofText {}
        "a\x7b\x7bLOOP rows\x7d\x7d\x7b\x7bINCLUDE gone\x7d\x7db\x7b\x7bENDLOOP\x7d\x7d" }
  scope := Scope.empty.withLoop "rows" [.empty, .empty]

/-- Where `refusedRender` comes to the inclusion, with the rest of the row, another row and the end
of the template still to come. -/
def refusedStage : Stage where
  agenda :=
    [.nodes refusedRender.visit ⟨refusedRender.scope, [.empty]⟩
        [.embed "gone" 1 ⟨14, 30⟩, .text ⟨30, 31⟩],
      .rows refusedRender.visit ⟨refusedRender.scope, []⟩
        [.embed "gone" 1 ⟨14, 30⟩, .text ⟨30, 31⟩] [.empty],
      .nodes refusedRender.visit ⟨refusedRender.scope, []⟩ []]
  progress := { refusedRender.progress with out := { pieces := [Text.encode "a"] } }

theorem refusedRender_reaches : refusedRender.Reaches refusedStage := by
  have hb : refusedRender.Begins ⟨refusedRender.agenda, refusedRender.progress⟩ :=
    ⟨by with_unfolding_all rfl, rfl⟩
  have htext : Stage.Step refusedRender.settings refusedRender.loader
      ⟨refusedRender.agenda, refusedRender.progress⟩
      ⟨[.nodes refusedRender.visit ⟨refusedRender.scope, []⟩
        [.loop "rows" [.embed "gone" 1 ⟨14, 30⟩, .text ⟨30, 31⟩]]], refusedStage.progress⟩ := by
    with_unfolding_all rfl
  have hloop : Stage.Step refusedRender.settings refusedRender.loader
      ⟨[.nodes refusedRender.visit ⟨refusedRender.scope, []⟩
        [.loop "rows" [.embed "gone" 1 ⟨14, 30⟩, .text ⟨30, 31⟩]]], refusedStage.progress⟩
      ⟨[.rows refusedRender.visit ⟨refusedRender.scope, []⟩
          [.embed "gone" 1 ⟨14, 30⟩, .text ⟨30, 31⟩] [.empty, .empty],
        .nodes refusedRender.visit ⟨refusedRender.scope, []⟩ []], refusedStage.progress⟩ := by
    with_unfolding_all rfl
  have hrow : Stage.Step refusedRender.settings refusedRender.loader
      ⟨[.rows refusedRender.visit ⟨refusedRender.scope, []⟩
          [.embed "gone" 1 ⟨14, 30⟩, .text ⟨30, 31⟩] [.empty, .empty],
        .nodes refusedRender.visit ⟨refusedRender.scope, []⟩ []], refusedStage.progress⟩
      refusedStage := by
    with_unfolding_all rfl
  exact ⟨_, hb, .head htext (.head hloop (.single hrow))⟩

theorem render_ends_at_refusal_row :
    refusedRender.held.Arises ∧ refusedRender.err.room = none ∧
    refusedRender.Reaches refusedStage ∧
    refusedRender.run.out = { pieces := [Text.encode "a"] } ∧
    refusedRender.run.held.store.find? [14] = none ∧
    refusedRender.run.loads = [("gone", 1)] ∧
    ∀ y : Rendering, y.held.store.find? [14] = none →
      ∀ first, y.ComesTo [14] first → y.Tries [14] first := by
  obtain ⟨-, hout, -, -, hloads, hfind, hlater⟩ := render_ends_at_refusal refusedRender (.read ..)
    rfl refusedStage refusedRender_reaches refusedRender.visit ⟨refusedRender.scope, [.empty]⟩
    "gone" 1 ⟨14, 30⟩ ⟨_, _, rfl⟩ (.unreadable "gone" "no such template") true
    (by with_unfolding_all rfl)
  refine ⟨.read .., rfl, refusedRender_reaches, hout, hfind, ?_, fun y hy => (hlater y hy).2.2⟩
  rw [hloads]
  with_unfolding_all rfl

end Stencil
