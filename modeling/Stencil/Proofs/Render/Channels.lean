import Stencil.Proofs.Render.Depth
import Stencil.Proofs.Render.Keeping

/-! What is told of a render.
A diagnostic is told twice: as a line in the sink for diagnostics, when it is come upon, and in the
error that the render ends with. The main statement says that the two agree, and when the
diagnostics of included templates are told. -/
namespace Stencil

namespace Render

variable {settings : Settings} {loader : Loader} {p : Progress}

theorem lines_eq_nil {ds : List Diagnostic} : lines ds = [] ↔ ds = [] := by
  cases ds with
  | nil => simp
  | cons d ds =>
    have hd : Text.encode (d.text ++ "\n") ≠ [] := by
      unfold Text.encode
      rw [String.toList_append, Text.bytes_append]
      exact List.append_ne_nil_of_right_ne_nil _ (by decide)
    simp [lines, hd]

/-- The result tells these diagnostics, and their lines are what the sink has been given. A render
succeeds if the sink has been given nothing, and only then. -/
structure Tells (ds : List Diagnostic) (result : Except RenderError Unit) (before after : Sink) :
    Prop where
  eq : result = if ds = [] then .ok () else .error (.template ds)
  contents : after.contents = before.contents ++ lines ds
  ok_iff : result = .ok () ↔ after.contents = before.contents

theorem tells_of_eq {ds : List Diagnostic} {result : Except RenderError Unit} {before after : Sink}
    (hr : result = if ds = [] then .ok () else .error (.template ds))
    (hc : after.contents = before.contents ++ lines ds) : Tells ds result before after := by
  refine ⟨hr, hc, ?_⟩
  rw [hr, hc]
  by_cases h : ds = []
  · simp [h]
  · simp [h, lines_eq_nil]

theorem meets_report_out (d : Diagnostic) :
    Meets (report d) p (fun _ p' => p'.out = p.out) (fun _ p' => p'.out = p.out) := by
  rw [meets_report]
  cases p.err.write (Text.encode (d.text ++ "\n")) with
  | mk err taken => cases taken <;> rfl

theorem meets_reportAll_out (ds : List Diagnostic) :
    Meets (reportAll ds) p (fun _ p' => p'.out = p.out) (fun _ p' => p'.out = p.out) := by
  induction ds generalizing p with
  | nil => exact rfl
  | cons d ds ih =>
    rw [reportAll, meets_bind]
    refine (meets_report_out d).mono (fun _ p' hd => ?_) fun _ _ hd => hd
    exact ih.mono (fun _ _ h => h.trans hd) fun _ _ h => h.trans hd

theorem meets_resolve_out {v : Visit} {reference : String} {line : Nat} {span : Span} :
    Meets (resolve settings loader v reference line span) p (fun _ p' => p'.out = p.out)
      (fun _ p' => p'.out = p.out) := by
  have hfinding (found : Found) : (p.finding v reference found).out = p.out := by
    rw [Progress.finding_eq]
  rw [meets_resolve_iff]
  cases look settings loader v reference span p with
  | kept t => exact rfl
  | refused problem asked =>
    dsimp only
    rw [meets_halt]
    exact (meets_report_out _).mono (fun _ _ h => h.trans (hfinding _))
      fun _ _ h => h.trans (hfinding _)
  | read t =>
    exact (meets_reportAll_out _).mono (fun _ _ h => h.trans (hfinding _))
      fun _ _ h => h.trans (hfinding _)

theorem resolve_of_kept {v : Visit} {reference : String} {span : Span} {t : Template} (line : Nat)
    (h : look settings loader v reference span p = .kept t) :
    resolve settings loader v reference line span p = .ok (some ⟨t, v.inside span⟩) p := by
  let kept : EStateM.Result WriteError Progress (Option Visit) := .ok (some ⟨t, v.inside span⟩) p
  refine (meets_result (P := (· = kept))).mp ?_
  rw [meets_resolve_iff, h]

end Render

namespace Stage

variable {settings : Settings} {loader : Loader} {a b s : Stage} {position : Position}

/-- Something is kept at the position of a template that is being rendered, and at those on the way
to it. -/
def Enters (s : Stage) (v : Visit) : Prop :=
  ∀ position, position <:+ v.position → position ≠ [] →
    (s.progress.store.find? position).isSome

theorem isSome_of_reaches (h : Reaches settings loader a b)
    (ha : (a.progress.store.find? position).isSome) :
    (b.progress.store.find? position).isSome := by
  obtain ⟨t, ht⟩ := Option.isSome_iff_exists.mp ha
  exact Option.isSome_of_eq_some (find?_of_reaches h ht)

theorem Step.enters (h : Step settings loader a b) (ha : ∀ task ∈ a.agenda, a.Enters task.visit) :
    ∀ task ∈ b.agenda, b.Enters task.visit := by
  have hstays (v : Visit) (hv : a.Enters v) : b.Enters v :=
    fun position hs hne => isSome_of_reaches (.single h) (hv position hs hne)
  refine h.forall_visits ha hstays ?_
  intro v nested reference span hv hr position hs hne
  -- the position of the inclusion has just been filled, and the ones further out were before
  have hkept := hr.find?_of_nested
  rw [hr.position_of_nested] at hkept hs
  rcases List.suffix_cons_iff.mp hs with rfl | hs
  · exact Option.isSome_of_eq_some hkept
  · exact hstays v hv position hs hne

theorem Step.fills_or_done (h : Step settings loader a b) (ha : a.At position) :
    (b.progress.store.find? position).isSome ∨ b.agenda = [] := by
  obtain ⟨v, c, reference, line, span, hf, rfl⟩ := ha
  obtain ⟨found, hok⟩ := h.resolve_of_faces hf
  have hr := Render.meets_resolves.of_ok hok
  cases found with
  | none =>
    obtain ⟨left, rest, hagenda⟩ := hf
    rw [h.unique (step_of_faces hagenda hok)]
    exact .inr rfl
  | some nested =>
    have hkept := hr.find?_of_nested
    rw [hr.position_of_nested] at hkept
    exact .inl (Option.isSome_of_eq_some hkept)

/-- No stage before one that goes on with the position empty is at the position. -/
theorem avoids_of_reaches (h : Reaches settings loader a s)
    (hs : s.progress.store.find? position = none) (hne : s.agenda ≠ []) :
    Relation.ReflTransGen (fun a b => Step settings loader a b ∧ ¬ a.At position) a s := by
  induction h using Relation.ReflTransGen.head_induction_on with
  | refl => exact .refl
  | @head a b hstep hrest ih =>
    refine .head ⟨hstep, fun hat => ?_⟩ ih
    rcases hstep.fills_or_done hat with hfull | hdone
    · have hstays := isSome_of_reaches hrest hfull
      rw [hs] at hstays
      cases hstays
    · rcases hrest.cases_head with rfl | ⟨b', hb', -⟩
      · exact hne hdone
      · obtain ⟨agenda, p⟩ := b
        simp only at hdone
        subst hdone
        exact hb'

end Stage

namespace Rendering

variable {x : Rendering} {s s' : Stage}

theorem Begins.reports (h : x.Begins s) :
    x.progress.Reports x.held.template.diagnostics s.progress :=
  (Render.meets_reportAll_lines _).of_ok h.1

theorem Begins.out (h : x.Begins s) : s.progress.out = x.out :=
  (Render.meets_reportAll_out _).of_ok h.1

/-- Wherever the render comes through, the lines of what it has reported have been written, and what
was wrong with the held template has been reported before all else. -/
theorem Reaches.told (h : x.Reaches s) :
    s.progress.err.contents = x.err.contents ++ Render.lines s.progress.reported ∧
      x.held.template.diagnostics <+: s.progress.reported := by
  refine h.keeps (P := fun s =>
    s.progress.err.contents = x.err.contents ++ Render.lines s.progress.reported ∧
      x.held.template.diagnostics <+: s.progress.reported) ?_ ?_
  · intro first hb
    have hreported : first.progress.reported = x.held.template.diagnostics :=
      hb.reports.reported
    rw [hreported]
    exact ⟨hb.reports.contents, List.prefix_rfl⟩
  · rintro a b ⟨hc, hp⟩ hstep
    obtain ⟨ds, hreported, herr⟩ := hstep.adds
    rw [hreported, herr, hc, Render.lines_append, List.append_assoc]
    exact ⟨rfl, hp.trans (List.prefix_append _ _)⟩

theorem Reaches.enters (h : x.Reaches s) : ∀ task ∈ s.agenda, s.Enters task.visit := by
  refine h.keeps (P := fun s => ∀ task ∈ s.agenda, s.Enters task.visit) ?_
    fun _ _ ha hstep => hstep.enters ha
  rintro first ⟨-, ha⟩ task hm position hs hne
  rw [ha] at hm
  cases List.mem_singleton.mp hm
  exact (hne (List.suffix_nil.mp hs)).elim

/-- At the stage `s` the render comes to the inclusion at the position for the first time, and reads
its template. Nothing at the position or further in has been begun by then. The step to `s'` writes
a line for everything that is wrong with the template, and no output, and enters the template. -/
structure FirstVisit (x : Rendering) (position : Position) (t : Template) (s s' : Stage) : Prop where
  comes : x.ComesTo position s
  unvisited : ∀ m, x.Reaches m → Stage.Reaches x.settings x.loader m s →
    ∀ task ∈ m.agenda, ¬ position <:+ task.visit.position
  reads : ∃ v c reference line span, s.Faces v c reference line span ∧ v.inside span = position ∧
    Render.look x.settings x.loader v reference span s.progress = .read t
  step : Stage.Step x.settings x.loader s s'
  out : s'.progress.out = s.progress.out
  err : s'.progress.err.contents = s.progress.err.contents ++ Render.lines t.diagnostics
  reported : s'.progress.reported = s.progress.reported ++ t.diagnostics
  enters : ∃ c rest, s'.agenda = .nodes ⟨t.quiet, position⟩ c t.root :: rest

section Faces

variable {v : Visit} {c : Context} {reference : String} {line : Nat} {span : Span}

theorem Reaches.firstVisit (hs : x.Reaches s) (hf : s.Faces v c reference line span) {t : Template}
    (hl : Render.look x.settings x.loader v reference span s.progress = .read t)
    (hstep : Stage.Step x.settings x.loader s s') : x.FirstVisit (v.inside span) t s s' := by
  have hempty := Render.find?_of_read hl
  obtain ⟨found, hok⟩ := hstep.resolve_of_faces hf
  obtain ⟨q, hreport, rfl, hprogress⟩ := Render.exists_reportAll hl hok
  have hreports := (Render.meets_reportAll_lines t.diagnostics).of_ok hreport
  have hout := Render.meets_resolve_out.of_ok hok
  obtain ⟨left, rest, ha⟩ := id hf
  have hagenda : s'.agenda = .nodes ⟨t.quiet, v.inside span⟩ c t.root :: .nodes v c left :: rest :=
    congrArg Stage.agenda (hstep.unique (Stage.step_of_faces ha hok))
  obtain ⟨first, hb, hfirst⟩ := id hs
  refine ⟨⟨⟨v, c, reference, line, span, hf, rfl⟩, first, hb, ?_⟩, ?_,
    ⟨v, c, reference, line, span, hf, rfl, hl⟩, hstep, hout, ?_, ?_, c, _, hagenda⟩
  · exact Stage.avoids_of_reaches hfirst hempty (by simp [ha])
  · intro m hm hms task htask hsuffix
    have hfull := hm.enters task htask _ hsuffix (List.cons_ne_nil _ _)
    have hstays := Stage.isSome_of_reaches hms hfull
    rw [hempty] at hstays
    cases hstays
  · rw [hprogress]
    exact hreports.contents
  · rw [hprogress]
    exact hreports.reported

/-- At the stage an inclusion is refused, and this is the report of its tag. -/
def Refuses (x : Rendering) (s : Stage) (d : Diagnostic) : Prop :=
  x.Reaches s ∧ ∃ v c reference line span problem asked, s.Faces v c reference line span ∧
    Render.look x.settings x.loader v reference span s.progress = .refused problem asked ∧
    d = v.template.diagnostic problem line span

theorem Refuses.result {d : Diagnostic} (h : x.Refuses s d) (hx : x.held.Arises)
    (hr : Render.Finishes x.run.result) :
    x.run.result = .error (.template (s.progress.reported ++ [d])) ∧
      x.run.out = s.progress.out ∧ x.run.held.store = s.progress.store ∧
      x.run.err.contents = s.progress.err.contents ++ Render.lines [d] := by
  obtain ⟨hs, v, c, reference, line, span, problem, asked, hf, hl, rfl⟩ := h
  obtain ⟨left, rest, ha⟩ := id hf
  obtain ⟨s', hstep⟩ := hs.exists_step hx hr (by simp [ha])
  obtain ⟨hrun, herr⟩ := hs.run_of_step_of_refused hx hf hl hstep
  refine ⟨?_, ?_, ?_, by simp [herr, Render.lines]⟩
  · rw [hrun, Progress.finding_eq]
    simp [leaves, Render.refusing]
  · rw [hrun, Progress.finding_eq]
    rfl
  · rw [hrun, Progress.finding_eq]
    rfl

/-- What a render that no write stops does at an inclusion. A kept template is entered, and nothing
is reported of it; one that is read is visited for the first time; and where there is none, the
report of the tag is the last thing that is told, and nothing more is written to the output. -/
def Includes (x : Rendering) (s : Stage) (v : Visit) (c : Context) (reference : String) (line : Nat)
    (span : Span) : Prop :=
  match Render.look x.settings x.loader v reference span s.progress with
  | .kept t => ∃ rest, Stage.Step x.settings x.loader s
      ⟨.nodes ⟨t, v.inside span⟩ c t.root :: rest, s.progress⟩
  | .read t => ∃ s', x.FirstVisit (v.inside span) t s s'
  | .refused problem _ => x.run.out = s.progress.out ∧ x.run.result =
      .error (.template (s.progress.reported ++ [v.template.diagnostic problem line span]))

theorem Reaches.includes (hs : x.Reaches s) (hx : x.held.Arises)
    (hr : Render.Finishes x.run.result) (hf : s.Faces v c reference line span) :
    x.Includes s v c reference line span := by
  obtain ⟨left, rest, ha⟩ := id hf
  obtain ⟨s', hstep⟩ := hs.exists_step hx hr (by simp [ha])
  unfold Includes
  cases hl : Render.look x.settings x.loader v reference span s.progress with
  | kept t => exact ⟨_, Stage.step_of_faces ha (Render.resolve_of_kept line hl)⟩
  | read t => exact ⟨s', hs.firstVisit hf hl hstep⟩
  | refused problem asked =>
    have hd : x.Refuses s (v.template.diagnostic problem line span) :=
      ⟨hs, v, c, reference, line, span, problem, asked, hf, hl, rfl⟩
    obtain ⟨hresult, hout, -⟩ := hd.result hx hr
    exact ⟨hout, hresult⟩

end Faces

/-- Every template that is rendered is the held one, is kept from before, or has been visited for the
first time. -/
theorem Reaches.visited_before (h : x.Reaches s) {task : Task} (hm : task ∈ s.agenda) :
    (task.visit.position = [] ∧ task.visit.template = x.held.template.quiet) ∨
      x.held.store.find? task.visit.position = some task.visit.template ∨
      ∃ t a b, x.FirstVisit task.visit.position t a b ∧ task.visit.template = t.quiet ∧
        Stage.Reaches x.settings x.loader b s := by
  rcases h.knows task hm with hroot | hkept
  · exact .inl hroot
  obtain ⟨first, hb, hfirst⟩ := h
  have hstore : first.progress.store = x.held.store := hb.writes.store
  cases hk : x.held.store.find? task.visit.position with
  | some t =>
    have ht := Stage.find?_of_reaches hfirst (hstore ▸ hk)
    rw [hkept] at ht
    exact .inr (.inl ht.symm)
  | none =>
    obtain ⟨a, b, ha, hstep, hrest, hempty, hfull⟩ :=
      Stage.exists_fill hfirst (hstore ▸ hk) hkept
    obtain ⟨v, c, reference, line, span, read, q, hf, hplace, hl, ht, -⟩ :=
      hstep.exists_read hempty hfull
    have hreaches : x.Reaches a := ⟨first, hb, ha⟩
    exact .inr (.inr ⟨read, a, b, hplace ▸ hreaches.firstVisit hf hl hstep, ht, hrest⟩)

theorem exists_tells (hx : x.held.Arises) (hr : Render.Finishes x.run.result) :
    ∃ first later, x.Begins first ∧ first.progress.out = x.out ∧
      first.progress.reported = x.held.template.diagnostics ∧
      first.progress.err.contents =
        x.err.contents ++ Render.lines x.held.template.diagnostics ∧
      Render.Tells (x.held.template.diagnostics ++ later) x.run.result x.err x.run.err := by
  obtain ⟨p, hlast⟩ := exists_last hx hr
  obtain ⟨hc, later, hlater⟩ := hlast.told
  obtain ⟨first, hb, -⟩ := id hlast
  have hrun : x.run = x.leaves (.ok () p) := hlast.run_of_ends hx rfl
  refine ⟨first, later, hb, hb.out, hb.reports.reported, hb.reports.contents, ?_⟩
  rw [hlater, hrun]
  exact Render.tells_of_eq rfl hc

end Rendering

/-- What rendering a source tells, if no write has stopped it. -/
theorem Source.exists_tells (settings : Settings) (loader : Loader) (source : Source)
    (scope : Scope) (out err : Sink)
    (hr : Render.Finishes (source.render settings loader scope out err).result) :
    ∃ ds, Render.Tells ds (source.render settings loader scope out err).result err
        (source.render settings loader scope out err).err ∧
      (source.rendering? settings loader scope out err = none → ∃ d, ds = [d]) ∧
      ∀ x, source.rendering? settings loader scope out err = some x →
        x.Fresh ∧ source.render settings loader scope out err = x.run.outcome ∧
          x.held.template.diagnostics <+: ds := by
  cases hx : source.rendering? settings loader scope out err with
  | some x =>
    have hrun := render_of_rendering? hx
    obtain ⟨-, -, hfresh⟩ := fresh_of_rendering? hx
    obtain ⟨-, herr⟩ := sinks_of_rendering? hx
    rw [hrun] at hr ⊢
    obtain ⟨-, later, -, -, -, -, htells⟩ := Rendering.exists_tells hfresh.arises hr
    refine ⟨_, herr ▸ htells, nofun, ?_⟩
    rintro _ ⟨⟩
    exact ⟨hfresh, rfl, List.prefix_append _ _⟩
  | none =>
    -- the report of the source is all that is written
    obtain ⟨d, loads, hunread⟩ := exists_render_eq_unread hx
    let p : Progress := { out, err, store := {} }
    have hrender : source.render settings loader scope out err =
        unread loads (Render.report d p) := hunread out err rfl
    rw [hrender] at hr ⊢
    refine ⟨[d], ?_, fun _ => ⟨d, rfl⟩, fun _ => nofun⟩
    cases hreport : Render.report d p with
    | ok _ q =>
      have hq := (Render.meets_report_line d).of_ok hreport
      have hreported : q.reported = [d] := hq.reported
      rw [unread, hreported]
      exact Render.tells_of_eq rfl hq.contents
    | error e q =>
      rw [hreport] at hr
      exact hr.elim

/-- The two channels of diagnostics agree. If no write stops a render, of a held template or of a
source, then the lines of the diagnostics in its error, in order, are what the sink for diagnostics
has been given, and the render succeeds only if there are none. What is wrong with the held template
comes first. What is wrong with an included one is written when its inclusion is come to for the
first time, and nothing at its position or further in is begun before. -/
theorem channels_agree :
    (∀ x : Rendering, x.held.Arises → Render.Finishes x.run.result →
      (∃ first later, x.Begins first ∧ first.progress.out = x.out ∧
        first.progress.reported = x.held.template.diagnostics ∧
        first.progress.err.contents =
          x.err.contents ++ Render.lines x.held.template.diagnostics ∧
        Render.Tells (x.held.template.diagnostics ++ later) x.run.result x.err x.run.err) ∧
      (∀ s, x.Reaches s →
        s.progress.err.contents = x.err.contents ++ Render.lines s.progress.reported) ∧
      (∀ s, x.Reaches s → ∀ v c reference line span, s.Faces v c reference line span →
        x.Includes s v c reference line span) ∧
      ∀ s, x.Reaches s → ∀ task ∈ s.agenda,
        (task.visit.position = [] ∧ task.visit.template = x.held.template.quiet) ∨
        x.held.store.find? task.visit.position = some task.visit.template ∨
        ∃ t a b, x.FirstVisit task.visit.position t a b ∧ task.visit.template = t.quiet ∧
          Stage.Reaches x.settings x.loader b s) ∧
    ∀ settings loader (source : Source) scope out err,
      Render.Finishes (source.render settings loader scope out err).result →
      ∃ ds, Render.Tells ds (source.render settings loader scope out err).result err
          (source.render settings loader scope out err).err ∧
        (source.rendering? settings loader scope out err = none → ∃ d, ds = [d]) ∧
        ∀ x, source.rendering? settings loader scope out err = some x →
          x.Fresh ∧ source.render settings loader scope out err = x.run.outcome ∧
            x.held.template.diagnostics <+: ds := by
  refine ⟨fun x hx hr => ?_, Source.exists_tells⟩
  exact ⟨Rendering.exists_tells hx hr, fun s hs => hs.told.1,
    fun s hs v c reference line span hf => hs.includes hx hr hf,
    fun s hs task hm => hs.visited_before hm⟩

/-- A template in which something is wrong. It includes another such template, and then one that
there is not. -/
def faultySource : Source :=
  .text ("\x7b\x7bVAR \x7d\x7da\x7b\x7bINCLUDE part\x7d\x7d" ++
    "\x7b\x7bINCLUDE gone\x7d\x7dc")

def faultyLoader : Loader := Library.loader ⟨[("part", "b\x7b\x7bVAR \x7d\x7d")]⟩

theorem channels_agree_faulty :
    let outcome := faultySource.render {} faultyLoader .empty {} {}
    Render.Finishes outcome.result ∧ outcome.out.contents = Text.encode "ab" ∧
    ∃ x, faultySource.rendering? {} faultyLoader .empty {} {} = some x ∧ x.held.Arises ∧
      ∃ ds, ds.length = 3 ∧ outcome.result = .error (.template ds) ∧
        outcome.err.contents = Render.lines ds ∧ x.held.template.diagnostics <+: ds ∧
        ∀ s, x.Reaches s → ∀ v c reference line span, s.Faces v c reference line span →
          x.Includes s v c reference line span := by
  intro outcome
  have hthree : (match outcome.result with
      | .error (.template ds) => ds.length
      | _ => 0) = 3 := by decide +kernel
  have hfinishes : Render.Finishes outcome.result := by decide +kernel
  obtain ⟨hrendering, hsource⟩ := channels_agree
  obtain ⟨ds, htells, -, hx⟩ :=
    hsource {} faultyLoader faultySource .empty {} {} hfinishes
  obtain ⟨x, hrendered⟩ :
      ∃ x, faultySource.rendering? {} faultyLoader .empty {} {} = some x := ⟨_, rfl⟩
  obtain ⟨hfresh, hrun, hprefix⟩ := hx x hrendered
  have hrunFinishes : Render.Finishes x.run.outcome.result := by
    rw [← hrun]
    exact hfinishes
  obtain ⟨-, -, hincludes, -⟩ := hrendering x hfresh.arises hrunFinishes
  have hresult : outcome.result = .error (.template ds) ∧ ds.length = 3 := by
    have heq : outcome.result = if ds = [] then .ok () else .error (.template ds) := htells.eq
    by_cases hds : ds = []
    · rw [heq, if_pos hds] at hthree
      cases hthree
    · rw [heq, if_neg hds] at hthree ⊢
      exact ⟨rfl, hthree⟩
  exact ⟨hfinishes, by decide +kernel, x, hrendered, hfresh.arises, ds, hresult.2, hresult.1,
    htells.contents, hprefix, hincludes⟩

end Stencil
