import Stencil.Proofs.Render.Refusal

/-! What renders leave behind.
A render takes the diagnostics of its template and fills positions that are empty, and nothing else
of what is held changes. The main statement says when a position is filled: once all that is wrong
with its template has been written, so that a report that cannot be finished is made again by the
next render that gets there. -/
namespace Stencil

/-- The lines that report diagnostics. -/
def Render.lines (ds : List Diagnostic) : Bytes := ds.flatMap fun d => Text.encode (d.text ++ "\n")

namespace Render

@[simp] theorem lines_nil : lines [] = [] := rfl

@[simp] theorem lines_append (ds ds' : List Diagnostic) :
    lines (ds ++ ds') = lines ds ++ lines ds' := List.flatMap_append

end Render

namespace Progress

/-- The diagnostics have been reported, each in a whole line. -/
structure Reports (ds : List Diagnostic) (p p' : Progress) : Prop where
  writes : p.Writes p'
  contents : p'.err.contents = p.err.contents ++ Render.lines ds
  reported : p'.reported = p.reported ++ ds

/-- Nothing that has been written to the sink for diagnostics is lost. -/
def Grows (p p' : Progress) : Prop := p.err.contents <+: p'.err.contents

/-- Some diagnostics have been reported, each in a whole line, and nothing else has been written to
their sink. -/
def Adds (p p' : Progress) : Prop :=
  ∃ ds, p'.reported = p.reported ++ ds ∧ p'.err.contents = p.err.contents ++ Render.lines ds

variable {p p' p'' : Progress}

theorem Reports.cons {d : Diagnostic} {ds : List Diagnostic} (h : Reports [d] p p')
    (h' : Reports ds p' p'') : Reports (d :: ds) p p'' := by
  refine ⟨h.writes.trans h'.writes, ?_, ?_⟩
  · rw [h'.contents, h.contents]
    simp [Render.lines]
  · rw [h'.reported, h.reported]
    simp

theorem Reports.adds {ds : List Diagnostic} (h : Reports ds p p') : p.Adds p' :=
  ⟨ds, h.reported, h.contents⟩

theorem Adds.grows (h : p.Adds p') : p.Grows p' := by
  obtain ⟨ds, -, hc⟩ := h
  exact ⟨_, hc.symm⟩

@[refl] theorem Adds.refl (p : Progress) : p.Adds p := ⟨[], by simp, by simp [Render.lines]⟩

@[refl] theorem Grows.refl (p : Progress) : p.Grows p := List.prefix_rfl

theorem Grows.trans (h : p.Grows p') (h' : p'.Grows p'') : p.Grows p'' := List.IsPrefix.trans h h'

end Progress

namespace Render

variable {settings : Settings} {loader : Loader} {p : Progress}

theorem meets_report_line (d : Diagnostic) :
    Meets (report d) p (fun _ => p.Reports [d]) (fun _ => p.Grows) := by
  have hc := Sink.contents_write p.err (Text.encode (d.text ++ "\n"))
  refine ((meets_report_writes d).and (?_ : Meets (report d) p
    (fun _ p' => p'.err.contents = p.err.contents ++ lines [d] ∧ p'.reported = p.reported ++ [d])
    (fun _ => p.Grows))).mono (fun _ _ h => ⟨h.1, h.2.1, h.2.2⟩) fun _ _ h => h.2
  rw [meets_report]
  cases hw : p.err.write (Text.encode (d.text ++ "\n")) with
  | mk err taken =>
    rw [hw] at hc
    cases taken with
    | true =>
      rw [Sink.taken_of_write hw] at hc
      exact ⟨by simpa [lines] using hc, rfl⟩
    | false => exact ⟨_, hc.symm⟩

theorem meets_reportAll_lines (ds : List Diagnostic) :
    Meets (reportAll ds) p (fun _ => p.Reports ds) (fun _ => p.Grows) := by
  induction ds generalizing p with
  | nil => exact ⟨.refl p, by simp [lines], by simp⟩
  | cons d ds ih =>
    rw [reportAll, meets_bind]
    refine (meets_report_line d).mono ?_ fun _ _ h => h
    intro _ p' hd
    exact ih.mono (fun _ _ h => hd.cons h) fun _ _ h => hd.adds.grows.trans h

theorem meets_emit_adds (e : Emission) :
    Meets (emit e) p (fun _ => p.Adds) (fun _ => p.Grows) := by
  rw [meets_emit]
  cases hw : e.writeTo p.out with
  | mk out result =>
    cases result with
    | ok _ => exact .refl p
    | error _ => exact .refl p

theorem meets_finding_adds {v : Visit} {reference : String} {found : Found} {α : Type}
    {m : Walk α} (h : Meets m (p.finding v reference found)
      (fun _ => (p.finding v reference found).Adds)
      (fun _ => (p.finding v reference found).Grows)) :
    Meets m (p.finding v reference found) (fun _ => p.Adds) (fun _ => p.Grows) := by
  have hreported : (p.finding v reference found).reported = p.reported := by
    rw [Progress.finding_eq]
  refine h.mono ?_ ?_
  · rintro _ p' ⟨ds, hr, hc⟩
    rw [hreported] at hr
    rw [Progress.err_finding] at hc
    exact ⟨ds, hr, hc⟩
  · intro _ p' hg
    rwa [Progress.Grows, Progress.err_finding] at hg

theorem meets_resolve_adds {v : Visit} {reference : String} {line : Nat} {span : Span} :
    Meets (resolve settings loader v reference line span) p (fun _ => p.Adds)
      (fun _ => p.Grows) := by
  rw [meets_resolve_iff]
  cases look settings loader v reference span p with
  | kept t => exact .refl p
  | refused problem asked =>
    simp only
    rw [meets_halt]
    exact meets_finding_adds ((meets_report_line _).mono (fun _ _ h => h.adds) fun _ _ h => h)
  | read t =>
    exact meets_finding_adds
      ((meets_reportAll_lines t.diagnostics).mono (fun _ _ h => h.adds) fun _ _ h => h)

theorem meets_doTask_adds (rest : Agenda) (task : Task) :
    Meets (doTask settings loader rest task) p (fun _ => p.Adds) (fun _ => p.Grows) := by
  rcases doTask_eq settings loader rest task with
    ⟨v, c, reference, line, span, left, rfl⟩ | ⟨e, agenda, he⟩
  · rw [doTask, doNode, meets_bind]
    exact meets_resolve_adds
  · rw [he, meets_bind]
    exact meets_emit_adds e

theorem resolve_of_read {v : Visit} {reference : String} {span : Span} {t : Template} (line : Nat)
    (h : look settings loader v reference span p = .read t) :
    resolve settings loader v reference line span p =
      match reportAll t.diagnostics (p.asking v reference) with
      | .ok _ q => .ok (some ⟨t.quiet, v.inside span⟩) (q.filling (v.inside span) t.quiet)
      | .error e q => .error e q := by
  let whole : EStateM.Result WriteError Progress (Option Visit) :=
    match reportAll t.diagnostics (p.asking v reference) with
    | .ok _ q => .ok (some ⟨t.quiet, v.inside span⟩) (q.filling (v.inside span) t.quiet)
    | .error e q => .error e q
  refine (meets_result (P := (· = whole))).mp ?_
  rw [meets_resolve_iff, h]
  show Meets _ (p.asking v reference) _ _
  unfold Meets whole
  cases reportAll t.diagnostics (p.asking v reference) <;> rfl

theorem exists_reportAll {v : Visit} {reference : String} {line : Nat} {span : Span} {t : Template}
    {found : Option Visit} {p' : Progress}
    (hl : look settings loader v reference span p = .read t)
    (h : resolve settings loader v reference line span p = .ok found p') :
    ∃ q, reportAll t.diagnostics (p.asking v reference) = .ok () q ∧
      found = some ⟨t.quiet, v.inside span⟩ ∧ p' = q.filling (v.inside span) t.quiet := by
  rw [resolve_of_read line hl] at h
  cases hr : reportAll t.diagnostics (p.asking v reference) with
  | ok _ q =>
    rw [hr] at h
    injection h with hfound hprogress
    exact ⟨q, rfl, hfound.symm, hprogress.symm⟩
  | error e q =>
    rw [hr] at h
    cases h

theorem find?_of_read {v : Visit} {reference : String} {span : Span} {t : Template}
    (h : look settings loader v reference span p = .read t) :
    p.store.find? (v.inside span) = none := by
  unfold look at h
  split at h
  · cases h
  · assumption

theorem Resolves.find?_of_some {v : Visit} {reference : String} {span : Span}
    {found : Option Visit} {p' : Progress} {position : Position} {t : Template}
    (h : Resolves settings loader v reference span p found p')
    (ht : p.store.find? position = some t) : p'.store.find? position = some t := by
  by_cases hp : position = v.inside span
  · subst hp
    cases h with
    | kept _ => exact ht
    | @refused problem asked q _ hq =>
      have hstore : q.store = p.store := by rw [hq.store, Progress.store_finding]
      exact (congrArg (fun store => store.find? (v.inside span)) hstore).trans ht
    | read hl _ =>
      rw [find?_of_read hl] at ht
      cases ht
  · rw [h.find?_of_ne hp, ht]

theorem Resolves.position_of_nested {v nested : Visit} {reference : String} {span : Span}
    {p' : Progress} (h : Resolves settings loader v reference span p (some nested) p') :
    nested.position = v.inside span := by
  cases h with
  | kept _ => rfl
  | read _ _ => rfl

theorem Resolves.find?_of_nested {v nested : Visit} {reference : String} {span : Span}
    {p' : Progress} (h : Resolves settings loader v reference span p (some nested) p') :
    p'.store.find? nested.position = some nested.template := by
  cases h with
  | kept hl => exact find?_of_look hl
  | @read t q hl hq =>
    have hstore : q.store = p.store := hq.store
    show (q.store.fill (v.inside span) t.quiet).find? (v.inside span) = some t.quiet
    rw [Store.find?_fill, if_pos rfl, hstore, find?_of_read hl]
    rfl

end Render

namespace Stage

variable {settings : Settings} {loader : Loader} {a b s : Stage}

theorem Step.adds (h : Step settings loader a b) : a.progress.Adds b.progress := by
  obtain ⟨agenda, p⟩ := a
  cases agenda with
  | nil => exact h.elim
  | cons task rest => exact (Render.meets_doTask_adds rest task).of_ok h

theorem Ends.grows {r : Ending} (h : Ends settings loader s r) :
    s.progress.Grows r.progress := by
  obtain ⟨agenda, p⟩ := s
  cases agenda with
  | nil =>
    cases h
    exact .refl p
  | cons task rest =>
    obtain ⟨e, p', he, rfl⟩ := h
    exact (Render.meets_doTask_adds rest task).of_error he

theorem Step.find?_of_some (h : Step settings loader a b) {position : Position} {t : Template}
    (ht : a.progress.store.find? position = some t) :
    b.progress.store.find? position = some t := by
  rcases h.writes_or_resolves with hw | ⟨v, c, reference, line, span, found, hf, hr⟩
  · rw [hw.store, ht]
  · exact hr.find?_of_some ht

theorem exists_fill (h : Reaches settings loader a b) {position : Position} {t : Template}
    (ha : a.progress.store.find? position = none)
    (hb : b.progress.store.find? position = some t) :
    ∃ s s', Reaches settings loader a s ∧ Step settings loader s s' ∧
      Reaches settings loader s' b ∧ s.progress.store.find? position = none ∧
      s'.progress.store.find? position = some t := by
  induction h with
  | refl =>
    rw [ha] at hb
    cases hb
  | @tail m b hm hstep ih =>
    cases hk : m.progress.store.find? position with
    | none => exact ⟨m, b, hm, hstep, .refl, hk, hb⟩
    | some u =>
      obtain rfl : u = t := by
        have := hstep.find?_of_some hk
        rw [hb] at this
        cases this
        rfl
      obtain ⟨s, s', hs, hss', hs', hnone, hsome⟩ := ih hk
      exact ⟨s, s', hs, hss', hs'.tail hstep, hnone, hsome⟩

theorem find?_of_reaches (h : Reaches settings loader a b) {position : Position} {t : Template}
    (ha : a.progress.store.find? position = some t) :
    b.progress.store.find? position = some t :=
  keeps_of_reaches (P := fun b => b.progress.store.find? position = some t) h ha
    fun _ _ hb hstep => hstep.find?_of_some hb

theorem grows_of_reaches (h : Reaches settings loader a b) : a.progress.Grows b.progress :=
  keeps_of_reaches (P := fun b => a.progress.Grows b.progress) h (.refl a.progress)
    fun _ _ hg hstep => hg.trans hstep.adds.grows

/-- The template of the visit is `root` itself, or it is kept at its position. -/
def Knows (root : Template) (s : Stage) (v : Visit) : Prop :=
  (v.position = [] ∧ v.template = root) ∨ s.progress.store.find? v.position = some v.template

theorem Step.knows {root : Template} (h : Step settings loader a b)
    (ha : ∀ task ∈ a.agenda, a.Knows root task.visit) :
    ∀ task ∈ b.agenda, b.Knows root task.visit := by
  refine h.forall_visits ha ?_ fun _ _ _ _ _ hr => .inr hr.find?_of_nested
  rintro v (hroot | hkept)
  · exact .inl hroot
  · exact .inr (h.find?_of_some hkept)

/-- A step that fills a position is an inclusion whose template is read, and whose diagnostics have
all been reported. -/
theorem Step.exists_read (h : Step settings loader a b) {position : Position} {t : Template}
    (ha : a.progress.store.find? position = none)
    (hb : b.progress.store.find? position = some t) :
    ∃ v c reference line span read q, a.Faces v c reference line span ∧
      v.inside span = position ∧
      Render.look settings loader v reference span a.progress = .read read ∧ t = read.quiet ∧
      (a.progress.asking v reference).Reports read.diagnostics q ∧
      b.progress = q.filling position t := by
  rcases h.writes_or_resolves with hw | ⟨v, c, reference, line, span, found, hf, hr⟩
  · rw [hw.store, ha] at hb
    cases hb
  · obtain rfl : v.inside span = position := by
      refine Decidable.byContradiction fun hne => ?_
      rw [hr.find?_of_ne (Ne.symm hne), ha] at hb
      cases hb
    obtain ⟨found', hok⟩ := h.resolve_of_faces hf
    generalize b.progress = p' at hr hb hok
    cases hr with
    | kept hl =>
      rw [Render.find?_of_look hl] at ha
      cases ha
    | @refused problem asked q hl hq =>
      have hstore : q.store = a.progress.store := by rw [hq.store, Progress.store_finding]
      rw [show Progress.store _ = q.store from rfl, hstore, ha] at hb
      cases hb
    | @read read q hl _ =>
      obtain ⟨q', hreport, -, hprogress⟩ := Render.exists_reportAll hl hok
      have hreports := (Render.meets_reportAll_lines read.diagnostics).of_ok hreport
      obtain rfl : read.quiet = t := by
        have hstore : q'.store = a.progress.store := hreports.writes.store
        rw [hprogress] at hb
        simpa [Progress.filling, Store.find?_fill, hstore, ha] using hb
      exact ⟨v, c, reference, line, span, read, q', hf, rfl, hl, rfl, hreports, hprogress⟩

end Stage

namespace Rendering

variable {x : Rendering} {s : Stage}

theorem Reaches.knows (h : x.Reaches s) :
    ∀ task ∈ s.agenda, s.Knows x.held.template.quiet task.visit := by
  refine h.keeps (P := fun s => ∀ task ∈ s.agenda, s.Knows x.held.template.quiet task.visit) ?_
    fun _ _ ha hstep => hstep.knows ha
  rintro first ⟨-, ha⟩
  rw [ha]
  rintro task hm
  cases List.mem_singleton.mp hm
  exact .inl ⟨rfl, rfl⟩

/-- At the stage `s` the render fills a position with `t`, which the loader gives as `read`. By the
progress `q` everything that is wrong with it has been written. -/
structure Fills (x : Rendering) (position : Position) (t : Template) (s : Stage) (v : Visit)
    (reference : String) (span : Span) (read : Template) (q : Progress) : Prop where
  reaches : x.Reaches s
  faces : ∃ c line, s.Faces v c reference line span
  place : v.inside span = position
  includer : s.Knows x.held.template.quiet v
  empty : s.progress.store.find? position = none
  reads : Render.look x.settings x.loader v reference span s.progress = .read read
  quiet : t = read.quiet
  depth : t.depth = v.template.depth + 1
  reports : (s.progress.asking v reference).Reports read.diagnostics q
  fills : ∃ agenda, Stage.Step x.settings x.loader s ⟨agenda, q.filling position t⟩
  written : q.err.contents <+: x.run.err.contents

@[simp] theorem err_leaves (x : Rendering) (r : Ending) : (x.leaves r).err = r.progress.err := by
  cases r <;> rfl

theorem Reaches.find?_run (h : x.Reaches s) (hx : x.held.Arises) {position : Position}
    {t : Template} (ht : s.progress.store.find? position = some t) :
    x.run.held.store.find? position = some t := by
  obtain ⟨last, hl, hend⟩ := h.yields hx.coherent
  rw [x.run_eq_leaves, held_leaves, hend.store]
  exact Stage.find?_of_reaches hl ht

theorem Reaches.grows_run (h : x.Reaches s) (hx : x.held.Arises) :
    s.progress.err.contents <+: x.run.err.contents := by
  obtain ⟨last, hl, hend⟩ := h.yields hx.coherent
  rw [x.run_eq_leaves, err_leaves]
  exact (Stage.grows_of_reaches hl).trans hend.grows

theorem run_leaves_last (hx : x.held.Arises) : x.run.held.store = x.held.store ∨
    ∃ first last, x.Begins first ∧ Stage.Reaches x.settings x.loader first last ∧
      x.run.held.store = last.progress.store := by
  obtain ⟨r, hy, hrun⟩ : ∃ r : Ending, x.Yields r ∧ x.run = x.leaves r :=
    ⟨_, x.yields_start hx.coherent, x.run_eq_leaves⟩
  rw [hrun, held_leaves]
  rcases hy.begins_or_writes with ⟨first, hb, last, hlast, hend⟩ | ⟨e, p, rfl, hw⟩
  · exact .inr ⟨first, last, hb, hlast, hend.store⟩
  · exact .inl hw.store

theorem exists_fills (hx : x.held.Arises) {position : Position} {t : Template}
    (hnone : x.held.store.find? position = none)
    (hsome : x.run.held.store.find? position = some t) :
    ∃ s v reference span read q, x.Fills position t s v reference span read q := by
  rcases x.run_leaves_last hx with hrun | ⟨first, last, hb, hlast, hrun⟩
  · rw [hrun, hnone] at hsome
    cases hsome
  · rw [hrun] at hsome
    have hfirst : first.progress.store.find? position = none := by
      rw [hb.writes.store]
      exact hnone
    obtain ⟨s, s', hs, hstep, -, hempty, hfull⟩ := Stage.exists_fill hlast hfirst hsome
    obtain ⟨v, c, reference, line, span, read, q, hf, rfl, hl, rfl, hreports, hprogress⟩ :=
      hstep.exists_read hempty hfull
    have hreaches : x.Reaches s := ⟨first, hb, hs⟩
    obtain ⟨left, hm⟩ := hf.exists_mem
    have hdepth : read.depth = v.template.depth + 1 :=
      Template.depth_of_load (Render.load_of_look hl).2
    have hq : q.Grows s'.progress := by
      rw [hprogress]
      exact .refl q
    exact ⟨s, v, reference, span, read, q, hreaches, ⟨c, line, hf⟩, rfl, hreaches.knows _ hm,
      hempty, hl, rfl, hdepth, hreports, ⟨s'.agenda, hprogress ▸ hstep⟩,
      List.IsPrefix.trans hq ((hreaches.tail hstep).grows_run hx)⟩

theorem find?_run (hx : x.held.Arises) {position : Position} {t : Template}
    (ht : x.held.store.find? position = some t) :
    x.run.held.store.find? position = some t := by
  rcases x.run_leaves_last hx with hrun | ⟨first, -, hb, -, -⟩
  · rw [hrun, ht]
  · have hfirst : first.progress.store.find? position = some t := by
      rw [hb.writes.store]
      exact ht
    exact Reaches.find?_run ⟨first, hb, .refl⟩ hx hfirst

/-- A render ends where the diagnostics of an included template cannot all be written, and leaves
its position empty. -/
theorem Reaches.run_of_unreported (hs : x.Reaches s) (hx : x.held.Arises) {v : Visit} {c : Context}
    {reference : String} {line : Nat} {span : Span} (hf : s.Faces v c reference line span)
    {read : Template}
    (hl : Render.look x.settings x.loader v reference span s.progress = .read read)
    {e : WriteError} {q : Progress}
    (hr : Render.reportAll read.diagnostics (s.progress.asking v reference) = .error e q) :
    x.run.result = .error (.write e) ∧ x.run.held.store.find? (v.inside span) = none := by
  have hres := Render.resolve_of_read line hl
  rw [hr] at hres
  have hend : Stage.Ends x.settings x.loader s (.error e q) := Stage.ends_of_faces hf hres
  have hrun : x.run = x.leaves (.error e q) := hs.run_of_ends hx hend
  have hstore : q.store = s.progress.store := hend.store
  refine ⟨by rw [hrun]; rfl, ?_⟩
  rw [hrun, held_leaves, Ending.progress, hstore]
  exact Render.find?_of_read hl

/-- At this stage the inclusion at the position finds nothing that is kept. If its template is
read, then everything that is wrong with it is reported before the position is filled, and if that
fails the position stays empty. -/
def ReportsAgain (x : Rendering) (position : Position) (s : Stage) : Prop :=
  ∃ v c reference line span, s.Faces v c reference line span ∧ v.inside span = position ∧
    (∀ t, Render.look x.settings x.loader v reference span s.progress ≠ .kept t) ∧
    ∀ read, Render.look x.settings x.loader v reference span s.progress = .read read →
      Render.Meets (Render.resolve x.settings x.loader v reference line span) s.progress
        (fun found p => found = some ⟨read.quiet, position⟩ ∧
          p.store.find? position = some read.quiet ∧
          p.err.contents = s.progress.err.contents ++ Render.lines read.diagnostics ∧
          p.reported = s.progress.reported ++ read.diagnostics)
        (fun _ p => p.store.find? position = none)

theorem ComesTo.reportsAgain {position : Position} (h : x.ComesTo position s)
    (hx : x.held.store.find? position = none) : x.ReportsAgain position s := by
  have hs : s.progress.store.find? position = none := h.find?.trans hx
  obtain ⟨⟨v, c, reference, line, span, hf, rfl⟩, -⟩ := h
  refine ⟨v, c, reference, line, span, hf, rfl, fun t hl => ?_, fun read hl => ?_⟩
  · rw [Render.find?_of_look hl] at hs
    cases hs
  · rw [Render.meets_resolve_iff, hl]
    have hall := (Render.meets_reportAll_lines (p := s.progress.asking v reference)
      read.diagnostics).and (Render.meets_reportAll_writes read.diagnostics)
    refine hall.mono ?_ ?_
    · rintro _ q ⟨hreports, -⟩
      have hstore : q.store = s.progress.store := hreports.writes.store
      refine ⟨rfl, ?_, hreports.contents, hreports.reported⟩
      simp [Progress.filling, Store.find?_fill, hstore, hs]
    · rintro e q ⟨-, hw⟩
      have hstore : q.store = s.progress.store := hw.store
      rw [hstore, hs]

end Rendering

namespace Held

/-- What is held after any number of renders, each in settings of its own. -/
abbrev Renders : Held → Held → Prop :=
  Relation.ReflTransGen fun h h' => ∃ x : Rendering, x.held = h ∧ h' = x.run.held

variable {h h' : Held}

theorem Renders.arises (hr : h.Renders h') (hh : h.Arises) : h'.Arises := by
  induction hr with
  | refl => exact hh
  | tail _ hstep ih =>
    obtain ⟨x, rfl, rfl⟩ := hstep
    exact ih.rendered

theorem Renders.template (hr : h.Renders h') : h' = h ∨ h'.template = h.template.quiet := by
  induction hr with
  | refl => exact .inl rfl
  | tail _ hstep ih =>
    obtain ⟨x, rfl, rfl⟩ := hstep
    rw [x.template_run]
    rcases ih with rfl | ht
    · exact .inr rfl
    · rw [ht]
      exact .inr rfl

theorem Renders.find? (hr : h.Renders h') (hh : h.Arises) {position : Position} {t : Template}
    (ht : h.store.find? position = some t) : h'.store.find? position = some t := by
  induction hr with
  | refl => exact ht
  | tail hr hstep ih =>
    obtain ⟨x, rfl, rfl⟩ := hstep
    exact Rendering.find?_run (Renders.arises hr hh) ih

theorem Arises.quiet (hh : h.Arises) :
    h.store.Holds fun t _ => t.diagnostics = [] :=
  (hh.holds (R := fun t _ => t.diagnostics = []) (fun _ _ _ _ _ => rfl)
    fun _ _ _ _ _ _ _ _ _ _ => rfl).2

end Held

/-- Renders only fill what is empty. Of a template that is held, and rendered any number of times in
whatever settings, a render takes the diagnostics and fills positions; what a position is filled
with stays for ever, holds no diagnostics and stands one level deeper than what includes it. A
position is filled at a stage where everything that is wrong with its template has been written. A
render that fails while that is being written leaves the position empty, and whenever a later render
gets there, it finds nothing kept and reports everything again before it fills the position. -/
theorem renders_only_fill (h : Held) (hh : h.Arises) :
    (∀ position t, h.store.find? position = some t →
      t.diagnostics = [] ∧ t.depth = h.template.depth + position.length) ∧
    (∀ h', h.Renders h' → (h' = h ∨ h'.template = h.template.quiet) ∧
      ∀ position t, h.store.find? position = some t → h'.store.find? position = some t) ∧
    ∀ x : Rendering, h.Renders x.held →
      x.run.held.template = x.held.template.quiet ∧
      (∀ position t, x.held.store.find? position = none →
        x.run.held.store.find? position = some t →
        ∃ s v reference span read q, x.Fills position t s v reference span read q) ∧
      ∀ s, x.Reaches s → ∀ v c reference line span, s.Faces v c reference line span →
        ∀ read, Render.look x.settings x.loader v reference span s.progress = .read read →
        ∀ e q, Render.reportAll read.diagnostics (s.progress.asking v reference) = .error e q →
          x.run.result = .error (.write e) ∧ x.run.held.store.find? (v.inside span) = none ∧
          ∀ y : Rendering, y.held.store.find? (v.inside span) = none →
            (∀ later, y.Reaches later → later.At (v.inside span) →
              ∃ first, y.ComesTo (v.inside span) first) ∧
            ∀ first, y.ComesTo (v.inside span) first →
              y.ReportsAgain (v.inside span) first := by
  refine ⟨fun position t ht => ⟨hh.quiet position t ht, hh.coherent position t ht⟩,
    fun h' hr => ⟨hr.template, fun position t ht => hr.find? hh ht⟩, fun x hx => ?_⟩
  have hheld : x.held.Arises := hx.arises hh
  refine ⟨x.template_run, fun position t hnone hsome => x.exists_fills hheld hnone hsome, ?_⟩
  · intro s hs v c reference line span hf read hl e q hr
    obtain ⟨hresult, hempty⟩ := hs.run_of_unreported hheld hf hl hr
    exact ⟨hresult, hempty, fun y hy => ⟨fun later hlater hat => hlater.exists_comesTo hat,
      fun first hfirst => hfirst.reportsAgain hy⟩⟩

/-- A template that includes one in which something is wrong, with no room to say what. -/
def unreportedRender : Rendering where
  settings := {}
  loader := Library.loader ⟨[("part", "\x7b\x7bVAR \x7d\x7d")]⟩
  held := { template := Template.ofText {} "\x7b\x7bINCLUDE part\x7d\x7d" }
  scope := Scope.empty
  err := { room := some 5 }

/-- The render after `unreportedRender`, with room for all that is wrong. -/
def reportedRender : Rendering :=
  { unreportedRender with held := unreportedRender.run.held, err := {} }

theorem renders_only_fill_unreported :
    unreportedRender.held.Arises ∧ unreportedRender.run.result = .error (.write .full) ∧
    unreportedRender.run.held.store.find? [0] = none ∧
    (∀ first, reportedRender.ComesTo [0] first → reportedRender.ReportsAgain [0] first) ∧
    ∃ t s v reference span read q, reportedRender.run.held.store.find? [0] = some t ∧
      reportedRender.Fills [0] t s v reference span read q := by
  have hx : unreportedRender.held.Arises := .read ..
  obtain ⟨-, -, hrenders⟩ := renders_only_fill unreportedRender.held hx
  have hbegins : unreportedRender.Begins ⟨unreportedRender.agenda, unreportedRender.progress⟩ :=
    ⟨by with_unfolding_all rfl, rfl⟩
  obtain ⟨-, -, hfails⟩ := hrenders unreportedRender .refl
  obtain ⟨hresult, hempty, hagain⟩ := hfails _ ⟨_, hbegins, .refl⟩ unreportedRender.visit
    ⟨unreportedRender.scope, []⟩ "part" 1 ⟨0, 16⟩ ⟨[], [], by with_unfolding_all rfl⟩
    (Template.parse {} "part" (some "part") "\x7b\x7bVAR \x7d\x7d" 1)
    (by with_unfolding_all rfl) .full _ (by with_unfolding_all rfl)
  obtain ⟨-, hfills, -⟩ := hrenders reportedRender (.single ⟨unreportedRender, rfl, rfl⟩)
  obtain ⟨t, ht⟩ := Option.isSome_iff_exists.mp
    (by decide +kernel : (reportedRender.run.held.store.find? [0]).isSome)
  obtain ⟨s, v, reference, span, read, q, hq⟩ := hfills [0] t hempty ht
  exact ⟨hx, hresult, hempty, (hagain reportedRender hempty).2, t, s, v, reference, span, read, q,
    ht, hq⟩

end Stencil
