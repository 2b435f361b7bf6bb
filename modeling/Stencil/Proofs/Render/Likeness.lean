import Mathlib.Data.List.Forall2
import Mathlib.Data.Option.Defs
import Stencil.Proofs.Render.Channels
import Stencil.Proofs.Render.Joined

/-! Renders that differ only in what they say.
Two renders may load templates that walk alike, and report diagnostics that are alike, while the
loaders that they ask are not the same. The main statement says that they write the same output and
come to results of the same kind if what the first one asks for is answered alike. -/
namespace Stencil

/-- What two renders need not have in common of their templates and diagnostics. Templates that are
alike have the same source and tree, stand as deep, and report alike what cannot be included. -/
structure Likeness where
  templates : Template → Template → Prop
  problems : Problem → Problem → Prop
  diagnostics : Diagnostic → Diagnostic → Prop
  root : ∀ {t u}, templates t u → u.root = t.root
  source : ∀ {t u}, templates t u → u.source = t.source
  depth : ∀ {t u}, templates t u → u.depth = t.depth
  same : ∀ problem, problems problem problem
  diagnostic : ∀ {t u a b}, templates t u → problems a b → ∀ line span,
    diagnostics (t.diagnostic a line span) (u.diagnostic b line span)

namespace Likeness

variable (L : Likeness)

inductive Answers : Except Problem Template → Except Problem Template → Prop
  | template {t u : Template} : L.templates t.quiet u.quiet →
    List.Forall₂ L.diagnostics t.diagnostics u.diagnostics → Answers (.ok t) (.ok u)
  | problem {a b : Problem} : L.problems a b → Answers (.error a) (.error b)

structure Visits (v v' : Visit) : Prop where
  template : L.templates v.template v'.template
  position : v'.position = v.position

inductive Tasks : Task → Task → Prop
  | nodes {v v' : Visit} (c : Context) (left : List Node) : L.Visits v v' →
    Tasks (.nodes v c left) (.nodes v' c left)
  | rows {v v' : Visit} (owner : Context) (body : List Node) (left : List Scope) :
    L.Visits v v' → Tasks (.rows v owner body left) (.rows v' owner body left)

abbrev Agendas : Agenda → Agenda → Prop := List.Forall₂ L.Tasks

/-- Two renders have written the same output, and each has room for all that it reports. -/
structure Renders (p q : Progress) : Prop where
  out : q.out = p.out
  halted : q.halted = p.halted
  reported : List.Forall₂ L.diagnostics p.reported q.reported
  store : ∀ position,
    Option.Rel L.templates (p.store.find? position) (q.store.find? position)
  room : p.err.room = none
  room' : q.err.room = none

structure Stages (s s' : Stage) : Prop where
  agenda : L.Agendas s.agenda s'.agenda
  progress : L.Renders s.progress s'.progress

inductive Endings : Ending → Ending → Prop
  | ok {p q : Progress} : L.Renders p q → Endings (.ok () p) (.ok () q)
  | error {e : WriteError} {p q : Progress} : L.Renders p q → Endings (.error e p) (.error e q)

end Likeness

namespace Agenda

variable {L : Likeness} {rest rest' : Agenda}

theorem leave_like (level : Nat) (h : L.Agendas rest rest') :
    L.Agendas (rest.leave level) (rest'.leave level) := by
  induction h generalizing level with
  | nil => exact .nil
  | cons ht hr ih =>
    cases ht with
    | nodes c left _ => exact ih level
    | rows owner body left _ =>
      unfold leave
      split
      · exact hr
      · exact ih _

theorem next_like (level : Nat) (h : L.Agendas rest rest') :
    L.Agendas (rest.next level) (rest'.next level) := by
  induction h generalizing level with
  | nil => exact .nil
  | cons ht hr ih =>
    cases ht with
    | nodes c left _ => exact ih level
    | rows owner body left hv =>
      unfold next
      split
      · exact .cons (.rows owner body left hv) hr
      · exact ih _

theorem enter_like (c : Context) (h : L.Agendas rest rest') {found found' : Option Visit}
    (hf : Option.Rel L.Visits found found') :
    L.Agendas (enter c rest found) (enter c rest' found') := by
  cases hf with
  | none => exact .nil
  | some hv =>
    show L.Agendas (.nodes _ c _ :: rest) (.nodes _ c _ :: rest')
    rw [L.root hv.template]
    exact .cons (.nodes c _ hv) h

end Agenda

namespace Render

variable {L : Likeness} {settings : Settings} {loader loader' : Loader} {p q : Progress}
  {v v' : Visit}

theorem emit_like (e : Emission) (h : L.Renders p q) :
    InStep L.Renders (emit e) (emit e) p q := by
  unfold InStep Lockstep emit
  rw [h.out]
  cases e.writeTo p.out with
  | mk out result =>
    have hr : L.Renders { p with out } { q with out } :=
      ⟨rfl, h.halted, h.reported, h.store, h.room, h.room'⟩
    cases result with
    | ok _ => exact ⟨rfl, hr⟩
    | error error => exact ⟨rfl, hr⟩

theorem report_like {d d' : Diagnostic} (hd : L.diagnostics d d') (h : L.Renders p q) :
    InStep L.Renders (report d) (report d') p q := by
  unfold InStep Lockstep report
  rw [Sink.write_of_room h.room, Sink.write_of_room h.room']
  exact ⟨rfl, h.out, h.halted, List.rel_append h.reported (.cons hd .nil), h.store, h.room,
    h.room'⟩

theorem reportAll_like {ds ds' : List Diagnostic} (hd : List.Forall₂ L.diagnostics ds ds')
    (h : L.Renders p q) : InStep L.Renders (reportAll ds) (reportAll ds') p q := by
  induction hd generalizing p q with
  | nil => exact ⟨rfl, h⟩
  | cons hd _ ih => exact (report_like hd h).bind fun _ _ _ _ hr => ih hr.2

theorem halt_like {d d' : Diagnostic} (hd : L.diagnostics d d') (h : L.Renders p q) :
    InStep L.Renders (halt d) (halt d') p q := by
  refine (report_like hd h).bind fun _ _ p' q' hr => ?_
  exact ⟨rfl, hr.2.out, rfl, hr.2.reported, hr.2.store, hr.2.room, hr.2.room'⟩

theorem fill_like {position : Position} {t u : Template} (ht : L.templates t u)
    (h : L.Renders p q) : InStep L.Renders (fill position t) (fill position u) p q := by
  refine ⟨rfl, h.out, h.halted, h.reported, fun other => ?_, h.room, h.room'⟩
  have hstore := h.store
  show Option.Rel L.templates ((p.store.fill position t).find? other)
    ((q.store.fill position u).find? other)
  rw [Store.find?_fill, Store.find?_fill]
  split
  · have hp := hstore position
    revert hp
    cases p.store.find? position <;> cases q.store.find? position <;> intro hp
    · exact .some ht
    · cases hp
    · cases hp
    · exact hp
  · exact hstore other

/-- Both loaders are asked, where the first one is, and their answers are alike. -/
def AsksAlike (L : Likeness) (settings : Settings) (loader loader' : Loader) (v v' : Visit)
    (reference : String) (span : Span) (p q : Progress) : Prop :=
  (look settings loader v reference span p).isAsked = true →
    L.Answers
      (Template.load settings loader ⟨p.out.pieces, p.loads.length⟩ (v.template.depth + 1)
        (v.target reference))
      (Template.load settings loader' ⟨q.out.pieces, q.loads.length⟩ (v'.template.depth + 1)
        (v'.target reference))

theorem resolve_like {reference : String} (line : Nat) {span : Span} (hv : L.Visits v v')
    (h : L.Renders p q)
    (ha : AsksAlike L settings loader loader' v v' reference span p q) :
    Lockstep L.Renders (resolve settings loader v reference line span)
      (resolve settings loader' v' reference line span) p q
      fun found found' p' q' => Option.Rel L.Visits found found' ∧ L.Renders p' q' := by
  have hrefuse {problem problem' : Problem} {p q : Progress} (hp : L.problems problem problem')
      (h : L.Renders p q) :
      Lockstep L.Renders
        (do let _ ← halt (v.template.diagnostic problem line span); pure (none : Option Visit))
        (do let _ ← halt (v'.template.diagnostic problem' line span); pure (none : Option Visit))
        p q fun found found' p' q' => Option.Rel L.Visits found found' ∧ L.Renders p' q' :=
    (halt_like (L.diagnostic hv.template hp line span) h).bind fun _ _ _ _ hr => ⟨.none, hr.2⟩
  have hstore := h.store (v.inside span)
  unfold AsksAlike look at ha
  unfold Visit.inside at hstore ha
  unfold resolve
  dsimp only
  rw [lockstep_get, hv.position, L.depth hv.template]
  rw [L.depth hv.template] at ha
  revert ha hstore
  cases hp : p.store.find? (span.start :: v.position) <;>
    cases hq : q.store.find? (span.start :: v.position) <;> intro ha hstore
  case none.some => cases hstore
  case some.none => cases hstore
  case some.some t u =>
    cases hstore with
    | some ht => exact ⟨.some ⟨ht, rfl⟩, h⟩
  case none.none =>
    dsimp only at ha ⊢
    split
    · exact hrefuse (L.same _) h
    · rename_i hdeep
      rw [if_neg hdeep] at ha
      have hanswers : L.Answers
          (Template.load settings loader ⟨p.out.pieces, p.loads.length⟩ (v.template.depth + 1)
            (v.target reference))
          (Template.load settings loader' ⟨q.out.pieces, q.loads.length⟩ (v.template.depth + 1)
            (v'.target reference)) := by
        refine ha ?_
        cases Template.load settings loader ⟨p.out.pieces, p.loads.length⟩ (v.template.depth + 1)
          (v.target reference) <;> rfl
      -- the loaders are asked one after the other, and both answer alike
      show Lockstep L.Renders
        (load settings loader (v.template.depth + 1) (v.target reference) >>= _)
        (load settings loader' (v.template.depth + 1) (v'.target reference) >>= _) p q _
      have hload : Lockstep L.Renders
          (load settings loader (v.template.depth + 1) (v.target reference))
          (load settings loader' (v.template.depth + 1) (v'.target reference)) p q
          fun answer answer' p' q' => L.Answers answer answer' ∧ L.Renders p' q' :=
        ⟨hanswers, h.out, h.halted, h.reported, h.store, h.room, h.room'⟩
      refine hload.bind ?_
      rintro answer answer' p₁ q₁ ⟨hanswer, h₁⟩
      cases hanswer with
      | problem hproblem => exact hrefuse hproblem h₁
      | template ht hd =>
        refine (reportAll_like hd h₁).bind fun _ _ p₂ q₂ h₂ => ?_
        exact (fill_like ht h₂.2).bind fun _ _ p₃ q₃ h₃ => ⟨.some ⟨ht, rfl⟩, h₃.2⟩

theorem doTask_like {rest rest' : Agenda} {task task' : Task} (ht : L.Tasks task task')
    (hrest : L.Agendas rest rest') (h : L.Renders p q)
    (ha : ∀ v v' c reference line span left,
      task = .nodes v c (.embed reference line span :: left) →
      task' = .nodes v' c (.embed reference line span :: left) →
      AsksAlike L settings loader loader' v v' reference span p q) :
    Lockstep L.Renders (doTask settings loader rest task) (doTask settings loader' rest' task') p q
      fun agenda agenda' p' q' => L.Agendas agenda agenda' ∧ L.Renders p' q' := by
  have hpure {agenda agenda' : Agenda} (hagenda : L.Agendas agenda agenda') :
      Lockstep L.Renders (pure agenda : Walk Agenda) (pure agenda' : Walk Agenda) p q
        fun agenda agenda' p' q' => L.Agendas agenda agenda' ∧ L.Renders p' q' := ⟨hagenda, h⟩
  have hemit {agenda agenda' : Agenda} (e : Emission) (hagenda : L.Agendas agenda agenda') :
      Lockstep L.Renders (do emit e; pure agenda) (do emit e; pure agenda') p q
        fun agenda agenda' p' q' => L.Agendas agenda agenda' ∧ L.Renders p' q' :=
    (emit_like e h).bind fun _ _ _ _ hr => ⟨hagenda, hr.2⟩
  cases ht with
  | @rows v v' owner body left hv =>
    cases left with
    | nil => exact hpure hrest
    | cons row left =>
      exact hpure (.cons (.nodes _ body hv) (.cons (.rows owner body left hv) hrest))
  | @nodes v v' c left hv =>
    cases left with
    | nil => exact hpure hrest
    | cons node left =>
      have hleft : L.Agendas (.nodes v c left :: rest) (.nodes v' c left :: rest') :=
        .cons (.nodes c left hv) hrest
      rw [doTask, doTask]
      cases node with
      | text span =>
        have htext : v'.template.text span = v.template.text span := by
          rw [Template.text, Template.text, L.source hv.template]
        rw [doNode, doNode, htext]
        exact hemit _ hleft
      | value name default formatter =>
        rw [doNode, doNode]
        split
        · exact hemit _ hleft
        · exact hpure hleft
      | cond test yes no => exact hpure (.cons (.nodes c _ hv) hleft)
      | loop name body =>
        rw [doNode, doNode]
        split
        · exact hpure (.cons (.rows _ body _ hv) hleft)
        · exact hpure hleft
      | leave level => exact hpure (Agenda.leave_like level hleft)
      | next level => exact hpure (Agenda.next_like level hleft)
      | embed reference line span =>
        rw [doNode, doNode]
        exact (resolve_like line hv h (ha _ _ _ _ _ _ _ rfl rfl)).bind
          fun _ _ _ _ hr => ⟨Agenda.enter_like c hleft hr.1, hr.2⟩

end Render

namespace Stage

variable {L : Likeness} {settings : Settings} {loader loader' : Loader} {s s' t : Stage}

def AsksAlike (L : Likeness) (settings : Settings) (loader loader' : Loader) (s s' : Stage) :
    Prop :=
  ∀ v v' c reference line span, s.Faces v c reference line span →
    s'.Faces v' c reference line span → L.Visits v v' →
    Render.AsksAlike L settings loader loader' v v' reference span s.progress s'.progress

theorem doTask_like_of_stages {task task' : Task} {rest rest' : Agenda} {p q : Progress}
    (h : L.Stages ⟨task :: rest, p⟩ ⟨task' :: rest', q⟩)
    (ha : AsksAlike L settings loader loader' ⟨task :: rest, p⟩ ⟨task' :: rest', q⟩) :
    Render.Lockstep L.Renders (Render.doTask settings loader rest task)
      (Render.doTask settings loader' rest' task') p q
      fun agenda agenda' p' q' => L.Agendas agenda agenda' ∧ L.Renders p' q' := by
  obtain ⟨htasks, hp⟩ := h
  cases htasks with
  | cons ht hrest =>
    refine Render.doTask_like ht hrest hp ?_
    rintro v v' c reference line span left rfl rfl
    cases ht with
    | nodes _ _ hv => exact ha v v' c reference line span ⟨left, rest, rfl⟩ ⟨left, rest', rfl⟩ hv

theorem Step.like (hstep : Step settings loader s t) (h : L.Stages s s')
    (ha : AsksAlike L settings loader loader' s s') :
    ∃ t', Step settings loader' s' t' ∧ L.Stages t t' := by
  obtain ⟨agenda, p⟩ := s
  obtain ⟨agenda', q⟩ := s'
  cases agenda with
  | nil => exact hstep.elim
  | cons task rest =>
    cases agenda' with
    | nil => exact nomatch h.agenda
    | cons task' rest' =>
      obtain ⟨next, q', hq, hnext, hprogress⟩ := (doTask_like_of_stages h ha).of_ok hstep
      exact ⟨⟨next, q'⟩, hq, hnext, hprogress⟩

theorem Ends.like {r : Ending} (hend : Ends settings loader s r) (h : L.Stages s s')
    (ha : AsksAlike L settings loader loader' s s') :
    ∃ r', Ends settings loader' s' r' ∧ L.Endings r r' := by
  obtain ⟨agenda, p⟩ := s
  obtain ⟨agenda', q⟩ := s'
  cases agenda with
  | nil =>
    cases agenda' with
    | cons => exact nomatch h.agenda
    | nil =>
      cases hend
      exact ⟨_, rfl, .ok h.progress⟩
  | cons task rest =>
    cases agenda' with
    | nil => exact nomatch h.agenda
    | cons task' rest' =>
      obtain ⟨e, p', he, rfl⟩ := hend
      rcases (doTask_like_of_stages h ha).ok_or_error with ⟨_, _, _, _, hok, -⟩ |
        ⟨e', p₁, q₁, hp, hq, hr⟩
      · exact nomatch he.symm.trans hok
      · cases he.symm.trans hp
        exact ⟨_, ⟨e, q₁, hq, rfl⟩, .error hr⟩

end Stage

/-! ### What is told where there is room for it -/

namespace Render

variable {settings : Settings} {loader : Loader} {p : Progress}

theorem meets_reportAll_of_room (ds : List Diagnostic) (h : p.err.room = none) :
    Meets (reportAll ds) p (fun _ => p.Reports ds) fun _ _ => False := by
  obtain ⟨err, reported, -, hr⟩ := reportAll_of_room ds h
  have hlines := meets_reportAll_lines (p := p) ds
  unfold Meets at hlines ⊢
  rw [hr] at hlines ⊢
  exact hlines

theorem meets_doTask_of_room (rest : Agenda) (task : Task) (h : p.err.room = none) :
    Meets (doTask settings loader rest task) p (fun _ => p.Adds) fun _ => p.Adds := by
  rcases doTask_eq settings loader rest task with
    ⟨v, c, reference, line, span, left, rfl⟩ | ⟨e, agenda, he⟩
  · rw [doTask, doNode, meets_bind]
    refine meets_resolve_adds.and (?_ : Meets (resolve settings loader v reference line span) p
      (fun _ _ => True) fun _ _ => False) |>.mono (fun _ _ ha => ha.1) fun _ _ ha => ha.2.elim
    rw [meets_resolve_iff]
    cases look settings loader v reference span p with
    | kept t => trivial
    | refused problem asked =>
      dsimp only
      rw [meets_halt, meets_report, Progress.err_finding, Sink.write_of_room h]
      trivial
    | read t =>
      refine (meets_reportAll_of_room t.diagnostics ?_).mono (fun _ _ _ => trivial)
        fun _ _ hf => hf
      rwa [Progress.err_finding]
  · rw [he, meets_bind, meets_emit]
    cases e.writeTo p.out with
    | mk out result =>
      cases result with
      | ok _ => exact .refl p
      | error _ => exact .refl p

end Render

/-- However a render ends that has room for what it tells, all that it has reported is told. -/
theorem Rendering.Yields.told {x : Rendering} {r : Ending} (h : x.Yields r)
    (herr : x.err.room = none) :
    r.progress.err.contents = x.err.contents ++ Render.lines r.progress.reported := by
  have hopening : Render.Meets (Render.reportAll x.held.template.diagnostics) x.progress
      (fun _ => x.progress.Reports x.held.template.diagnostics) fun _ _ => False :=
    Render.meets_reportAll_of_room _ herr
  unfold Rendering.Yields at h
  split at h
  · rename_i p ho
    obtain ⟨last, hl, hend⟩ := h
    have hlast : x.Reaches last := ⟨⟨x.agenda, p⟩, ⟨ho, rfl⟩, hl⟩
    rcases hend.ok_or_error with rfl | ⟨e, q, rfl, herror⟩
    · exact hlast.told.1
    · have htold := hlast.told.1
      have hroom := hlast.room_err herr
      obtain ⟨agenda, p⟩ := last
      cases agenda with
      | nil => cases herror
      | cons task rest =>
        obtain ⟨e', q', he, hq⟩ := herror
        cases hq
        obtain ⟨ds, hreported, hcontents⟩ :=
          (Render.meets_doTask_of_room rest task hroom).of_error he
        show q.err.contents = x.err.contents ++ Render.lines q.reported
        rw [hreported, hcontents, htold, Render.lines_append, List.append_assoc]
  · rename_i e p ho
    exact (hopening.of_error ho).elim

namespace Likeness

variable {L : Likeness}

structure Renderings (L : Likeness) (x y : Rendering) : Prop where
  settings : y.settings = x.settings
  scope : y.scope = x.scope
  template : L.templates x.held.template.quiet y.held.template.quiet
  diagnostics : List.Forall₂ L.diagnostics x.held.template.diagnostics
    y.held.template.diagnostics
  progress : L.Renders x.progress y.progress

def AsksAlike (L : Likeness) (x y : Rendering) : Prop :=
  ∀ s s', x.Reaches s → L.Stages s s' → s.AsksAlike L x.settings x.loader y.loader s'

inductive Results : List Diagnostic → List Diagnostic → Except RenderError Unit →
    Except RenderError Unit → Prop
  | ok : Results [] [] (.ok ()) (.ok ())
  | template {ds ds' : List Diagnostic} : ds ≠ [] →
    Results ds ds' (.error (.template ds)) (.error (.template ds'))
  | write (ds ds' : List Diagnostic) (e : WriteError) :
    Results ds ds' (.error (.write e)) (.error (.write e))

/-- Two renders have written the same to the output, have told diagnostics that are alike, each in
its line, and come to results of one kind. -/
structure Outcomes (L : Likeness) (err : Sink) (o o' : Outcome) : Prop where
  out : o'.out = o.out
  tells : ∃ ds ds', List.Forall₂ L.diagnostics ds ds' ∧
    o.err.contents = err.contents ++ Render.lines ds ∧
    o'.err.contents = err.contents ++ Render.lines ds' ∧ Results ds ds' o.result o'.result

theorem Outcomes.result_eq_ok_iff {err : Sink} {o o' : Outcome} (h : L.Outcomes err o o') :
    o'.result = .ok () ↔ o.result = .ok () := by
  obtain ⟨ds, ds', -, -, -, hresults⟩ := h.tells
  generalize o.result = r at hresults
  generalize o'.result = r' at hresults
  cases hresults <;> simp

variable {x y : Rendering} {s : Stage}

theorem Renderings.opening (h : L.Renderings x y) :
    Render.InStep L.Renders (Render.reportAll x.held.template.diagnostics)
      (Render.reportAll y.held.template.diagnostics) x.progress y.progress :=
  Render.reportAll_like h.diagnostics h.progress

theorem Renderings.agenda (h : L.Renderings x y) : L.Agendas x.agenda y.agenda := by
  have hvisit : L.Visits x.visit y.visit := ⟨h.template, rfl⟩
  unfold Rendering.agenda
  rw [h.scope, L.root hvisit.template]
  exact .cons (.nodes _ _ hvisit) .nil

theorem Renderings.begins (h : L.Renderings x y) (hb : x.Begins s) :
    ∃ s', y.Begins s' ∧ L.Stages s s' := by
  obtain ⟨ho, ha⟩ := hb
  obtain ⟨_, q, hq, -, hr⟩ := h.opening.of_ok ho
  exact ⟨⟨y.agenda, q⟩, ⟨hq, rfl⟩, ha ▸ h.agenda, hr⟩

theorem Renderings.reaches (h : L.Renderings x y) (ha : L.AsksAlike x y) (hs : x.Reaches s) :
    ∃ s', y.Reaches s' ∧ L.Stages s s' := by
  obtain ⟨first, hb, hr⟩ := hs
  induction hr with
  | refl =>
    obtain ⟨s', hb', hs'⟩ := h.begins hb
    exact ⟨s', ⟨s', hb', .refl⟩, hs'⟩
  | tail hr hstep ih =>
    obtain ⟨s', hs', hlike⟩ := ih
    obtain ⟨t', hstep', ht'⟩ := hstep.like hlike (ha _ _ ⟨first, hb, hr⟩ hlike)
    rw [← h.settings] at hstep'
    exact ⟨t', hs'.tail hstep', ht'⟩

theorem Renderings.yields (h : L.Renderings x y) (ha : L.AsksAlike x y) {r : Ending}
    (hr : x.Yields r) : ∃ r', y.Yields r' ∧ L.Endings r r' := by
  have hopening := h.opening
  unfold Rendering.Yields at hr
  split at hr
  · rename_i p ho
    obtain ⟨last, hl, hend⟩ := hr
    have hlast : x.Reaches last := ⟨⟨x.agenda, p⟩, ⟨ho, rfl⟩, hl⟩
    obtain ⟨last', ⟨first', hb', hl'⟩, hlike⟩ := h.reaches ha hlast
    obtain ⟨r', hend', hr'⟩ := hend.like hlike (ha _ _ hlast hlike)
    rw [← h.settings] at hend'
    exact ⟨r', hb'.yields ⟨last', hl', hend'⟩, hr'⟩
  · rename_i e p ho
    subst hr
    rcases hopening.ok_or_error with ⟨_, _, _, _, hok, -⟩ | ⟨e', p', q, hp, hq, hrenders⟩
    · exact nomatch Eq.trans (Eq.symm ho) hok
    · cases Eq.trans (Eq.symm ho) hp
      exact ⟨_, Rendering.yields_of_opening hq, .error hrenders⟩

theorem Renderings.outcomes (h : L.Renderings x y) (hx : x.held.Arises) (hy : y.held.Arises)
    (herr : y.err = x.err) (ha : L.AsksAlike x y) :
    L.Outcomes x.err x.run.outcome y.run.outcome := by
  have hyields := Rendering.yields_start hx.coherent
  obtain ⟨r, hr, hlike⟩ := h.yields ha hyields
  have htold := hyields.told h.progress.room
  have htold' := hr.told h.progress.room'
  rw [herr] at htold'
  rw [x.run_eq_leaves, y.run_eq_leaves, (Rendering.yields_start hy.coherent).unique hr]
  generalize x.held.start x.settings x.loader x.scope x.progress = ending at hlike htold
  cases hlike with
  | @ok p q hrenders =>
    refine ⟨hrenders.out, p.reported, q.reported, hrenders.reported, htold, htold', ?_⟩
    have hreported := hrenders.reported
    unfold Rendering.leaves Rendered.outcome
    dsimp only
    revert hreported
    generalize p.reported = ds
    generalize q.reported = ds'
    intro hreported
    cases hreported with
    | nil => exact .ok
    | cons hd hds => exact .template (List.cons_ne_nil _ _)
  | @error e p q hrenders =>
    exact ⟨hrenders.out, p.reported, q.reported, hrenders.reported, htold, htold', .write _ _ e⟩

section Sources

variable {settings : Settings} {loader loader' : Loader} {scope : Scope} {out err : Sink}

theorem Answers.renderings {t u : Template} (h : L.Answers (.ok t) (.ok u))
    (herr : err.room = none) (loads loads' : List (String × Nat)) :
    L.Renderings { settings, loader, held := { template := t }, scope, out, err, loads }
      { settings, loader := loader', held := { template := u }, scope, out, err,
        loads := loads' } := by
  cases h with
  | template ht hd => exact ⟨rfl, rfl, ht, hd, rfl, rfl, .nil, fun _ => .none, herr, herr⟩

theorem outcomes_path {file file' : String} (herr : err.room = none)
    (hload : L.Answers (Template.load settings loader { written := out.pieces } 0 file)
      (Template.load settings loader' { written := out.pieces } 0 file'))
    (hd : ∀ {a b}, L.problems a b → L.diagnostics ⟨a, file, none⟩ ⟨b, file', none⟩)
    (hasks : ∀ x y : Rendering,
      (Source.path file).rendering? settings loader scope out err = some x →
      (Source.path file').rendering? settings loader' scope out err = some y →
      L.Renderings x y → L.AsksAlike x y) :
    L.Outcomes err ((Source.path file).render settings loader scope out err)
      ((Source.path file').render settings loader' scope out err) := by
  cases hl : Template.load settings loader { written := out.pieces } 0 file with
  | error a =>
    cases hl' : Template.load settings loader' { written := out.pieces } 0 file' with
    | ok u =>
      rw [hl, hl'] at hload
      cases hload
    | error b =>
      rw [hl, hl'] at hload
      cases hload with
      | problem hproblem =>
        unfold Source.render
        simp only [hl, hl', Sink.write_of_room herr]
        refine ⟨rfl, [⟨a, file, none⟩], [⟨b, file', none⟩], .cons (hd hproblem) .nil, ?_, ?_,
          .template (List.cons_ne_nil _ _)⟩
        · simp [Render.lines, Sink.contents]
        · simp [Render.lines, Sink.contents]
  | ok t =>
    cases hl' : Template.load settings loader' { written := out.pieces } 0 file' with
    | error b =>
      rw [hl, hl'] at hload
      cases hload
    | ok u =>
      rw [hl, hl'] at hload
      have hx : (Source.path file).rendering? settings loader scope out err = some
          { settings, loader, held := { template := t }, scope, out, err,
            loads := [(file, 0)] } := by
        simp only [Source.rendering?, hl]
      have hy : (Source.path file').rendering? settings loader' scope out err = some
          { settings, loader := loader', held := { template := u }, scope, out, err,
            loads := [(file', 0)] } := by
        simp only [Source.rendering?, hl']
      obtain ⟨-, -, hfresh⟩ := Source.fresh_of_rendering? hx
      obtain ⟨-, -, hfresh'⟩ := Source.fresh_of_rendering? hy
      have hlike := @Answers.renderings L settings loader loader' scope out err t u hload herr
        [(file, 0)] [(file', 0)]
      rw [Source.render_of_rendering? hx, Source.render_of_rendering? hy]
      exact hlike.outcomes hfresh.arises hfresh'.arises rfl (hasks _ _ hx hy hlike)

end Sources

end Likeness

namespace Stage

variable {settings : Settings} {loader : Loader} {s : Stage} {p : Progress}

theorem Advances.loads_suffix (h : s.Advances settings loader p) :
    s.progress.loads <:+ p.loads := by
  rcases h.loads with hl | ⟨_, _, _, _, _, -, hl⟩
  · exact hl ▸ List.suffix_rfl
  · exact hl ▸ List.suffix_cons ..

theorem loads_suffix_of_reaches {t : Stage} (h : Reaches settings loader s t) :
    s.progress.loads <:+ t.progress.loads := by
  induction h with
  | refl => exact List.suffix_rfl
  | @tail a b _ hstep ih =>
    have hlast : a.Advances settings loader b.progress := .inl ⟨b.agenda, hstep⟩
    exact ih.trans hlast.loads_suffix

theorem Yields.loads_suffix {r : Ending} (h : Yields settings loader s r) :
    s.progress.loads <:+ r.progress.loads := by
  obtain ⟨last, hl, hend⟩ := h
  have hlast := loads_suffix_of_reaches hl
  rcases hend.ok_or_error with rfl | ⟨e, p, rfl, herror⟩
  · exact hlast
  · have hadvances : last.Advances settings loader p := .inr ⟨e, herror⟩
    exact hlast.trans hadvances.loads_suffix

theorem Advances.mem_loads (h : s.Advances settings loader p) {v : Visit} {c : Context}
    {reference : String} {line : Nat} {span : Span} (hf : s.Faces v c reference line span)
    (ha : (Render.look settings loader v reference span s.progress).isAsked = true) :
    (v.target reference, v.template.depth + 1) ∈ p.loads := by
  have hasking : (s.progress.finding v reference
      (Render.look settings loader v reference span s.progress)).loads =
        (v.target reference, v.template.depth + 1) :: s.progress.loads := by
    rw [Progress.finding, if_pos ha]
    rfl
  rcases h with ⟨agenda, hstep⟩ | ⟨e, hend⟩
  · obtain ⟨found, hok⟩ := hstep.resolve_of_faces hf
    have hresolves := Render.meets_resolves.of_ok hok
    have hloads : p.loads = _ := hresolves.loads
    rw [hloads, hasking]
    exact List.mem_cons_self
  · obtain ⟨left, rest, hagenda⟩ := hf
    obtain ⟨agenda, q⟩ := s
    simp only at hagenda
    subst hagenda
    obtain ⟨e', p', he, hp⟩ := hend
    cases hp
    simp only [Render.doTask, Render.doNode, bind, EStateM.bind] at he
    cases hr : Render.resolve settings loader v reference line span q with
    | ok found q' =>
      rw [hr] at he
      cases he
    | error e' q' =>
      rw [hr] at he
      cases he
      have hwrites := Render.meets_resolves.of_error hr
      rw [hwrites.loads, hasking]
      exact List.mem_cons_self

end Stage

theorem Rendering.Reaches.mem_loads {x : Rendering} {s : Stage} (h : x.Reaches s)
    (hx : x.held.Arises) {v : Visit} {c : Context} {reference : String} {line : Nat} {span : Span}
    (hf : s.Faces v c reference line span)
    (ha : (Render.look x.settings x.loader v reference span s.progress).isAsked = true) :
    (v.target reference, v.template.depth + 1) ∈ x.run.loads := by
  have hyields := h.yields hx.coherent
  rw [x.run_eq_leaves, x.loads_leaves]
  obtain ⟨last, hl, hend⟩ := hyields
  rcases hl.cases_head with rfl | ⟨t, hstep, hrest⟩
  · have hne : s.agenda ≠ [] := by
      obtain ⟨left, rest, ha⟩ := hf
      rw [ha]
      exact List.cons_ne_nil _ _
    obtain ⟨e, p, herror⟩ := hend.exists_error hne
    rw [hend.unique herror]
    exact Stage.Advances.mem_loads (.inr ⟨e, herror⟩) hf ha
  · have hmem : (v.target reference, v.template.depth + 1) ∈ t.progress.loads :=
      Stage.Advances.mem_loads (.inl ⟨t.agenda, hstep⟩) hf ha
    exact (Stage.Yields.loads_suffix ⟨last, hrest, hend⟩).subset hmem

theorem Rendering.loads_suffix_run (x : Rendering) (hx : x.held.Arises) :
    x.loads <:+ x.run.loads := by
  have hyields := Rendering.yields_start hx.coherent
  rw [x.run_eq_leaves, x.loads_leaves]
  rcases hyields.begins_or_writes with ⟨first, hb, hfirst⟩ | ⟨e, p, he, hw⟩
  · have hloads : first.progress.loads = x.loads := hb.writes.loads
    exact hloads ▸ hfirst.loads_suffix
  · have hloads : p.loads = x.loads := hw.loads
    rw [he, Ending.progress]
    exact hloads ▸ List.suffix_rfl

theorem Source.mem_loads_path (settings : Settings) (loader : Loader) (file : String)
    (scope : Scope) (out err : Sink) :
    (file, 0) ∈ ((Source.path file).render settings loader scope out err).loads := by
  cases hl : Template.load settings loader { written := out.pieces } 0 file with
  | ok t =>
    have hx : (Source.path file).rendering? settings loader scope out err = some
        { settings, loader, held := { template := t }, scope, out, err, loads := [(file, 0)] } := by
      simp only [Source.rendering?, hl]
    obtain ⟨-, -, hfresh⟩ := Source.fresh_of_rendering? hx
    rw [Source.render_of_rendering? hx]
    exact (Rendering.loads_suffix_run _ hfresh.arises).subset List.mem_cons_self
  | error problem =>
    unfold Source.render
    simp only [hl]
    split <;> exact List.mem_cons_self

end Stencil
