import Stencil.Proofs.Render.Channels
import Stencil.Proofs.Sink.Pour

/-! Rendering again.
What a render leaves behind keeps every template that it has come upon. The main statement says that
a second render of it, in the same circumstances, writes the same output again, and tells nothing but
the refusal that has ended the first. -/
namespace Stencil

namespace Render

variable {settings : Settings} {loader : Loader} {p q : Progress} {v : Visit} {reference : String}
  {span : Span}

theorem meets_emit_pieces (e : Emission) :
    Meets (emit e) p (fun _ p' => p'.out.contents = p.out.contents ++ e.pieces.flatten ∧
      p' = { p with out := p'.out }) fun _ _ => True := by
  rw [meets_emit]
  unfold Emission.writeTo
  cases hw : p.out.writeAll e.pieces with
  | mk out taken =>
    cases taken with
    | false => trivial
    | true =>
      cases e.failure with
      | none => exact ⟨Sink.contents_writeAll hw, rfl⟩
      | some reason => trivial

theorem look_of_refused (hl : loader.IsSteady) {problem : Problem} {asked : Bool}
    (h : look settings loader v reference span p = .refused problem asked)
    (hq : q.store.find? (v.inside span) = none) :
    look settings loader v reference span q = .refused problem asked := by
  have hp := find?_of_refused h
  unfold look at h ⊢
  rw [hp] at h
  rw [hq]
  dsimp only at h ⊢
  rw [Template.load_of_isSteady hl _ ⟨p.out.pieces, p.loads.length⟩]
  exact h

theorem look_of_find? {t : Template} (h : p.store.find? (v.inside span) = some t) :
    look settings loader v reference span p = .kept t := by
  unfold look
  rw [h]

theorem Resolves.exists_refused {p' : Progress}
    (h : Resolves settings loader v reference span p none p') :
    ∃ problem asked, look settings loader v reference span p = .refused problem asked := by
  cases h with
  | refused hl _ => exact ⟨_, _, hl⟩

theorem Resolves.halted_of_nested {nested : Visit} {p' : Progress}
    (h : Resolves settings loader v reference span p (some nested) p') :
    p'.halted = p.halted := by
  cases h with
  | kept _ => rfl
  | read _ hq => exact hq.halted

end Render

namespace Stage

variable {settings : Settings} {loader : Loader} {a b : Stage}

theorem Step.emits (h : Step settings loader a b) {task : Task} {rest agenda : Agenda}
    {e : Emission} (ha : a.agenda = task :: rest)
    (he : Render.doTask settings loader rest task = (do Render.emit e; pure agenda)) :
    b.agenda = agenda ∧
      b.progress.out.contents = a.progress.out.contents ++ e.pieces.flatten ∧
      b.progress = { a.progress with out := b.progress.out } := by
  obtain ⟨_, p⟩ := a
  simp only at ha
  subst ha
  have hm : Render.Meets (Render.doTask settings loader rest task) p
      (fun agenda' p' => agenda' = agenda ∧
        p'.out.contents = p.out.contents ++ e.pieces.flatten ∧ p' = { p with out := p'.out })
      fun _ _ => True := by
    rw [he, Render.meets_bind]
    exact (Render.meets_emit_pieces e).mono (fun _ _ h => ⟨rfl, h⟩) fun _ _ h => h
  exact hm.of_ok h

end Stage

namespace Rendering

variable {x : Rendering} {s s' t : Stage} {out err : Sink} {loads : List (String × Nat)}

/-- The second render has come as far as the first: with the same left to do and the same written to
the output. It keeps what the first has left behind and has told nothing. -/
structure Mirrors (x y : Rendering) (s s' : Stage) : Prop where
  agenda : s'.agenda = s.agenda
  out : ∃ written, s.progress.out.contents = x.out.contents ++ written ∧
    s'.progress.out.contents = y.out.contents ++ written
  unhalted : s.progress.halted = false
  store : s'.progress.store = x.run.held.store
  err : s'.progress.err = y.err
  reported : s'.progress.reported = []

theorem Begins.mirrored (hb : x.Begins s) : ∃ s', (x.again out err loads).Begins s' ∧
    x.Mirrors (x.again out err loads) s s' := by
  have hquiet : (x.again out err loads).held.template = x.held.template.quiet := x.template_run
  have hbegins : (x.again out err loads).Begins _ := begins_of_quiet (by rw [hquiet]; rfl)
  refine ⟨_, hbegins, ?_, ⟨[], ?_, ?_⟩, hb.writes.halted, rfl, rfl, rfl⟩
  · rw [hb.2]
    unfold agenda visit Held.taken
    rw [hquiet]
    rfl
  · rw [hb.out, List.append_nil]
  · rw [List.append_nil]
    rfl

/-- Two renders that mirror each other go on like this, up to a refusal. -/
theorem Mirrors.step {y : Rendering} {t' : Stage} (h : x.Mirrors y s s') (hx : x.held.Arises)
    (hs : x.Reaches s) (hstep : Stage.Step x.settings x.loader s t)
    (hstep' : Stage.Step x.settings x.loader s' t') :
    x.Mirrors y t t' ∨ ∃ d, x.Refuses s d := by
  obtain ⟨task, rest, ha, -⟩ := hstep.does
  have ha' : s'.agenda = task :: rest := h.agenda.trans ha
  obtain ⟨written, hout, hout'⟩ := h.out
  rcases Render.doTask_eq x.settings x.loader rest task with
    ⟨v, c, reference, line, span, left, rfl⟩ | ⟨e, agenda, he⟩
  · have hf : s.Faces v c reference line span := ⟨left, rest, ha⟩
    obtain ⟨found, hok⟩ := hstep.resolve_of_faces hf
    have hr := Render.meets_resolves.of_ok hok
    cases found with
    | none =>
      obtain ⟨problem, asked, hl⟩ := hr.exists_refused
      exact .inr ⟨_, hs, v, c, reference, line, span, problem, asked, hf, hl, rfl⟩
    | some nested =>
      -- the second render keeps what the first has found here, or has just read
      obtain ⟨u, position⟩ := nested
      obtain rfl : position = v.inside span := hr.position_of_nested
      have hkept : s'.progress.store.find? (v.inside span) = some u := by
        rw [h.store]
        exact (hs.tail hstep).find?_run hx hr.find?_of_nested
      have hlook : Render.look x.settings x.loader v reference span s'.progress = .kept u :=
        Render.look_of_find? hkept
      have hok' := Render.resolve_of_kept line hlook
      have hnext := hstep.unique (Stage.step_of_faces ha hok)
      have hnext' := hstep'.unique (Stage.step_of_faces ha' hok')
      have hsame : t.progress.out = s.progress.out := Render.meets_resolve_out.of_ok hok
      refine .inl (hnext' ▸ ⟨?_, ⟨written, ?_, hout'⟩, ?_, h.store, h.err, h.reported⟩)
      · rw [hnext]
      · rw [hsame, hout]
      · rw [hr.halted_of_nested, h.unhalted]
  · obtain ⟨hagenda, hadds, hprogress⟩ := hstep.emits ha he
    obtain ⟨hagenda', hadds', hprogress'⟩ := hstep'.emits ha' he
    refine .inl ⟨by rw [hagenda, hagenda'], ⟨written ++ e.pieces.flatten, ?_, ?_⟩, ?_, ?_, ?_, ?_⟩
    · rw [hadds, hout, List.append_assoc]
    · rw [hadds', hout', List.append_assoc]
    · rw [hprogress]
      exact h.unhalted
    · rw [hprogress']
      exact h.store
    · rw [hprogress']
      exact h.err
    · rw [hprogress']
      exact h.reported

/-- However far the first render comes, the second comes as far, unless there has been a refusal to
which it has come as well. -/
theorem Reaches.mirrored (hs : x.Reaches s) (hx : x.held.Arises)
    (hy : Render.Finishes (x.again out err loads).run.result) :
    ∃ m m', (x.again out err loads).Reaches m' ∧ x.Mirrors (x.again out err loads) m m' ∧
      (m = s ∨ ∃ d, x.Refuses m d) := by
  obtain ⟨first, hb, hfirst⟩ := hs
  have harises : (x.again out err loads).held.Arises := hx.rendered
  induction hfirst with
  | refl =>
    obtain ⟨s', hb', hm⟩ := hb.mirrored
    exact ⟨first, s', ⟨s', hb', .refl⟩, hm, .inl rfl⟩
  | @tail a b ha hstep ih =>
    obtain ⟨m, m', hm', hmirrors, rfl | hd⟩ := ih
    · have hne : m'.agenda ≠ [] := by
        obtain ⟨task, rest, he, -⟩ := hstep.does
        rw [hmirrors.agenda, he]
        exact List.cons_ne_nil _ _
      obtain ⟨t', hstep'⟩ := hm'.exists_step harises hy hne
      rcases hmirrors.step hx ⟨first, hb, ha⟩ hstep hstep' with hnext | hd
      · exact ⟨b, t', hm'.tail hstep', hnext, .inl rfl⟩
      · exact ⟨m, m', hm', hmirrors, .inr hd⟩
    · exact ⟨m, m', hm', hmirrors, .inr hd⟩

section Refusal

variable {d d' : Diagnostic}

theorem Refuses.unique (h : x.Refuses s d) (h' : x.Refuses t d') (hx : x.held.Arises)
    (hr : Render.Finishes x.run.result) : d = d' := by
  have hresult := (h.result hx hr).1
  rw [(h'.result hx hr).1] at hresult
  injection hresult with herror
  injection herror with hreported
  have hlast := (List.append_inj' hreported rfl).2
  cases hlast
  rfl

theorem Mirrors.refuses (h : x.Mirrors (x.again out err loads) s s') (hx : x.held.Arises)
    (hl : x.loader.IsSteady) (hr : Render.Finishes x.run.result)
    (hs' : (x.again out err loads).Reaches s') (hd : x.Refuses s d) :
    (x.again out err loads).Refuses s' d := by
  obtain ⟨-, -, hstore, -⟩ := hd.result hx hr
  obtain ⟨-, v, c, reference, line, span, problem, asked, ⟨left, rest, ha⟩, hlook, rfl⟩ := hd
  have hempty : s'.progress.store.find? (v.inside span) = none := by
    rw [h.store, hstore]
    exact Render.find?_of_refused hlook
  exact ⟨hs', v, c, reference, line, span, problem, asked, ⟨left, rest, h.agenda.trans ha⟩,
    Render.look_of_refused hl hlook hempty, rfl⟩

theorem Refuses.exists_mirrored (hd : x.Refuses s d) (hx : x.held.Arises)
    (hl : x.loader.IsSteady) (hr : Render.Finishes x.run.result)
    (hy : Render.Finishes (x.again out err loads).run.result) :
    ∃ m m', x.Mirrors (x.again out err loads) m m' ∧ x.Refuses m d ∧
      (x.again out err loads).Refuses m' d := by
  obtain ⟨m, m', hm', hmirrors, hm⟩ := hd.1.mirrored hx hy
  have hmd : x.Refuses m d := by
    rcases hm with rfl | ⟨d', hd'⟩
    · exact hd
    · exact hd'.unique hd hx hr ▸ hd'
  exact ⟨m, m', hmirrors, hmd, hmirrors.refuses hx hl hr hm' hmd⟩

end Refusal

theorem held_again (h : (x.again out err loads).run.held.store = x.run.held.store) :
    (x.again out err loads).run.held = x.run.held := by
  have htemplate : (x.again out err loads).run.held.template = x.run.held.template := by
    rw [template_run, template_run]
    show x.run.held.template.quiet = x.held.template.quiet
    rw [template_run]
    rfl
  calc (x.again out err loads).run.held
      = ⟨(x.again out err loads).run.held.template, (x.again out err loads).run.held.store⟩ := rfl
    _ = ⟨x.run.held.template, x.run.held.store⟩ := by rw [htemplate, h]
    _ = x.run.held := rfl

end Rendering

/-- Rendering again gives the same. If no write has stopped a render, nor the second one of what it
has left behind, in the same settings and scope and with the same loader, which answers always in the
same way, then both have written the same to the output. The second succeeds, and writes no
diagnostics, unless an inclusion has been refused in the first; then it tells this refusal, and
nothing else. It leaves behind what the first has left behind. -/
theorem renders_again (x : Rendering) (hx : x.held.Arises) (hl : x.loader.IsSteady)
    (out err : Sink) (loads : List (String × Nat)) (hr : Render.Finishes x.run.result)
    (hy : Render.Finishes (x.again out err loads).run.result) :
    (∃ written, x.run.out.contents = x.out.contents ++ written ∧
      (x.again out err loads).run.out.contents = out.contents ++ written) ∧
    (x.again out err loads).run.held = x.run.held ∧
    ((∀ s d, ¬ x.Refuses s d) →
      (x.again out err loads).run.result = .ok () ∧ (x.again out err loads).run.err = err) ∧
    ∀ s d, x.Refuses s d →
      x.run.result = .error (.template (s.progress.reported ++ [d])) ∧
      (x.again out err loads).run.result = .error (.template [d]) ∧
      (x.again out err loads).run.err.contents = err.contents ++ Render.lines [d] := by
  have harises : (x.again out err loads).held.Arises := hx.rendered
  by_cases hrefuses : ∃ s d, x.Refuses s d
  · obtain ⟨s, d, hd⟩ := hrefuses
    obtain ⟨m, m', hmirrors, hmd, hmd'⟩ := hd.exists_mirrored hx hl hr hy
    obtain ⟨-, hout, hstore, -⟩ := hmd.result hx hr
    obtain ⟨hresult', hout', hstore', herr'⟩ := hmd'.result harises hy
    rw [hmirrors.reported] at hresult'
    rw [hmirrors.err] at herr'
    refine ⟨?_, Rendering.held_again (hstore'.trans hmirrors.store),
      fun hnone => (hnone s d hd).elim, fun s₀ d₀ hd₀ => ?_⟩
    · rw [hout, hout']
      exact hmirrors.out
    · cases hd.unique hd₀ hx hr
      exact ⟨(hd₀.result hx hr).1, hresult', herr'⟩
  · have hnone (s : Stage) (d : Diagnostic) : ¬ x.Refuses s d :=
      fun hd => hrefuses ⟨s, d, hd⟩
    obtain ⟨p, hlast⟩ := Rendering.exists_last hx hr
    obtain ⟨_, m', hm', hmirrors, rfl | ⟨d, hd⟩⟩ := hlast.mirrored hx hy
    · obtain ⟨agenda, q⟩ := m'
      obtain rfl : agenda = [] := hmirrors.agenda
      have hrun := hlast.run_of_ends hx rfl
      have hrun' := hm'.run_of_ends harises rfl
      refine ⟨?_, Rendering.held_again ?_, fun _ => ⟨?_, ?_⟩, fun s d hd => (hnone s d hd).elim⟩
      · rw [hrun, hrun']
        exact hmirrors.out
      · rw [hrun']
        exact hmirrors.store
      · rw [hrun']
        exact if_pos hmirrors.reported
      · rw [hrun']
        exact hmirrors.err
    · exact (hnone _ _ hd).elim

theorem renders_again_refused :
    let again := refusedRender.again {} {} []
    let d := refusedRender.visit.template.diagnostic (.unreadable "gone" "no such template") 1
      ⟨14, 30⟩
    refusedRender.held.Arises ∧ refusedRender.loader.IsSteady ∧
    Render.Finishes refusedRender.run.result ∧ Render.Finishes again.run.result ∧
    refusedRender.Refuses refusedStage d ∧ refusedRender.run.out.contents = Text.encode "a" ∧
    again.run.out.contents = refusedRender.run.out.contents ∧
    again.run.held = refusedRender.run.held ∧ again.run.result = .error (.template [d]) ∧
    again.run.err.contents = Render.lines [d] := by
  intro again d
  have hx : refusedRender.held.Arises := .read ..
  have hl : refusedRender.loader.IsSteady := Loader.isSteady_steady _
  have hr : Render.Finishes refusedRender.run.result := by decide +kernel
  have hy : Render.Finishes again.run.result := by decide +kernel
  have hd : refusedRender.Refuses refusedStage d :=
    ⟨refusedRender_reaches, refusedRender.visit, ⟨refusedRender.scope, [.empty]⟩, "gone", 1,
      ⟨14, 30⟩, .unreadable "gone" "no such template", true, ⟨_, _, rfl⟩,
      by with_unfolding_all rfl, rfl⟩
  obtain ⟨⟨written, hout, hout'⟩, hheld, -, hrefused⟩ :=
    renders_again refusedRender hx hl {} {} [] hr hy
  obtain ⟨-, hresult, herr⟩ := hrefused refusedStage d hd
  exact ⟨hx, hl, hr, hy, hd, by decide +kernel, hout'.trans hout.symm, hheld, hresult, herr⟩

end Stencil
