import Stencil.Proofs.Render.Lockstep

/-! Where diagnostics are written to.
A render does not look at what it has told, so another sink for its diagnostics makes no difference
as long as neither is ever full. The main statement says that the render then comes to the same, and
adds the same to either sink. -/
namespace Stencil

/-- The second render has come as far as the first one, and has told the same since their sinks for
diagnostics held these pieces. Neither sink has a limit. -/
structure Progress.ToldApart (before before' : List Bytes) (p q : Progress) : Prop where
  same : q = { p with err := q.err }
  told : ∃ more, p.err.pieces = more ++ before ∧ q.err.pieces = more ++ before'
  room : p.err.room = none
  room' : q.err.room = none

namespace Render

variable {α : Type} {before before' : List Bytes} {p q : Progress} {settings : Settings}
  {loader : Loader}

theorem inStep_of_unheard {m : Walk α}
    (hm : ∀ (p : Progress) (err : Sink), m { p with err } =
      match m p with
      | .ok a p' => .ok a { p' with err }
      | .error e p' => .error e { p' with err })
    (h : p.ToldApart before before' q) :
    InStep (Progress.ToldApart before before') m m p q := by
  have hp := hm p p.err
  have hq := hm p q.err
  rw [← h.same] at hq
  have hkept (p' : Progress) (he : p' = { p' with err := p.err }) :
      p'.ToldApart before before' { p' with err := q.err } := by
    have herr : p'.err = ({ p' with err := p.err } : Progress).err := congrArg Progress.err he
    exact ⟨rfl, herr ▸ h.told, herr ▸ h.room, h.room'⟩
  unfold InStep Lockstep
  rw [hq]
  cases hmp : m p with
  | ok a p' =>
    rw [hmp] at hp
    injection hp with _ hp
    exact ⟨rfl, hkept p' hp⟩
  | error e p' =>
    rw [hmp] at hp
    injection hp with _ hp
    exact ⟨rfl, hkept p' hp⟩

theorem inStep_emit_unheard (e : Emission) (h : p.ToldApart before before' q) :
    InStep (Progress.ToldApart before before') (emit e) (emit e) p q := by
  refine inStep_of_unheard (fun p err => ?_) h
  unfold emit
  dsimp only
  cases e.writeTo p.out with
  | mk out result => cases result <;> rfl

theorem inStep_report_unheard (d : Diagnostic) (h : p.ToldApart before before' q) :
    InStep (Progress.ToldApart before before') (report d) (report d) p q := by
  obtain ⟨more, hmore, hmore'⟩ := h.told
  unfold InStep Lockstep report
  rw [Sink.write_of_room h.room, Sink.write_of_room h.room']
  refine ⟨rfl, ?_, ⟨_ :: more, congrArg _ hmore, congrArg _ hmore'⟩, h.room, h.room'⟩
  rw [h.same]

theorem inStep_reportAll_unheard (ds : List Diagnostic) (h : p.ToldApart before before' q) :
    InStep (Progress.ToldApart before before') (reportAll ds) (reportAll ds) p q :=
  inStep_reportAll_of_report (fun d _ _ h => inStep_report_unheard d h) ds h

theorem inStep_halt_unheard (d : Diagnostic) (h : p.ToldApart before before' q) :
    InStep (Progress.ToldApart before before') (halt d) (halt d) p q := by
  refine (inStep_report_unheard d h).bind fun _ _ p' q' hd => ?_
  exact (inStep_of_unheard (fun _ _ => rfl) hd.2).bind fun _ _ _ _ hm => ⟨rfl, hm.2⟩

theorem paced_toldApart : Paced (Progress.ToldApart before before') where
  halted h := by rw [h.same]
  emit e _ _ h := inStep_emit_unheard e h

theorem inStep_resolve_unheard (v : Visit) (reference : String) (line : Nat) (span : Span)
    (h : p.ToldApart before before' q) :
    InStep (Progress.ToldApart before before') (resolve settings loader v reference line span)
      (resolve settings loader v reference line span) p q := by
  have hrefuse (problem : Problem) (p q : Progress) (h : p.ToldApart before before' q) :
      InStep (Progress.ToldApart before before')
        (do let _ ← halt (v.template.diagnostic problem line span); pure (none : Option Visit))
        (do let _ ← halt (v.template.diagnostic problem line span); pure (none : Option Visit))
        p q :=
    (inStep_halt_unheard _ h).bind fun _ _ _ _ hr => ⟨rfl, hr.2⟩
  have hstore : q.store = p.store := by rw [h.same]
  unfold resolve
  dsimp only
  rw [inStep_get, hstore]
  cases p.store.find? (span.start :: v.position) with
  | some t => exact ⟨rfl, h⟩
  | none =>
    dsimp only
    split
    · exact hrefuse _ p q h
    · have hload := inStep_of_unheard (m := load settings loader (v.template.depth + 1)
        (Path.resolve reference v.template.path)) (fun _ _ => rfl) h
      refine hload.bind ?_
      rintro _ found p₁ q₁ ⟨rfl, h₁⟩
      cases found with
      | error problem => exact hrefuse problem p₁ q₁ h₁
      | ok t =>
        refine (inStep_reportAll_unheard t.diagnostics h₁).bind fun _ _ p₂ q₂ h₂ => ?_
        exact (inStep_of_unheard (fun _ _ => rfl) h₂.2).bind fun _ _ _ _ h₃ => ⟨rfl, h₃.2⟩

theorem inStep_walk_of_inner {levels : Nat}
    (hinner : ∀ nested c p q, p.ToldApart before before' q →
      InStep (Progress.ToldApart before before') (inner settings loader levels nested c)
        (inner settings loader levels nested c) p q)
    (v : Visit) (c : Context) (h : p.ToldApart before before' q) :
    InStep (Progress.ToldApart before before') (walk settings loader levels v c)
      (walk settings loader levels v c) p q := by
  have henter (c : Context) (loops : Nat) (reference : String) (line : Nat) (span : Span)
      (p q : Progress) (_ : True) (h : p.ToldApart before before' q) :
      InStep (Progress.ToldApart before before')
        (enter settings loader levels v c reference line span)
        (enter settings loader levels v c reference line span) p q := by
    refine (inStep_resolve_unheard v reference line span h).bind ?_
    rintro _ found p' q' ⟨rfl, hr⟩
    cases found with
    | none => exact ⟨rfl, hr⟩
    | some nested => exact hinner nested c p' q' hr
  rw [walk_eq]
  exact inStep_walkList_of_text paced_toldApart (fun _ => rfl) henter c 0 _
    (Node.allLeaves_of_forall (fun _ _ => trivial) 0 _) h

theorem inStep_walk_unheard (levels : Nat) (v : Visit) (c : Context)
    (h : p.ToldApart before before' q) :
    InStep (Progress.ToldApart before before') (walk settings loader levels v c)
      (walk settings loader levels v c) p q := by
  induction levels generalizing v c p q with
  | zero =>
    refine inStep_walk_of_inner (fun nested c p q h => ?_) v c h
    exact ⟨rfl, h⟩
  | succ levels ih =>
    refine inStep_walk_of_inner (fun nested c p q h => ?_) v c h
    exact ih nested c h

end Render

/-- The second outcome is the first one with its diagnostics in another sink. -/
structure Outcome.ToldApart (err err' : Sink) (o o' : Outcome) : Prop where
  result : o'.result = o.result
  out : o'.out = o.out
  loads : o'.loads = o.loads
  told : ∃ told, o.err.contents = err.contents ++ told ∧ o'.err.contents = err'.contents ++ told

theorem Progress.ToldApart.contents {err err' : Sink} {p q : Progress}
    (h : p.ToldApart err.pieces err'.pieces q) :
    ∃ told, p.err.contents = err.contents ++ told ∧ q.err.contents = err'.contents ++ told := by
  obtain ⟨more, hmore, hmore'⟩ := h.told
  exact ⟨more.reverse.flatten, by simp [Sink.contents, hmore], by simp [Sink.contents, hmore']⟩

section Outcomes

variable (settings : Settings) (loader : Loader) (scope : Scope) (out : Sink) {err err' : Sink}

theorem Held.renderAfter_toldApart (h : Held) (loads : List (String × Nat))
    (herr : err.room = none) (herr' : err'.room = none) :
    let r := h.renderAfter loads settings loader scope out err
    let r' := h.renderAfter loads settings loader scope out err'
    Outcome.ToldApart err err' ⟨r.result, r.out, r.err, r.loads⟩
      ⟨r'.result, r'.out, r'.err, r'.loads⟩ := by
  let p : Progress := { out, err, store := h.store, loads }
  let q : Progress := { out, err := err', store := h.store, loads }
  have hbegin : p.ToldApart err.pieces err'.pieces q := ⟨rfl, ⟨[], rfl, rfl⟩, herr, herr'⟩
  have hstart : Render.InStep (Progress.ToldApart err.pieces err'.pieces)
      (h.start settings loader scope) (h.start settings loader scope) p q :=
    (Render.inStep_reportAll_unheard _ hbegin).bind fun _ _ _ _ h₁ =>
      (Render.inStep_walk_unheard _ _ _ h₁.2).bind fun _ _ _ _ h₂ => ⟨rfl, h₂.2⟩
  dsimp only
  unfold Held.renderAfter
  rcases hstart.ok_or_error with ⟨_, p', _, q', hp, hq, -, hr⟩ | ⟨e, p', q', hp, hq, hr⟩
  · have hreported : q'.reported = p'.reported := by rw [hr.same]
    have hout : q'.out = p'.out := by rw [hr.same]
    have hloads : q'.loads = p'.loads := by rw [hr.same]
    have hresult (ds : List Diagnostic) (h : q'.reported = ds) :
        (if q'.reported = [] then .ok () else .error (.template q'.reported) :
          Except RenderError Unit) = if ds = [] then .ok () else .error (.template ds) := by rw [h]
    rw [hp, hq]
    exact ⟨hresult _ hreported, hout, hloads, hr.contents⟩
  · have hout : q'.out = p'.out := by rw [hr.same]
    have hloads : q'.loads = p'.loads := by rw [hr.same]
    rw [hp, hq]
    exact ⟨rfl, hout, hloads, hr.contents⟩

/-- Whichever sink takes its diagnostics, a render comes to the same result, output and requests for
templates, and adds the same to what the sink holds. -/
theorem Source.render_toldApart (source : Source) (herr : err.room = none)
    (herr' : err'.room = none) :
    (source.render settings loader scope out err).ToldApart err err'
      (source.render settings loader scope out err') := by
  cases source with
  | text content => exact Held.renderAfter_toldApart settings loader scope out _ [] herr herr'
  | path file =>
    unfold Source.render
    dsimp only
    cases Template.load settings loader { written := out.pieces } 0 file with
    | ok t => exact Held.renderAfter_toldApart settings loader scope out _ _ herr herr'
    | error problem =>
      dsimp only
      rw [Sink.write_of_room herr, Sink.write_of_room herr']
      let line := Text.encode ((⟨problem, file, none⟩ : Diagnostic).text ++ "\n")
      exact ⟨rfl, rfl, rfl, line, by simp [Sink.contents, line], by simp [Sink.contents, line]⟩

end Outcomes

end Stencil
