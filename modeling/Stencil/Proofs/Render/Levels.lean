import Stencil.Proofs.Render.Agenda

/-! Templates and the positions they are at.
What a template hands on to those that are read for its inclusions holds of all templates, those
that are kept and those that are visited, as far as a render goes. One such thing is that a template
stands as many inclusions deep as its position is long, and that no position gets longer than
inclusions may be deep. -/
namespace Stencil

def Store.Holds (R : Template → Position → Prop) (s : Store) : Prop :=
  ∀ position t, s.find? position = some t → R t position

def Task.visit : Task → Visit
  | .nodes v _ _ => v
  | .rows v _ _ _ => v

/-- What holds of all that is visited holds after a step as well, if it stays and holds of the
template that the step enters. -/
theorem Stage.Step.forall_visits {settings : Settings} {loader : Loader} {a b : Stage}
    {V V' : Visit → Prop} (h : Step settings loader a b) (ha : ∀ task ∈ a.agenda, V task.visit)
    (hstays : ∀ v, V v → V' v)
    (hnested : ∀ v nested reference span, V v →
      Render.Resolves settings loader v reference span a.progress (some nested) b.progress →
      V' nested) : ∀ task ∈ b.agenda, V' task.visit := by
  obtain ⟨task, rest, he, hd⟩ := h.does
  rw [he] at ha
  obtain ⟨htask, hrest⟩ := List.forall_mem_cons.mp ha
  intro task' hm
  rcases hd.begets task' hm with hm | hb
  · exact hstays _ (hrest task' hm)
  · cases hb with
    | left => exact hstays _ htask
    | branch _ => exact hstays _ htask
    | loop _ => exact hstays _ htask
    | row => exact hstays _ htask
    | rows => exact hstays _ htask
    | nested hr =>
      obtain ⟨found, hok⟩ := h.resolve_of_faces ⟨_, rest, he⟩
      have hfound := Render.meets_resolves.of_ok hok
      rw [hfound.found_eq.trans hr.found_eq.symm] at hfound
      exact hnested _ _ _ _ htask hfound

structure Stage.Holds (R : Template → Position → Prop) (s : Stage) : Prop where
  store : s.progress.store.Holds R
  agenda : ∀ task ∈ s.agenda, R task.visit.template task.visit.position

/-- A template that has the property hands it on to those that are read for its inclusions. -/
def Render.Inherited (settings : Settings) (loader : Loader) (R : Template → Position → Prop) :
    Prop :=
  ∀ (v : Visit) (span : Span) (moment : Moment) (path : String) (t : Template),
    R v.template v.position → v.template.depth + 1 ≤ settings.includeLimit →
    Template.load settings loader moment (v.template.depth + 1) path = .ok t →
    R t.quiet (v.inside span)

section Holds

variable {settings : Settings} {loader : Loader} {R : Template → Position → Prop}

theorem Store.Holds.fill {s : Store} (hs : s.Holds R) {position : Position} {t : Template}
    (ht : R t position) : (s.fill position t).Holds R := by
  intro other u hu
  rw [Store.find?_fill] at hu
  split at hu
  · rename_i he
    subst he
    cases hk : s.find? other with
    | some kept =>
      -- what the position is filled with already stays
      rw [hk] at hu
      cases hu
      exact hs _ _ hk
    | none =>
      rw [hk] at hu
      cases hu
      exact ht
  · exact hs _ _ hu

theorem Render.Resolves.holds {v : Visit} {reference : String} {span : Span} {p p' : Progress}
    {found : Option Visit} (h : Resolves settings loader v reference span p found p')
    (hR : Inherited settings loader R) (hv : R v.template v.position) (hp : p.store.Holds R) :
    p'.store.Holds R ∧ ∀ nested ∈ found, R nested.template nested.position := by
  cases h with
  | @kept t hl =>
    refine ⟨hp, ?_⟩
    rintro nested ⟨⟩
    exact hp _ _ (find?_of_look hl)
  | @refused problem asked q hl hq =>
    have hstore : q.store.Holds R := by rwa [hq.store, Progress.store_finding]
    exact ⟨hstore, by simp⟩
  | @read t q hl hq =>
    obtain ⟨hdeep, hload⟩ := load_of_look hl
    have ht : R t.quiet (v.inside span) := hR v span _ _ t hv hdeep hload
    have hstore : q.store.Holds R := hq.store ▸ hp
    refine ⟨hstore.fill ht, ?_⟩
    rintro nested ⟨⟩
    exact ht

namespace Stage

variable {s s' : Stage}

theorem Holds.step (h : s.Holds R) (hR : Render.Inherited settings loader R)
    (hs : Step settings loader s s') : s'.Holds R := by
  refine ⟨?_, hs.forall_visits (V := fun v => R v.template v.position) h.agenda
    (fun _ hv => hv) fun v nested reference span hv hr => (hr.holds hR hv h.store).2 _ rfl⟩
  rcases hs.writes_or_resolves with hw | ⟨v, c, reference, line, span, found, hf, hr⟩
  · exact hw.store ▸ h.store
  · obtain ⟨left, hm⟩ := hf.exists_mem
    exact (hr.holds hR (h.agenda _ hm) h.store).1

theorem Holds.reaches (h : s.Holds R) (hR : Render.Inherited settings loader R)
    (hs : Reaches settings loader s s') : s'.Holds R :=
  keeps_of_reaches hs h fun _ _ hb hstep => hb.step hR hstep

theorem Ends.store {r : Ending} (h : Ends settings loader s r) :
    r.progress.store = s.progress.store := by
  rcases h.ok_or_error with rfl | ⟨e, p, rfl, herror⟩
  · rfl
  · rcases herror.writes_or_finds with hw | ⟨_, _, _, _, _, _, hw⟩
    · exact hw.store
    · rw [Ending.progress, hw.store, Progress.store_finding]

theorem Holds.yields (h : s.Holds R) (hR : Render.Inherited settings loader R) {r : Ending}
    (hr : Yields settings loader s r) : r.progress.store.Holds R := by
  obtain ⟨last, hl, he⟩ := hr
  rw [he.store]
  exact (h.reaches hR hl).store

end Stage
end Holds

/-- A template at a position stands as deep below `base` as the position is long, and no position is
longer than `reach`. -/
def Template.StandsAt (base reach : Nat) (t : Template) (position : Position) : Prop :=
  t.depth = base + position.length ∧ position.length ≤ reach

abbrev Store.Fits (base reach : Nat) (s : Store) : Prop := s.Holds (Template.StandsAt base reach)

abbrev Stage.Fits (base reach : Nat) (s : Stage) : Prop := s.Holds (Template.StandsAt base reach)

section Depths

variable {settings : Settings} {loader : Loader} {base reach : Nat}

theorem Template.eq_parse_of_load {moment : Moment} {depth : Nat} {path : String} {t : Template}
    (h : Template.load settings loader moment depth path = .ok t) :
    ∃ text, t = Template.parse settings path (some path) text depth := by
  unfold Template.load at h
  split at h
  · cases h
    exact ⟨_, rfl⟩
  · cases h

theorem Template.depth_of_load {moment : Moment} {depth : Nat} {path : String} {t : Template}
    (h : Template.load settings loader moment depth path = .ok t) : t.depth = depth := by
  obtain ⟨text, rfl⟩ := eq_parse_of_load h
  rfl

theorem Template.load_of_isSteady (hl : loader.IsSteady) (moment moment' : Moment) (depth : Nat)
    (path : String) : Template.load settings loader moment depth path =
      Template.load settings loader moment' depth path := by
  rw [Template.load, Template.load, hl moment moment']

theorem Render.inherited_standsAt (hlimit : settings.includeLimit ≤ base + reach) :
    Inherited settings loader (Template.StandsAt base reach) := by
  rintro v span moment path t ⟨hv, _⟩ hdeep hload
  have hd : t.depth = v.template.depth + 1 := Template.depth_of_load hload
  have hlen : (v.inside span).length = v.position.length + 1 := rfl
  have hquiet : t.quiet.depth = t.depth := rfl
  exact ⟨by omega, by omega⟩

end Depths
end Stencil
