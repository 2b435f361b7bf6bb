import Stencil.Proofs.Render.Simulation

/-! Renders of held templates.
A held template is read from a text and then rendered any number of times, each time in settings of
its own. The main statement says that every render comes to what the steps of its agenda come to. -/
namespace Stencil

/-- A render: of a held template, in which settings and scope, and where to. -/
structure Rendering where
  settings : Settings
  loader : Loader
  held : Held
  scope : Scope
  out : Sink := {}
  err : Sink := {}
  /-- The paths that have been asked for before, the newest first. -/
  loads : List (String × Nat) := []

namespace Rendering

def run (x : Rendering) : Rendered :=
  x.held.renderAfter x.loads x.settings x.loader x.scope x.out x.err

def again (x : Rendering) (out err : Sink) (loads : List (String × Nat)) : Rendering :=
  { x with held := x.run.held, out, err, loads }

def visit (x : Rendering) : Visit := ⟨x.held.taken.template, []⟩

/-- What is left to do at first: the whole tree, in the context of the scope alone. -/
def agenda (x : Rendering) : Agenda := [.nodes x.visit ⟨x.scope, []⟩ x.visit.template.root]

def progress (x : Rendering) : Progress :=
  { out := x.out, err := x.err, store := x.held.store, loads := x.loads }

def opening (x : Rendering) : Ending := Render.reportAll x.held.template.diagnostics x.progress

/-- The walk of the tree begins at this stage. -/
def Begins (x : Rendering) (s : Stage) : Prop :=
  x.opening = .ok () s.progress ∧ s.agenda = x.agenda

/-- The render comes through this stage. -/
def Reaches (x : Rendering) (s : Stage) : Prop :=
  ∃ first, x.Begins first ∧ Stage.Reaches x.settings x.loader first s

def Yields (x : Rendering) (r : Ending) : Prop :=
  match x.opening with
  | .ok () p => Stage.Yields x.settings x.loader ⟨x.agenda, p⟩ r
  | .error e p => r = .error e p

/-- What a render leaves behind that ends like this. -/
def leaves (x : Rendering) : Ending → Rendered
  | .ok () p =>
    { result := if p.reported = [] then .ok () else .error (.template p.reported), out := p.out,
      err := p.err, held := { x.held.taken with store := p.store }, loads := p.loads }
  | .error e p =>
    { result := .error (.write e), out := p.out, err := p.err,
      held := { x.held.taken with store := p.store }, loads := p.loads }

variable {x : Rendering} {r r' : Ending}

theorem run_eq_leaves (x : Rendering) :
    x.run = x.leaves (x.held.start x.settings x.loader x.scope x.progress) := by
  unfold run Held.renderAfter leaves progress
  cases x.held.start x.settings x.loader x.scope
    { out := x.out, err := x.err, store := x.held.store, loads := x.loads } <;> rfl

@[simp] theorem held_leaves (x : Rendering) (r : Ending) :
    (x.leaves r).held = { x.held.taken with store := r.progress.store } := by
  cases r <;> rfl

theorem template_run (x : Rendering) : x.run.held.template = x.held.template.quiet := by
  rw [x.run_eq_leaves, held_leaves]
  rfl

theorem yields_of_opening {e : WriteError} {p : Progress} (h : x.opening = .error e p) :
    x.Yields (.error e p) := by
  rw [Yields, h]

theorem Begins.yields {s : Stage} (h : x.Begins s)
    (hr : Stage.Yields x.settings x.loader s r) : x.Yields r := by
  obtain ⟨ho, ha⟩ := h
  rw [Yields, ho, ← ha]
  exact hr

theorem Yields.unique (h : x.Yields r) (h' : x.Yields r') : r = r' := by
  unfold Yields at h h'
  split at h
  · rename_i ho
    rw [ho] at h'
    exact Stage.Yields.unique h h'
  · rename_i ho
    rw [ho] at h'
    exact h.trans h'.symm

theorem opening_writes (x : Rendering) :
    Render.Meets (Render.reportAll x.held.template.diagnostics) x.progress
      (fun _ => x.progress.Writes) (fun _ => x.progress.Writes) :=
  Render.meets_reportAll_writes _

theorem begins_of_quiet (h : x.held.template.diagnostics = []) :
    x.Begins ⟨x.agenda, x.progress⟩ := by
  have hopening : x.opening = .ok () x.progress := by
    unfold opening
    rw [h]
    rfl
  exact ⟨hopening, rfl⟩

theorem Begins.writes {s : Stage} (h : x.Begins s) : x.progress.Writes s.progress :=
  x.opening_writes.of_ok h.1

end Rendering

namespace Held

/-- Every kept template stands as deep as its position says. -/
def Coherent (h : Held) : Prop :=
  ∀ position t, h.store.find? position = some t → t.depth = h.template.depth + position.length

theorem Coherent.fits {h : Held} (hh : h.Coherent) (settings : Settings) :
    h.store.Fits h.template.depth (h.levels settings) := by
  intro position t ht
  have hreach := Store.length_le_reach ht
  exact ⟨hh _ _ ht, Nat.le_trans hreach (Nat.le_max_right _ _)⟩

theorem inherited (h : Held) (settings : Settings) (loader : Loader) :
    Render.Inherited settings loader
      (Template.StandsAt h.template.depth (h.levels settings)) := by
  have := Nat.le_max_left (settings.includeLimit - h.template.depth) h.store.reach
  apply Render.inherited_standsAt
  unfold levels
  omega

/-- The templates that are held: read from a text, their diagnostics perhaps taken, and rendered any
number of times. -/
inductive Arises : Held → Prop
  | read (settings : Settings) (name : String) (path : Option String) (source : String)
    (depth : Nat) : Arises { template := Template.parse settings name path source depth }
  | taken {h : Held} : Arises h → Arises h.taken
  | rendered {x : Rendering} : Arises x.held → Arises x.run.held

end Held

namespace Rendering

variable {x : Rendering}

theorem Begins.fits {s : Stage} (h : x.Begins s) (hx : x.held.Coherent) :
    s.Fits x.held.template.depth (x.held.levels x.settings) := by
  refine ⟨?_, ?_⟩
  · rw [h.writes.store]
    exact hx.fits x.settings
  · rw [h.2]
    rintro task ht
    cases List.mem_singleton.mp ht
    exact ⟨rfl, Nat.zero_le _⟩

theorem Reaches.keeps {P : Stage → Prop} {s : Stage} (h : x.Reaches s)
    (hb : ∀ first, x.Begins first → P first)
    (hP : ∀ a b, P a → Stage.Step x.settings x.loader a b → P b) : P s := by
  obtain ⟨first, hfirst, hr⟩ := h
  exact Stage.keeps_of_reaches hr (hb first hfirst) hP

theorem yields_start (hx : x.held.Coherent) :
    x.Yields (x.held.start x.settings x.loader x.scope x.progress) := by
  refine (Render.meets_result (P := x.Yields)).mp ?_
  rw [Held.start, Render.meets_bind]
  refine (Render.meets_self _ _).mono ?_ fun _ _ h => yields_of_opening h
  intro _ p ho
  have hb : x.Begins ⟨x.agenda, p⟩ := ⟨ho, rfl⟩
  have hwalk := Render.follows_walk (x.held.inherited x.settings x.loader) x.visit rfl
    ⟨x.scope, []⟩ p (hb.fits hx) hb.writes.halted
  rw [Render.meets_bind]
  refine hwalk.mono ?_ fun _ _ hy => hb.yields hy
  intro flow p' hr
  rw [Agenda.onward_nil] at hr
  exact hb.yields ⟨_, hr, rfl⟩

theorem Reaches.yields {s : Stage} (h : x.Reaches s) (hx : x.held.Coherent) :
    Stage.Yields x.settings x.loader s
      (x.held.start x.settings x.loader x.scope x.progress) := by
  obtain ⟨first, ⟨ho, ha⟩, hr⟩ := h
  have hy := yields_start hx
  rw [Yields, ho, ← ha] at hy
  exact Stage.Yields.of_reached hy hr

end Rendering

theorem Rendering.Yields.begins_or_writes {x : Rendering} {r : Ending} (h : x.Yields r) :
    (∃ first, x.Begins first ∧ Stage.Yields x.settings x.loader first r) ∨
      ∃ e p, r = .error e p ∧ x.progress.Writes p := by
  unfold Rendering.Yields at h
  split at h
  · rename_i p ho
    exact .inl ⟨⟨x.agenda, p⟩, ⟨ho, rfl⟩, h⟩
  · rename_i e p ho
    exact .inr ⟨e, p, h, x.opening_writes.of_error ho⟩

theorem Rendering.Yields.coherent {x : Rendering} {r : Ending} (h : x.Yields r)
    (hx : x.held.Coherent) : (x.leaves r).held.Coherent := by
  have hfits : r.progress.store.Fits x.held.template.depth (x.held.levels x.settings) := by
    rcases h.begins_or_writes with ⟨first, hb, hy⟩ | ⟨e, p, rfl, hw⟩
    · exact (hb.fits hx).yields (x.held.inherited x.settings x.loader) hy
    · have hstore : p.store = x.held.store := hw.store
      rw [Ending.progress, hstore]
      exact hx.fits x.settings
  rw [Rendering.held_leaves]
  intro position t ht
  exact (hfits position t ht).1

theorem Held.Arises.coherent {h : Held} (hh : h.Arises) : h.Coherent := by
  induction hh with
  | read settings name path source depth =>
    intro position t ht
    cases ht
  | taken _ ih => exact ih
  | @rendered x _ ih =>
    -- the render is one of a coherent template, so that it is what its steps come to
    rw [x.run_eq_leaves]
    exact (x.yields_start ih).coherent ih

instance : DecidableEq (Except RenderError Unit)
  | .ok (), .ok () => .isTrue rfl
  | .error e, .error e' => decidable_of_iff (e = e') (by simp)
  | .ok (), .error _ => .isFalse nofun
  | .error _, .ok () => .isFalse nofun

/-- No write has failed. -/
def Render.Finishes : Except RenderError Unit → Prop
  | .error (.write _) => False
  | .error (.template _) => True
  | .ok _ => True

instance : DecidablePred Render.Finishes
  | .error (.write _) => .isFalse id
  | .error (.template _) => .isTrue trivial
  | .ok _ => .isTrue trivial

namespace Rendering

variable {x : Rendering} {s : Stage}

theorem Reaches.tail {s' : Stage} (h : x.Reaches s)
    (hstep : Stage.Step x.settings x.loader s s') : x.Reaches s' := by
  obtain ⟨first, hb, hr⟩ := h
  exact ⟨first, hb, Relation.ReflTransGen.tail hr hstep⟩

theorem Reaches.run_of_ends (h : x.Reaches s) (hx : x.held.Arises) {r : Ending}
    (hr : Stage.Ends x.settings x.loader s r) : x.run = x.leaves r := by
  rw [x.run_eq_leaves, Stage.Yields.unique (h.yields hx.coherent) ⟨s, .refl, hr⟩]

theorem Reaches.not_fails (h : x.Reaches s) (hx : x.held.Arises)
    (hr : Render.Finishes x.run.result) (e : WriteError) (p : Progress) :
    ¬ Stage.Ends x.settings x.loader s (.error e p) := by
  intro hend
  rw [h.run_of_ends hx hend] at hr
  exact hr

theorem exists_last (hx : x.held.Arises) (hr : Render.Finishes x.run.result) :
    ∃ p, x.Reaches ⟨[], p⟩ := by
  rcases (yields_start hx.coherent).begins_or_writes with ⟨first, hb, last, hlast, hend⟩ |
    ⟨e, p, he, -⟩
  · have hreaches : x.Reaches last := ⟨first, hb, hlast⟩
    by_cases hdone : last.agenda = []
    · exact ⟨last.progress, hdone ▸ hreaches⟩
    · obtain ⟨e, p, herror⟩ := hend.exists_error hdone
      exact (hreaches.not_fails hx hr e p herror).elim
  · rw [x.run_eq_leaves, he] at hr
    exact hr.elim

theorem Reaches.exists_step (h : x.Reaches s) (hx : x.held.Arises)
    (hr : Render.Finishes x.run.result) (hs : s.agenda ≠ []) :
    ∃ s', Stage.Step x.settings x.loader s s' := by
  obtain ⟨last, hl, hend⟩ := h.yields hx.coherent
  rcases hl.cases_head with rfl | ⟨s', hstep, -⟩
  · obtain ⟨e, p, herror⟩ := hend.exists_error hs
    exact (h.not_fails hx hr e p herror).elim
  · exact ⟨s', hstep⟩

end Rendering

section Holds

variable {R : Template → Position → Prop} {x : Rendering}

theorem Rendering.Begins.holds {s : Stage} (h : x.Begins s) (hs : x.held.store.Holds R)
    (hv : R x.held.template.quiet []) : s.Holds R := by
  refine ⟨?_, ?_⟩
  · rw [h.writes.store]
    exact hs
  · rw [h.2]
    rintro task ht
    cases List.mem_singleton.mp ht
    exact hv

theorem Rendering.Reaches.holds {s : Stage} (h : x.Reaches s) (hs : x.held.store.Holds R)
    (hv : R x.held.template.quiet []) (hR : Render.Inherited x.settings x.loader R) : s.Holds R :=
  h.keeps (fun _ hb => hb.holds hs hv) fun _ _ hb hstep => hb.step hR hstep

theorem Rendering.Yields.holds {r : Ending} (h : x.Yields r) (hs : x.held.store.Holds R)
    (hv : R x.held.template.quiet []) (hR : Render.Inherited x.settings x.loader R) :
    r.progress.store.Holds R := by
  rcases h.begins_or_writes with ⟨first, hb, hy⟩ | ⟨e, p, rfl, hw⟩
  · exact (hb.holds hs hv).yields hR hy
  · have hstore : p.store = x.held.store := hw.store
    rw [Ending.progress, hstore]
    exact hs

theorem Held.Arises.holds {h : Held} (hh : h.Arises)
    (hread : ∀ settings name path source depth,
      R (Template.parse settings name path source depth).quiet [])
    (hR : ∀ settings loader, Render.Inherited settings loader R) :
    R h.template.quiet [] ∧ h.store.Holds R := by
  induction hh with
  | read settings name path source depth =>
    exact ⟨hread .., fun position t ht => by cases ht⟩
  | taken _ ih => exact ih
  | @rendered x hx ih =>
    rw [x.run_eq_leaves, Rendering.held_leaves]
    exact ⟨ih.1, (x.yields_start hx.coherent).holds ih.2 ih.1 (hR _ _)⟩

end Holds

/-- A render is what the steps of its agenda come to: the same bytes in both sinks, the same
diagnostics in the same order, the same result and the same kept templates, and the steps come to
nothing else. -/
theorem run_eq_steps (x : Rendering) (hx : x.held.Arises) (r : Rendered) :
    (∃ ending, x.Yields ending ∧ r = x.leaves ending) ↔ r = x.run := by
  have hy := Rendering.yields_start hx.coherent
  rw [x.run_eq_leaves]
  constructor
  · rintro ⟨ending, he, rfl⟩
    rw [he.unique hy]
  · rintro rfl
    exact ⟨_, hy, rfl⟩

/-- Two loops, of which the inner one is left at its second row of three by a jump out of both, so
that the second row of the outer one is not reached, with an inclusion in its body. -/
def jumpingRender : Rendering where
  settings := {}
  loader := Library.loader ⟨[("row", "\x7b\x7bVAR n\x7d\x7d;")]⟩
  held :=
    { template := Template.ofText {}
        ("\x7b\x7bLOOP a\x7d\x7d\x7b\x7bLOOP b\x7d\x7d\x7b\x7bINCLUDE row\x7d\x7d" ++
          "\x7b\x7bIF n == 2\x7d\x7d\x7b\x7bBREAK level=2\x7d\x7d\x7b\x7bENDIF\x7d\x7d" ++
          "\x7b\x7bENDLOOP\x7d\x7d\x7b\x7bENDLOOP\x7d\x7dend") }
  scope := Scope.empty.withLoop "a"
    [Scope.empty.withLoop "b" [Scope.empty.withValue "n" "1", Scope.empty.withValue "n" "2",
        Scope.empty.withValue "n" "3"],
      Scope.empty.withLoop "b" [Scope.empty.withValue "n" "4"]]

theorem run_eq_steps_jumping : jumpingRender.held.Arises ∧
    jumpingRender.held.template.diagnostics = [] ∧ ∃ ending,
      jumpingRender.Yields ending ∧ jumpingRender.run = jumpingRender.leaves ending ∧
        (jumpingRender.leaves ending).out.contents = Text.encode "1;2;end" := by
  have hnone : jumpingRender.held.template.diagnostics = [] := by decide +kernel
  have hcontents : jumpingRender.run.out.contents = Text.encode "1;2;end" := by decide +kernel
  obtain ⟨ending, hy, hr⟩ := (run_eq_steps jumpingRender (.read ..) jumpingRender.run).mpr rfl
  exact ⟨.read .., hnone, ending, hy, hr, hr ▸ hcontents⟩

end Stencil
