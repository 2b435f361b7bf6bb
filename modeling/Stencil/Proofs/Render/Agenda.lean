import Stencil.Proofs.Render.Inclusion
import Mathlib.Logic.Relation

/-! Rendering with a stack of what is left to do.
A list of nodes or the rows of a loop that have been begun stand as a task on the agenda. Every
step does the first thing of the innermost task, and a jump drops tasks. The main statements say
that what the steps lead to is settled by where they begin, and what a step does to the state of
the render besides the agenda. -/
namespace Stencil

/-- A part of a render that has been begun. -/
inductive Task
  /-- The nodes that are left of a list of the visited template. -/
  | nodes (v : Visit) (c : Context) (left : List Node)
  /-- The rows that are left of a loop, in order, in the context of the scope that owns it. -/
  | rows (v : Visit) (owner : Context) (body : List Node) (left : List Scope)

abbrev Agenda := List Task

namespace Agenda

/-- Drops the tasks up to the loop so many loops out, and that loop. -/
def leave : Nat → Agenda → Agenda
  | _, [] => []
  | level, .nodes .. :: rest => leave level rest
  | level, .rows .. :: rest => if level = 1 then rest else leave (level - 1) rest

/-- Drops the tasks up to the loop so many loops out, which goes on with the rows it has left. -/
def next : Nat → Agenda → Agenda
  | _, [] => []
  | level, .nodes .. :: rest => next level rest
  | level, .rows v owner body left :: rest =>
    if level = 1 then .rows v owner body left :: rest else next (level - 1) rest

def after : Flow → Agenda → Agenda
  | .on, rest => rest
  | .leave level, rest => rest.leave level
  | .next level, rest => rest.next level

/-- A template that has been found is entered in the context of its tag; without one nothing is
left of the render. -/
def enter (c : Context) (rest : Agenda) : Option Visit → Agenda
  | some nested => .nodes nested c nested.template.root :: rest
  | none => []

theorem leave_suffix (level : Nat) (rest : Agenda) : rest.leave level <:+ rest := by
  induction rest generalizing level with
  | nil => exact List.suffix_rfl
  | cons task rest ih =>
    cases task with
    | nodes v c left => exact (ih level).trans (List.suffix_cons _ _)
    | rows v owner body left =>
      unfold leave
      split
      · exact List.suffix_cons _ _
      · exact (ih _).trans (List.suffix_cons _ _)

theorem next_suffix (level : Nat) (rest : Agenda) : rest.next level <:+ rest := by
  induction rest generalizing level with
  | nil => exact List.suffix_rfl
  | cons task rest ih =>
    cases task with
    | nodes v c left => exact (ih level).trans (List.suffix_cons _ _)
    | rows v owner body left =>
      unfold next
      split
      · exact List.suffix_rfl
      · exact (ih _).trans (List.suffix_cons _ _)

end Agenda

namespace Render

/-- Does a node; `rest` is what comes after it. -/
def doNode (settings : Settings) (loader : Loader) (v : Visit) (c : Context) (rest : Agenda) :
    Node → Walk Agenda
  | .text span => do
    emit { pieces := (Text.joined (v.template.text span)).map Text.bytes }
    pure rest
  | .value name default formatter =>
    match valueOf c name default with
    | some value => do
      emit (emission formatter value)
      pure rest
    | none => pure rest
  | .cond test yes no => pure (.nodes v c (if test.holds c then yes else no) :: rest)
  | .loop name body =>
    match c.enter? name with
    | some (owner, rows) => pure (.rows v owner body rows :: rest)
    | none => pure rest
  | .leave level => pure (rest.leave level)
  | .next level => pure (rest.next level)
  | .embed reference line span => do
    let found ← resolve settings loader v reference line span
    pure (rest.enter c found)

def doTask (settings : Settings) (loader : Loader) (rest : Agenda) : Task → Walk Agenda
  | .nodes _ _ [] => pure rest
  | .nodes v c (node :: left) => doNode settings loader v c (.nodes v c left :: rest) node
  | .rows _ _ _ [] => pure rest
  | .rows v owner body (row :: left) =>
    pure (.nodes v (owner.push row) body :: .rows v owner body left :: rest)

/-- Every task but an inclusion writes something and goes on, whatever has been done before. -/
theorem doTask_eq (settings : Settings) (loader : Loader) (rest : Agenda) (task : Task) :
    (∃ v c reference line span left,
      task = .nodes v c (.embed reference line span :: left)) ∨
    ∃ e agenda, doTask settings loader rest task = (do emit e; pure agenda) := by
  have hpure (agenda : Agenda) :
      (pure agenda : Walk Agenda) = (do emit { pieces := [] }; pure agenda) := rfl
  match task with
  | .nodes v c [] => exact .inr ⟨_, _, hpure _⟩
  | .rows v owner body [] => exact .inr ⟨_, _, hpure _⟩
  | .rows v owner body (row :: left) => exact .inr ⟨_, _, hpure _⟩
  | .nodes v c (node :: left) =>
    rw [doTask]
    match node with
    | .text span => exact .inr ⟨_, _, rfl⟩
    | .value name default formatter =>
      rw [doNode]
      split
      · exact .inr ⟨_, _, rfl⟩
      · exact .inr ⟨_, _, hpure _⟩
    | .cond test yes no => exact .inr ⟨_, _, hpure _⟩
    | .loop name body =>
      rw [doNode]
      split <;> exact .inr ⟨_, _, hpure _⟩
    | .leave level => exact .inr ⟨_, _, hpure _⟩
    | .next level => exact .inr ⟨_, _, hpure _⟩
    | .embed reference line span => exact .inl ⟨v, c, reference, line, span, left, rfl⟩

/-- What the first thing of a task makes of the task and of what comes after it. -/
inductive Does (settings : Settings) (loader : Loader) (rest : Agenda) (p : Progress) :
    Task → Agenda → Progress → Prop
  | listDone {v : Visit} {c : Context} : Does settings loader rest p (.nodes v c []) rest p
  | leaf {v : Visit} {c : Context} {node : Node} {left : List Node} {agenda : Agenda}
    {p' : Progress} : agenda <:+ .nodes v c left :: rest → p.Writes p' →
    Does settings loader rest p (.nodes v c (node :: left)) agenda p'
  | cond {v : Visit} {c : Context} {test : Test} {yes no branch left : List Node} :
    branch = yes ∨ branch = no →
    Does settings loader rest p (.nodes v c (.cond test yes no :: left))
      (.nodes v c branch :: .nodes v c left :: rest) p
  | loop {v : Visit} {c owner : Context} {name : String} {body left : List Node}
    {rows : List Scope} : c.enter? name = some (owner, rows) →
    Does settings loader rest p (.nodes v c (.loop name body :: left))
      (.rows v owner body rows :: .nodes v c left :: rest) p
  | embed {v : Visit} {c : Context} {reference : String} {line : Nat} {span : Span}
    {left : List Node} {found : Option Visit} {p' : Progress} :
    Resolves settings loader v reference span p found p' →
    Does settings loader rest p (.nodes v c (.embed reference line span :: left))
      (Agenda.enter c (.nodes v c left :: rest) found) p'
  | rowsDone {v : Visit} {owner : Context} {body : List Node} :
    Does settings loader rest p (.rows v owner body []) rest p
  | row {v : Visit} {owner : Context} {body : List Node} {row : Scope} {left : List Scope} :
    Does settings loader rest p (.rows v owner body (row :: left))
      (.nodes v (owner.push row) body :: .rows v owner body left :: rest) p

def Fails (settings : Settings) (loader : Loader) (p : Progress) (task : Task) (p' : Progress) :
    Prop :=
  p.Writes p' ∨ ∃ v c reference line span left,
    task = .nodes v c (.embed reference line span :: left) ∧
      (p.finding v reference (look settings loader v reference span p)).Writes p'

theorem meets_doTask (settings : Settings) (loader : Loader) (rest : Agenda) (task : Task)
    (p : Progress) :
    Meets (doTask settings loader rest task) p (Does settings loader rest p task)
      (fun _ => Fails settings loader p task) := by
  match task with
  | .nodes v c [] => exact .listDone
  | .rows v owner body [] => exact .rowsDone
  | .rows v owner body (row :: left) => exact .row
  | .nodes v c (node :: left) =>
    rw [doTask]
    match node with
    | .text span =>
      rw [doNode, meets_bind]
      exact (meets_emit_writes _).mono (fun _ _ h => .leaf List.suffix_rfl h) fun _ _ h => .inl h
    | .value name default formatter =>
      rw [doNode]
      split
      · rw [meets_bind]
        exact (meets_emit_writes _).mono (fun _ _ h => .leaf List.suffix_rfl h)
          fun _ _ h => .inl h
      · exact .leaf List.suffix_rfl (.refl p)
    | .cond test yes no =>
      rw [doNode]
      refine .cond ?_
      split
      · exact .inl rfl
      · exact .inr rfl
    | .loop name body =>
      rw [doNode]
      split
      · exact .loop (by assumption)
      · exact .leaf List.suffix_rfl (.refl p)
    | .leave level => exact .leaf (Agenda.leave_suffix ..) (.refl p)
    | .next level => exact .leaf (Agenda.next_suffix ..) (.refl p)
    | .embed reference line span =>
      rw [doNode, meets_bind]
      exact meets_resolves.mono (fun _ _ h => .embed h)
        fun _ _ h => .inr ⟨v, c, reference, line, span, left, rfl, h⟩

end Render

inductive Task.Begets (settings : Settings) (loader : Loader) (p : Progress) : Task → Task → Prop
  | left {v : Visit} {c : Context} {node : Node} {left : List Node} :
    Begets settings loader p (.nodes v c (node :: left)) (.nodes v c left)
  | branch {v : Visit} {c : Context} {test : Test} {yes no branch left : List Node} :
    branch = yes ∨ branch = no →
    Begets settings loader p (.nodes v c (.cond test yes no :: left)) (.nodes v c branch)
  | loop {v : Visit} {c owner : Context} {name : String} {body left : List Node}
    {rows : List Scope} : c.enter? name = some (owner, rows) →
    Begets settings loader p (.nodes v c (.loop name body :: left)) (.rows v owner body rows)
  | nested {v nested : Visit} {c : Context} {reference : String} {line : Nat} {span : Span}
    {left : List Node} {p' : Progress} :
    Render.Resolves settings loader v reference span p (some nested) p' →
    Begets settings loader p (.nodes v c (.embed reference line span :: left))
      (.nodes nested c nested.template.root)
  | row {v : Visit} {owner : Context} {body : List Node} {row : Scope} {left : List Scope} :
    Begets settings loader p (.rows v owner body (row :: left)) (.nodes v (owner.push row) body)
  | rows {v : Visit} {owner : Context} {body : List Node} {row : Scope} {left : List Scope} :
    Begets settings loader p (.rows v owner body (row :: left)) (.rows v owner body left)

/-- Every task that is left was there before or comes of the task that has been worked on. -/
theorem Render.Does.begets {settings : Settings} {loader : Loader} {rest agenda : Agenda}
    {p p' : Progress} {task : Task} (h : Does settings loader rest p task agenda p') :
    ∀ task' ∈ agenda, task' ∈ rest ∨ task.Begets settings loader p task' := by
  have hrest : ∀ task' ∈ rest, task' ∈ rest ∨ task.Begets settings loader p task' :=
    fun _ hm => .inl hm
  cases h with
  | listDone => exact hrest
  | rowsDone => exact hrest
  | leaf hsuffix _ =>
    -- a jump drops tasks, every other leaf goes on with what is left of its list
    intro task' hm
    exact List.forall_mem_cons.mpr ⟨.inr .left, hrest⟩ task' (hsuffix.subset hm)
  | cond hb =>
    exact List.forall_mem_cons.mpr
      ⟨.inr (.branch hb), List.forall_mem_cons.mpr ⟨.inr .left, hrest⟩⟩
  | loop he =>
    exact List.forall_mem_cons.mpr
      ⟨.inr (.loop he), List.forall_mem_cons.mpr ⟨.inr .left, hrest⟩⟩
  | row => exact List.forall_mem_cons.mpr ⟨.inr .row, List.forall_mem_cons.mpr ⟨.inr .rows, hrest⟩⟩
  | @embed v c reference line span left found _ hr =>
    cases found with
    | none => exact List.forall_mem_nil _
    | some nested =>
      exact List.forall_mem_cons.mpr
        ⟨.inr (.nested hr), List.forall_mem_cons.mpr ⟨.inr .left, hrest⟩⟩

/-- How a render ends: with nothing left to do, or at a write error. -/
abbrev Ending := EStateM.Result WriteError Progress Unit

def Ending.progress : Ending → Progress
  | .ok _ p => p
  | .error _ p => p

/-- A moment of a render: what is left of it, and how far it has come. -/
structure Stage where
  agenda : Agenda
  progress : Progress

namespace Stage

variable (settings : Settings) (loader : Loader)

def Step : Stage → Stage → Prop
  | ⟨[], _⟩, _ => False
  | ⟨task :: rest, p⟩, s => Render.doTask settings loader rest task p = .ok s.agenda s.progress

abbrev Reaches : Stage → Stage → Prop := Relation.ReflTransGen (Step settings loader)

/-- Nothing comes after the stage: nothing is left to do, or writing fails. -/
def Ends : Stage → Ending → Prop
  | ⟨[], p⟩, r => r = .ok () p
  | ⟨task :: rest, p⟩, r =>
    ∃ e p', Render.doTask settings loader rest task p = .error e p' ∧ r = .error e p'

/-- What the steps from a stage come to in the end. -/
def Yields (s : Stage) (r : Ending) : Prop :=
  ∃ s', Reaches settings loader s s' ∧ Ends settings loader s' r

variable {settings loader} {s a b : Stage} {r r' : Ending}

theorem Step.does (h : Step settings loader a b) : ∃ task rest, a.agenda = task :: rest ∧
    Render.Does settings loader rest a.progress task b.agenda b.progress := by
  obtain ⟨agenda, p⟩ := a
  cases agenda with
  | nil => exact h.elim
  | cons task rest =>
    exact ⟨task, rest, rfl, (Render.meets_doTask settings loader rest task p).of_ok h⟩

theorem Step.forall_agenda {T : Task → Prop} (h : Step settings loader a b)
    (ha : ∀ task ∈ a.agenda, T task)
    (hT : ∀ task task', T task → task.Begets settings loader a.progress task' → T task') :
    ∀ task ∈ b.agenda, T task := by
  obtain ⟨task, rest, he, hd⟩ := h.does
  rw [he] at ha
  obtain ⟨htask, hrest⟩ := List.forall_mem_cons.mp ha
  intro task' hm
  rcases hd.begets task' hm with hm | hb
  · exact hrest task' hm
  · exact hT task task' htask hb

/-- The next thing to do is this inclusion. -/
def Faces (s : Stage) (v : Visit) (c : Context) (reference : String) (line : Nat) (span : Span) :
    Prop :=
  ∃ left rest, s.agenda = .nodes v c (.embed reference line span :: left) :: rest

theorem Faces.exists_mem {v : Visit} {c : Context} {reference : String} {line : Nat} {span : Span}
    (h : s.Faces v c reference line span) :
    ∃ left, .nodes v c (.embed reference line span :: left) ∈ s.agenda := by
  obtain ⟨left, rest, ha⟩ := h
  exact ⟨left, ha ▸ List.mem_cons_self ..⟩

section Faces

variable {v : Visit} {c : Context} {reference : String} {line : Nat} {span : Span}
  {left : List Node} {rest : Agenda} {found : Option Visit} {q : Progress}

theorem step_of_faces (ha : s.agenda = .nodes v c (.embed reference line span :: left) :: rest)
    (hr : Render.resolve settings loader v reference line span s.progress = .ok found q) :
    Step settings loader s ⟨Agenda.enter c (.nodes v c left :: rest) found, q⟩ := by
  obtain ⟨agenda, p⟩ := s
  simp only at ha hr
  subst ha
  simp only [Step, Render.doTask, Render.doNode, bind, EStateM.bind, hr]
  rfl

theorem Step.resolve_of_faces (h : Step settings loader a b)
    (hf : a.Faces v c reference line span) : ∃ found,
      Render.resolve settings loader v reference line span a.progress = .ok found b.progress := by
  obtain ⟨agenda, p⟩ := a
  obtain ⟨left, rest, ha⟩ := hf
  simp only at ha
  subst ha
  simp only [Step, Render.doTask, Render.doNode, bind, EStateM.bind] at h
  cases hr : Render.resolve settings loader v reference line span p with
  | ok found q =>
    rw [hr] at h
    injection h with _ hq
    exact ⟨found, by rw [← hq]⟩
  | error e q =>
    rw [hr] at h
    cases h

theorem ends_of_faces {e : WriteError} (hf : s.Faces v c reference line span)
    (hr : Render.resolve settings loader v reference line span s.progress = .error e q) :
    Ends settings loader s (.error e q) := by
  obtain ⟨agenda, p⟩ := s
  obtain ⟨left, rest, ha⟩ := hf
  simp only at ha hr
  subst ha
  refine ⟨e, q, ?_, rfl⟩
  simp only [Render.doTask, Render.doNode, bind, EStateM.bind, hr]

end Faces

theorem Step.writes_or_resolves (h : Step settings loader a b) :
    a.progress.Writes b.progress ∨ ∃ v c reference line span found,
      a.Faces v c reference line span ∧
      Render.Resolves settings loader v reference span a.progress found b.progress := by
  obtain ⟨task, rest, he, hd⟩ := h.does
  obtain ⟨agenda, p⟩ := b
  cases hd with
  | listDone => exact .inl (.refl _)
  | rowsDone => exact .inl (.refl _)
  | leaf _ hw => exact .inl hw
  | cond _ => exact .inl (.refl _)
  | loop _ => exact .inl (.refl _)
  | row => exact .inl (.refl _)
  | embed hr => exact .inr ⟨_, _, _, _, _, _, ⟨_, _, he⟩, hr⟩

theorem Ends.writes_or_finds {e : WriteError} {p : Progress}
    (h : Ends settings loader s (.error e p)) :
    s.progress.Writes p ∨ ∃ v c reference line span, s.Faces v c reference line span ∧
      (s.progress.finding v reference
        (Render.look settings loader v reference span s.progress)).Writes p := by
  obtain ⟨agenda, q⟩ := s
  cases agenda with
  | nil => cases h
  | cons task rest =>
    obtain ⟨e', p', he, hr⟩ := h
    cases hr
    rcases (Render.meets_doTask settings loader rest task q).of_error he with
      hw | ⟨v, c, reference, line, span, left, rfl, hw⟩
    · exact .inl hw
    · exact .inr ⟨v, c, reference, line, span, ⟨left, rest, rfl⟩, hw⟩

theorem Step.unique (ha : Step settings loader s a) (hb : Step settings loader s b) : a = b := by
  obtain ⟨agenda, p⟩ := s
  cases agenda with
  | nil => exact ha.elim
  | cons task rest =>
    have h := Eq.trans (Eq.symm ha) hb
    injection h with hagenda hprogress
    obtain ⟨_, _⟩ := a
    obtain ⟨_, _⟩ := b
    cases hagenda
    cases hprogress
    rfl

theorem Ends.not_step (hr : Ends settings loader s r) : ¬ Step settings loader s a := by
  intro ha
  obtain ⟨agenda, p⟩ := s
  cases agenda with
  | nil => exact ha
  | cons task rest =>
    obtain ⟨e, p', he, _⟩ := hr
    exact nomatch Eq.trans (Eq.symm ha) he

theorem Ends.unique (hr : Ends settings loader s r) (hr' : Ends settings loader s r') :
    r = r' := by
  obtain ⟨agenda, p⟩ := s
  cases agenda with
  | nil => exact Eq.trans hr (Eq.symm hr')
  | cons task rest =>
    obtain ⟨e, p', he, rfl⟩ := hr
    obtain ⟨e', p'', he', rfl⟩ := hr'
    injection Eq.trans (Eq.symm he) he' with herror hprogress
    rw [herror, hprogress]

theorem Ends.ok_or_error (hr : Ends settings loader s r) :
    r = .ok () s.progress ∨ ∃ e p, r = .error e p ∧ Ends settings loader s (.error e p) := by
  obtain ⟨agenda, p⟩ := s
  cases agenda with
  | nil => exact .inl hr
  | cons task rest =>
    obtain ⟨e, p', he, rfl⟩ := hr
    exact .inr ⟨e, p', rfl, e, p', he, rfl⟩

theorem Ends.exists_error (hr : Ends settings loader s r) (hs : s.agenda ≠ []) :
    ∃ e p, Ends settings loader s (.error e p) := by
  obtain ⟨agenda, q⟩ := s
  cases agenda with
  | nil => exact (hs rfl).elim
  | cons task rest =>
    obtain ⟨e, p, he, rfl⟩ := hr
    exact ⟨e, p, e, p, he, rfl⟩

theorem keeps_of_reaches {P : Stage → Prop} (hs : Reaches settings loader s a) (h : P s)
    (hP : ∀ b b', P b → Step settings loader b b' → P b') : P a := by
  induction hs with
  | refl => exact h
  | tail _ hstep ih => exact hP _ _ ih hstep

theorem Yields.of_reaches (hs : Reaches settings loader s a) (hr : Yields settings loader a r) :
    Yields settings loader s r := by
  obtain ⟨last, hl, he⟩ := hr
  exact ⟨last, hs.trans hl, he⟩

theorem Yields.unique (hr : Yields settings loader s r) (hr' : Yields settings loader s r') :
    r = r' := by
  obtain ⟨last, hl, he⟩ := hr
  -- along the steps to the end: no stage has two steps, and the last one has none
  induction hl using Relation.ReflTransGen.head_induction_on with
  | refl =>
    obtain ⟨last', hl', he'⟩ := hr'
    rcases hl'.cases_head with rfl | ⟨a, ha, _⟩
    · exact he.unique he'
    · exact (he.not_step ha).elim
  | head hstep _ ih =>
    obtain ⟨last', hl', he'⟩ := hr'
    rcases hl'.cases_head with rfl | ⟨a, ha, hrest⟩
    · exact (he'.not_step hstep).elim
    · cases hstep.unique ha
      exact ih ⟨last', hrest, he'⟩

theorem Yields.of_reached (hr : Yields settings loader s r) (hs : Reaches settings loader s a) :
    Yields settings loader a r := by
  induction hs with
  | refl => exact hr
  | tail _ hstep ih =>
    obtain ⟨last, hl, he⟩ := ih
    rcases hl.cases_head with rfl | ⟨c, hc, hrest⟩
    · exact (he.not_step hstep).elim
    · cases hstep.unique hc
      exact ⟨last, hrest, he⟩

theorem Yields.acc (hr : Yields settings loader s r) :
    Acc (fun b a => Step settings loader a b) s := by
  obtain ⟨last, hl, he⟩ := hr
  induction hl using Relation.ReflTransGen.head_induction_on with
  | refl => exact ⟨_, fun b hb => (he.not_step hb).elim⟩
  | head hstep _ ih => exact ⟨_, fun b hb => hstep.unique hb ▸ ih⟩

end Stage
end Stencil
