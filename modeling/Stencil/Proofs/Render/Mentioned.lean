import Stencil.Proofs.Render.Texts

/-! Names that no template mentions.
Names are looked for one at a time, so that a binding whose name is in no template that is visited
is never looked at. The main statement says that a render comes to the same in a scope from which
all such bindings have been dropped, at every level of rows. -/
namespace Stencil
namespace Scope

mutual

/-- The scope with the bindings of some names only, in its rows as well. -/
def restrict (keep : String → Bool) : Scope → Scope
  | mk values loops => mk (values.filter fun p => keep p.1) (restrictLoops keep loops)

def restrictLoops (keep : String → Bool) : List (String × List Scope) →
    List (String × List Scope)
  | [] => []
  | (name, rows) :: loops =>
    if keep name then (name, restrictRows keep rows) :: restrictLoops keep loops
    else restrictLoops keep loops

def restrictRows (keep : String → Bool) : List Scope → List Scope
  | [] => []
  | row :: rows => row.restrict keep :: restrictRows keep rows

end

variable {keep : String → Bool} {name : String}

theorem restrictRows_eq_map (rows : List Scope) :
    restrictRows keep rows = rows.map (restrict keep) := by
  induction rows with
  | nil => rfl
  | cons row rows ih => rw [restrictRows, ih, List.map_cons]

@[simp] theorem value?_restrict (s : Scope) :
    (s.restrict keep).value? name = if keep name then s.value? name else none := by
  obtain ⟨values, loops⟩ := s
  rw [restrict]
  show Assoc.get? name (values.filter fun p => keep p.1) =
    if keep name then Assoc.get? name values else none
  induction values with
  | nil => simp
  | cons p values ih =>
    obtain ⟨other, value⟩ := p
    by_cases ho : other = name
    · subst ho
      by_cases hk : keep other <;> simp [hk, ih]
    · by_cases hk : keep other <;> simp [hk, ho, ih]

@[simp] theorem loop?_restrict (s : Scope) :
    (s.restrict keep).loop? name =
      if keep name then (s.loop? name).map (·.map (restrict keep)) else none := by
  obtain ⟨values, loops⟩ := s
  rw [restrict]
  show Assoc.get? name (restrictLoops keep loops) =
    if keep name then (Assoc.get? name loops).map (·.map (restrict keep)) else none
  induction loops with
  | nil => simp [restrictLoops]
  | cons p loops ih =>
    obtain ⟨other, rows⟩ := p
    by_cases ho : other = name
    · subst ho
      by_cases hk : keep other <;> simp [restrictLoops, restrictRows_eq_map, hk, ih]
    · by_cases hk : keep other <;> simp [restrictLoops, hk, ho, ih]

end Scope

namespace Context

variable {keep : String → Bool} {name : String}

def restrict (keep : String → Bool) (c : Context) : Context :=
  ⟨c.root.restrict keep, c.rows.map (Scope.restrict keep)⟩

@[simp] theorem frames_restrict (c : Context) :
    (c.restrict keep).frames = c.frames.map (Scope.restrict keep) := by
  simp [restrict, frames]

@[simp] theorem restrict_push (c : Context) (row : Scope) :
    (c.push row).restrict keep = (c.restrict keep).push (row.restrict keep) := rfl

theorem value?_restrict (hk : keep name) (c : Context) :
    (c.restrict keep).value? name = c.value? name := by
  simp [value?, List.findSome?_map, Function.comp_def, hk]

theorem owner?_restrict (hk : keep name) (rows : List Scope) :
    owner? name (rows.map (Scope.restrict keep)) = (owner? name rows).map fun found =>
      (found.1.map (Scope.restrict keep), found.2.map (Scope.restrict keep)) := by
  induction rows with
  | nil => rfl
  | cons row rows ih =>
    rw [List.map_cons, owner?, owner?, Scope.loop?_restrict, if_pos hk]
    cases row.loop? name with
    | some found => rfl
    | none => exact ih

theorem enter?_restrict (hk : keep name) (c : Context) :
    (c.restrict keep).enter? name = (c.enter? name).map fun found =>
      (found.1.restrict keep, found.2.map (Scope.restrict keep)) := by
  obtain ⟨root, rows⟩ := c
  simp only [enter?, restrict, owner?_restrict hk, Scope.loop?_restrict, hk, if_true]
  cases owner? name rows with
  | some found => rfl
  | none => cases root.loop? name <;> rfl

theorem loop?_restrict (hk : keep name) (c : Context) :
    (c.restrict keep).loop? name = (c.loop? name).map (·.map (Scope.restrict keep)) := by
  rw [← enter?_map_snd, ← enter?_map_snd, enter?_restrict hk, Option.map_map, Option.map_map]
  rfl

end Context

theorem Test.holds_restrict {keep : String → Bool} {test : Test} (hk : keep test.name)
    (c : Context) : test.holds (c.restrict keep) = test.holds c := by
  unfold Test.holds
  rw [Context.value?_restrict hk, Context.loop?_restrict hk, Option.isSome_map]

namespace Node

mutual

/-- The names that a node asks the bindings for. -/
def names : Node → List String
  | .value name _ _ => [name]
  | .cond test yes no => test.name :: (namesOf yes ++ namesOf no)
  | .loop name body => name :: namesOf body
  | .text _ => []
  | .leave _ => []
  | .next _ => []
  | .embed _ _ _ => []

def namesOf : List Node → List String
  | [] => []
  | node :: rest => node.names ++ namesOf rest

end

theorem mem_namesOf {nodes : List Node} {name : String} :
    name ∈ namesOf nodes ↔ ∃ node ∈ nodes, name ∈ node.names := by
  induction nodes with
  | nil => simp [namesOf]
  | cons node rest ih => simp [namesOf, ih]

theorem Inside.namesOf_subset {root list : List Node} {loops : Nat}
    (h : Inside root loops list) : namesOf list ⊆ namesOf root := by
  induction h with
  | root => exact List.Subset.refl _
  | yes _ hm ih =>
    intro name hn
    exact ih (mem_namesOf.mpr ⟨_, hm, by simp [names, hn]⟩)
  | no _ hm ih =>
    intro name hn
    exact ih (mem_namesOf.mpr ⟨_, hm, by simp [names, hn]⟩)
  | body _ hm ih =>
    intro name hn
    exact ih (mem_namesOf.mpr ⟨_, hm, by simp [names, hn]⟩)

end Node

namespace Task

def restrict (keep : String → Bool) : Task → Task
  | .nodes v c left => .nodes v (c.restrict keep) left
  | .rows v owner body left =>
    .rows v (owner.restrict keep) body (left.map (Scope.restrict keep))

def list : Task → List Node
  | .nodes _ _ left => left
  | .rows _ _ body _ => body

theorem Inside.namesOf_subset {task : Task} (h : task.Inside) :
    Node.namesOf task.list ⊆ Node.namesOf task.visit.template.root := by
  cases task with
  | nodes v c left =>
    obtain ⟨loops, list, hi, hs⟩ := h
    intro name hn
    obtain ⟨node, hm, hname⟩ := Node.mem_namesOf.mp hn
    exact hi.namesOf_subset (Node.mem_namesOf.mpr ⟨node, hs.subset hm, hname⟩)
  | rows v owner body left =>
    obtain ⟨loops, hi⟩ := h
    exact hi.namesOf_subset

end Task

namespace Agenda

variable {keep : String → Bool}

def restrict (keep : String → Bool) (agenda : Agenda) : Agenda := agenda.map (Task.restrict keep)

theorem leave_restrict (level : Nat) (agenda : Agenda) :
    Agenda.leave level (agenda.restrict keep) = (agenda.leave level).restrict keep := by
  induction agenda generalizing level with
  | nil => rfl
  | cons task rest ih =>
    cases task with
    | nodes v c left => exact ih level
    | rows v owner body left =>
      show (if level = 1 then restrict keep rest else leave (level - 1) (restrict keep rest)) =
        restrict keep (if level = 1 then rest else leave (level - 1) rest)
      split
      · rfl
      · exact ih _

theorem next_restrict (level : Nat) (agenda : Agenda) :
    Agenda.next level (agenda.restrict keep) = (agenda.next level).restrict keep := by
  induction agenda generalizing level with
  | nil => rfl
  | cons task rest ih =>
    cases task with
    | nodes v c left => exact ih level
    | rows v owner body left =>
      show (if level = 1 then restrict keep (.rows v owner body left :: rest)
          else next (level - 1) (restrict keep rest)) =
        restrict keep (if level = 1 then .rows v owner body left :: rest
          else next (level - 1) rest)
      split
      · rfl
      · exact ih _

theorem enter_restrict (c : Context) (agenda : Agenda) (found : Option Visit) :
    enter (c.restrict keep) (agenda.restrict keep) found =
      (enter c agenda found).restrict keep := by
  cases found <;> rfl

end Agenda

namespace Render

variable {settings : Settings} {loader : Loader} {keep : String → Bool}

/-- A task that asks for names that are kept only does the same where nothing else is bound. -/
theorem doTask_restrict {task : Task} (rest : Agenda)
    (hk : ∀ name ∈ Node.namesOf task.list, keep name) :
    doTask settings loader (rest.restrict keep) (task.restrict keep) =
      Agenda.restrict keep <$> doTask settings loader rest task := by
  match task with
  | .nodes v c [] => rfl
  | .rows v owner body [] => rfl
  | .rows v owner body (row :: left) => rfl
  | .nodes v c (node :: left) =>
    have hnode : ∀ name ∈ node.names, keep name :=
      fun name hn => hk name (List.mem_append_left _ hn)
    have hrest : Task.restrict keep (.nodes v c left) :: rest.restrict keep =
        Agenda.restrict keep (.nodes v c left :: rest) := rfl
    show doNode settings loader v (c.restrict keep)
        (Agenda.restrict keep (.nodes v c left :: rest)) node =
      Agenda.restrict keep <$> doNode settings loader v c (.nodes v c left :: rest) node
    match node with
    | .text span => simp only [doNode, map_bind, map_pure]
    | .value name default formatter =>
      have hvalue : valueOf (c.restrict keep) name default = valueOf c name default := by
        unfold valueOf
        rw [Context.value?_restrict (hnode name (List.mem_singleton.mpr rfl))]
      rw [doNode, doNode, hvalue]
      cases valueOf c name default with
      | none => rfl
      | some value => simp only [map_bind, map_pure]
    | .cond test yes no =>
      have htest : test.holds (c.restrict keep) = test.holds c :=
        Test.holds_restrict (hnode test.name (List.mem_cons_self ..)) c
      rw [doNode, doNode, htest]
      rfl
    | .loop name body =>
      rw [doNode, doNode, Context.enter?_restrict (hnode name (List.mem_cons_self ..))]
      cases c.enter? name with
      | none => rfl
      | some found => rfl
    | .leave level =>
      rw [doNode, doNode, map_pure, Agenda.leave_restrict]
    | .next level =>
      rw [doNode, doNode, map_pure, Agenda.next_restrict]
    | .embed reference line span =>
      simp only [doNode, map_bind, map_pure, Agenda.enter_restrict]

end Render

namespace Stage

variable {settings : Settings} {loader : Loader} {keep : String → Bool} {s t : Stage}

def restrict (keep : String → Bool) (s : Stage) : Stage := ⟨s.agenda.restrict keep, s.progress⟩

def Asks (keep : String → Bool) (s : Stage) : Prop :=
  ∀ task ∈ s.agenda, ∀ name ∈ Node.namesOf task.list, keep name

theorem doTask_restrict_apply {task : Task} {rest : Agenda} {p : Progress}
    (hk : Asks keep ⟨task :: rest, p⟩) :
    Render.doTask settings loader (Agenda.restrict keep rest) (task.restrict keep) p =
      EStateM.map (Agenda.restrict keep) (Render.doTask settings loader rest task) p :=
  congrFun (Render.doTask_restrict rest (hk task (List.mem_cons_self ..))) p

theorem Step.restrict (h : Step settings loader s t) (hk : s.Asks keep) :
    Step settings loader (s.restrict keep) (t.restrict keep) := by
  obtain ⟨agenda, p⟩ := s
  cases agenda with
  | nil => exact h.elim
  | cons task rest =>
    have hok : Render.doTask settings loader rest task p = .ok t.agenda t.progress := h
    refine (doTask_restrict_apply hk).trans ?_
    simp only [EStateM.map, hok, Stage.restrict]

theorem Ends.restrict {r : Ending} (h : Ends settings loader s r) (hk : s.Asks keep) :
    Ends settings loader (s.restrict keep) r := by
  obtain ⟨agenda, p⟩ := s
  cases agenda with
  | nil => exact h
  | cons task rest =>
    obtain ⟨e, p', he, hr⟩ := h
    refine ⟨e, p', (doTask_restrict_apply hk).trans ?_, hr⟩
    simp only [EStateM.map, he]

end Stage

namespace Rendering

variable {x : Rendering} {s : Stage} {keep : String → Bool}

def restrict (keep : String → Bool) (x : Rendering) : Rendering :=
  { x with scope := x.scope.restrict keep }

/-- A template that the render visits has a value, a conditional or a loop of this name. -/
def Mentions (x : Rendering) (name : String) : Prop :=
  ∃ s, x.Reaches s ∧ ∃ task ∈ s.agenda, name ∈ Node.namesOf task.visit.template.root

theorem Reaches.asks (h : x.Reaches s) (hk : ∀ name, x.Mentions name → keep name) :
    s.Asks keep :=
  fun task ht name hn => hk name ⟨s, h, task, ht, (h.inside task ht).namesOf_subset hn⟩

theorem Reaches.restrict (h : x.Reaches s) (hk : ∀ name, x.Mentions name → keep name) :
    (x.restrict keep).Reaches (s.restrict keep) := by
  obtain ⟨first, hb, hr⟩ := h
  induction hr with
  | refl =>
    obtain ⟨ho, ha⟩ := hb
    exact ⟨first.restrict keep, ⟨ho, congrArg (Agenda.restrict keep) ha⟩, .refl⟩
  | tail hr hstep ih => exact ih.tail (hstep.restrict (Reaches.asks ⟨first, hb, hr⟩ hk))

theorem Yields.restrict {r : Ending} (h : x.Yields r)
    (hk : ∀ name, x.Mentions name → keep name) : (x.restrict keep).Yields r := by
  unfold Yields at h
  split at h
  · rename_i p ho
    obtain ⟨last, hl, hend⟩ := h
    have hreaches : x.Reaches last := ⟨⟨x.agenda, p⟩, ⟨ho, rfl⟩, hl⟩
    obtain ⟨first, hb, hr⟩ := hreaches.restrict hk
    exact hb.yields ⟨_, hr, hend.restrict (hreaches.asks hk)⟩
  · rename_i e p ho
    rw [h]
    exact yields_of_opening (x := x.restrict keep) ho

theorem run_restrict (hx : x.held.Arises) (hk : ∀ name, x.Mentions name → keep name) :
    (x.restrict keep).run = x.run := by
  -- both renders yield what the steps come to, which is one thing only
  have hy := (yields_start hx.coherent).restrict hk
  rw [x.run_eq_leaves, (x.restrict keep).run_eq_leaves]
  exact congrArg x.leaves ((yields_start (x := x.restrict keep) hx.coherent).unique hy)

theorem keeps_mentioned
    (hroot : ∀ name ∈ Node.namesOf x.held.template.root, keep name)
    (hstore : x.held.store.Holds fun t _ => ∀ name ∈ Node.namesOf t.root, keep name)
    (hload : ∀ moment depth path t, Template.load x.settings x.loader moment depth path = .ok t →
      ∀ name ∈ Node.namesOf t.root, keep name) :
    ∀ name, x.Mentions name → keep name := by
  rintro name ⟨s, hs, task, ht, hn⟩
  exact (hs.holds hstore hroot fun _ _ _ _ t _ _ h => hload _ _ _ t h).agenda task ht name hn

end Rendering

theorem Source.rendering?_restrict (settings : Settings) (loader : Loader) (source : Source)
    (scope : Scope) (out err : Sink) (keep : String → Bool) :
    source.rendering? settings loader (scope.restrict keep) out err =
      (source.rendering? settings loader scope out err).map (Rendering.restrict keep) := by
  cases source with
  | text content => rfl
  | path file =>
    unfold rendering?
    cases hl : Template.load settings loader { written := out.pieces } 0 file <;>
      simp only [hl] <;> rfl

theorem Source.render_of_rendering?_eq_none {settings : Settings} {loader : Loader}
    {source : Source} {scope : Scope} {out err : Sink}
    (h : source.rendering? settings loader scope out err = none) (other : Scope) :
    source.render settings loader other out err = source.render settings loader scope out err := by
  cases source with
  | text content => cases h
  | path file =>
    unfold rendering? at h
    unfold render
    cases hl : Template.load settings loader { written := out.pieces } 0 file with
    | ok t =>
      simp only [hl] at h
      cases h
    | error problem => simp only [hl]

/-- A render depends only on the names that its templates mention. Let all names be kept that are
those of a value, a conditional or a loop in a template that is visited. Then rendering comes to the
same, with the same output, diagnostics and result, in the scope from which all values and loops
with other names have been dropped, at every level of rows. -/
theorem only_mentioned_names_matter (keep : String → Bool) :
    (∀ x : Rendering, x.held.Arises → (∀ name, x.Mentions name → keep name) →
      (x.restrict keep).run = x.run) ∧
    ∀ settings loader (source : Source) scope out err,
      (∀ x, source.rendering? settings loader scope out err = some x →
        ∀ name, x.Mentions name → keep name) →
      source.render settings loader (scope.restrict keep) out err =
        source.render settings loader scope out err := by
  refine ⟨fun x hx hk => x.run_restrict hx hk, fun settings loader source scope out err hk => ?_⟩
  cases hx : source.rendering? settings loader scope out err with
  | none => exact Source.render_of_rendering?_eq_none hx _
  | some x =>
    have hrestricted := Source.rendering?_restrict settings loader source scope out err keep
    rw [hx] at hrestricted
    obtain ⟨-, -, hfresh⟩ := Source.fresh_of_rendering? hx
    rw [Source.render_of_rendering? hrestricted, Source.render_of_rendering? hx,
      x.run_restrict hfresh.arises (hk x hx)]

/-- Rows with more bindings than the included template asks for. -/
def roomyRender : Rendering where
  settings := {}
  loader := Library.loader ⟨[("row", "\x7b\x7bVAR n\x7d\x7d;")]⟩
  held :=
    { template := Template.ofText {}
        "\x7b\x7bLOOP a\x7d\x7d\x7b\x7bINCLUDE row\x7d\x7d\x7b\x7bENDLOOP\x7d\x7d" }
  scope := (Scope.empty.withValue "m" "0").withLoop "a"
    [((Scope.empty.withValue "n" "1").withValue "a" "2").withLoop "b" [.empty],
      (Scope.empty.withValue "n" "3").withValue "m" "4"]

theorem only_mentioned_names_matter_roomy :
    let keep (name : String) : Bool := name == "a" || name == "n"
    roomyRender.held.Arises ∧ (∀ name, roomyRender.Mentions name → keep name) ∧
      (roomyRender.restrict keep).scope.value? "m" = none ∧
      (roomyRender.restrict keep).run = roomyRender.run ∧
      roomyRender.run.out.contents = Text.encode "1;3;" := by
  intro keep
  have hx : roomyRender.held.Arises := .read ..
  have hrow (depth : Nat) (path : String) : Node.namesOf
      (Template.parse {} path (some path) "\x7b\x7bVAR n\x7d\x7d;" depth).root = ["n"] := by
    have hscan : Item.scan {} "\x7b\x7bVAR n\x7d\x7d;" =
        [.tag ⟨.var, [.bare "n"], ⟨0, 9⟩, 1⟩, .text ⟨9, 10⟩] := by decide +kernel
    show Node.namesOf (Tree.ofItems {} depth (Item.scan {} _)).1 = _
    rw [hscan, OpenTree.ofItems_eq_run]
    rfl
  have hk : ∀ name, roomyRender.Mentions name → keep name := by
    refine Rendering.keeps_mentioned (by decide +kernel) (fun _ _ h => nomatch h) ?_
    intro moment depth path t hload
    have htext : ∃ text, Library.find? ⟨[("row", "\x7b\x7bVAR n\x7d\x7d;")]⟩ path = some text ∧
        t = Template.parse {} path (some path) text depth := by
      unfold Template.load at hload
      split at hload
      · rename_i text hfound
        cases hload
        have hfound : Library.load ⟨[("row", "\x7b\x7bVAR n\x7d\x7d;")]⟩ path = .ok text := hfound
        unfold Library.load at hfound
        split at hfound
        · cases hfound
          exact ⟨text, by assumption, rfl⟩
        · cases hfound
      · cases hload
    obtain ⟨text, hfound, rfl⟩ := htext
    obtain ⟨-, rfl⟩ : _ ∧ _ = text := by simpa [Library.find?] using hfound
    simp [hrow, keep]
  exact ⟨hx, hk, by decide +kernel, (only_mentioned_names_matter keep).1 roomyRender hx hk,
    by decide +kernel⟩

end Stencil
