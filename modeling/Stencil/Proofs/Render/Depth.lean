import Stencil.Proofs.Item.Leftmost
import Stencil.Proofs.Tree.Findings
import Stencil.Proofs.Render.Jumps
import Stencil.Proofs.Render.Session

/-! How deep inclusions go.
A template as deep as inclusions may be has none: reading it leaves them out and reports them. So a
render that begins with templates that have been read never comes to an inclusion that is too deep,
whatever the loader answers, and it ends. -/
namespace Stencil

section Reading

variable {settings : Settings} {name : String} {path : Option String} {source : String}
  {depth : Nat}

/-- Only a template that is less deep than this includes others. -/
def Template.IncludesAbove (limit : Nat) (t : Template) : Prop :=
  ∀ loops list reference line span, Node.Inside t.root loops list →
    .embed reference line span ∈ list → t.depth < limit

theorem Tag.lt_of_leaf {loops : Nat} {tag : Tag} {nodes : List Node}
    (h : tag.leaf settings depth loops = .ok nodes) :
    Node.AllLeaves (fun _ node => ∀ reference line span, node = .embed reference line span →
      depth < settings.includeLimit) loops nodes := by
  rcases Tag.leaf_cases h with ⟨_, _, _, -, rfl⟩ | ⟨_, rfl, hlt, -⟩ | ⟨_, -, rfl | rfl⟩ | rfl
  · exact ⟨nofun, trivial⟩
  · exact ⟨fun _ _ _ _ => hlt, trivial⟩
  · exact ⟨nofun, trivial⟩
  · exact ⟨nofun, trivial⟩
  · trivial

theorem Template.includesAbove_parse (settings : Settings) (name : String)
    (path : Option String) (source : String) (depth : Nat) :
    (Template.parse settings name path source depth).IncludesAbove settings.includeLimit := by
  intro loops list reference line span hi hm
  have hroot : Node.AllLeaves (fun _ node => ∀ reference line span,
      node = .embed reference line span → depth < settings.includeLimit) 0
      (Template.parse settings name path source depth).root := by
    apply Tree.allLeaves_ofItems
    intro item _
    cases item with
    | text span => exact fun _ => nofun
    | tag tag => exact fun _ _ h => Tag.lt_of_leaf h
    | finding f => trivial
  exact Node.allLeaves_iff.mp (hi.allLeaves hroot) _ hm reference line span rfl

/-- What is wrong with an inclusion is reported wherever its tag stands. -/
theorem Template.mem_diagnostics_of_embed {tag : Tag} {problem : Problem}
    (hm : .tag tag ∈ Item.scan settings.tags source) (hk : tag.kind = .embed)
    (hp : tag.embed settings depth = .error problem) :
    (tag.finding problem).toDiagnostic name source ∈
      (Template.parse settings name path source depth).diagnostics := by
  apply List.mem_map_of_mem (f := fun f => Finding.toDiagnostic f name source)
  apply Tree.mem_findings_ofItems hm
  · simp [hk, TagKind.isTerminator]
  · simp [hk]
  · simp [hk]
  · intro loops
    unfold Tag.leaf
    simp only [hk, hp]
    rfl

theorem Tag.embed_of_name {tag : Tag} {reference : String} (hk : tag.kind = .embed)
    (hn : tag.name settings.tags = .ok reference) (hd : settings.includeLimit ≤ depth) :
    tag.embed settings depth =
      .error (.tooDeep (settings.tags.keyword .embed) settings.includeLimit) := by
  unfold Tag.embed
  simp only [hk, hn]
  rw [if_neg (by omega)]

theorem Tag.embed_of_nameless {tag : Tag} {problem : Problem} (hk : tag.kind = .embed)
    (hn : tag.name settings.tags = .error problem) :
    tag.embed settings depth = .error (.missingName (settings.tags.keyword .embed)) := by
  unfold Tag.embed
  simp only [hn]
  unfold Tag.name at hn
  split at hn
  · cases hn
  · cases hn
    rw [hk]

end Reading

/-- The template stands as many inclusions deep as its position is long, no deeper than the limit,
and above the limit if it includes others. -/
def Template.Admitted (limit : Nat) (t : Template) (position : Position) : Prop :=
  t.StandsAt 0 limit position ∧ t.IncludesAbove limit

/-- The list of nodes that a task is about stands in the tree of its template. -/
def Task.Inside : Task → Prop
  | .nodes v _ left => ∃ loops list, Node.Inside v.template.root loops list ∧ left <:+ list
  | .rows v _ body _ => ∃ loops, Node.Inside v.template.root loops body

namespace Stage

variable {settings : Settings} {loader : Loader} {limit : Nat} {s s' : Stage} {p : Progress}

/-- No template is deeper than the limit: none that is kept or visited, and none that has been asked
for. -/
structure Bounded (limit : Nat) (s : Stage) : Prop where
  templates : s.Holds (Template.Admitted limit)
  lists : ∀ task ∈ s.agenda, task.Inside
  loads : ∀ load ∈ s.progress.loads, load.2 ≤ limit

/-- How far the render has come when the next thing has been done, or when writing has failed. -/
def Advances (settings : Settings) (loader : Loader) (s : Stage) (p : Progress) : Prop :=
  (∃ agenda, Step settings loader s ⟨agenda, p⟩) ∨ ∃ e, Ends settings loader s (.error e p)

/-- Templates are asked for at inclusions only, one at a time and a level deeper than the template
that includes them. -/
theorem Advances.loads (h : s.Advances settings loader p) :
    p.loads = s.progress.loads ∨ ∃ v c reference line span, s.Faces v c reference line span ∧
      p.loads = (v.target reference, v.template.depth + 1) :: s.progress.loads := by
  have hfinding : ∀ (v : Visit) (reference : String) (found : Found),
      (s.progress.finding v reference found).loads = s.progress.loads ∨
        (s.progress.finding v reference found).loads =
          (v.target reference, v.template.depth + 1) :: s.progress.loads := by
    intro v reference found
    unfold Progress.finding
    split
    · exact .inr rfl
    · exact .inl rfl
  have hinclusion : ∀ v c reference line span found, s.Faces v c reference line span →
      p.loads = (s.progress.finding v reference found).loads →
      p.loads = s.progress.loads ∨ ∃ v c reference line span, s.Faces v c reference line span ∧
        p.loads = (v.target reference, v.template.depth + 1) :: s.progress.loads := by
    intro v c reference line span found hf hp
    rcases hfinding v reference found with hl | hl
    · exact .inl (hp.trans hl)
    · exact .inr ⟨v, c, reference, line, span, hf, hp.trans hl⟩
  -- a step that succeeds and one that fails have asked for the same
  rcases h with ⟨agenda, hstep⟩ | ⟨e, hend⟩
  · rcases hstep.writes_or_resolves with hw | ⟨v, c, reference, line, span, found, hf, hr⟩
    · exact .inl hw.loads
    · exact hinclusion v c reference line span _ hf hr.loads
  · rcases hend.writes_or_finds with hw | ⟨v, c, reference, line, span, hf, hw⟩
    · exact .inl hw.loads
    · exact hinclusion v c reference line span _ hf hw.loads

end Stage

theorem Render.inherited_admitted (settings : Settings) (loader : Loader) :
    Inherited settings loader (Template.Admitted settings.includeLimit) := by
  rintro v span moment path t ⟨hv, _⟩ hdeep hload
  have hlimit : settings.includeLimit ≤ 0 + settings.includeLimit := by omega
  have ht : t.IncludesAbove settings.includeLimit := by
    obtain ⟨text, rfl⟩ := Template.eq_parse_of_load hload
    exact Template.includesAbove_parse settings path (some path) text _
  exact ⟨inherited_standsAt hlimit v span moment path t hv hdeep hload, ht⟩

namespace Stage

variable {settings : Settings} {loader : Loader} {s s' : Stage} {p : Progress} {limit : Nat}

theorem Bounded.lt_of_faces (h : s.Bounded limit) {v : Visit} {c : Context} {reference : String}
    {line : Nat} {span : Span} (hf : s.Faces v c reference line span) :
    v.template.depth < limit := by
  obtain ⟨left, hm⟩ := hf.exists_mem
  obtain ⟨loops, list, hi, hs⟩ := h.lists _ hm
  exact (h.templates.agenda _ hm).2 loops list reference line span hi
    (hs.subset (List.mem_cons_self ..))

theorem Bounded.advances (h : s.Bounded limit) (hs : s.Advances settings loader p) :
    ∀ load ∈ p.loads, load.2 ≤ limit := by
  rcases hs.loads with hl | ⟨v, c, reference, line, span, hf, hl⟩
  · rw [hl]
    exact h.loads
  · rw [hl]
    exact List.forall_mem_cons.mpr ⟨h.lt_of_faces hf, h.loads⟩

theorem inside_of_begets {task task' : Task} (h : task.Inside)
    (hb : task.Begets settings loader p task') : task'.Inside := by
  cases hb with
  | left =>
    obtain ⟨loops, list, hi, hs⟩ := h
    exact ⟨loops, list, hi, (List.suffix_cons _ _).trans hs⟩
  | branch hb =>
    obtain ⟨loops, list, hi, hs⟩ := h
    have hm := hs.subset (List.mem_cons_self ..)
    rcases hb with rfl | rfl
    · exact ⟨loops, _, .yes hi hm, List.suffix_rfl⟩
    · exact ⟨loops, _, .no hi hm, List.suffix_rfl⟩
  | loop _ =>
    obtain ⟨loops, list, hi, hs⟩ := h
    exact ⟨loops + 1, .body hi (hs.subset (List.mem_cons_self ..))⟩
  | nested _ => exact ⟨0, _, .root, List.suffix_rfl⟩
  | row =>
    obtain ⟨loops, hi⟩ := h
    exact ⟨loops, _, hi, List.suffix_rfl⟩
  | rows => exact h

theorem Bounded.step (h : s.Bounded settings.includeLimit) (hs : Step settings loader s s') :
    s'.Bounded settings.includeLimit :=
  ⟨h.templates.step (Render.inherited_admitted settings loader) hs,
    hs.forall_agenda h.lists fun _ _ ht hb => inside_of_begets ht hb,
    h.advances (.inl ⟨s'.agenda, hs⟩)⟩

theorem Bounded.yields (h : s.Bounded settings.includeLimit) {r : Ending}
    (hr : Yields settings loader s r) :
    ∀ load ∈ r.progress.loads, load.2 ≤ settings.includeLimit := by
  obtain ⟨last, hl, he⟩ := hr
  have hlast : last.Bounded settings.includeLimit :=
    keeps_of_reaches hl h fun _ _ hb hstep => hb.step hstep
  rcases he.ok_or_error with rfl | ⟨e, p, rfl, hend⟩
  · exact hlast.loads
  · exact hlast.advances (.inr ⟨e, hend⟩)

end Stage

/-- The render of a source: of the template that its text is read as, or of the one that is asked
for at its path. There is none if that template cannot be read. -/
def Source.rendering? (settings : Settings) (loader : Loader) (source : Source) (scope : Scope)
    (out err : Sink) : Option Rendering :=
  let begin (loads : List (String × Nat)) (t : Template) : Rendering :=
    { settings, loader, held := { template := t }, scope, out, err, loads }
  match source with
  | .text content => some (begin [] (Template.ofText settings content))
  | .path file =>
    match Template.load settings loader { written := out.pieces } 0 file with
    | .ok t => some (begin [(file, 0)] t)
    | .error _ => none

def Rendered.outcome (r : Rendered) : Outcome := ⟨r.result, r.out, r.err, r.loads⟩

/-- The render begins with nothing but a template that has just been read in its settings. -/
structure Rendering.Fresh (x : Rendering) : Prop where
  held : ∃ name path source,
    x.held = { template := Template.parse x.settings name path source 0 }
  loads : ∀ load ∈ x.loads, load.2 = 0

namespace Source

variable {settings : Settings} {loader : Loader} {source : Source} {scope : Scope}
  {out err : Sink} {x : Rendering}

theorem render_of_rendering? (h : source.rendering? settings loader scope out err = some x) :
    source.render settings loader scope out err = x.run.outcome := by
  cases source with
  | text content =>
    cases h
    rfl
  | path file =>
    unfold rendering? at h
    unfold render
    cases hl : Template.load settings loader { written := out.pieces } 0 file with
    | ok t =>
      simp only [hl, Option.some.injEq] at h ⊢
      subst h
      rfl
    | error problem =>
      simp only [hl] at h
      cases h

theorem fresh_of_rendering? (h : source.rendering? settings loader scope out err = some x) :
    x.settings = settings ∧ x.loader = loader ∧ x.Fresh := by
  cases source with
  | text content =>
    cases h
    exact ⟨rfl, rfl, ⟨_, _, _, rfl⟩, List.forall_mem_nil _⟩
  | path file =>
    unfold rendering? at h
    cases hl : Template.load settings loader { written := out.pieces } 0 file with
    | ok t =>
      simp only [hl, Option.some.injEq] at h
      subst h
      obtain ⟨text, rfl⟩ := Template.eq_parse_of_load hl
      exact ⟨rfl, rfl, ⟨_, _, _, rfl⟩, by simp⟩
    | error problem =>
      simp only [hl] at h
      cases h

theorem sinks_of_rendering? (h : source.rendering? settings loader scope out err = some x) :
    x.out = out ∧ x.err = err := by
  cases source with
  | text content =>
    cases h
    exact ⟨rfl, rfl⟩
  | path file =>
    unfold rendering? at h
    cases hl : Template.load settings loader { written := out.pieces } 0 file with
    | ok t =>
      simp only [hl, Option.some.injEq] at h
      subst h
      exact ⟨rfl, rfl⟩
    | error problem =>
      simp only [hl] at h
      cases h

theorem loads_of_rendering?_eq_none
    (h : source.rendering? settings loader scope out err = none) :
    ∀ load ∈ (source.render settings loader scope out err).loads, load.2 = 0 := by
  cases source with
  | text content => cases h
  | path file =>
    unfold rendering? at h
    unfold render
    cases hl : Template.load settings loader { written := out.pieces } 0 file with
    | ok t =>
      simp only [hl] at h
      cases h
    | error problem =>
      simp only [hl]
      split <;> simp

def unread (loads : List (String × Nat)) : Ending → Outcome
  | .ok _ p => ⟨.error (.template p.reported), p.out, p.err, loads⟩
  | .error e p => ⟨.error (.write e), p.out, p.err, loads⟩

theorem exists_render_eq_unread
    (h : source.rendering? settings loader scope out err = none) :
    ∃ (d : Diagnostic) (loads : List (String × Nat)), ∀ out' err', out'.pieces = out.pieces →
      source.render settings loader scope out' err' =
        unread loads (Render.report d { out := out', err := err', store := {} }) := by
  cases source with
  | text content => cases h
  | path file =>
    unfold rendering? at h
    cases hl : Template.load settings loader { written := out.pieces } 0 file with
    | ok t =>
      simp only [hl] at h
      cases h
    | error problem =>
      refine ⟨⟨problem, file, none⟩, [(file, 0)], fun out' err' hp => ?_⟩
      unfold render Render.report
      simp only [hp, hl]
      cases err'.write (Text.encode ((⟨problem, file, none⟩ : Diagnostic).text ++ "\n")) with
      | mk err taken => cases taken <;> rfl

end Source

namespace Rendering

variable {x : Rendering} {s : Stage}

theorem Fresh.arises (hx : x.Fresh) : x.held.Arises := by
  obtain ⟨name, path, source, hh⟩ := hx.held
  rw [hh]
  exact .read ..

theorem Fresh.bounded_of_begins (hx : x.Fresh) (h : x.Begins s) :
    s.Bounded x.settings.includeLimit := by
  obtain ⟨name, path, source, hh⟩ := hx.held
  have hroot : x.visit.template = (Template.parse x.settings name path source 0).quiet := by
    rw [visit, hh]
    rfl
  have habove : x.visit.template.IncludesAbove x.settings.includeLimit := by
    rw [hroot]
    exact Template.includesAbove_parse x.settings name path source 0
  refine ⟨⟨?_, ?_⟩, ?_, ?_⟩
  · rw [h.writes.store]
    intro position t ht
    rw [progress, hh] at ht
    cases ht
  · rw [h.2]
    refine List.forall_mem_singleton.mpr ⟨⟨?_, Nat.zero_le _⟩, habove⟩
    show x.visit.template.depth = 0
    rw [hroot]
    rfl
  · rw [h.2]
    exact List.forall_mem_singleton.mpr ⟨0, _, .root, List.suffix_rfl⟩
  · rw [h.writes.loads]
    exact fun load hm => Nat.le_trans (Nat.le_of_eq (hx.loads load hm)) (Nat.zero_le _)

theorem Fresh.bounded (hx : x.Fresh) (h : x.Reaches s) : s.Bounded x.settings.includeLimit :=
  h.keeps (fun _ hb => hx.bounded_of_begins hb) fun _ _ ha hstep => ha.step hstep

@[simp] theorem loads_leaves (x : Rendering) (r : Ending) :
    (x.leaves r).loads = r.progress.loads := by
  cases r <;> rfl

theorem Fresh.loads_run (hx : x.Fresh) :
    ∀ load ∈ x.run.loads, load.2 ≤ x.settings.includeLimit := by
  have hy := yields_start hx.arises.coherent
  rw [x.run_eq_leaves, x.loads_leaves]
  rcases hy.begins_or_writes with ⟨first, hb, hfirst⟩ | ⟨e, p, he, hw⟩
  · exact (hx.bounded_of_begins hb).yields hfirst
  · rw [he, Ending.progress, hw.loads]
    exact fun load hm => Nat.le_trans (Nat.le_of_eq (hx.loads load hm)) (Nat.zero_le _)

end Rendering

namespace Stage

variable {settings : Settings} {loader : Loader} {s : Stage} {v : Visit} {c : Context}
  {reference : String} {line : Nat} {span : Span}

theorem Bounded.depth_of_look (h : s.Bounded settings.includeLimit)
    (hf : s.Faces v c reference line span) {t : Template}
    (hl : Render.look settings loader v reference span s.progress = .kept t ∨
      Render.look settings loader v reference span s.progress = .read t) :
    t.depth = v.template.depth + 1 := by
  rcases hl with hl | hl
  · -- a kept template has been found before: its position tells how deep it is
    obtain ⟨left, hm⟩ := hf.exists_mem
    have hv : v.template.depth = 0 + v.position.length := (h.templates.agenda _ hm).1.1
    have ht : t.depth = 0 + (v.inside span).length :=
      (h.templates.store _ _ (Render.find?_of_look hl)).1.1
    have hlen : (v.inside span).length = v.position.length + 1 := rfl
    omega
  · exact Template.depth_of_load (Render.load_of_look hl).2

theorem Bounded.asked_of_look (h : s.Bounded settings.includeLimit)
    (hf : s.Faces v c reference line span) {problem : Problem} {asked : Bool}
    (hl : Render.look settings loader v reference span s.progress = .refused problem asked) :
    asked = true := by
  have hdeep := h.lt_of_faces hf
  unfold Render.look at hl
  split at hl
  · cases hl
  · split at hl
    · omega
    · split at hl
      · cases hl
        rfl
      · cases hl

end Stage

/-- What a stage of a render says of inclusions. -/
structure Stage.Limited (settings : Settings) (loader : Loader) (s : Stage) : Prop where
  /-- No run from here is endless. -/
  acc : Acc (fun b a => Stage.Step settings loader a b) s
  /-- Every visited template is as deep as inclusions have been entered on the way to it. -/
  depth_eq : ∀ task ∈ s.agenda, task.visit.template.depth = task.visit.position.length
  depth_le : ∀ task ∈ s.agenda, task.visit.template.depth ≤ settings.includeLimit
  /-- A template is asked for only by an inclusion, a level deeper than the template of its tag. -/
  loads : ∀ p, s.Advances settings loader p → p.loads = s.progress.loads ∨
    ∃ v c reference line span, s.Faces v c reference line span ∧
      p.loads = (v.target reference, v.template.depth + 1) :: s.progress.loads
  /-- No inclusion is too deep, and the depth that it asks for is below every bound on numbers that
  the limit is below. -/
  lt : ∀ v c reference line span, s.Faces v c reference line span →
    v.template.depth + 1 ≤ settings.includeLimit ∧
      ∀ bound, settings.includeLimit < bound → v.template.depth + 1 < bound
  found : ∀ v c reference line span t, s.Faces v c reference line span →
    (Render.look settings loader v reference span s.progress = .kept t ∨
      Render.look settings loader v reference span s.progress = .read t) →
    t.depth = v.template.depth + 1
  /-- Only what the loader has been asked for is refused. -/
  refused : ∀ v c reference line span problem asked, s.Faces v c reference line span →
    Render.look settings loader v reference span s.progress = .refused problem asked →
    asked = true

theorem Rendering.Fresh.limited {x : Rendering} {s : Stage} (hx : x.Fresh) (h : x.Reaches s) :
    s.Limited x.settings x.loader := by
  have hb : s.Bounded x.settings.includeLimit := hx.bounded h
  refine ⟨(h.yields hx.arises.coherent).acc, ?_, ?_, fun p hp => hp.loads, ?_, ?_, ?_⟩
  · intro task hm
    exact (hb.templates.agenda task hm).1.1.trans (Nat.zero_add _)
  · intro task hm
    obtain ⟨⟨hdepth, hle⟩, -⟩ := hb.templates.agenda task hm
    omega
  · intro v c reference line span hf
    have hdeep := hb.lt_of_faces hf
    exact ⟨hdeep, fun _ hbound => Nat.lt_of_le_of_lt hdeep hbound⟩
  · exact fun v c reference line span t hf hl => hb.depth_of_look hf hl
  · exact fun v c reference line span problem asked hf hl => hb.asked_of_look hf hl

/-- Reading a text goes on as long as there is text. A template as deep as inclusions may be
includes nothing: reading it reports every inclusion that names a template as too deep, and one that
names none for this, as at any depth. A render ends, whatever the loader answers; it asks for no
template beyond the limit, and from the first stage to the last all inclusions keep to it. -/
theorem renders_are_bounded (settings : Settings) (hv : settings.tags.emptyEntry? = none)
    (loader : Loader) (source : Source) (scope : Scope) (out err : Sink) :
    (∀ text left offset stop rest,
      CommentReading.read settings.tags text left offset = .closed stop rest →
      rest.length < left.length) ∧
    (∀ text left offset tag rest, Tag.read settings.tags text left offset = .tag tag rest →
      rest.length < left.length) ∧
    (∀ name path text depth,
      (Template.parse settings name path text depth).IncludesAbove settings.includeLimit ∧
      ∀ tag, .tag tag ∈ Item.scan settings.tags text → tag.kind = .embed →
        (∀ reference, tag.name settings.tags = .ok reference → settings.includeLimit ≤ depth →
          (tag.finding (.tooDeep (settings.tags.keyword .embed)
              settings.includeLimit)).toDiagnostic name text ∈
            (Template.parse settings name path text depth).diagnostics) ∧
        ∀ problem, tag.name settings.tags = .error problem →
          (tag.finding (.missingName (settings.tags.keyword .embed))).toDiagnostic name text ∈
            (Template.parse settings name path text depth).diagnostics) ∧
    (∀ load ∈ (source.render settings loader scope out err).loads,
      load.2 ≤ settings.includeLimit) ∧
    ∀ x, source.rendering? settings loader scope out err = some x →
      (∃ ending, x.Yields ending ∧
        source.render settings loader scope out err = (x.leaves ending).outcome) ∧
      ∀ s, x.Reaches s → s.Limited settings loader := by
  refine ⟨fun _ _ _ _ _ h => CommentReading.length_lt_of_read hv h,
    fun _ _ _ _ _ h => Tag.length_lt_of_read hv h, ?_, ?_, ?_⟩
  · intro name path text depth
    refine ⟨Template.includesAbove_parse settings name path text depth, fun tag hm hk => ⟨?_, ?_⟩⟩
    · intro reference hn hd
      exact Template.mem_diagnostics_of_embed hm hk (Tag.embed_of_name hk hn hd)
    · intro problem hn
      exact Template.mem_diagnostics_of_embed hm hk (Tag.embed_of_nameless hk hn)
  · cases hx : source.rendering? settings loader scope out err with
    | some x =>
      obtain ⟨hs, -, hfresh⟩ := Source.fresh_of_rendering? hx
      rw [Source.render_of_rendering? hx, ← hs]
      exact hfresh.loads_run
    | none =>
      have hloads := Source.loads_of_rendering?_eq_none hx
      exact fun load hm => Nat.le_trans (Nat.le_of_eq (hloads load hm)) (Nat.zero_le _)
  · intro x hx
    obtain ⟨hs, hl, hfresh⟩ := Source.fresh_of_rendering? hx
    have hy := Rendering.yields_start hfresh.arises.coherent
    have hrun : source.render settings loader scope out err =
        (x.leaves (x.held.start x.settings x.loader x.scope x.progress)).outcome := by
      rw [Source.render_of_rendering? hx, x.run_eq_leaves]
    refine ⟨⟨_, hy, hrun⟩, fun s hr => ?_⟩
    rw [← hs, ← hl]
    exact hfresh.limited hr

def cyclicLoader : Loader := Library.loader ⟨[("self", "x\x7b\x7bINCLUDE self\x7d\x7d")]⟩

theorem renders_are_bounded_cycle :
    let outcome := (Source.path "self").render { includeLimit := 3 } cyclicLoader .empty {} {}
    TagSet.emptyEntry? {} = none ∧
    outcome.loads = [("self", 3), ("self", 2), ("self", 1), ("self", 0)] ∧
    outcome.out.contents = Text.encode "xxxx" ∧
    (∀ load ∈ outcome.loads, load.2 ≤ 3) ∧
    ∃ x, (Source.path "self").rendering? { includeLimit := 3 } cyclicLoader .empty {} {} = some x ∧
      ∃ ending, x.Yields ending ∧ outcome = (x.leaves ending).outcome := by
  have hv : TagSet.emptyEntry? {} = none := by decide
  obtain ⟨-, -, -, hloads, hx⟩ := renders_are_bounded { includeLimit := 3 } hv cyclicLoader
    (.path "self") .empty {} {}
  exact ⟨hv, by decide +kernel, by decide +kernel, hloads, _, rfl, (hx _ rfl).1⟩

/-- An inclusion that names nothing is reported for this, also where inclusions are too deep. -/
theorem nameless_inclusion_at_limit :
    Item.scan {} "\x7b\x7bINCLUDE \x7d\x7d" = [.tag ⟨.embed, [], ⟨0, 12⟩, 1⟩] ∧
    (Template.ofText { includeLimit := 0 } "\x7b\x7bINCLUDE \x7d\x7d").diagnostics.map
      Diagnostic.problem = [.missingName "INCLUDE"] ∧
    ∀ d ∈ (Template.ofText { includeLimit := 0 } "\x7b\x7bINCLUDE \x7d\x7d").diagnostics,
      d.problem ≠ .tooDeep "INCLUDE" 0 := by
  decide +kernel

end Stencil
