import Mathlib.Data.List.Induction
import Stencil.Proofs.Path.Components
import Stencil.Proofs.Render.Likeness

/-! Paths of templates that are spelled in another way.
A library answers equal paths alike, and a reference leads from equal paths to equal ones. The main
statement says that a render from another spelling of a path writes the same and tells the same, but
for the spelling of the paths that it shows. -/
namespace Stencil

/-- Two problems that differ at most in how the path of a template is spelled. -/
inductive Problem.Respells : Problem → Problem → Prop
  | same (problem : Problem) : Respells problem problem
  | path {path path' : String} (e : LoadError) : Path.components path = Path.components path' →
    Respells (e.problem path) (e.problem path')

structure Diagnostic.Respells (d d' : Diagnostic) : Prop where
  problem : d.problem.Respells d'.problem
  file : Path.components d.file = Path.components d'.file
  location : d'.location = d.location

structure Template.Respells (t u : Template) : Prop where
  name : Path.components t.name = Path.components u.name
  path : t.path.map Path.components = u.path.map Path.components
  source : u.source = t.source
  root : u.root = t.root
  depth : u.depth = t.depth

/-- The likeness of renders that differ in the spelling of paths. -/
def respelling : Likeness where
  templates := Template.Respells
  problems := Problem.Respells
  diagnostics := Diagnostic.Respells
  root h := h.root
  source h := h.source
  depth h := h.depth
  same := .same
  diagnostic ht hp line span := ⟨hp, ht.name, by simp only [Template.diagnostic,
    Finding.toDiagnostic, ht.source]⟩

section Reading

variable {settings : Settings} {path path' : String}

theorem Template.answers_parse (h : Path.components path = Path.components path') (text : String)
    (depth : Nat) :
    respelling.Answers (.ok (Template.parse settings path (some path) text depth))
      (.ok (Template.parse settings path' (some path') text depth)) := by
  refine .template ⟨h, congrArg some h, rfl, rfl, rfl⟩ ?_
  rw [Template.parse, Template.parse]
  simp only [List.forall₂_map_left_iff, List.forall₂_map_right_iff]
  exact List.forall₂_same.mpr fun f _ => ⟨.same f.problem, h, rfl⟩

def Loader.IgnoresSpelling (l : Loader) : Prop :=
  ∀ moment moment' path path', Path.components path = Path.components path' →
    l.load moment path = l.load moment' path'

theorem Loader.IgnoresSpelling.answers {l : Loader} (hl : l.IgnoresSpelling)
    (h : Path.components path = Path.components path') (moment moment' : Moment) (depth : Nat) :
    respelling.Answers (Template.load settings l moment depth path)
      (Template.load settings l moment' depth path') := by
  unfold Template.load
  rw [hl moment moment' path path' h]
  cases l.load moment' path' with
  | ok text => exact Template.answers_parse h text depth
  | error e => exact .problem (.path e h)

end Reading

theorem Loader.IgnoresSpelling.asksAlike {x y : Rendering} (hl : x.loader.IgnoresSpelling)
    (hy : y.loader = x.loader) : respelling.AsksAlike x y := by
  intro s s' _ _ v v' c reference line span _ _ hv _
  rw [hy, hv.template.depth]
  exact hl.answers (Path.components_resolve hv.template.path reference) _ _ _

theorem Loader.IgnoresSpelling.outcomes {loader : Loader} (hl : loader.IgnoresSpelling)
    (settings : Settings) (scope : Scope) (out : Sink) {err : Sink} (herr : err.room = none)
    {path path' : String} (h : Path.components path = Path.components path') :
    respelling.Outcomes err ((Source.path path).render settings loader scope out err)
      ((Source.path path').render settings loader scope out err) := by
  refine Likeness.outcomes_path herr (hl.answers h _ _ 0) (fun hp => ⟨hp, h, rfl⟩) ?_
  intro x y hx hy _
  obtain ⟨-, rfl, -⟩ := Source.fresh_of_rendering? hx
  obtain ⟨-, hloader, -⟩ := Source.fresh_of_rendering? hy
  exact hl.asksAlike hloader

namespace Library

/-- The library after these texts have been inserted, one after the other. -/
def ofInserts (inserts : List (String × String)) : Library :=
  inserts.foldl (fun l e => l.insert e.1 e.2) {}

theorem find?_ofInserts_append (before : List (String × String)) (e : String × String)
    (path : String) : (ofInserts (before ++ [e])).find? path =
      if Path.components e.1 = Path.components path then some e.2
      else (ofInserts before).find? path := by
  rw [ofInserts, List.foldl_append]
  exact find?_insert ..

/-- The text inserted last under an equal path is what a path is answered with. -/
theorem load_ofInserts (inserts : List (String × String)) (path : String) :
    ((∀ e ∈ inserts, Path.components e.1 ≠ Path.components path) ∧
      (ofInserts inserts).load path = .error (.unreadable "no such template")) ∨
    ∃ before e after, inserts = before ++ e :: after ∧
      Path.components e.1 = Path.components path ∧
      (∀ later ∈ after, Path.components later.1 ≠ Path.components path) ∧
      (ofInserts inserts).load path = .ok e.2 := by
  induction inserts using List.reverseRecOn with
  | nil => exact .inl ⟨List.forall_mem_nil _, rfl⟩
  | append_singleton inserts e ih =>
    unfold load at ih ⊢
    rw [find?_ofInserts_append]
    by_cases he : Path.components e.1 = Path.components path
    · rw [if_pos he]
      exact .inr ⟨inserts, e, [], rfl, he, List.forall_mem_nil _, rfl⟩
    · rw [if_neg he]
      rcases ih with ⟨hnone, hload⟩ | ⟨before, found, after, rfl, hfound, hlater, hload⟩
      · have hall := List.forall_mem_append.mpr ⟨hnone, List.forall_mem_singleton.mpr he⟩
        exact .inl ⟨hall, hload⟩
      · have hafter := List.forall_mem_append.mpr ⟨hlater, List.forall_mem_singleton.mpr he⟩
        exact .inr ⟨before, found, after ++ [e], by simp, hfound, hafter, hload⟩

theorem ignoresSpelling_loader (l : Library) : l.loader.IgnoresSpelling := by
  intro moment moment' path path' h
  show l.load path = l.load path'
  unfold load find?
  rw [h]

end Library

/-- Only the components of paths matter to a library. A path is answered with the text that was
inserted last under an equal one. A render from another spelling of a path writes the same output,
tells the same diagnostics at the same places and comes to the same result, but for the paths that
are shown, whatever it includes; and a reference leads to equal paths from equal ones. The sink for
diagnostics has to have room for them: how much of it a path takes does depend on its spelling. -/
theorem spelling_of_paths_does_not_matter (inserts : List (String × String)) :
    (∀ path,
      ((∀ e ∈ inserts, Path.components e.1 ≠ Path.components path) ∧
        (Library.ofInserts inserts).load path = .error (.unreadable "no such template")) ∨
      ∃ before e after, inserts = before ++ e :: after ∧
        Path.components e.1 = Path.components path ∧
        (∀ later ∈ after, Path.components later.1 ≠ Path.components path) ∧
        (Library.ofInserts inserts).load path = .ok e.2) ∧
    ∀ path path', Path.components path = Path.components path' →
      (∀ settings scope out err, err.room = none →
        respelling.Outcomes err
          ((Source.path path).render settings (Library.ofInserts inserts).loader scope out err)
          ((Source.path path').render settings (Library.ofInserts inserts).loader scope out err)) ∧
      ∀ reference, Path.components (Path.resolve reference (some path)) =
        Path.components (Path.resolve reference (some path')) := by
  refine ⟨Library.load_ofInserts inserts, fun path path' h => ⟨?_, ?_⟩⟩
  · intro settings scope out err herr
    exact (Library.ignoresSpelling_loader _).outcomes settings scope out herr h
  · exact Path.components_resolve (congrArg some h)

/-- A page and parts of it, one of them inserted again under another spelling. The page includes
the part next to it, which leads on to one further out that is not there. -/
def pageInserts : List (String × String) :=
  [("site/pages//page", "<\x7b\x7bINCLUDE \".../part\"\x7d\x7d>"), ("site/pages/part", "old"),
    ("site/./pages/part/", "new\x7b\x7bINCLUDE \".../../foot\"\x7d\x7d")]

theorem spelling_of_paths_does_not_matter_page :
    let library := Library.ofInserts pageInserts
    let outcome := (Source.path "site/pages/page").render {} library.loader .empty {} {}
    let outcome' := (Source.path "site//pages/./page/").render {} library.loader .empty {} {}
    Path.components "site/pages/page" = Path.components "site//pages/./page/" ∧
    ({} : Sink).room = none ∧ outcome.out.contents = Text.encode "<new" ∧
    outcome.result = .error (.template
      [⟨.unreadable "site/pages/../foot" "no such template", "site/pages/part",
        some ⟨1, ⟨3, 28⟩, "new\x7b\x7bINCLUDE \".../../foot\"\x7d\x7d"⟩⟩]) ∧
    outcome'.out = outcome.out ∧ outcome'.result ≠ outcome.result ∧
    respelling.Outcomes {} outcome outcome' := by
  intro library outcome outcome'
  have hpath : Path.components "site/pages/page" = Path.components "site//pages/./page/" := by
    decide +kernel
  have hout : outcome.out.contents = Text.encode "<new" := by decide +kernel
  have hresult : outcome.result = .error (.template
      [⟨.unreadable "site/pages/../foot" "no such template", "site/pages/part",
        some ⟨1, ⟨3, 28⟩, "new\x7b\x7bINCLUDE \".../../foot\"\x7d\x7d"⟩⟩]) := by
    decide +kernel
  have hshown : outcome'.result ≠ outcome.result := by decide +kernel
  have houtcomes := ((spelling_of_paths_does_not_matter pageInserts).2 _ _ hpath).1 {} .empty {} {}
    rfl
  exact ⟨hpath, rfl, hout, hresult, houtcomes.out, hshown, houtcomes⟩

end Stencil
