import Stencil.Command.Plan
import Stencil.Proofs.Disk.Writing
import Stencil.Proofs.Render.Likeness

/-! The file that the command writes.
It is created, and so emptied, once the tags, the data and the input have been loaded, but before
any template file is read. The main statement says what it holds in the end: the render of the
templates as they were at the beginning, unless the way to one of them leads to the file itself. -/
namespace Stencil

def sameTemplates : Likeness where
  templates t u := u = t
  problems _ _ := True
  diagnostics _ _ := True
  root h := h ▸ rfl
  source h := h ▸ rfl
  depth h := h ▸ rfl
  same _ := trivial
  diagnostic _ _ _ _ := trivial

theorem Template.parse_empty (settings : Settings) (name : String) (path : Option String)
    (depth : Nat) :
    Template.parse settings name path "" depth = ⟨name, path, "", [], depth, []⟩ := by
  have hitems : Item.scan settings.tags "" = [] := by
    rw [Item.scan_eq, Item.scanFrom_eq]
    rfl
  have htree : Tree.ofItems settings depth [] = ([], []) := by
    unfold Tree.ofItems
    rw [Tree.readList]
  unfold Template.parse
  rw [hitems, htree]
  rfl

theorem Held.renderAfter_of_nil {h : Held} (hroot : h.template.root = [])
    (hd : h.template.diagnostics = []) (loads : List (String × Nat)) (settings : Settings)
    (loader : Loader) (scope : Scope) (out err : Sink) :
    (h.renderAfter loads settings loader scope out err).result = .ok () ∧
      (h.renderAfter loads settings loader scope out err).out = out := by
  have htaken : h.taken.template.root = [] := hroot
  unfold Held.renderAfter Held.start
  rw [Render.walk_eq, hd, htaken]
  exact ⟨rfl, rfl⟩

namespace Command

/-! ### What is loaded before the file is created -/

def Options.tags? (o : Options) (disk : Disk) : Option TagSet :=
  match o.tags with
  | none => some {}
  | some path =>
    match disk.readText path with
    | .error _ => none
    | .ok text =>
      match TagSet.ofToml text with
      | .error _ => none
      | .ok tags => some tags

def Options.scope? (o : Options) (disk : Disk) : Option Scope :=
  match o.data with
  | none => some .empty
  | some path =>
    match disk.readText path with
    | .error _ => none
    | .ok text => Scope.ofToml? text

/-- The template file, or else the text of the input if that can be read. -/
def Options.source? (o : Options) (input : Bytes) : Option Source :=
  match o.template with
  | some path => some (.path path)
  | none => (Text.decode? input).map .text

section Loading

variable {o : Options} {input : Bytes} {room : Option Nat} {disk : Disk} {output : Option Place}
  {stdout stderr : Bytes}

theorem run_loadTags {tags : TagSet} (h : o.tags? disk = some tags) (next : TagSet → Plan) :
    (loadTags o next).run input room disk output stdout stderr =
      (next tags).run input room disk output stdout stderr := by
  unfold Options.tags? at h
  unfold loadTags
  revert h
  cases o.tags with
  | none =>
    rintro ⟨⟩
    rfl
  | some path =>
    dsimp only
    rw [Plan.run]
    cases disk.readText path with
    | error e => exact nofun
    | ok text =>
      dsimp only
      cases TagSet.ofToml text with
      | error e => exact nofun
      | ok tags =>
        rintro ⟨⟩
        rfl

theorem run_loadData {scope : Scope} (h : o.scope? disk = some scope) (next : Scope → Plan) :
    (loadData o next).run input room disk output stdout stderr =
      (next scope).run input room disk output stdout stderr := by
  unfold Options.scope? at h
  unfold loadData
  revert h
  cases o.data with
  | none =>
    rintro ⟨⟩
    rfl
  | some path =>
    dsimp only
    rw [Plan.run]
    cases disk.readText path with
    | error e => exact nofun
    | ok text =>
      intro h
      dsimp only at h ⊢
      rw [h]

theorem run_openSource {source : Source} (h : o.source? input = some source)
    (next : Source → Plan) :
    (openSource o next).run input room disk output stdout stderr =
      (next source).run input room disk output stdout stderr := by
  unfold Options.source? at h
  unfold openSource
  revert h
  cases o.template with
  | some path =>
    rintro ⟨⟩
    rfl
  | none =>
    intro h
    obtain ⟨text, htext, rfl⟩ := Option.map_eq_some_iff.mp h
    dsimp only
    rw [Plan.run, htext]

end Loading

/-- Everything is loaded, and the output file is created at a place. -/
structure Options.Creates (o : Options) (input : Bytes) (disk : Disk) (tags : TagSet)
    (scope : Scope) (source : Source) (place : Place) : Prop where
  tags : o.tags? disk = some tags
  scope : o.scope? disk = some scope
  source : o.source? input = some source
  place : ∃ path, o.output = some path ∧ disk.target path = .ok place

def Options.settings (o : Options) (tags : TagSet) : Settings :=
  { tags, includeLimit := o.limit.getD 30 }

section Created

variable {o : Options} {input : Bytes} {disk created : Disk} {tags : TagSet} {scope : Scope}
  {source : Source} {place : Place} {content : Bytes} {words : List String} {path : String}

def codeOf : Except RenderError Unit → Nat
  | .ok () => 0
  | .error _ => 1

theorem run_of_creates (hw : Request.ofWords words = .run o)
    (h : o.Creates input disk tags scope source place) :
    let during := source.render (o.settings tags)
      (loaderDuring (disk.write place []) (some place)) scope {} {}
    ∃ stderr, run words input disk = ⟨codeOf during.result, [], stderr,
      (disk.write place []).write place during.out.contents⟩ := by
  intro during
  obtain ⟨path, hpath, hplace⟩ := h.place
  have hopen : (Plan.ofOptions o).run input none disk none [] [] =
      (renderWith o tags scope source).run input none (disk.write place []) (some place) [] [] := by
    rw [Plan.ofOptions, run_loadTags h.tags, run_loadData h.scope, run_openSource h.source,
      openOutput, hpath]
    dsimp only
    rw [Plan.run, hplace]
  have hrun : run words input disk = (Plan.ofOptions o).run input none disk none [] [] := by
    rw [run, hw]
  rw [hrun, hopen, renderWith, Plan.run]
  have hall : (during.out.contents == during.out.contents) = true := beq_self_eq_true _
  show ∃ stderr, (conclude o.pretty during.result
    (during.out.contents == during.out.contents)).run input none _ _ _ _ = _
  rw [hall]
  cases during.result with
  | ok _ => exact ⟨_, rfl⟩
  | error e => cases e <;> exact ⟨_, rfl⟩

/-- While output is written, the templates that no path to the file asks for are as they were. -/
theorem answers_during (h : disk.IsWritten place content created)
    (hp : created.find path ≠ .ok place) (settings : Settings) (moment moment' : Moment)
    (depth : Nat) :
    sameTemplates.Answers (Template.load settings disk.loader moment depth path)
      (Template.load settings (loaderDuring created (some place)) moment' depth path) := by
  have hnow : disk.IsWritten place (landed moment'.written)
      (created.write place (landed moment'.written)) := h.write _
  rw [← h.find_eq hnow path] at hp
  have hload : (loaderDuring created (some place)).load moment' path =
      (created.write place (landed moment'.written)).load path := rfl
  have hbefore : disk.loader.load moment path = disk.load path := rfl
  unfold Template.load
  rw [hload, hbefore]
  rcases hnow.load_cases hp with hsame | ⟨a, b, ha, hb⟩
  · rw [hsame]
    cases disk.load path with
    | ok text => exact .template rfl (List.forall₂_same.mpr fun _ _ => trivial)
    | error e => exact .problem trivial
  · rw [ha, hb]
    exact .problem trivial

theorem asksAlike_during {x y : Rendering} (h : disk.IsWritten place content created)
    (hx : x.loader = disk.loader) (hy : y.loader = loaderDuring created (some place))
    (harises : x.held.Arises) (hp : ∀ asked ∈ x.run.loads, created.find asked.1 ≠ .ok place) :
    sameTemplates.AsksAlike x y := by
  intro s s' hs _ v v' c reference line span hf _ hv hasked
  have htemplate : v'.template = v.template := hv.template
  have hmem := hs.mem_loads harises hf hasked
  have hanswers := answers_during h (hp _ hmem) x.settings
    ⟨s.progress.out.pieces, s.progress.loads.length⟩
    ⟨s'.progress.out.pieces, s'.progress.loads.length⟩ (v.template.depth + 1)
  have htarget : v'.target reference = v.target reference := by
    rw [Visit.target, Visit.target, htemplate]
  rw [hx, hy, htarget, htemplate]
  exact hanswers

/-- The render of the templates as they were comes out the same while the file is written, if the
way to none of them leads to the file. -/
theorem outcomes_during (h : disk.IsWritten place content created) (settings : Settings)
    (hp : ∀ asked ∈ (source.render settings disk.loader scope {} {}).loads,
      created.find asked.1 ≠ .ok place) :
    sameTemplates.Outcomes {} (source.render settings disk.loader scope {} {})
      (source.render settings (loaderDuring created (some place)) scope {} {}) := by
  have hasks (x y : Rendering) (hx : source.rendering? settings disk.loader scope {} {} = some x)
      (hy : source.rendering? settings (loaderDuring created (some place)) scope {} {} = some y) :
      sameTemplates.AsksAlike x y := by
    obtain ⟨-, hloader, hfresh⟩ := Source.fresh_of_rendering? hx
    obtain ⟨-, hloader', -⟩ := Source.fresh_of_rendering? hy
    rw [Source.render_of_rendering? hx] at hp
    exact asksAlike_during h hloader hloader' hfresh.arises hp
  cases source with
  | path file =>
    have hfile := hp _ (Source.mem_loads_path settings disk.loader file scope {} {})
    exact Likeness.outcomes_path rfl (answers_during h hfile _ _ _ _) (fun _ => trivial)
      fun x y hx hy _ => hasks x y hx hy
  | text content =>
    have hx : (Source.text content).rendering? settings disk.loader scope {} {} = some _ := rfl
    have hy : (Source.text content).rendering? settings (loaderDuring created (some place)) scope
      {} {} = some _ := rfl
    have hsame : sameTemplates.Answers (.ok (Template.ofText settings content))
        (.ok (Template.ofText settings content)) :=
      .template rfl (List.forall₂_same.mpr fun _ _ => trivial)
    obtain ⟨-, -, hfresh⟩ := Source.fresh_of_rendering? hx
    obtain ⟨-, -, hfresh'⟩ := Source.fresh_of_rendering? hy
    rw [Source.render_of_rendering? hx, Source.render_of_rendering? hy]
    exact (hsame.renderings rfl [] []).outcomes hfresh.arises hfresh'.arises rfl (hasks _ _ hx hy)

theorem render_of_find (h : disk.IsWritten place content created)
    (hp : created.find path = .ok place) (settings : Settings) (scope : Scope) :
    let during := (Source.path path).render settings (loaderDuring created (some place)) scope {} {}
    during.result = .ok () ∧ during.out.contents = [] := by
  have hnow : disk.IsWritten place (landed []) (created.write place (landed [])) := h.write _
  rw [← h.find_eq hnow path] at hp
  have hload : (loaderDuring created (some place)).load {} path = .ok "" := hnow.load_of_find hp
  have htemplate : Template.load settings (loaderDuring created (some place)) {} 0 path =
      .ok ⟨path, some path, "", [], 0, []⟩ := by
    rw [Template.load, hload]
    exact congrArg Except.ok (Template.parse_empty settings path (some path) 0)
  unfold Source.render
  dsimp only
  rw [htemplate]
  obtain ⟨hresult, hout⟩ := Held.renderAfter_of_nil
    (h := { template := ⟨path, some path, "", [], 0, []⟩ }) rfl rfl [(path, 0)] settings
    (loaderDuring created (some place)) scope {} {}
  exact ⟨hresult, congrArg Sink.contents hout⟩

theorem codeOf_eq_zero {result : Except RenderError Unit} :
    codeOf result = 0 ↔ result = .ok () := by
  cases result with
  | ok _ => simp [codeOf]
  | error e => simp [codeOf]

end Created

/-- What the output file holds in the end. The command has written to it what it renders while the
file is there, has changed nothing else, and exits with 0 if and only if that render succeeds. The
tags, the data and the input have been loaded before. If no path that is asked for leads to the
created file, then that render is the one of the template files as they were at the beginning. But
if the template itself is in the file, it is lost: the file is left empty, and the command exits
with 0. -/
theorem output_file_holds_the_render {words : List String} {input : Bytes} {disk : Disk}
    {o : Options} {tags : TagSet} {scope : Scope} {source : Source} {place : Place}
    (hw : Request.ofWords words = .run o) (h : o.Creates input disk tags scope source place) :
    let created := disk.write place []
    let before := source.render (o.settings tags) disk.loader scope {} {}
    let during := source.render (o.settings tags) (loaderDuring created (some place)) scope {} {}
    let exit := run words input disk
    ((∀ other, exit.disk.at? other =
        if other = place then some (.file during.out.contents) else disk.at? other) ∧
      exit.stdout = [] ∧ (exit.code = 0 ↔ during.result = .ok ())) ∧
    ((∀ asked ∈ before.loads, created.find asked.1 ≠ .ok place) →
      exit.disk.at? place = some (.file before.out.contents) ∧
        (exit.code = 0 ↔ before.result = .ok ())) ∧
    ∀ path, o.template = some path → created.find path = .ok place →
      exit.disk.at? place = some (.file []) ∧ exit.code = 0 := by
  intro created before during exit
  obtain ⟨output, -, htarget⟩ := h.place
  have hcreated : disk.IsWritten place [] created :=
    Disk.isWritten_write (Disk.free_of_target htarget) []
  obtain ⟨stderr, hexit⟩ : ∃ stderr, exit = ⟨codeOf during.result, [], stderr,
      created.write place during.out.contents⟩ := run_of_creates hw h
  have hwritten : disk.IsWritten place during.out.contents exit.disk := by
    rw [hexit]
    exact hcreated.write _
  have hcode : exit.code = 0 ↔ during.result = .ok () := by
    rw [hexit]
    exact codeOf_eq_zero
  refine ⟨⟨fun other => ?_, by rw [hexit], hcode⟩, fun hasked => ?_, fun path hpath hfind => ?_⟩
  · split
    next ho => rw [ho, hwritten.file]
    next ho => exact hwritten.others other ho
  · have houtcomes : sameTemplates.Outcomes {} before during :=
      outcomes_during hcreated (o.settings tags) hasked
    have hout : during.out = before.out := houtcomes.out
    rw [← hout]
    exact ⟨hwritten.file, hcode.trans houtcomes.result_eq_ok_iff⟩
  · have hsource : source = .path path := by
      have hs := h.source
      rw [Options.source?, hpath] at hs
      exact (Option.some.inj hs).symm
    obtain ⟨hresult, hempty⟩ : during.result = .ok () ∧ during.out.contents = [] := by
      have hlost := render_of_find hcreated hfind (o.settings tags) scope
      rwa [← hsource] at hlost
    rw [← hempty]
    exact ⟨hwritten.file, hcode.mpr hresult⟩

/-- A template, a part that it includes, and bindings. -/
def pageDisk : Disk where
  entries := [
    (["page".toList], .file (Text.encode "\x7b\x7bVAR n\x7d\x7d\x7b\x7bINCLUDE part\x7d\x7d")),
    (["part".toList], .file (Text.encode "!")),
    (["data".toList], .file (Text.encode "n = \"a\""))]

/-- The output goes to the file of the data, which have been loaded by then. -/
def pageOptions : Options :=
  { template := some "page", data := some "data", output := some "data" }

def pageScope : Scope := (pageOptions.scope? pageDisk).getD .empty

theorem output_file_holds_the_render_page :
    let exit := run ["page", "-d", "data", "-o", "data"] [] pageDisk
    Request.ofWords ["page", "-d", "data", "-o", "data"] = .run pageOptions ∧
    pageOptions.Creates [] pageDisk {} pageScope (.path "page") ["data".toList] ∧
    exit.disk.at? ["data".toList] = some (.file (Text.encode "a!")) ∧ exit.code = 0 := by
  intro exit
  let before :=
    (Source.path "page").render (pageOptions.settings {}) pageDisk.loader pageScope {} {}
  have hw : Request.ofWords ["page", "-d", "data", "-o", "data"] = .run pageOptions := by
    decide +kernel
  have hsome : (pageOptions.scope? pageDisk).isSome := by decide +kernel
  have hscope : pageOptions.scope? pageDisk = some pageScope := by
    obtain ⟨scope, hs⟩ := Option.isSome_iff_exists.mp hsome
    rw [pageScope, hs, Option.getD_some]
  have htarget : pageDisk.target "data" = .ok ["data".toList] := by decide +kernel
  have hcreates : pageOptions.Creates [] pageDisk {} pageScope (.path "page") ["data".toList] :=
    ⟨rfl, hscope, rfl, "data", rfl, htarget⟩
  have hasked : ∀ asked ∈ before.loads,
      (pageDisk.write ["data".toList] []).find asked.1 ≠ .ok ["data".toList] := by
    decide +kernel
  have hresult : before.result = .ok () := by decide +kernel
  have hcontents : before.out.contents = Text.encode "a!" := by decide +kernel
  obtain ⟨hdisk, hcode⟩ := (output_file_holds_the_render hw hcreates).2.1 hasked
  rw [← hcontents]
  exact ⟨hw, hcreates, hdisk, hcode.mpr hresult⟩

/-- A template is rendered to its own file. It would give `hello`, but the file is left empty, and
the command succeeds. -/
theorem template_in_output_file_is_lost :
    let disk : Disk := { entries := [(["t".toList], .file (Text.encode "hello"))] }
    let before := (Source.path "t").render {} disk.loader .empty {} {}
    let exit := run ["t", "-o", "t"] [] disk
    before.result = .ok () ∧ before.out.contents = Text.encode "hello" ∧
      exit.code = 0 ∧ exit.disk.at? ["t".toList] = some (.file []) := by
  decide +kernel

end Command
end Stencil
