import Stencil.Proofs.Render.Channels
import Stencil.Proofs.Render.Texts
import Stencil.Proofs.Tree.Places

/-! Where diagnostics are located.
A diagnostic arises in one template: it is found when the template is read, or it is the report of
an inclusion that stands there. The main statement says that it names this template and is at a part
of its source that begins with an opening delimiter, on the line that the line feeds before it
give. -/
namespace Stencil

/-- The diagnostic names the file and is at a place of the source where a delimiter opens. -/
def Diagnostic.LocatedIn (tags : TagSet) (file source : String) (d : Diagnostic) : Prop :=
  d.file = file ∧ ∃ line span, d.location = some ⟨line, span, source⟩ ∧
    tags.OpensAt source.toList line span

namespace Template

variable {tags : TagSet} {settings : Settings}

def InclusionsOpen (tags : TagSet) (t : Template) : Prop :=
  ∀ loops list reference line span, Node.Inside t.root loops list →
    .embed reference line span ∈ list → tags.OpensAt t.source.toList line span

theorem diagnostic_locatedIn {t : Template} {line : Nat} {span : Span} (problem : Problem)
    (h : tags.OpensAt t.source.toList line span) :
    (t.diagnostic problem line span).LocatedIn tags t.name t.source :=
  ⟨rfl, line, span, rfl, h⟩

theorem opensAt_of_mem_scan_settings (hs : settings.tags = tags)
    (hv : tags.emptyEntry? = none) (source : String) :
    ∀ item ∈ Item.scan settings.tags source, ∀ place, item.place? = some place →
      tags.OpensAt source.toList place.1 place.2 := by
  subst hs
  exact fun _ hm _ hp => opensAt_of_mem_scan hv hm hp

theorem locatedIn_of_mem_parse (hs : settings.tags = tags) (hv : tags.emptyEntry? = none)
    (name : String) (path : Option String) (source : String) (depth : Nat) :
    ∀ d ∈ (parse settings name path source depth).diagnostics, d.LocatedIn tags name source := by
  intro d hd
  obtain ⟨f, hf, rfl⟩ := List.mem_map.mp hd
  exact ⟨rfl, f.line, f.span, rfl,
    Tree.stands_findings_ofItems (opensAt_of_mem_scan_settings hs hv source) f hf⟩

theorem inclusionsOpen_parse (hs : settings.tags = tags) (hv : tags.emptyEntry? = none)
    (name : String) (path : Option String) (source : String) (depth : Nat) :
    (parse settings name path source depth).InclusionsOpen tags :=
  fun _ _ _ _ _ hi hm =>
    Tree.stands_embed_ofItems (opensAt_of_mem_scan_settings hs hv source) hi hm

theorem inherited_inclusionsOpen (hs : settings.tags = tags) (hv : tags.emptyEntry? = none)
    (loader : Loader) :
    Render.Inherited settings loader fun t _ => t.InclusionsOpen tags := by
  intro v span moment path t _ _ hload
  obtain ⟨text, rfl⟩ := eq_parse_of_load hload
  exact inclusionsOpen_parse hs hv path (some path) text _

end Template

namespace Held

/-- The templates that are held where all have been read and rendered with these tags. -/
inductive ArisesUnder (tags : TagSet) : Held → Prop
  | read {settings : Settings} (name : String) (path : Option String) (source : String)
    (depth : Nat) : settings.tags = tags →
    ArisesUnder tags { template := Template.parse settings name path source depth }
  | taken {h : Held} : ArisesUnder tags h → ArisesUnder tags h.taken
  | rendered {x : Rendering} : x.settings.tags = tags → ArisesUnder tags x.held →
    ArisesUnder tags x.run.held

namespace ArisesUnder

variable {tags : TagSet} {h : Held}

theorem arises (hh : h.ArisesUnder tags) : h.Arises := by
  induction hh with
  | @read settings name path source depth _ => exact .read settings name path source depth
  | taken _ ih => exact ih.taken
  | rendered _ _ ih => exact ih.rendered

theorem locatedIn_of_mem (hh : h.ArisesUnder tags) (hv : tags.emptyEntry? = none) :
    ∀ d ∈ h.template.diagnostics, d.LocatedIn tags h.template.name h.template.source := by
  induction hh with
  | read name path source depth hs =>
    exact Template.locatedIn_of_mem_parse hs hv name path source depth
  | taken _ _ => exact List.forall_mem_nil _
  | @rendered x _ _ _ =>
    rw [x.template_run]
    exact List.forall_mem_nil _

theorem inclusionsOpen (hh : h.ArisesUnder tags) (hv : tags.emptyEntry? = none) :
    h.template.quiet.InclusionsOpen tags ∧ h.store.Holds fun t _ => t.InclusionsOpen tags := by
  induction hh with
  | read name path source depth hs =>
    refine ⟨Template.inclusionsOpen_parse hs hv name path source depth, ?_⟩
    intro position t ht
    cases ht
  | taken _ ih => exact ih
  | @rendered x hs hx ih =>
    rw [x.run_eq_leaves, Rendering.held_leaves]
    exact ⟨ih.1, (x.yields_start hx.arises.coherent).holds ih.2 ih.1
      (Template.inherited_inclusionsOpen hs hv _)⟩

end ArisesUnder
end Held

/-- What a step reports: nothing, or all that is wrong with a template that is read for an
inclusion, or that an inclusion is refused. -/
theorem Stage.Step.reported {settings : Settings} {loader : Loader} {a b : Stage}
    (h : Step settings loader a b) :
    b.progress.reported = a.progress.reported ∨
    ∃ v c reference line span, a.Faces v c reference line span ∧
      ((∃ t, Render.look settings loader v reference span a.progress = .read t ∧
        b.progress.reported = a.progress.reported ++ t.diagnostics) ∨
      ∃ problem asked,
        Render.look settings loader v reference span a.progress = .refused problem asked ∧
        b.progress.reported =
          a.progress.reported ++ [v.template.diagnostic problem line span]) := by
  obtain ⟨agenda, p⟩ := a
  cases agenda with
  | nil => exact h.elim
  | cons task rest =>
    rcases Render.doTask_eq settings loader rest task with
      ⟨v, c, reference, line, span, left, rfl⟩ | ⟨e, agenda, he⟩
    · have hf : Stage.Faces ⟨.nodes v c (.embed reference line span :: left) :: rest, p⟩ v c
          reference line span := ⟨left, rest, rfl⟩
      obtain ⟨found, hok⟩ := h.resolve_of_faces hf
      dsimp only at hok ⊢
      cases hl : Render.look settings loader v reference span p with
      | kept t =>
        rw [Render.resolve_of_kept line hl] at hok
        injection hok with _ hp
        exact .inl (by rw [← hp])
      | read t =>
        obtain ⟨q, hreport, -, hb⟩ := Render.exists_reportAll hl hok
        have hq := (Render.meets_reportAll_lines t.diagnostics).of_ok hreport
        exact .inr ⟨v, c, reference, line, span, hf, .inl ⟨t, hl, hb ▸ hq.reported⟩⟩
      | refused problem asked =>
        obtain ⟨-, hb, -⟩ := (Render.meets_resolve_refused hl).of_ok hok
        refine .inr ⟨v, c, reference, line, span, hf, .inr ⟨problem, asked, hl, ?_⟩⟩
        rw [hb, Render.refusing, Progress.finding_eq]
    · have hmeets : Render.Meets (Render.emit e >>= fun _ => pure agenda) p
          (fun _ p' => p'.reported = p.reported) (fun _ _ => True) := by
        rw [Render.meets_bind, Render.meets_emit]
        split
        · exact rfl
        · trivial
      exact .inl ((he ▸ hmeets).of_ok h)

namespace Rendering

variable {x : Rendering} {s : Stage} {tags : TagSet}

/-- In which template a diagnostic of the render arises: in the held one, whose diagnostics are held
with it; in one that is read for an inclusion; or, where an inclusion is refused, in the one that
the inclusion stands in. -/
inductive ArisesIn (x : Rendering) (d : Diagnostic) : Template → Prop
  | held : d ∈ x.held.template.diagnostics → ArisesIn x d x.held.template
  | read {s : Stage} {v : Visit} {c : Context} {reference : String} {line : Nat} {span : Span}
    {t : Template} : x.Reaches s → s.Faces v c reference line span →
    Render.look x.settings x.loader v reference span s.progress = .read t → d ∈ t.diagnostics →
    ArisesIn x d t
  | refused {s s' : Stage} {v : Visit} {c : Context} {reference : String} {line : Nat}
    {span : Span} {problem : Problem} {asked : Bool} : x.Reaches s →
    s.Faces v c reference line span →
    Render.look x.settings x.loader v reference span s.progress = .refused problem asked →
    Stage.Step x.settings x.loader s s' →
    s'.progress.reported = s.progress.reported ++ [d] → ArisesIn x d v.template

theorem Reaches.arisesIn (h : x.Reaches s) : ∀ d ∈ s.progress.reported, ∃ t, x.ArisesIn d t := by
  refine (h.keeps (P := fun s => x.Reaches s ∧ ∀ d ∈ s.progress.reported, ∃ t, x.ArisesIn d t)
    ?_ ?_).2
  · intro first hb
    refine ⟨⟨first, hb, .refl⟩, fun d hd => ⟨x.held.template, .held ?_⟩⟩
    have hreported : first.progress.reported = x.held.template.diagnostics := hb.reports.reported
    rwa [hreported] at hd
  · rintro a b ⟨ha, hd⟩ hstep
    refine ⟨ha.tail hstep, ?_⟩
    rcases hstep.reported with hr | ⟨v, c, reference, line, span, hf, ⟨t, hl, hr⟩ |
      ⟨problem, asked, hl, hr⟩⟩
    · rw [hr]
      exact hd
    · rw [hr]
      exact List.forall_mem_append.mpr ⟨hd, fun d hm => ⟨t, .read ha hf hl hm⟩⟩
    · rw [hr]
      exact List.forall_mem_append.mpr
        ⟨hd, List.forall_mem_singleton.mpr ⟨v.template, .refused ha hf hl hstep hr⟩⟩

theorem Reaches.inclusionsOpen (h : x.Reaches s) (hv : tags.emptyEntry? = none)
    (hs : x.settings.tags = tags) (hx : x.held.ArisesUnder tags) :
    s.Holds fun t _ => t.InclusionsOpen tags := by
  obtain ⟨hroot, hstore⟩ := hx.inclusionsOpen hv
  exact h.holds hstore hroot (Template.inherited_inclusionsOpen hs hv _)

theorem ArisesIn.locatedIn {d : Diagnostic} {t : Template} (h : x.ArisesIn d t)
    (hv : tags.emptyEntry? = none) (hs : x.settings.tags = tags)
    (hx : x.held.ArisesUnder tags) : d.LocatedIn tags t.name t.source := by
  cases h with
  | held hd => exact hx.locatedIn_of_mem hv d hd
  | read _ _ hl hd =>
    obtain ⟨text, rfl⟩ := Template.eq_parse_of_load (Render.load_of_look hl).2
    exact Template.locatedIn_of_mem_parse hs hv _ _ _ _ d hd
  | @refused s s' v c reference line span problem asked hr hf hl hstep hreported =>
    obtain ⟨left, hm⟩ := hf.exists_mem
    obtain ⟨loops, list, hi, hsuffix⟩ := hr.inside _ hm
    have hopen := (hr.inclusionsOpen hv hs hx).agenda _ hm loops list reference line span hi
      (hsuffix.subset (List.mem_cons_self ..))
    obtain ⟨found, hok⟩ := hstep.resolve_of_faces hf
    obtain ⟨-, hp, -⟩ := (Render.meets_resolve_refused hl).of_ok hok
    have hd : d = v.template.diagnostic problem line span := by
      rw [hp, Render.refusing, Progress.finding_eq] at hreported
      simpa using hreported.symm
    rw [hd]
    exact Template.diagnostic_locatedIn problem hopen

/-- The diagnostics in the error of a render have been reported by the time it ends. -/
theorem exists_reaches_of_result (hx : x.held.Arises) {ds : List Diagnostic}
    (h : x.run.result = .error (.template ds)) :
    ∃ s, x.Reaches s ∧ s.progress.reported = ds := by
  have hr : Render.Finishes x.run.result := by
    rw [h]
    trivial
  obtain ⟨p, hlast⟩ := exists_last hx hr
  refine ⟨_, hlast, ?_⟩
  have hrun : x.run = x.leaves (.ok () p) := hlast.run_of_ends hx rfl
  rw [hrun, leaves] at h
  dsimp only at h
  split at h
  · cases h
  · cases h
    rfl

end Rendering

/-- A source that cannot be read is all that is reported, without a place. -/
theorem Source.result_of_rendering?_eq_none {settings : Settings} {loader : Loader}
    {source : Source} {scope : Scope} {out err : Sink}
    (h : source.rendering? settings loader scope out err = none) {ds : List Diagnostic}
    (hr : (source.render settings loader scope out err).result = .error (.template ds)) :
    ∃ file problem, source = .path file ∧
      Template.load settings loader { written := out.pieces } 0 file = .error problem ∧
      ds = [⟨problem, file, none⟩] := by
  cases source with
  | text content => cases h
  | path file =>
    unfold rendering? at h
    unfold render at hr
    cases hl : Template.load settings loader { written := out.pieces } 0 file with
    | ok t =>
      simp only [hl] at h
      cases h
    | error problem =>
      simp only [hl] at hr
      split at hr
      · cases hr
        exact ⟨file, problem, rfl, hl, rfl⟩
      · cases hr

/-- Diagnostics are located correctly, with any valid tags. Lines are counted on from any offset to
any other without going wrong. Every tag of a source, and all that is wrong with it, is at a part of
the source that begins with an opening delimiter, on the line that the line feeds before it give.
Whatever has been reported by a stage of a render, and whatever the render comes to, has arisen in a
template: it names the file of this template and is located so in its source. The only
other diagnostic is the one of a top-level template that cannot be read. -/
theorem diagnostics_are_located (tags : TagSet) (hv : tags.emptyEntry? = none) :
    (∀ (lines : LineCount) source offset, lines.IsTrue (Text.bytes source) →
      (lines.upTo (Text.bytes source) offset).IsTrue (Text.bytes source) ∧
      (lines.upTo (Text.bytes source) offset).line =
        1 + ((Text.bytes source).take offset).count 10) ∧
    (∀ source t, .tag t ∈ Item.scan tags source → tags.OpensAt source.toList t.line t.span) ∧
    (∀ settings, settings.tags = tags → ∀ name path source depth,
      ∀ d ∈ (Template.parse settings name path source depth).diagnostics,
        d.LocatedIn tags name source) ∧
    (∀ x : Rendering, x.settings.tags = tags → x.held.ArisesUnder tags →
      (∀ d t, x.ArisesIn d t → d.LocatedIn tags t.name t.source) ∧
      (∀ s, x.Reaches s → ∀ d ∈ s.progress.reported, ∃ t, x.ArisesIn d t) ∧
      ∀ ds, x.run.result = .error (.template ds) → ∀ d ∈ ds, ∃ t, x.ArisesIn d t) ∧
    ∀ settings loader (source : Source) scope out err ds, settings.tags = tags →
      (source.render settings loader scope out err).result = .error (.template ds) →
      (∃ x, source.rendering? settings loader scope out err = some x ∧
        ∀ d ∈ ds, ∃ t, x.ArisesIn d t ∧ d.LocatedIn tags t.name t.source) ∨
      ∃ file problem, source = .path file ∧
        Template.load settings loader { written := out.pieces } 0 file = .error problem ∧
        ds = [⟨problem, file, none⟩] := by
  have harises (x : Rendering) (hx : x.held.Arises) (ds : List Diagnostic)
      (hr : x.run.result = .error (.template ds)) : ∀ d ∈ ds, ∃ t, x.ArisesIn d t := by
    obtain ⟨s, hs, rfl⟩ := Rendering.exists_reaches_of_result hx hr
    exact hs.arisesIn
  refine ⟨fun lines source offset h => ⟨h.upTo offset, h.line_upTo offset⟩,
    fun source t hm => ?_, fun settings hs name path source depth => ?_,
    fun x hs hx => ⟨fun d t h => h.locatedIn hv hs hx, fun s h => h.arisesIn,
      harises x hx.arises⟩, ?_⟩
  · exact @opensAt_of_mem_scan _ hv _ _ hm (t.line, t.span) rfl
  · exact Template.locatedIn_of_mem_parse hs hv name path source depth
  · intro settings loader source scope out err ds hs hr
    cases hx : source.rendering? settings loader scope out err with
    | none => exact .inr (Source.result_of_rendering?_eq_none hx hr)
    | some x =>
      obtain ⟨rfl, -, hfresh⟩ := Source.fresh_of_rendering? hx
      obtain ⟨name, path, text, hheld⟩ := hfresh.held
      have hunder : x.held.ArisesUnder tags := by
        rw [hheld]
        exact .read name path text 0 hs
      rw [Source.render_of_rendering? hx] at hr
      refine .inl ⟨x, rfl, fun d hd => ?_⟩
      obtain ⟨t, ht⟩ := harises x hfresh.arises ds hr d hd
      exact ⟨t, ht, ht.locatedIn hv hs hunder⟩

/-- A tag without a name and an inclusion of what is not there, behind a letter of two bytes and a
comment of two lines. -/
def unnamedText : String :=
  "\u00fc\n\x7b\x7b*\n*\x7d\x7d\x7b\x7bVAR \x7d\x7d\n\x7b\x7bINCLUDE gone\x7d\x7d"

theorem diagnostics_are_located_unnamed :
    let outcome := (Source.text unnamedText).render {} (Library.loader {}) .empty {} {}
    TagSet.emptyEntry? {} = none ∧
    ∃ d e, outcome.result = .error (.template [d, e]) ∧
      (d.location.map fun l => (l.line, l.span)) = some (3, ⟨10, 18⟩) ∧
      (e.location.map fun l => (l.line, l.span)) = some (4, ⟨19, 35⟩) ∧
      ∃ x, (Source.text unnamedText).rendering? {} (Library.loader {}) .empty {} {} = some x ∧
        ∀ a ∈ [d, e], ∃ t, x.ArisesIn a t ∧ a.LocatedIn {} t.name t.source := by
  have hv : TagSet.emptyEntry? {} = none := by decide
  have hr : ((Source.text unnamedText).render {} (Library.loader {}) .empty {} {}).result =
      .error (.template [
        ⟨.missingName "VAR", "(none)", some ⟨3, ⟨10, 18⟩, unnamedText⟩⟩,
        ⟨.unreadable "gone" "no such template", "(none)", some ⟨4, ⟨19, 35⟩, unnamedText⟩⟩]) := by
    decide +kernel
  refine ⟨hv, _, _, hr, rfl, rfl, ?_⟩
  obtain ⟨-, -, -, -, h⟩ := diagnostics_are_located {} hv
  rcases h {} _ _ _ _ _ _ rfl hr with hx | ⟨file, problem, hsource, -⟩
  · exact hx
  · cases hsource

end Stencil
