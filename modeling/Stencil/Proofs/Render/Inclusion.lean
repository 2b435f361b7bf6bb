import Stencil.Proofs.Render.Meets

/-! What an inclusion comes upon.
Its position may be filled already. If it is not, then there may be nothing to include, for it
stands too deep or its template cannot be read, or else the template is read now. The main statement
takes the resolving of an inclusion apart by these cases. -/
namespace Stencil

/-- What an inclusion comes upon. -/
inductive Found
  /-- The template that its position is filled with. -/
  | kept (t : Template)
  /-- Nothing, for this reason, which may be known without the loader. -/
  | refused (problem : Problem) (asked : Bool)
  /-- A template that is read now. -/
  | read (t : Template)

namespace Found

def isAsked : Found → Bool
  | kept _ => false
  | refused _ asked => asked
  | read _ => true

end Found

namespace Visit

/-- The position of the inclusion whose tag stands there. -/
def inside (v : Visit) (span : Span) : Position := span.start :: v.position

def target (v : Visit) (reference : String) : String := Path.resolve reference v.template.path

end Visit

/-- The template once its diagnostics have been taken. -/
def Template.quiet (t : Template) : Template := { t with diagnostics := [] }

namespace Progress

def asking (p : Progress) (v : Visit) (reference : String) : Progress :=
  { p with loads := (v.target reference, v.template.depth + 1) :: p.loads }

def finding (p : Progress) (v : Visit) (reference : String) (found : Found) : Progress :=
  if found.isAsked then p.asking v reference else p

@[simp] theorem store_finding (p : Progress) (v : Visit) (reference : String) (found : Found) :
    (p.finding v reference found).store = p.store := by
  cases h : found.isAsked <;> simp [finding, asking, h]

@[simp] theorem err_finding (p : Progress) (v : Visit) (reference : String) (found : Found) :
    (p.finding v reference found).err = p.err := by
  cases h : found.isAsked <;> simp [finding, asking, h]

theorem finding_eq (p : Progress) (v : Visit) (reference : String) (found : Found) :
    p.finding v reference found = { p with loads := (p.finding v reference found).loads } := by
  cases h : found.isAsked <;> simp [finding, asking, h]

def filling (p : Progress) (position : Position) (t : Template) : Progress :=
  { p with store := p.store.fill position t }

end Progress

namespace Render

/-- What the inclusion of a reference at a span comes upon. -/
def look (settings : Settings) (loader : Loader) (v : Visit) (reference : String) (span : Span)
    (p : Progress) : Found :=
  match p.store.find? (v.inside span) with
  | some t => .kept t
  | none =>
    if settings.includeLimit < v.template.depth + 1 then
      .refused (.tooDeep (settings.tags.keyword .embed) settings.includeLimit) false
    else
      match Template.load settings loader ⟨p.out.pieces, p.loads.length⟩ (v.template.depth + 1)
          (v.target reference) with
      | .error problem => .refused problem true
      | .ok t => .read t

variable {settings : Settings} {loader : Loader} {v : Visit} {reference : String} {line : Nat}
  {span : Span} {p : Progress} {ok : Option Visit → Progress → Prop}
  {stop : WriteError → Progress → Prop}

/-- What comes of an inclusion: the kept template; or the tag is reported and the render halts; or
what is wrong with the template that has been read is reported, and it fills the position. -/
theorem meets_resolve_iff :
    Meets (resolve settings loader v reference line span) p ok stop ↔
      let found := look settings loader v reference span p
      match found with
      | .kept t => ok (some ⟨t, v.inside span⟩) p
      | .refused problem _ =>
        Meets (halt (v.template.diagnostic problem line span)) (p.finding v reference found)
          (fun _ p' => ok none p') stop
      | .read t =>
        Meets (reportAll t.diagnostics) (p.finding v reference found)
          (fun _ p' => ok (some ⟨t.quiet, v.inside span⟩) (p'.filling (v.inside span) t.quiet))
          stop := by
  unfold resolve look
  rw [meets_bind, meets_get]
  simp only [Visit.inside, Visit.target]
  cases p.store.find? (span.start :: v.position) with
  | some t => rfl
  | none =>
    simp only
    split
    · rw [meets_bind]
      rfl
    · rw [meets_bind, meets_load]
      cases Template.load settings loader ⟨p.out.pieces, p.loads.length⟩ (v.template.depth + 1)
          (Path.resolve reference v.template.path) with
      | error problem =>
        simp only [meets_bind]
        rfl
      | ok t =>
        simp only [meets_bind]
        rfl

theorem find?_of_look {t : Template} (h : look settings loader v reference span p = .kept t) :
    p.store.find? (v.inside span) = some t := by
  unfold look at h
  split at h
  · cases h
    assumption
  · split at h
    · cases h
    · split at h <;> cases h

theorem find?_of_refused {problem : Problem} {asked : Bool}
    (h : look settings loader v reference span p = .refused problem asked) :
    p.store.find? (v.inside span) = none := by
  unfold look at h
  split at h
  · cases h
  · assumption

theorem load_of_look {t : Template} (h : look settings loader v reference span p = .read t) :
    v.template.depth + 1 ≤ settings.includeLimit ∧
      Template.load settings loader ⟨p.out.pieces, p.loads.length⟩ (v.template.depth + 1)
        (v.target reference) = .ok t := by
  unfold look at h
  split at h
  · cases h
  · split at h
    · cases h
    · split at h
      · cases h
      · cases h
        exact ⟨by omega, by assumption⟩

/-- How the resolving of an inclusion ends, and the progress then. -/
inductive Resolves (settings : Settings) (loader : Loader) (v : Visit) (reference : String)
    (span : Span) (p : Progress) : Option Visit → Progress → Prop
  | kept {t : Template} : look settings loader v reference span p = .kept t →
    Resolves settings loader v reference span p (some ⟨t, v.inside span⟩) p
  | refused {problem : Problem} {asked : Bool} {q : Progress} :
    look settings loader v reference span p = .refused problem asked →
    (p.finding v reference (.refused problem asked)).Writes q →
    Resolves settings loader v reference span p none { q with halted := true }
  | read {t : Template} {q : Progress} : look settings loader v reference span p = .read t →
    (p.asking v reference).Writes q →
    Resolves settings loader v reference span p (some ⟨t.quiet, v.inside span⟩)
      (q.filling (v.inside span) t.quiet)

theorem Resolves.loads {found : Option Visit} {p' : Progress}
    (h : Resolves settings loader v reference span p found p') :
    p'.loads = (p.finding v reference (look settings loader v reference span p)).loads := by
  cases h with
  | kept hl =>
    rw [hl]
    rfl
  | refused hl hq =>
    rw [hl]
    exact hq.loads
  | read hl hq =>
    rw [hl]
    exact hq.loads

theorem Resolves.found_eq {found : Option Visit} {p' : Progress}
    (h : Resolves settings loader v reference span p found p') :
    found = match look settings loader v reference span p with
      | .kept t => some ⟨t, v.inside span⟩
      | .refused _ _ => none
      | .read t => some ⟨t.quiet, v.inside span⟩ := by
  cases h with
  | kept hl => rw [hl]
  | refused hl _ => rw [hl]
  | read hl _ => rw [hl]

theorem Resolves.room_err {found : Option Visit} {p' : Progress}
    (h : Resolves settings loader v reference span p found p') (hp : p.err.room = none) :
    p'.err.room = none := by
  cases h with
  | kept _ => exact hp
  | refused _ hq => exact hq.err (by rwa [Progress.err_finding])
  | read _ hq => exact hq.err hp

theorem Resolves.find?_of_ne {found : Option Visit} {p' : Progress} {position : Position}
    (h : Resolves settings loader v reference span p found p') (hne : position ≠ v.inside span) :
    p'.store.find? position = p.store.find? position := by
  cases h with
  | kept _ => rfl
  | @refused problem asked q _ hq =>
    have hstore : q.store = p.store := by rw [hq.store, Progress.store_finding]
    exact congrArg (fun store => store.find? position) hstore
  | @read t q _ hq =>
    have hstore : q.store = p.store := hq.store
    have hfill : (q.store.fill (v.inside span) t.quiet).find? position =
        q.store.find? position := by
      rw [Store.find?_fill, if_neg hne]
    exact hfill.trans (congrArg (fun store => store.find? position) hstore)

theorem meets_resolves :
    Meets (resolve settings loader v reference line span) p
      (Resolves settings loader v reference span p)
      (fun _ => (p.finding v reference (look settings loader v reference span p)).Writes) := by
  rw [meets_resolve_iff]
  cases h : look settings loader v reference span p with
  | kept t => exact .kept h
  | refused problem asked =>
    simp only
    rw [meets_halt]
    exact (meets_report_writes _).mono (fun _ _ hq => .refused h hq) fun _ _ hq => hq
  | read t => exact (meets_reportAll_writes _).mono (fun _ _ hq => .read h hq) fun _ _ hq => hq

end Render
end Stencil
