import Stencil.Proofs.Render.Resumed
import Stencil.Proofs.Render.Room
import Stencil.Proofs.Tree.Places

/-! Rendering two texts as one.
An inclusion keeps its template at a position that moves with its tag, and no position of the one
text is one of the other. The main statement says that a text in which nothing is wrong and that
ends with a tag or a comment, and any other one joined are read and rendered one behind the other:
unless the first one fails or halts, the output is that of the first and then that of the second. -/
namespace Stencil

namespace Position

/-- The position where the text of the top-level template stands behind another one. -/
def behind (before : List Char) : Position → Position
  | [] => []
  | [start] => [Text.size before + start]
  | inner :: next :: outer => inner :: behind before (next :: outer)

variable {before : List Char}

theorem behind_cons {position : Position} (h : position ≠ []) (inner : Nat) :
    behind before (inner :: position) = inner :: behind before position := by
  cases position with
  | nil => exact absurd rfl h
  | cons next outer => rfl

theorem behind_ne_nil {position : Position} (h : position ≠ []) : behind before position ≠ [] := by
  match position with
  | [] => exact absurd rfl h
  | [start] => exact List.cons_ne_nil _ _
  | inner :: next :: outer => exact List.cons_ne_nil _ _

@[simp] theorem behind_nil (position : Position) : behind [] position = position := by
  induction position with
  | nil => rfl
  | cons inner outer ih =>
    cases outer with
    | nil => simp [behind]
    | cons next outer => rw [behind, ih]

theorem behind_injective : Function.Injective (behind before) := by
  intro a b h
  induction a generalizing b with
  | nil =>
    cases b with
    | nil => rfl
    | cons inner outer => exact absurd h.symm (behind_ne_nil (List.cons_ne_nil _ _))
  | cons inner outer ih =>
    cases b with
    | nil => exact absurd h (behind_ne_nil (List.cons_ne_nil _ _))
    | cons inner' outer' =>
      by_cases ho : outer = []
      · by_cases ho' : outer' = []
        · subst ho ho'
          simpa [behind] using h
        · subst ho
          rw [behind_cons ho', behind, List.cons.injEq] at h
          exact absurd h.2.symm (behind_ne_nil ho')
      · by_cases ho' : outer' = []
        · subst ho'
          rw [behind_cons ho, behind, List.cons.injEq] at h
          exact absurd h.2 (behind_ne_nil ho)
        · rw [behind_cons ho, behind_cons ho', List.cons.injEq] at h
          rw [h.1, ih h.2]

/-- The outermost inclusion of the position begins before the bound. -/
def Within (bound : Nat) (position : Position) : Prop := ∃ start ∈ position.getLast?, start < bound

theorem Within.ne_nil {bound : Nat} {position : Position} (h : position.Within bound) :
    position ≠ [] := by
  rintro rfl
  obtain ⟨start, hs, -⟩ := h
  cases hs

theorem Within.cons {bound : Nat} {position : Position} (h : position.Within bound)
    (inner : Nat) : Within bound (inner :: position) := by
  obtain ⟨start, hs, hlt⟩ := h
  exact ⟨start, by rw [List.getLast?_cons, Option.mem_def.mp hs]; rfl, hlt⟩

theorem not_within_behind {bound : Nat} (h : bound ≤ Text.size before) (position : Position) :
    ¬ Within bound (behind before position) := by
  induction position with
  | nil => exact fun hw => hw.ne_nil rfl
  | cons inner outer ih =>
    rintro ⟨start, hs, hlt⟩
    cases outer with
    | nil =>
      obtain rfl : Text.size before + inner = start := Option.some.inj hs
      omega
    | cons next outer =>
      refine ih ⟨start, ?_, hlt⟩
      rw [behind_cons (List.cons_ne_nil _ _)] at hs
      rwa [List.getLast?_cons_of_ne_nil (behind_ne_nil (List.cons_ne_nil _ _))] at hs

end Position

/-- What is kept at a position is kept in the other store at the moved one, and nothing is kept for
an inclusion that begins behind the bound. -/
structure Store.Moves (before : List Char) (bound : Nat) (s s' : Store) : Prop where
  find?_eq : ∀ position : Position, position ≠ [] →
    s'.find? (position.behind before) = s.find? position
  within : ∀ (position : Position) t, s.find? position = some t → position.Within bound

theorem Store.Moves.fill {before : List Char} {bound : Nat} {s s' : Store}
    (h : s.Moves before bound s') {position : Position} (hw : position.Within bound)
    (t : Template) :
    (s.fill position t).Moves before bound (s'.fill (position.behind before) t) := by
  constructor
  · intro other ho
    simp only [find?_fill, h.find?_eq _ ho, h.find?_eq _ hw.ne_nil,
      Position.behind_injective.eq_iff]
  · intro other u hu
    rw [find?_fill] at hu
    split at hu
    · rename_i he
      exact he ▸ hw
    · exact h.within other u hu

/-- A render has come as far behind the text, and behind so much that was written and asked for
before, as the other one has. -/
abbrev Progress.Trails (before : List Char) (bound : Nat) (written : List Bytes)
    (asked : List (String × Nat)) : Progress → Progress → Prop :=
  Progress.Resumes (Store.Moves before bound) written asked

theorem Progress.Trails.turn {before : List Char} {bound bound' : Nat} {p q r : Progress}
    (h : p.Trails [] bound [] [] r) (hbound : bound ≤ Text.size before)
    (hq : q = { q with out := ⟨p.out.room, []⟩, store := {}, loads := [], halted := p.halted })
    (hroom : q.err.room = none) : q.Trails before bound' p.out.pieces p.loads r := by
  rw [hq]
  refine ⟨h.out.trans (Sink.after_nil _), h.loads.trans (List.append_nil _), h.halted, hroom,
    h.room', ⟨fun position hp => ?_, nofun⟩⟩
  have hkept := h.store.find?_eq (position.behind before) (Position.behind_ne_nil hp)
  rw [Position.behind_nil] at hkept
  rw [hkept]
  cases hf : p.store.find? (position.behind before) with
  | none => rfl
  | some t => exact absurd (h.store.within _ t hf) (Position.not_within_behind hbound position)

def Visit.behind (before : List Char) (v : Visit) : Visit :=
  ⟨v.template, v.position.behind before⟩

namespace Render

section Inclusions

variable {settings : Settings} {loader : Loader} {before : List Char} {bound : Nat}
  {written : List Bytes} {asked : List (String × Nat)} {v v' : Visit} {span span' : Span}
  {p q : Progress}

/-- Two visits of templates as deep and at the same path, with inclusions at these spans of which
the one is at the moved position of the other. -/
structure Paired (before : List Char) (bound : Nat) (v v' : Visit) (span span' : Span) : Prop where
  depth : v'.template.depth = v.template.depth
  path : v'.template.path = v.template.path
  position : span'.start :: v'.position = Position.behind before (span.start :: v.position)
  within : Position.Within bound (span.start :: v.position)

/-- The same template has been found, in one of the renders at the moved position, or none in either
of them. -/
def FindsBehind (before : List Char) (bound : Nat) (R : Progress → Progress → Prop)
    (found found' : Option Visit) (p q : Progress) : Prop :=
  found' = found.map (Visit.behind before) ∧
    (∀ nested ∈ found, nested.position.Within bound) ∧ R p q

theorem lockstep_resolve (hv : Paired before bound v v' span span') (reference : String)
    (line line' : Nat) (h : p.Trails before bound written asked q) :
    Lockstep (Progress.Trails before bound written asked)
      (resolve settings (loader.after written asked.length) v reference line span)
      (resolve settings loader v' reference line' span') p q
      (FindsBehind before bound (Progress.Trails before bound written asked)) := by
  have hrefuse (problem : Problem) (p q : Progress) (h : p.Trails before bound written asked q) :
      Lockstep (Progress.Trails before bound written asked)
        (do let _ ← halt (v.template.diagnostic problem line span); pure none)
        (do let _ ← halt (v'.template.diagnostic problem line' span'); pure none) p q
        (FindsBehind before bound (Progress.Trails before bound written asked)) :=
    (inStep_halt _ _ h).bind fun _ _ p' q' ha => ⟨rfl, nofun, ha.2⟩
  have hfound (t : Template) (p q : Progress) (h : p.Trails before bound written asked q) :
      FindsBehind before bound (Progress.Trails before bound written asked)
        (some ⟨t, span.start :: v.position⟩)
        (some ⟨t, Position.behind before (span.start :: v.position)⟩) p q :=
    ⟨rfl, by simpa using hv.within, h⟩
  have hstore := h.store.find?_eq _ hv.within.ne_nil
  unfold resolve
  dsimp only
  rw [lockstep_get, hv.depth, hv.path, hv.position, hstore]
  cases p.store.find? (span.start :: v.position) with
  | some t => exact hfound t p q h
  | none =>
    dsimp only
    split
    · exact hrefuse _ p q h
    · refine (inStep_load settings loader _ _ h).bind ?_
      rintro _ found p' q' ⟨rfl, hr⟩
      cases found with
      | error problem => exact hrefuse problem p' q' hr
      | ok t =>
        refine (inStep_reportAll t.diagnostics hr).bind fun _ _ p₁ q₁ h₁ => ?_
        refine (inStep_fill h₁.2 (h₁.2.store.fill hv.within _)).bind fun _ _ p₂ q₂ h₂ => ?_
        exact hfound _ p₂ q₂ h₂.2

theorem inStep_enter_of_inner {levels : Nat} {c : Context}
    (hinner : ∀ nested p q, nested.position.Within bound → p.Trails before bound written asked q →
      InStep (Progress.Trails before bound written asked)
        (inner settings (loader.after written asked.length) levels nested c)
        (inner settings loader levels (nested.behind before) c) p q)
    (hv : Paired before bound v v' span span') (reference : String) (line line' : Nat)
    (h : p.Trails before bound written asked q) :
    InStep (Progress.Trails before bound written asked)
      (enter settings (loader.after written asked.length) levels v c reference line span)
      (enter settings loader levels v' c reference line' span') p q := by
  refine (lockstep_resolve hv reference line line' h).bind ?_
  rintro found _ p' q' ⟨rfl, hwithin, hr⟩
  cases found with
  | none => exact ⟨rfl, hr⟩
  | some nested => exact hinner nested p' q' (hwithin nested rfl) hr

theorem inStep_inner (levels : Nat) (nested : Visit) (c : Context) (p q : Progress)
    (hw : nested.position.Within bound) (h : p.Trails before bound written asked q) :
    InStep (Progress.Trails before bound written asked)
      (inner settings (loader.after written asked.length) levels nested c)
      (inner settings loader levels (nested.behind before) c) p q := by
  induction levels generalizing nested c p q with
  | zero => exact ⟨rfl, h⟩
  | succ levels ih =>
    have hentered (c : Context) (loops : Nat) (reference : String) (line : Nat) (span : Span)
        (p q : Progress) (_ : True) (h : p.Trails before bound written asked q) :
        InStep (Progress.Trails before bound written asked)
          (enter settings (loader.after written asked.length) levels nested c reference line span)
          (enter settings loader levels (nested.behind before) c reference line span) p q := by
      have hposition : span.start :: (nested.behind before).position =
          Position.behind before (span.start :: nested.position) :=
        (Position.behind_cons hw.ne_nil _).symm
      have hpaired : Paired before bound nested (nested.behind before) span span :=
        ⟨rfl, rfl, hposition, hw.cons _⟩
      exact inStep_enter_of_inner (fun nested p q => ih nested c p q) hpaired reference line _ h
    -- nothing moves in an included template, only the positions of what it includes do
    have htext (span : Span) : (nested.behind before).template.text span =
        nested.template.text span := rfl
    rw [inner, inner, walk_eq, walk_eq]
    exact inStep_walkList_of_text paced_resumes htext hentered c 0 _
      (Node.allLeaves_of_forall (fun _ _ => trivial) 0 _) h

/-- What two walks of the same leaf of a top-level template have in common: a text is the same, and
an inclusion begins before the bound. -/
def Common (before : List Char) (bound : Nat) (t t' : Template) (_loops : Nat) : Node → Prop
  | .text span => t'.text (span.behind before) = t.text span
  | .embed _ _ span => span.start < bound
  | _ => True

/-- Nodes of a top-level template are walked in lockstep with the moved nodes of one whose source
has this template's source in it, behind the text. -/
theorem inStep_root (levels : Nat) {t t' : Template} (hdepth : t'.depth = t.depth)
    (hpath : t'.path = t.path) {nodes : List Node}
    (hn : Node.AllLeaves (Common before bound t t') 0 nodes) (c : Context)
    (h : p.Trails before bound written asked q) :
    InStep (Progress.Trails before bound written asked)
      (walkList (enter settings (loader.after written asked.length) levels) ⟨t, []⟩ c nodes)
      (walkList (enter settings loader levels) ⟨t', []⟩ c (Node.allBehind before nodes)) p q := by
  have hentered (c : Context) (loops : Nat) (reference : String) (line : Nat) (span : Span)
      (p q : Progress) (hs : Common before bound t t' loops (.embed reference line span))
      (h : p.Trails before bound written asked q) :
      InStep (Progress.Trails before bound written asked)
        (enter settings (loader.after written asked.length) levels ⟨t, []⟩ c reference line span)
        (enter settings loader levels ⟨t', []⟩ c reference (Text.lineFeeds before + line)
          (span.behind before)) p q := by
    have hpaired : Paired before bound ⟨t, []⟩ ⟨t', []⟩ span (span.behind before) :=
      ⟨hdepth, hpath, rfl, span.start, rfl, hs⟩
    exact inStep_enter_of_inner (fun nested p q => inStep_inner levels nested c p q) hpaired
      reference line _ h
  exact inStep_walkList paced_resumes (fun _ _ htext => htext) hentered c 0 nodes hn h

end Inclusions

/-- Lists are walked one after the other where no jump comes out of the first one. -/
theorem walkList_append_of_on {enter : Inclusion} {v : Visit} {c : Context} {a b : List Node}
    {p p' : Progress} (h : walkList enter v c a p = .ok .on p') :
    walkList enter v c (a ++ b) p = walkList enter v c b p' := by
  induction a generalizing p with
  | nil =>
    rw [walkList] at h
    cases h
    rfl
  | cons node rest ih =>
    cases hp : p.halted with
    | true =>
      rw [walkList_of_halted _ _ _ _ hp] at h ⊢
      cases h
      exact (walkList_of_halted _ _ _ _ hp).symm
    | false =>
      rw [walkList_cons _ _ _ _ _ hp] at h
      rw [List.cons_append, walkList_cons _ _ _ _ _ hp]
      simp only [bind, EStateM.bind] at h ⊢
      cases hw : walkNode enter v c node p with
      | error e q =>
        rw [hw] at h
        cases h
      | ok flow q =>
        rw [hw] at h
        cases flow with
        | on => exact ih h
        | leave level => cases h
        | next level => cases h

end Render

namespace Template

theorem text_behind {t t' : Template} {before after : List Char}
    (hs : t'.source.toList = before ++ t.source.toList ++ after) {span : Span}
    (h : span.IsPart t.source.toList) : t'.text (span.behind before) = t.text span := by
  obtain ⟨start, covered, rest, ht, -, rfl⟩ := h
  have hbehind : Span.behind before ⟨Text.size start, Text.size (start ++ covered)⟩ =
      ⟨Text.size (before ++ start), Text.size (before ++ start ++ covered)⟩ := by
    simp only [Span.behind, Text.size_append, Nat.add_assoc]
  have hsource : t'.source.toList = before ++ start ++ covered ++ (rest ++ after) := by
    rw [hs, ht]
    simp only [List.append_assoc]
  unfold text
  rw [hbehind, hsource, ht, Text.slice?_append, Text.slice?_append]

theorem common_parse {settings : Settings} (hv : settings.tags.emptyEntry? = none) {name : String}
    {path : Option String} {source : String} {depth : Nat} {before after : List Char}
    {t t' : Template} (ht : t.source = source)
    (ht' : t'.source.toList = before ++ source.toList ++ after) :
    Node.AllLeaves (Render.Common before (Text.size source.toList) t t') 0
      (parse settings name path source depth).root := by
  subst ht
  apply Tree.allLeaves_ofItems
  intro item hitem
  cases item with
  | text span =>
    intro loops
    have hscan := inOrder_scan settings.tags t.source
    exact text_behind ht' (hscan.texts_isPart (List.mem_filterMap.mpr ⟨_, hitem, rfl⟩)).2
  | finding f => trivial
  | tag tag =>
    intro loops nodes hn
    rcases Tag.leaf_cases hn with ⟨_, _, _, -, rfl⟩ | ⟨_, rfl, -⟩ | ⟨_, -, rfl | rfl⟩ | rfl
    · exact ⟨trivial, trivial⟩
    · obtain ⟨start, covered, after, hs, hne, hspan, -⟩ :=
        @opensAt_of_mem_scan _ hv _ _ hitem (tag.line, tag.span) rfl
      have hspan : tag.span = ⟨Text.size start, Text.size (start ++ covered)⟩ := hspan
      have hpos := Text.size_pos hne
      have hsize : Text.size t.source.toList =
          Text.size start + Text.size covered + Text.size after := by
        rw [hs, Text.size_append, Text.size_append]
      have hlt : tag.span.start < Text.size t.source.toList := by
        rw [hspan]
        dsimp only
        omega
      exact ⟨hlt, trivial⟩
    · exact ⟨trivial, trivial⟩
    · exact ⟨trivial, trivial⟩
    · trivial

end Template

namespace Render

theorem reportAll_of_room (ds : List Diagnostic) {p : Progress} (hp : p.err.room = none) :
    ∃ err reported, err.room = none ∧ reportAll ds p = .ok () { p with err, reported } := by
  induction ds generalizing p with
  | nil => exact ⟨p.err, p.reported, hp, rfl⟩
  | cons d r ih =>
    have hd : report d p = .ok () { p with
        err := { p.err with pieces := Text.encode (d.text ++ "\n") :: p.err.pieces }
        reported := p.reported ++ [d] } := by
      unfold report
      rw [Sink.write_of_room hp]
    rw [reportAll]
    simp only [bind, EStateM.bind, hd]
    exact ih hp

theorem inStep_ofText {settings : Settings} (hv : settings.tags.emptyEntry? = none)
    {part whole : String} {before after : List Char}
    (hs : whole.toList = before ++ part.toList ++ after) (loader : Loader) (levels : Nat)
    (c : Context) {written : List Bytes} {asked : List (String × Nat)} {p q : Progress}
    (h : p.Trails before (Text.size part.toList) written asked q) :
    InStep (Progress.Trails before (Text.size part.toList) written asked)
      (walkList (enter settings (loader.after written asked.length) levels)
        ⟨(Template.ofText settings part).quiet, []⟩ c (Template.ofText settings part).root)
      (walkList (enter settings loader levels) ⟨(Template.ofText settings whole).quiet, []⟩ c
        (Node.allBehind before (Template.ofText settings part).root)) p q := by
  have hleaves : Node.AllLeaves (Common before (Text.size part.toList)
      (Template.ofText settings part).quiet (Template.ofText settings whole).quiet) 0
      (Template.ofText settings part).root := Template.common_parse hv rfl hs
  refine inStep_root levels ?_ ?_ hleaves c h
  · rfl
  · rfl

end Render

namespace Rendering

def ofText (settings : Settings) (loader : Loader) (text : String) (scope : Scope)
    (out err : Sink) : Rendering :=
  { settings, loader, held := { template := Template.ofText settings text }, scope, out, err }

/-- The render ends without a write error and without a halt. -/
def Completes (x : Rendering) : Prop :=
  Render.Meets (x.held.start x.settings x.loader x.scope) x.progress
    (fun _ p => p.halted = false) fun _ _ => False

instance (x : Rendering) : Decidable x.Completes :=
  match h : x.held.start x.settings x.loader x.scope x.progress with
  | .ok _ p => decidable_of_iff (p.halted = false) (by rw [Completes, Render.Meets, h])
  | .error _ _ => isFalse (by rw [Completes, Render.Meets, h]; exact id)

theorem room_out_run (x : Rendering) (hx : x.sinks.Unlimited) : x.run.out.room = none := by
  obtain ⟨log, honly, -⟩ := x.exists_onlyTruncates hx
  have hroom : ((x.sinks.pour log).1 .out).room = none := Sinks.room_of_pour hx .out
  rwa [honly.pours] at hroom

def walk (x : Rendering) : Walk Flow :=
  Render.walkList (Render.enter x.settings x.loader (x.held.levels x.settings)) x.visit
    ⟨x.scope, []⟩ x.held.template.root

def WalksFrom (x : Rendering) (p : Progress) : Prop :=
  p.err.room = none ∧ p = { x.progress with err := p.err, reported := p.reported } ∧
    x.held.start x.settings x.loader x.scope x.progress = (do let _ ← x.walk; pure ()) p

variable {x : Rendering} {p : Progress}

theorem exists_walksFrom (hx : x.err.room = none) : ∃ p, x.WalksFrom p := by
  obtain ⟨err, reported, hroom, hr⟩ :=
    @Render.reportAll_of_room x.held.template.diagnostics x.progress hx
  refine ⟨{ x.progress with err, reported }, hroom, rfl, ?_⟩
  unfold Held.start
  rw [Render.walk_eq]
  simp only [bind, EStateM.bind, hr]
  rfl

theorem WalksFrom.meets_walk (h : x.WalksFrom p) :
    Render.Meets x.walk p (fun _ p' => x.run = x.leaves (.ok () p'))
      (fun e p' => x.run = x.leaves (.error e p')) := by
  rw [x.run_eq_leaves, h.2.2]
  unfold Render.Meets
  simp only [bind, EStateM.bind]
  cases x.walk p <;> rfl

theorem WalksFrom.meets_of_completes (h : x.WalksFrom p) (hx : x.Completes) :
    Render.Meets x.walk p (fun _ p' => p'.halted = false) fun _ _ => False := by
  unfold Completes Render.Meets at hx
  rw [h.2.2] at hx
  exact Render.meets_bind.mp hx

section Texts

variable {settings : Settings} {loader : Loader} {a b : String} {scope : Scope} {out err : Sink}

theorem exists_walk_of_completes (h : (ofText settings loader a scope out err).WalksFrom p)
    (hx : (ofText settings loader a scope out err).Completes) :
    ∃ p', (ofText settings loader a scope out err).walk p = .ok .on p' ∧ p'.halted = false ∧
      (ofText settings loader a scope out err).run =
        (ofText settings loader a scope out err).leaves (.ok () p') := by
  have hparsed : (ofText settings loader a scope out err).visit.template.Parsed
      settings.formats.formatters :=
    ⟨settings, Template.literalName, none, a, 0, List.Subset.refl _, rfl⟩
  have hstore : p.store.Parsed settings.formats.formatters := by
    rw [h.2.1]
    exact List.forall_mem_nil _
  -- no jump comes out of the walk: the loops that it could leave are all in the text
  have hflow := Render.meets_walkList_inside (List.Subset.refl settings.formats.formatters)
    loader ((ofText settings loader a scope out err).held.levels settings) hparsed ⟨scope, []⟩
    .root hstore
  have hends := h.meets_of_completes hx
  cases hw : (ofText settings loader a scope out err).walk p with
  | error e p' => exact (hends.of_error hw).elim
  | ok flow p' =>
    obtain rfl : flow = .on := Flow.within_zero.mp (hflow.of_ok hw).1
    exact ⟨p', rfl, hends.of_ok hw, h.meets_walk.of_ok hw⟩

/-- Unless the render of a text stops or halts, the render of the text with another one behind it,
moved, goes on like a render of that one by itself. -/
theorem out_run_of_root (hv : settings.tags.emptyEntry? = none)
    (hroot : (Template.ofText settings (a ++ b)).root = (Template.ofText settings a).root ++
      (Template.ofText settings b).root.map (Node.behind a.toList))
    (herr : err.room = none) (hx : (ofText settings loader a scope out err).Completes) :
    let first := (ofText settings loader a scope out err).run
    (ofText settings loader (a ++ b) scope out err).run.out =
      (ofText settings (loader.after first.out.pieces first.loads.length) b scope
        ⟨first.out.room, []⟩ err).run.out.after first.out.pieces := by
  intro first
  obtain ⟨p, hp⟩ := @exists_walksFrom (ofText settings loader a scope out err) herr
  obtain ⟨p', hwalk, hhalted, hfirst⟩ := exists_walk_of_completes hp hx
  have hout : first.out = p'.out := congrArg Rendered.out hfirst
  have hloads : first.loads = p'.loads := congrArg Rendered.loads hfirst
  obtain ⟨q, hq⟩ := @exists_walksFrom (ofText settings (loader.after first.out.pieces
    first.loads.length) b scope ⟨first.out.room, []⟩ err) herr
  obtain ⟨r, hr⟩ := @exists_walksFrom (ofText settings loader (a ++ b) scope out err) herr
  -- the nodes of the first text, in both renders
  have hstart : p.Trails [] (Text.size a.toList) [] [] r := by
    rw [hp.2.1, hr.2.1]
    exact ⟨(Sink.after_nil _).symm, rfl, rfl, hp.1, hr.1, ⟨fun _ _ => rfl, nofun⟩⟩
  have hwhole : (a ++ b).toList = [] ++ a.toList ++ b.toList := String.toList_append
  have hbefore := Render.inStep_ofText hv hwhole loader
    ((ofText settings loader a scope out err).held.levels settings) ⟨scope, []⟩ hstart
  rw [List.length_nil, Loader.after_nil, Node.allBehind_nil_left] at hbefore
  obtain ⟨_, r', hr', rfl, ht⟩ := hbefore.of_ok hwalk
  -- and those of the second one, where the first one has ended
  have hturn : q.Trails a.toList (Text.size b.toList) first.out.pieces first.loads r' := by
    rw [hout, hloads]
    refine ht.turn (Nat.le_refl _) ?_ hq.1
    rw [hq.2.1, hhalted, ← hout]
    rfl
  have hrest : (a ++ b).toList = a.toList ++ b.toList ++ [] := by simp
  have hbehind := Render.inStep_ofText hv hrest loader
    ((ofText settings loader a scope out err).held.levels settings) ⟨scope, []⟩ hturn
  have hthere : (ofText settings loader (a ++ b) scope out err).walk r =
      Render.walkList (Render.enter settings loader
        ((ofText settings loader a scope out err).held.levels settings))
        ⟨(Template.ofText settings (a ++ b)).quiet, []⟩ ⟨scope, []⟩
        (Node.allBehind a.toList (Template.ofText settings b).root) r' := by
    rw [← Render.walkList_append_of_on hr', Node.allBehind_eq_map, ← hroot]
    rfl
  rcases hbehind.ok_or_error with ⟨flow, q₁, _, r₁, hq₁, hr₁, rfl, hl⟩ | ⟨e, q₁, r₁, hq₁, hr₁, hl⟩
  · rw [hr.meets_walk.of_ok (hthere.trans hr₁), hq.meets_walk.of_ok hq₁]
    exact hl.out
  · rw [hr.meets_walk.of_error (hthere.trans hr₁), hq.meets_walk.of_error hq₁]
    exact hl.out

end Texts

end Rendering

/-- Texts are read and rendered one behind the other. With the default tags, let nothing be wrong
with a text that is empty or ends with a tag or a comment. If any other text follows it, the tree is
that of the first text and then the moved one of the second, whose moved diagnostics are all that
there are. And unless the render of the first text fails or halts, the output is that of the first
text and then that of the second, rendered where the first render has come to and into the room that
it has left; without a limit, and with a steady loader, that is the output of the second by itself.
Diagnostics are written first, so it is assumed that all of them can be written. -/
theorem joined_texts {settings : Settings} (htags : settings.tags = {}) {a : String}
    (ha : TagSet.EndsClosed {} a) (b : String) :
    (∀ name path depth, (Template.parse settings name path a depth).diagnostics = [] →
      (Template.parse settings name path (a ++ b) depth).root =
          (Template.parse settings name path a depth).root ++
            (Template.parse settings name path b depth).root.map (Node.behind a.toList) ∧
        (Template.parse settings name path (a ++ b) depth).diagnostics =
          (Template.parse settings name path b depth).diagnostics.map (·.behind a)) ∧
    ((Template.ofText settings a).diagnostics = [] → ∀ loader scope (out err : Sink),
      err.room = none → (Rendering.ofText settings loader a scope out err).Completes →
      let first := (Source.text a).render settings loader scope out err
      let joined := (Source.text (a ++ b)).render settings loader scope out err
      joined.out.contents = first.out.contents ++
          ((Source.text b).render settings
            (loader.after first.out.pieces first.loads.length) scope ⟨first.out.room, []⟩
            err).out.contents ∧
        (out.room = none → loader.IsSteady → joined.out.contents = first.out.contents ++
          ((Source.text b).render settings loader scope {} err).out.contents)) := by
  have hv : settings.tags.emptyEntry? = none := by
    rw [htags]
    decide
  have hparse {name : String} {path : Option String} {depth : Nat}
      (hd : (Template.parse settings name path a depth).diagnostics = []) :=
    Template.parse_append hv (htags ▸ TagSet.sealedBy_default) (htags ▸ ha) hd b
  refine ⟨fun _ _ _ hd => hparse hd, ?_⟩
  intro hd loader scope out err herr hx first joined
  have hout := Rendering.out_run_of_root hv (hparse hd).1 herr hx
  have hcontents : joined.out.contents = first.out.contents ++
      ((Source.text b).render settings (loader.after first.out.pieces first.loads.length) scope
        ⟨first.out.room, []⟩ err).out.contents :=
    (congrArg Sink.contents hout).trans (Sink.contents_after _ _)
  refine ⟨hcontents, fun hroom hl => ?_⟩
  have hlimit : first.out.room = none :=
    (Rendering.ofText settings loader a scope out err).room_out_run fun
      | .out => hroom
      | .err => herr
  rw [hcontents, hlimit, Loader.after_of_isSteady _ hl]

def memoText : String :=
  "Dear \x7b\x7bVAR x\x7d\x7d,\n\x7b\x7bINCLUDE m\x7d\x7d\x7b\x7b* so far *\x7d\x7d"

def memoRest : String := "\x7b\x7bINCLUDE m\x7d\x7d\x7b\x7bVAR \x7d\x7d!"

def memoLibrary : Library := ({} : Library).insert "m" "[\x7b\x7bVAR x\x7d\x7d]"

theorem joined_texts_memo :
    let scope := Scope.empty.withValue "x" "1"
    TagSet.EndsClosed {} memoText ∧ (Template.ofText {} memoText).diagnostics = [] ∧
    (Rendering.ofText {} memoLibrary.loader memoText scope {} {}).Completes ∧
    (Template.ofText {} (memoText ++ memoRest)).diagnostics.map Diagnostic.text =
      ["(none):2: ignoring bad VAR tag (missing \"name=\" attribute)"] ∧
    ((Source.text memoText).render {} memoLibrary.loader scope {} {}).out.contents =
      Text.encode "Dear 1,\n[1]" ∧
    ((Source.text (memoText ++ memoRest)).render {} memoLibrary.loader scope {} {}).out.contents =
      Text.encode "Dear 1,\n[1][1]!" := by
  intro scope
  have hends : TagSet.EndsClosed {} memoText := by
    have hruns : ∀ item ∈ Item.scan {} memoText, ∀ span ∈ item.text?,
        span.stop ≠ Text.size memoText.toList := by decide +kernel
    exact TagSet.endsClosed_of_scan (by decide) fun span hm => hruns _ hm span rfl
  have hquiet : (Template.ofText {} memoText).diagnostics = [] := by decide +kernel
  have hcompletes : (Rendering.ofText {} memoLibrary.loader memoText scope {} {}).Completes := by
    decide +kernel
  obtain ⟨hparse, hrender⟩ := @joined_texts {} rfl memoText hends memoRest
  have hdiagnostics := (hparse Template.literalName none 0 hquiet).2
  have hjoined := (hrender hquiet memoLibrary.loader scope {} {} rfl hcompletes).2 rfl
    (Loader.isSteady_steady _)
  have hfirst : ((Source.text memoText).render {} memoLibrary.loader scope {} {}).out.contents =
      Text.encode "Dear 1,\n[1]" := by decide +kernel
  have hrest : ((Source.text memoRest).render {} memoLibrary.loader scope {} {}).out.contents =
      Text.encode "[1]!" := by decide +kernel
  refine ⟨hends, hquiet, hcompletes, ?_, hfirst, ?_⟩
  · rw [Template.ofText, hdiagnostics]
    decide +kernel
  · rw [hjoined, hfirst, hrest]
    decide +kernel

end Stencil
