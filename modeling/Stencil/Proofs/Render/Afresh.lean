import Stencil.Proofs.Render.Abreast
import Stencil.Proofs.Render.Texts

/-! Keeping templates makes no difference.
A template that is kept at a position is the one that is read there again, for the position says
which inclusions lead to it and a steady loader gives each of them the same text. The main statement
says that a render that reads the template of an inclusion at every visit comes to the same. -/
namespace Stencil

namespace Render

def walkBy (find : Visit → String → Nat → Span → Walk (Option Visit)) :
    Nat → Visit → Context → Walk Flow
  | levels, v, c =>
    walkList (fun v c reference line span => do
      match ← find v reference line span with
      | none => pure .on
      | some nested =>
        match levels with
        | 0 => pure .on
        | levels + 1 => walkBy find levels nested c) v c v.template.root

/-- A template of nothing, which only marks that its position has been visited. -/
def visited : Template := ⟨"", none, "", [], 0, []⟩

/-- Reads the template of an inclusion at every visit. What is wrong with it is reported at the
first one. -/
def resolveAfresh (settings : Settings) (loader : Loader) (v : Visit) (reference : String)
    (line : Nat) (span : Span) : Walk (Option Visit) := do
  let depth := v.template.depth + 1
  let refuse (problem : Problem) : Walk (Option Visit) := do
    let _ ← halt (v.template.diagnostic problem line span)
    pure none
  if settings.includeLimit < depth then
    refuse (.tooDeep (settings.tags.keyword .embed) settings.includeLimit)
  else
    match ← load settings loader depth (v.target reference) with
    | .error problem => refuse problem
    | .ok t =>
      if ((← get).store.find? (v.inside span)).isNone then
        reportAll t.diagnostics
        fill (v.inside span) visited
      pure (some ⟨t.quiet, v.inside span⟩)

def innerBy (find : Visit → String → Nat → Span → Walk (Option Visit)) :
    Nat → Visit → Context → Walk Flow
  | 0, _, _ => pure .on
  | levels + 1, nested, c => walkBy find levels nested c

def enterBy (find : Visit → String → Nat → Span → Walk (Option Visit)) (levels : Nat) :
    Inclusion := fun v c reference line span => do
  match ← find v reference line span with
  | none => pure .on
  | some nested => innerBy find levels nested c

theorem walkBy_eq (find : Visit → String → Nat → Span → Walk (Option Visit)) (levels : Nat)
    (v : Visit) (c : Context) :
    walkBy find levels v c = walkList (enterBy find levels) v c v.template.root := by
  rw [walkBy]
  cases levels <;> rfl

theorem walkBy_resolve (settings : Settings) (loader : Loader) (levels : Nat) :
    walkBy (resolve settings loader) levels = walk settings loader levels := by
  induction levels with
  | zero =>
    funext v c
    rw [walkBy_eq, walk_eq]
    rfl
  | succ levels ih =>
    have henter : enterBy (resolve settings loader) (levels + 1) =
        enter settings loader (levels + 1) := by
      have hinner : innerBy (resolve settings loader) (levels + 1) =
          inner settings loader (levels + 1) := ih
      unfold enterBy enter
      exact hinner ▸ rfl
    funext v c
    rw [walkBy_eq, walk_eq, henter]

end Render

namespace Rendering

def runBy (x : Rendering) (find : Visit → String → Nat → Span → Walk (Option Visit))
    (levels : Nat) : Rendered :=
  let all : Walk Unit := do
    Render.reportAll x.held.template.diagnostics
    let _ ← Render.walkBy find levels x.visit ⟨x.scope, []⟩
  x.leaves (all x.progress)

theorem run_eq_runBy (x : Rendering) :
    x.run = x.runBy (Render.resolve x.settings x.loader) (x.held.levels x.settings) := by
  rw [x.run_eq_leaves, runBy, Render.walkBy_resolve]
  rfl

/-- The render that reads the template of an inclusion at every visit. A position at which something
is kept when it begins has been visited. -/
def afresh (x : Rendering) (levels : Nat) : Rendered :=
  x.runBy (Render.resolveAfresh x.settings x.loader) levels

end Rendering

namespace Node

def Holds (root : List Node) (reference : String) (line : Nat) (span : Span) : Prop :=
  ∃ loops list, Inside root loops list ∧ .embed reference line span ∈ list

variable {root : List Node}

mutual

theorem includes_node {loops : Nat} {list : List Node} (hi : Inside root loops list) (node : Node)
    (hm : node ∈ list) : node.Leaves (Render.Includes (Holds root)) loops := by
  match node with
  | .text span => exact fun _ _ _ => nofun
  | .value name default formatter => exact fun _ _ _ => nofun
  | .leave level => exact fun _ _ _ => nofun
  | .next level => exact fun _ _ _ => nofun
  | .cond test yes no =>
    exact ⟨includes_list (.yes hi hm) yes (List.Subset.refl _),
      includes_list (.no hi hm) no (List.Subset.refl _)⟩
  | .loop name body => exact includes_list (.body hi hm) body (List.Subset.refl _)
  | .embed reference line span =>
    rintro _ _ _ ⟨⟩
    exact ⟨loops, list, hi, hm⟩

theorem includes_list {loops : Nat} {list : List Node} (hi : Inside root loops list)
    (nodes : List Node) (hs : nodes ⊆ list) :
    AllLeaves (Render.Includes (Holds root)) loops nodes := by
  match nodes with
  | [] => trivial
  | node :: rest =>
    obtain ⟨hm, hrest⟩ := List.cons_subset.mp hs
    exact ⟨includes_node hi node hm, includes_list hi rest hrest⟩

end

theorem includes_root (root : List Node) : AllLeaves (Render.Includes (Holds root)) 0 root :=
  includes_list .root root (List.Subset.refl _)

end Node

section Leads

variable {settings : Settings} {loader : Loader} {root t u : Template} {position : Position}

/-- The templates that inclusions lead to, from `root` on, at the positions that say by which. -/
inductive Leads (settings : Settings) (loader : Loader) (root : Template) :
    Position → Template → Prop
  | root : Leads settings loader root [] root
  | nested {position : Position} {u t : Template} {loops : Nat} {list : List Node}
    {reference : String} {line : Nat} {span : Span} {moment : Moment} :
    Leads settings loader root position u → Node.Inside u.root loops list →
    .embed reference line span ∈ list → u.depth + 1 ≤ settings.includeLimit →
    Template.load settings loader moment (u.depth + 1) (Path.resolve reference u.path) = .ok t →
    Leads settings loader root (span.start :: position) t.quiet

theorem Leads.isRead (h : Leads settings loader root position t) (hroot : root.IsRead) :
    t.IsRead := by
  cases h with
  | root => exact hroot
  | nested _ _ _ _ hload =>
    obtain ⟨text, rfl⟩ := Template.eq_parse_of_load hload
    exact ⟨settings, _, rfl⟩

theorem Tag.includes_leaf {K : String → Nat → Span → Prop} {depth loops : Nat} {tag : Tag}
    {nodes : List Node} (h : tag.leaf settings depth loops = .ok nodes)
    (hK : ∀ reference, tag.name settings.tags = .ok reference → K reference tag.line tag.span) :
    Node.AllLeaves (Render.Includes K) loops nodes := by
  rcases Tag.leaf_cases h with ⟨_, _, _, -, rfl⟩ | ⟨name, rfl, -, hname⟩ | ⟨_, -, rfl | rfl⟩ | rfl
  · exact ⟨nofun, trivial⟩
  · refine ⟨?_, trivial⟩
    rintro _ _ _ ⟨⟩
    exact hK name hname
  · exact ⟨nofun, trivial⟩
  · exact ⟨nofun, trivial⟩
  · trivial

theorem Template.IsRead.eq_of_start (h : t.IsRead) {loops loops' : Nat} {list list' : List Node}
    {reference reference' : String} {line line' : Nat} {span span' : Span}
    (hi : Node.Inside t.root loops list) (hm : .embed reference line span ∈ list)
    (hi' : Node.Inside t.root loops' list') (hm' : .embed reference' line' span' ∈ list')
    (hs : span.start = span'.start) : reference = reference' := by
  obtain ⟨settings, depth, hroot⟩ := h
  have hscan := inOrder_scan settings.tags t.source
  have hall : Node.AllLeaves (Render.Includes fun reference _ span =>
      ∃ tag ∈ (Item.scan settings.tags t.source).filterMap Item.tag?,
        tag.name settings.tags = .ok reference ∧ span = tag.span) 0 t.root := by
    rw [hroot]
    apply Tree.allLeaves_ofItems
    intro item hitem
    cases item with
    | text span => exact fun _ _ _ _ => nofun
    | finding f => trivial
    | tag tag =>
      exact fun loops nodes hn => Tag.includes_leaf hn fun reference hname =>
        ⟨tag, List.mem_filterMap.mpr ⟨_, hitem, rfl⟩, hname, rfl⟩
  obtain ⟨tag, hmem, hname, rfl⟩ := Node.allLeaves_iff.mp (hi.allLeaves hall) _ hm _ _ _ rfl
  obtain ⟨tag', hmem', hname', rfl⟩ := Node.allLeaves_iff.mp (hi'.allLeaves hall) _ hm' _ _ _ rfl
  have htag : tag = tag' := hscan.eq_of_tag_start hmem hmem' hs
  rw [htag, hname'] at hname
  cases hname
  rfl

theorem Leads.unique (hl : loader.IsSteady) (hroot : root.IsRead)
    (h : Leads settings loader root position t) (h' : Leads settings loader root position u) :
    t = u := by
  induction h generalizing u with
  | root =>
    cases h'
    rfl
  | @nested position w t loops list reference line span moment hw hi hm _ hload ih =>
    generalize hpos : span.start :: position = whole at h'
    cases h' with
    | root => cases hpos
    | @nested position' w' t' loops' list' reference' line' span' moment' hw' hi' hm' _ hload' =>
      obtain ⟨hstart, rfl⟩ := List.cons.inj hpos
      obtain rfl := ih hw'
      obtain rfl := (hw.isRead hroot).eq_of_start hi hm hi' hm' hstart
      rw [Template.load_of_isSteady hl moment moment', hload'] at hload
      cases hload
      rfl

/-- What is kept for an inclusion is what any loading of its template reads. -/
theorem Leads.exists_read (hl : loader.IsSteady) (hroot : root.IsRead)
    (h : Leads settings loader root position u) {loops : Nat} {list : List Node}
    {reference : String} {line : Nat} {span : Span} (hi : Node.Inside u.root loops list)
    (hm : .embed reference line span ∈ list)
    (ht : Leads settings loader root (span.start :: position) t) :
    u.depth + 1 ≤ settings.includeLimit ∧ ∃ read : Template, t = read.quiet ∧ ∀ moment,
      Template.load settings loader moment (u.depth + 1) (Path.resolve reference u.path) =
        .ok read := by
  generalize hpos : span.start :: position = whole at ht
  cases ht with
  | root => cases hpos
  | @nested position' w read loops' list' reference' line' span' moment hw hi' hm' hdeep hload =>
    obtain ⟨hstart, rfl⟩ := List.cons.inj hpos
    obtain rfl := h.unique hl hroot hw
    obtain rfl := (h.isRead hroot).eq_of_start hi hm hi' hm' hstart
    refine ⟨hdeep, read, rfl, fun moment' => ?_⟩
    rw [← hload]
    exact Template.load_of_isSteady hl _ _ _ _

/-- One store keeps templates and the other one marks positions: the same positions are filled, and
the templates that are kept are those that their positions lead to. -/
structure Marks (settings : Settings) (loader : Loader) (root : Template) (s s' : Store) :
    Prop where
  same : ∀ position, (s'.find? position).isSome = (s.find? position).isSome
  leads : s.Holds fun t position => Leads settings loader root position t

theorem Marks.fill {s s' : Store} (h : Marks settings loader root s s')
    (ht : Leads settings loader root position t) (u : Template) :
    Marks settings loader root (s.fill position t) (s'.fill position u) := by
  refine ⟨fun other => ?_, h.leads.fill ht⟩
  rw [Store.find?_fill, Store.find?_fill]
  split
  · rfl
  · exact h.same other

end Leads

namespace Render

variable {settings : Settings} {loader : Loader} {root : Template} {v : Visit} {p q : Progress}

/-- A template that has been found for an inclusion is the one that its position leads to, and is
not too deep. -/
def Entered (settings : Settings) (loader : Loader) (root : Template) (v nested : Visit) : Prop :=
  Leads settings loader root nested.position nested.template ∧
    nested.template.depth = v.template.depth + 1 ∧ v.template.depth + 1 ≤ settings.includeLimit

/-- The inclusion finds the same in both renders, and what it finds is where its position leads. -/
def FindsAlike (settings : Settings) (loader : Loader) (root : Template) (v : Visit)
    (found found' : Option Visit) (p q : Progress) : Prop :=
  Same (Marks settings loader root) found found' p q ∧
    ∀ nested ∈ found, Entered settings loader root v nested

theorem abreast_refuse (d : Diagnostic) (h : p.Matches (Marks settings loader root) q) :
    Abreast (Marks settings loader root) (do let _ ← halt d; pure none : Walk (Option Visit))
      (do let _ ← halt d; pure none : Walk (Option Visit)) p q
      (FindsAlike settings loader root v) := by
  refine (abreast_halt d h).bind fun _ _ p' q' hd => ?_
  exact ⟨⟨rfl, hd.2⟩, by simp⟩

section Inclusion

variable {loops : Nat} {list : List Node} {reference : String} {line : Nat} {span : Span}

/-- The kept template is the one that is read again, and its position has been visited. -/
theorem abreast_resolve_of_kept (hl : loader.IsSteady) (hroot : root.IsRead)
    (hv : Leads settings loader root v.position v.template)
    (hi : Node.Inside v.template.root loops list) (hm : .embed reference line span ∈ list)
    (h : p.Matches (Marks settings loader root) q) {t : Template}
    (ht : p.store.find? (v.inside span) = some t) :
    Abreast (Marks settings loader root) (resolve settings loader v reference line span)
      (resolveAfresh settings loader v reference line span) p q
      (FindsAlike settings loader root v) := by
  have hleads : Leads settings loader root (v.inside span) t := h.store.leads _ _ ht
  obtain ⟨hdeep, read, rfl, hload⟩ := hv.exists_read hl hroot hi hm hleads
  have hdepth : read.depth = v.template.depth + 1 := Template.depth_of_load (hload {})
  obtain ⟨mark, hmark⟩ : ∃ mark, q.store.find? (v.inside span) = some mark :=
    Option.isSome_iff_exists.mp ((h.store.same _).trans (by rw [ht]; rfl))
  unfold resolve resolveAfresh
  rw [abreast_get_left]
  dsimp only
  rw [show p.store.find? (span.start :: v.position) = some read.quiet from ht]
  dsimp only
  rw [if_neg (by omega), abreast_load_right, Visit.target, hload]
  dsimp only
  rw [abreast_get_right, if_neg (by simp [hmark])]
  refine ⟨⟨rfl, h.out, h.err, h.reported, h.halted, h.store⟩, ?_⟩
  rintro _ ⟨⟩
  exact ⟨hleads, hdepth, hdeep⟩

/-- Where nothing is kept both renders read the template, and report what is wrong with it. -/
theorem abreast_resolve_of_empty (hl : loader.IsSteady)
    (hv : Leads settings loader root v.position v.template)
    (hi : Node.Inside v.template.root loops list) (hm : .embed reference line span ∈ list)
    (h : p.Matches (Marks settings loader root) q)
    (hnone : p.store.find? (v.inside span) = none) :
    Abreast (Marks settings loader root) (resolve settings loader v reference line span)
      (resolveAfresh settings loader v reference line span) p q
      (FindsAlike settings loader root v) := by
  have hmark : q.store.find? (v.inside span) = none :=
    Option.not_isSome_iff_eq_none.mp (by simp [h.store.same (v.inside span), hnone])
  have hasked : ({ p with loads := (v.target reference, v.template.depth + 1) :: p.loads } :
      Progress).Matches (Marks settings loader root)
      { q with loads := (v.target reference, v.template.depth + 1) :: q.loads } :=
    ⟨h.out, h.err, h.reported, h.halted, h.store⟩
  unfold resolve resolveAfresh
  rw [abreast_get_left]
  dsimp only
  rw [show p.store.find? (span.start :: v.position) = none from hnone]
  dsimp only
  split
  · exact abreast_refuse _ h
  · rename_i hdeep
    have hload : Template.load settings loader ⟨q.out.pieces, q.loads.length⟩
        (v.template.depth + 1) (v.target reference) =
        Template.load settings loader ⟨p.out.pieces, p.loads.length⟩ (v.template.depth + 1)
          (v.target reference) := Template.load_of_isSteady hl _ _ _ _
    rw [abreast_load_left, abreast_load_right, hload]
    unfold Visit.target
    cases hread : Template.load settings loader ⟨p.out.pieces, p.loads.length⟩
        (v.template.depth + 1) (Path.resolve reference v.template.path) with
    | error problem => exact abreast_refuse _ hasked
    | ok read =>
      have hdepth : read.depth = v.template.depth + 1 := Template.depth_of_load hread
      have hleads : Leads settings loader root (v.inside span) read.quiet :=
        .nested hv hi hm (by omega) hread
      dsimp only
      rw [abreast_get_right, if_pos (by simp [hmark])]
      refine (abreast_reportAll read.diagnostics hasked).bind fun _ _ p' q' hreported => ?_
      refine (abreast_fill hreported.2 (hreported.2.store.fill hleads visited)).bind
        fun _ _ p'' q'' hfilled => ?_
      refine ⟨⟨rfl, hfilled.2⟩, ?_⟩
      rintro _ ⟨⟩
      exact ⟨hleads, hdepth, by omega⟩

theorem abreast_resolve (hl : loader.IsSteady) (hroot : root.IsRead)
    (hv : Leads settings loader root v.position v.template)
    (hi : Node.Inside v.template.root loops list) (hm : .embed reference line span ∈ list)
    (h : p.Matches (Marks settings loader root) q) :
    Abreast (Marks settings loader root) (resolve settings loader v reference line span)
      (resolveAfresh settings loader v reference line span) p q
      (FindsAlike settings loader root v) := by
  cases hfind : p.store.find? (v.inside span) with
  | some t => exact abreast_resolve_of_kept hl hroot hv hi hm h hfind
  | none => exact abreast_resolve_of_empty hl hv hi hm h hfind

end Inclusion

theorem abreast_walk_of_inner (hl : loader.IsSteady) (hroot : root.IsRead) (c : Context)
    {n m : Nat} (hv : Leads settings loader root v.position v.template)
    (hinner : ∀ nested c p q, Entered settings loader root v nested →
      p.Matches (Marks settings loader root) q →
      Abreast (Marks settings loader root) (innerBy (resolve settings loader) n nested c)
        (innerBy (resolveAfresh settings loader) m nested c) p q
        (Same (Marks settings loader root)))
    (h : p.Matches (Marks settings loader root) q) :
    Abreast (Marks settings loader root) (walkBy (resolve settings loader) n v c)
      (walkBy (resolveAfresh settings loader) m v c) p q (Same (Marks settings loader root)) := by
  rw [walkBy_eq, walkBy_eq]
  refine abreast_walkList (K := Node.Holds v.template.root) ?_ c 0 _ (Node.includes_root _) h
  rintro c reference line span p q ⟨loops, list, hi, he⟩ h
  refine (abreast_resolve hl hroot hv hi he h).bind ?_
  rintro _ found p' q' ⟨⟨rfl, hs⟩, hnested⟩
  cases found with
  | none => exact ⟨rfl, hs⟩
  | some nested => exact hinner nested c p' q' (hnested nested rfl) hs

/-- The walk of a template, where either render has levels enough for every inclusion. -/
theorem abreast_walk (hl : loader.IsSteady) (hroot : root.IsRead) (c : Context) (n m : Nat)
    (hv : Leads settings loader root v.position v.template)
    (hn : settings.includeLimit ≤ v.template.depth + n)
    (hm : settings.includeLimit ≤ v.template.depth + m)
    (h : p.Matches (Marks settings loader root) q) :
    Abreast (Marks settings loader root) (walkBy (resolve settings loader) n v c)
      (walkBy (resolveAfresh settings loader) m v c) p q (Same (Marks settings loader root)) := by
  induction n generalizing m v c p q with
  | zero =>
    refine abreast_walk_of_inner hl hroot c hv ?_ h
    rintro nested c p q ⟨_, _, hdeep⟩ _
    omega
  | succ n ih =>
    refine abreast_walk_of_inner hl hroot c hv ?_ h
    rintro nested c p q ⟨hleads, hdepth, hdeep⟩ hs
    cases m with
    | zero => omega
    | succ m => exact ih c m hleads (by omega) (by omega) hs

end Render

namespace Rendering

theorem leaves_of_abreast (x : Rendering) {S : Store → Store → Prop} {m m' : Walk Unit}
    {p q : Progress} (h : Render.Abreast S m m' p q (Render.Same S)) :
    ((x.leaves (m p)).result = (x.leaves (m' q)).result ∧
      (x.leaves (m p)).out = (x.leaves (m' q)).out ∧
      (x.leaves (m p)).err = (x.leaves (m' q)).err) ∧
      S (x.leaves (m p)).held.store (x.leaves (m' q)).held.store := by
  rcases h.ok_or_error with ⟨_, p', _, q', hm, hm', -, hs⟩ | ⟨e, p', q', hm, hm', hs⟩
  · rw [hm, hm']
    simp only [leaves, hs.reported, hs.out, hs.err, and_self, true_and]
    exact hs.store
  · rw [hm, hm']
    simp only [leaves, hs.out, hs.err, and_self, true_and]
    exact hs.store

/-- The render and the one that reads templates afresh, where all that is kept is what inclusions
lead to. -/
theorem run_of_leads (x : Rendering) (hx : x.held.Arises) (hl : x.loader.IsSteady)
    (hkept : x.held.store.Holds fun t position =>
      Leads x.settings x.loader x.held.template.quiet position t)
    (levels : Nat) (hlevels : x.settings.includeLimit ≤ x.held.template.depth + levels) :
    (x.run.result = (x.afresh levels).result ∧ x.run.out = (x.afresh levels).out ∧
      x.run.err = (x.afresh levels).err) ∧
      Marks x.settings x.loader x.held.template.quiet x.run.held.store
        (x.afresh levels).held.store := by
  have hroot : x.held.template.quiet.IsRead := (Template.isRead_of_arises hx).1
  have hbegin : x.progress.Matches
      (Marks x.settings x.loader x.held.template.quiet) x.progress :=
    ⟨rfl, rfl, rfl, rfl, fun _ => rfl, hkept⟩
  have henough : x.settings.includeLimit ≤ x.held.template.depth + x.held.levels x.settings := by
    have := Nat.le_max_left (x.settings.includeLimit - x.held.template.depth) x.held.store.reach
    unfold Held.levels
    omega
  rw [x.run_eq_runBy]
  refine x.leaves_of_abreast (S := Marks x.settings x.loader x.held.template.quiet) ?_
  refine (Render.abreast_reportAll _ hbegin).bind fun _ _ p q hreported => ?_
  have hwalk := Render.abreast_walk (v := x.visit) hl hroot ⟨x.scope, []⟩
    (x.held.levels x.settings) levels .root henough hlevels hreported.2
  exact hwalk.bind fun _ _ _ _ hs => ⟨rfl, hs.2⟩

end Rendering

namespace Held

/-- The templates that are held where every render has been in these settings and with this loader.
The template itself may have been read in others. -/
inductive ArisesBy : Settings → Loader → Held → Prop
  | read {settings : Settings} {loader : Loader} (others : Settings) (name : String)
    (path : Option String) (source : String) (depth : Nat) :
    ArisesBy settings loader { template := Template.parse others name path source depth }
  | taken {settings : Settings} {loader : Loader} {h : Held} :
    ArisesBy settings loader h → ArisesBy settings loader h.taken
  | rendered {x : Rendering} :
    ArisesBy x.settings x.loader x.held → ArisesBy x.settings x.loader x.run.held

variable {settings : Settings} {loader : Loader} {h : Held}

theorem ArisesBy.arises (hh : h.ArisesBy settings loader) : h.Arises := by
  induction hh with
  | read others name path source depth => exact .read others name path source depth
  | taken _ ih => exact ih.taken
  | rendered _ ih => exact ih.rendered

theorem ArisesBy.leads (hh : h.ArisesBy settings loader) (hl : loader.IsSteady) :
    h.store.Holds fun t position => Leads settings loader h.template.quiet position t := by
  induction hh with
  | read others name path source depth =>
    intro position t ht
    cases ht
  | taken _ ih => exact ih hl
  | @rendered x hx ih =>
    have hmarks := (x.run_of_leads hx.arises hl (ih hl) _ (Nat.le_add_left ..)).2
    have hroot : x.run.held.template.quiet = x.held.template.quiet := by
      rw [x.run_eq_leaves, Rendering.held_leaves]
      rfl
    rw [hroot]
    exact hmarks.leads

end Held

/-- Keeping templates makes no difference. For a loader that always answers a path in the same way,
a render that keeps the template of each inclusion from its first visit on comes to the same result,
with the same diagnostics, and writes the same to both sinks as one that reads the template again at
every visit and reports what is wrong with it at the first visit of its position. An earlier render
with that loader may have come to the position first. -/
theorem keeping_is_transparent (x : Rendering) (hx : x.held.ArisesBy x.settings x.loader)
    (hl : x.loader.IsSteady) (levels : Nat)
    (hlevels : x.settings.includeLimit ≤ x.held.template.depth + levels) :
    x.run.result = (x.afresh levels).result ∧ x.run.out = (x.afresh levels).out ∧
      x.run.err = (x.afresh levels).err :=
  (x.run_of_leads hx.arises hl (hx.leads hl) levels hlevels).1

/-- Two rows that include a template in which something is wrong. -/
def repeatedRender : Rendering where
  settings := {}
  loader := Library.loader ⟨[("row", "\x7b\x7bVAR n\x7d\x7d\x7b\x7bVAR \x7d\x7d;")]⟩
  held :=
    { template := Template.ofText {}
        "\x7b\x7bLOOP a\x7d\x7d\x7b\x7bINCLUDE row\x7d\x7d\x7b\x7bENDLOOP\x7d\x7d" }
  scope := Scope.empty.withLoop "a"
    [Scope.empty.withValue "n" "1", Scope.empty.withValue "n" "2"]

theorem keeping_is_transparent_repeated :
    repeatedRender.run.result = (repeatedRender.afresh 30).result ∧
      repeatedRender.run.out = (repeatedRender.afresh 30).out ∧
      repeatedRender.run.err = (repeatedRender.afresh 30).err ∧
      (repeatedRender.afresh 30).out.contents = Text.encode "1;2;" ∧
      repeatedRender.run.loads.length = 1 ∧ (repeatedRender.afresh 30).loads.length = 2 := by
  have h := keeping_is_transparent repeatedRender (.read ..) (Loader.isSteady_steady _) 30
    (by decide)
  exact ⟨h.1, h.2.1, h.2.2, by decide +kernel, by decide +kernel, by decide +kernel⟩

end Stencil
