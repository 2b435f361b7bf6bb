import Stencil.Proofs.Tag.Leaf
import Stencil.Proofs.Tree.Leaves
import Stencil.Proofs.Render.Meets

/-! Where jumps end.
A jump in the tree of a template never leaves more loops than enclose it in that same tree. So the
walk of a template never ends in a jump, an inclusion is always followed by what comes after it,
and a jump that a loop hands on still has a loop to leave. -/
namespace Stencil

/-- The level of a jump is between one and the number of loops around it, and a value is written by
one of the formatters if by any. -/
def Node.Sound (formatters : List Formatter) (loops : Nat) : Node → Prop
  | .leave level | .next level => 1 ≤ level ∧ level ≤ loops
  | .value _ _ (some f) => f ∈ formatters
  | _ => True

def Flow.Within (loops : Nat) : Flow → Prop
  | .on => True
  | .leave level | .next level => 1 ≤ level ∧ level ≤ loops

@[simp] theorem Flow.within_zero {flow : Flow} : flow.Within 0 ↔ flow = .on := by
  cases flow <;> simp [Within] <;> omega

/-- Templates that are read from a text, with formatters among these. -/
def Template.Parsed (formatters : List Formatter) (t : Template) : Prop :=
  ∃ settings name path source depth, settings.formats.formatters ⊆ formatters ∧
    t.root = (Template.parse settings name path source depth).root

def Store.Parsed (formatters : List Formatter) (s : Store) : Prop :=
  ∀ e ∈ s.entries, e.2.Parsed formatters

/-- Why a walk may stop: a sink is full, or one of the formatters fails. -/
def WriteError.Caused (formatters : List Formatter) (p : Progress) : WriteError → Prop
  | .full => p.out.room = some 0 ∨ p.err.room = some 0
  | .formatter reason => ∃ f ∈ formatters, ∃ value, (f.format value).failure = some reason

section Reading

variable {formatters : List Formatter} {settings : Settings} {depth : Nat}

theorem Tag.mem_of_formatter {tag : Tag} {f : Formatter}
    (h : tag.formatter settings = .ok (some f)) : f ∈ settings.formats.formatters := by
  unfold Tag.formatter at h
  split at h
  · simp at h
  · split at h
    · rename_i g hg
      cases h
      exact List.mem_of_find?_eq_some hg
    · simp at h

theorem Tag.sound_leaf (hf : settings.formats.formatters ⊆ formatters) {loops : Nat} {tag : Tag}
    {nodes : List Node} (h : tag.leaf settings depth loops = .ok nodes) :
    Node.AllLeaves (Node.Sound formatters) loops nodes := by
  rcases Tag.leaf_cases h with ⟨name, default, formatter, hformatter, rfl⟩ | ⟨name, rfl, -⟩ |
    ⟨level, hl, rfl | rfl⟩ | rfl
  · cases formatter with
    | none => exact ⟨trivial, trivial⟩
    | some f => exact ⟨hf (Tag.mem_of_formatter hformatter), trivial⟩
  · exact ⟨trivial, trivial⟩
  · exact ⟨hl, trivial⟩
  · exact ⟨hl, trivial⟩
  · trivial

theorem Template.Parsed.sound {t : Template} (h : t.Parsed formatters) :
    Node.AllLeaves (Node.Sound formatters) 0 t.root := by
  obtain ⟨settings, name, path, source, depth, hf, hr⟩ := h
  rw [hr]
  apply Tree.allLeaves_ofItems
  intro item _
  cases item with
  | text span => exact fun _ => trivial
  | tag tag => exact fun _ _ h => Tag.sound_leaf hf h
  | finding f => trivial

theorem Template.parsed_load {loader : Loader} {moment : Moment} {path : String} {t : Template}
    (hf : settings.formats.formatters ⊆ formatters)
    (h : Template.load settings loader moment depth path = .ok t) : t.Parsed formatters := by
  unfold Template.load at h
  split at h
  · cases h
    exact ⟨settings, path, some path, _, depth, hf, rfl⟩
  · simp at h

theorem Store.parsed_fill {s : Store} {position : Position} {t : Template}
    (hs : s.Parsed formatters) (ht : t.Parsed formatters) :
    (s.fill position t).Parsed formatters := by
  unfold Store.fill
  split
  · exact hs
  · intro e he
    rcases List.mem_cons.mp he with rfl | he
    · exact ht
    · exact hs e he

theorem Store.Parsed.find? {s : Store} {position : Position} {t : Template}
    (hs : s.Parsed formatters) (h : s.find? position = some t) : t.Parsed formatters :=
  hs _ (Assoc.mem_of_get? h)

end Reading

namespace Render

variable {formatters : List Formatter} {settings : Settings} {loader : Loader}

abbrev Stops (formatters : List Formatter) (e : WriteError) (p : Progress) : Prop :=
  p.store.Parsed formatters ∧ e.Caused formatters p

abbrev Ends (formatters : List Formatter) (loops : Nat) (flow : Flow) (p : Progress) : Prop :=
  flow.Within loops ∧ p.store.Parsed formatters

theorem meets_emit_of_caused {p : Progress} {e : Emission} {ok : Unit → Progress → Prop}
    (hp : p.store.Parsed formatters)
    (he : ∀ reason, e.failure = some reason → WriteError.Caused formatters p (.formatter reason))
    (ho : ∀ p' : Progress, p'.store.Parsed formatters → ok () p') :
    Meets (emit e) p ok (Stops formatters) := by
  rw [meets_emit]
  unfold Emission.writeTo
  cases hw : p.out.writeAll e.pieces with
  | mk out taken =>
    cases taken with
    | false => exact ⟨hp, .inl (Sink.room_of_writeAll hw)⟩
    | true =>
      cases hf : e.failure with
      | none => exact ho _ hp
      | some reason => exact ⟨hp, he reason hf⟩

theorem meets_report_of_parsed {p : Progress} {d : Diagnostic} {ok : Unit → Progress → Prop}
    (hp : p.store.Parsed formatters)
    (ho : ∀ p' : Progress, p'.store.Parsed formatters → ok () p') :
    Meets (report d) p ok (Stops formatters) := by
  rw [meets_report]
  cases hw : p.err.write (Text.encode (d.text ++ "\n")) with
  | mk err taken =>
    cases taken with
    | false => exact ⟨hp, .inr (Sink.room_of_write hw)⟩
    | true => exact ho _ hp

theorem meets_reportAll {ds : List Diagnostic} {p : Progress} {ok : Unit → Progress → Prop}
    (hp : p.store.Parsed formatters)
    (ho : ∀ p' : Progress, p'.store.Parsed formatters → ok () p') :
    Meets (reportAll ds) p ok (Stops formatters) := by
  induction ds generalizing p with
  | nil => exact ho p hp
  | cons d r ih =>
    rw [reportAll, meets_bind]
    exact meets_report_of_parsed hp fun p' hp' => ih hp'

theorem meets_resolve (hf : settings.formats.formatters ⊆ formatters) {v : Visit}
    {reference : String} {line : Nat} {span : Span} {p : Progress}
    (hp : p.store.Parsed formatters) :
    Meets (resolve settings loader v reference line span) p
      (fun found p' => p'.store.Parsed formatters ∧
        ∀ nested ∈ found, nested.template.Parsed formatters)
      (Stops formatters) := by
  unfold resolve
  rw [meets_bind, meets_get]
  cases hs : p.store.find? (span.start :: v.position) with
  | some t =>
    refine ⟨hp, ?_⟩
    rintro _ ⟨⟩
    exact hp.find? hs
  | none =>
    have hrefuse : ∀ (d : Diagnostic) (q : Progress), q.store.Parsed formatters →
        Meets (do let _ ← halt d; pure none : Walk (Option Visit)) q
          (fun found p' => p'.store.Parsed formatters ∧
            ∀ nested ∈ found, nested.template.Parsed formatters)
          (Stops formatters) := by
      intro d q hq
      rw [meets_bind, halt, meets_bind]
      exact meets_report_of_parsed hq fun p' hp' => ⟨hp', by simp⟩
    simp only
    split
    · exact hrefuse _ _ hp
    · rw [meets_bind, meets_load]
      split
      · exact hrefuse _ _ hp
      · rename_i t ht
        have hparsed := Template.parsed_load hf ht
        rw [meets_bind]
        refine meets_reportAll hp fun p' hp' => ?_
        rw [meets_bind, meets_fill]
        refine ⟨Store.parsed_fill hp' hparsed, ?_⟩
        rintro _ ⟨⟩
        exact hparsed

/-- A loop takes in the jumps to it and hands on those further out. -/
theorem meets_overRows {step : Context → Walk Flow} {inner : Context} {loops : Nat}
    {rows : List Scope}
    (hstep : ∀ c p, p.store.Parsed formatters →
      Meets (step c) p (Ends formatters (loops + 1)) (Stops formatters))
    {p : Progress} (hp : p.store.Parsed formatters) :
    Meets (overRows step inner rows) p (Ends formatters loops) (Stops formatters) := by
  induction rows generalizing p with
  | nil => exact ⟨trivial, hp⟩
  | cons row rows ih =>
    rw [overRows, meets_bind]
    refine (hstep _ p hp).mono ?_ fun _ _ h => h
    rintro flow p' ⟨hw, hp'⟩
    have hon : Meets
        (do if (← get).halted then pure .on else overRows step inner rows : Walk Flow) p'
        (Ends formatters loops) (Stops formatters) := by
      rw [meets_bind, meets_get]
      split
      · exact ⟨trivial, hp'⟩
      · exact ih hp'
    split
    · exact hon
    · exact hon
    · exact ⟨trivial, hp'⟩
    · rename_i level hne
      obtain ⟨h1, h2⟩ := hw
      have : level ≠ 1 := fun h => hne (by rw [h])
      exact ⟨⟨by omega, by omega⟩, hp'⟩
    · rename_i level hne
      obtain ⟨h1, h2⟩ := hw
      have : level ≠ 1 := fun h => hne (by rw [h])
      exact ⟨⟨by omega, by omega⟩, hp'⟩

section Lists

variable {enter : Inclusion} {v : Visit}

mutual

theorem meets_walkNode
    (henter : ∀ c reference line span p, p.store.Parsed formatters →
      Meets (enter v c reference line span) p (Ends formatters 0) (Stops formatters))
    (c : Context) (loops : Nat) (node : Node) (hn : node.Leaves (Node.Sound formatters) loops)
    {p : Progress} (hp : p.store.Parsed formatters) :
    Meets (walkNode enter v c node) p (Ends formatters loops) (Stops formatters) := by
  match node with
  | .text span =>
    rw [walkNode, meets_bind]
    refine meets_emit_of_caused hp ?_ fun p' hp' => ⟨trivial, hp'⟩
    rintro _ ⟨⟩
  | .value name default formatter =>
    rw [walkNode]
    split
    · rename_i value _
      rw [meets_bind]
      refine meets_emit_of_caused hp ?_ fun p' hp' => ⟨trivial, hp'⟩
      intro reason hr
      cases formatter with
      | none => simp [emission, Emission.ofText] at hr
      | some f => exact ⟨f, hn, value, hr⟩
    · exact ⟨trivial, hp⟩
  | .cond test yes no =>
    rw [walkNode]
    split
    · exact meets_walkList henter c loops yes hn.1 hp
    · exact meets_walkList henter c loops no hn.2 hp
  | .loop name body =>
    rw [walkNode]
    split
    · exact meets_overRows (fun c p hp => meets_walkList henter c (loops + 1) body hn hp) hp
    · exact ⟨trivial, hp⟩
  | .leave level =>
    rw [walkNode]
    exact ⟨hn, hp⟩
  | .next level =>
    rw [walkNode]
    exact ⟨hn, hp⟩
  | .embed reference line span =>
    rw [walkNode]
    refine (henter c reference line span p hp).mono ?_ fun _ _ h => h
    rintro flow p' ⟨hw, hp'⟩
    rw [Flow.within_zero.mp hw]
    exact ⟨trivial, hp'⟩

theorem meets_walkList
    (henter : ∀ c reference line span p, p.store.Parsed formatters →
      Meets (enter v c reference line span) p (Ends formatters 0) (Stops formatters))
    (c : Context) (loops : Nat) (nodes : List Node)
    (hn : Node.AllLeaves (Node.Sound formatters) loops nodes)
    {p : Progress} (hp : p.store.Parsed formatters) :
    Meets (walkList enter v c nodes) p (Ends formatters loops) (Stops formatters) := by
  match nodes with
  | [] =>
    rw [walkList]
    exact ⟨trivial, hp⟩
  | node :: rest =>
    rw [walkList, meets_bind, meets_get]
    split
    · exact ⟨trivial, hp⟩
    · rw [meets_bind]
      refine (meets_walkNode henter c loops node hn.1 hp).mono ?_ fun _ _ h => h
      rintro flow p' ⟨hw, hp'⟩
      split
      · exact meets_walkList henter c loops rest hn.2 hp'
      · exact ⟨hw, hp'⟩

end

end Lists

theorem meets_enter_of_inner (hf : settings.formats.formatters ⊆ formatters) (loader : Loader)
    (levels : Nat)
    (hw : ∀ nested c p, nested.template.Parsed formatters → p.store.Parsed formatters →
      Meets (inner settings loader levels nested c) p (Ends formatters 0) (Stops formatters))
    (v : Visit) (c : Context) (reference : String) (line : Nat) (span : Span) (p : Progress)
    (hp : p.store.Parsed formatters) :
    Meets (enter settings loader levels v c reference line span) p (Ends formatters 0)
      (Stops formatters) := by
  rw [enter, meets_bind]
  refine (meets_resolve hf hp).mono ?_ fun _ _ h => h
  rintro found p' ⟨hp', hn⟩
  cases found with
  | none => exact ⟨trivial, hp'⟩
  | some nested => exact hw nested c p' (hn nested rfl) hp'

theorem meets_inner (hf : settings.formats.formatters ⊆ formatters) (loader : Loader)
    (levels : Nat) (nested : Visit) (c : Context) (p : Progress)
    (hn : nested.template.Parsed formatters) (hp : p.store.Parsed formatters) :
    Meets (inner settings loader levels nested c) p (Ends formatters 0) (Stops formatters) := by
  induction levels generalizing nested c p with
  | zero => exact ⟨trivial, hp⟩
  | succ levels ih =>
    rw [inner, walk_eq]
    exact meets_walkList (meets_enter_of_inner hf loader levels ih nested) c 0 _ hn.sound hp

theorem meets_enter (hf : settings.formats.formatters ⊆ formatters) (loader : Loader)
    (levels : Nat) (v : Visit) (c : Context) (reference : String) (line : Nat) (span : Span)
    (p : Progress) (hp : p.store.Parsed formatters) :
    Meets (enter settings loader levels v c reference line span) p (Ends formatters 0)
      (Stops formatters) :=
  meets_enter_of_inner hf loader levels (meets_inner hf loader levels) v c reference line span p hp

theorem meets_walkList_inside (hf : settings.formats.formatters ⊆ formatters) (loader : Loader)
    (levels : Nat) {v : Visit} (hv : v.template.Parsed formatters) (c : Context) {loops : Nat}
    {list : List Node} (hl : Node.Inside v.template.root loops list) {p : Progress}
    (hp : p.store.Parsed formatters) :
    Meets (walkList (enter settings loader levels) v c list) p (Ends formatters loops)
      (Stops formatters) :=
  meets_walkList (meets_enter hf loader levels v) c loops list (hl.allLeaves hv.sound) hp

theorem walkList_embed (hf : settings.formats.formatters ⊆ formatters) (loader : Loader)
    (levels : Nat) (v : Visit) (c : Context) (reference : String) (line : Nat) (span : Span)
    (rest : List Node) {p : Progress} (hp : p.store.Parsed formatters) (hh : p.halted = false) :
    walkList (enter settings loader levels) v c (.embed reference line span :: rest) p =
      (do
        let _ ← enter settings loader levels v c reference line span
        walkList (enter settings loader levels) v c rest) p := by
  have h := meets_enter hf loader levels v c reference line span p hp
  unfold Meets at h
  rw [walkList_cons _ _ _ _ _ hh, walkNode]
  simp only [bind, EStateM.bind]
  cases he : enter settings loader levels v c reference line span p with
  | error e p' => rfl
  | ok flow p' =>
    rw [he] at h
    rw [Flow.within_zero.mp h.1]

theorem parsed_render (hf : settings.formats.formatters ⊆ formatters) (loader : Loader)
    {h : Held} (ht : h.template.Parsed formatters) (hs : h.store.Parsed formatters)
    (scope : Scope) (out err : Sink) :
    (h.render settings loader scope out err).held.template.Parsed formatters ∧
      (h.render settings loader scope out err).held.store.Parsed formatters := by
  have hstart : Meets (h.start settings loader scope) { out, err, store := h.store }
      (fun _ p' => p'.store.Parsed formatters) (Stops formatters) := by
    rw [Held.start, meets_bind]
    refine meets_reportAll hs fun p hp => ?_
    rw [meets_bind, walk_eq]
    have hin : Node.Inside h.taken.template.root 0 h.taken.template.root := .root
    have ht' : h.taken.template.Parsed formatters := ht
    refine (meets_walkList_inside hf loader _ ht' _ hin hp).mono ?_ fun _ _ h => h
    rintro flow p' ⟨_, hp'⟩
    exact hp'
  unfold Meets at hstart
  unfold Held.render Held.renderAfter
  split
  · rename_i p' he
    rw [he] at hstart
    exact ⟨ht, hstart⟩
  · rename_i e p' he
    rw [he] at hstart
    exact ⟨ht, hstart.1⟩

end Render

/-- Jumps stay inside their template. In a tree that is read from a text the level of a jump is
between one and the number of loops that enclose it. So a walk never ends in a jump: it ends, or it
stops since a sink is full or a formatter fails. A jump that reaches a loop ends there or is handed
on with a level of at least one, and what comes after an inclusion comes whatever the included
template does. All templates that a render includes are read from texts in turn. -/
theorem jumps_stay_inside (settings : Settings) (loader : Loader) (formatters : List Formatter)
    (hf : settings.formats.formatters ⊆ formatters) (v : Visit)
    (hv : v.template.Parsed formatters) (p : Progress) (hp : p.store.Parsed formatters)
    (levels : Nat) (c : Context) :
    (∀ loops list level, Node.Inside v.template.root loops list →
      .leave level ∈ list ∨ .next level ∈ list → 1 ≤ level ∧ level ≤ loops) ∧
    (match Render.walk settings loader levels v c p with
      | .ok flow p' => flow = .on ∧ p'.store.Parsed formatters
      | .error e p' => e.Caused formatters p' ∧ p'.store.Parsed formatters) ∧
    (∀ loops list name body level p', Node.Inside v.template.root loops list →
      .loop name body ∈ list →
      (Render.walkList (Render.enter settings loader levels) v c body p = .ok (.leave level) p' ∨
        Render.walkList (Render.enter settings loader levels) v c body p = .ok (.next level) p') →
      level = 1 ∨ 1 ≤ level - 1 ∧ level - 1 ≤ loops) ∧
    (∀ reference line span rest, p.halted = false →
      Render.walkList (Render.enter settings loader levels) v c
          (.embed reference line span :: rest) p =
        (do
          let _ ← Render.enter settings loader levels v c reference line span
          Render.walkList (Render.enter settings loader levels) v c rest) p) ∧
    ∀ scope out err,
      (Held.render settings loader ⟨v.template, p.store⟩ scope out err).held.store.Parsed
        formatters := by
  refine ⟨?_, ?_, ?_, ?_, ?_⟩
  · intro loops list level hl hm
    have hall := Node.allLeaves_iff.mp (hl.allLeaves hv.sound)
    rcases hm with hm | hm
    · exact hall _ hm
    · exact hall _ hm
  · have h := Render.meets_walkList_inside hf loader levels hv c .root hp
    rw [← Render.walk_eq] at h
    unfold Render.Meets at h
    split
    · rename_i flow p' he
      rw [he] at h
      exact ⟨Flow.within_zero.mp h.1, h.2⟩
    · rename_i e p' he
      rw [he] at h
      exact ⟨h.2, h.1⟩
  · intro loops list name body level p' hl hm hw
    have h := Render.meets_walkList_inside hf loader levels hv c (hl.body hm) hp
    unfold Render.Meets at h
    rcases hw with hw | hw
    · rw [hw] at h
      obtain ⟨⟨h1, h2⟩, _⟩ := h
      omega
    · rw [hw] at h
      obtain ⟨⟨h1, h2⟩, _⟩ := h
      omega
  · intro reference line span rest hh
    exact Render.walkList_embed hf loader levels v c reference line span rest hp hh
  · intro scope out err
    exact (Render.parsed_render hf loader hv hp scope out err).2

/-- A loop whose body includes a template that tries to leave it. -/
theorem jumps_stay_inside_rows : ∃ (t : Template) (loader : Loader) (c : Context) (p : Progress),
    t = Template.ofText {}
      "\x7b\x7bLOOP rows\x7d\x7d\x7b\x7bINCLUDE a\x7d\x7d\x7b\x7bENDLOOP\x7d\x7d" ∧
    loader = Library.loader ⟨[("a", "\x7b\x7bBREAK\x7d\x7d")]⟩ ∧
    c = ⟨Scope.empty.withLoop "rows" [.empty, .empty], []⟩ ∧
    t.Parsed FormatRegistry.standard.formatters ∧
    p.store.Parsed FormatRegistry.standard.formatters ∧
    (match Render.walk {} loader 1 ⟨t, []⟩ c p with
      | .ok flow p' => flow = .on ∧ p'.store.Parsed FormatRegistry.standard.formatters
      | .error e p' => e.Caused FormatRegistry.standard.formatters p' ∧
        p'.store.Parsed FormatRegistry.standard.formatters) := by
  have hf : FormatRegistry.standard.formatters ⊆ FormatRegistry.standard.formatters :=
    List.Subset.refl _
  have hv : (Template.ofText {}
      "\x7b\x7bLOOP rows\x7d\x7d\x7b\x7bINCLUDE a\x7d\x7d\x7b\x7bENDLOOP\x7d\x7d").Parsed
      FormatRegistry.standard.formatters := ⟨{}, _, _, _, _, hf, rfl⟩
  have hp : Store.Parsed FormatRegistry.standard.formatters {} := by simp [Store.Parsed]
  exact ⟨_, _, _, { out := {}, err := {}, store := {} }, rfl, rfl, rfl, hv, hp,
    (jumps_stay_inside {} _ _ hf ⟨_, []⟩ hv { out := {}, err := {}, store := {} } hp 1 _).2.1⟩

end Stencil
