import Stencil.Proofs.Render.Depth
import Stencil.Proofs.Tree.LeftOut

/-! Where the texts of a source get to.
A text of the source is in the tree once, in its order, unless something faulty is open around it.
The main statement adds that a render reads each text from the source that it was found in, however
deep the template is included, so that what stands at a span is never missing. -/
namespace Stencil

namespace Template

/-- The tree of the template is what its source is read as, in some settings. -/
def IsRead (t : Template) : Prop :=
  ∃ settings depth, t.root = (Tree.ofItems settings depth (Item.scan settings.tags t.source)).1

variable {t : Template}

theorem IsRead.isPart (h : t.IsRead) {loops : Nat} {list : List Node} {span : Span}
    (hi : Node.Inside t.root loops list) (hm : .text span ∈ list) :
    span.IsPart t.source.toList := by
  obtain ⟨settings, depth, hroot⟩ := h
  have hscan := inOrder_scan settings.tags t.source
  have hall : Node.AllLeaves (fun _ node => ∀ span, node = .text span →
      span.IsPart t.source.toList) 0 t.root := by
    rw [hroot]
    apply Tree.allLeaves_ofItems
    intro item hitem
    cases item with
    | text span =>
      rintro loops other ⟨⟩
      exact (hscan.texts_isPart (List.mem_filterMap.mpr ⟨_, hitem, rfl⟩)).2
    | finding f => trivial
    | tag tag =>
      intro loops nodes hn
      rcases Tag.leaf_cases hn with ⟨_, _, _, -, rfl⟩ | ⟨_, rfl, -⟩ | ⟨_, -, rfl | rfl⟩ | rfl
      · exact ⟨nofun, trivial⟩
      · exact ⟨nofun, trivial⟩
      · exact ⟨nofun, trivial⟩
      · exact ⟨nofun, trivial⟩
      · trivial
  exact Node.allLeaves_iff.mp (hi.allLeaves hall) _ hm span rfl

theorem isRead_parse (settings : Settings) (name : String) (path : Option String)
    (source : String) (depth : Nat) : (parse settings name path source depth).IsRead :=
  ⟨settings, depth, rfl⟩

theorem inherited_isRead (settings : Settings) (loader : Loader) :
    Render.Inherited settings loader fun t _ => t.IsRead := by
  intro v span moment path t _ _ hload
  obtain ⟨text, rfl⟩ := eq_parse_of_load hload
  exact isRead_parse settings path (some path) text _

theorem isRead_of_arises {h : Held} (hh : h.Arises) :
    h.template.quiet.IsRead ∧ h.store.Holds fun t _ => t.IsRead :=
  hh.holds (R := fun t _ => t.IsRead) isRead_parse inherited_isRead

end Template

namespace Rendering

variable {x : Rendering} {s : Stage}

theorem Reaches.isRead (h : x.Reaches s) (hx : x.held.Arises) :
    s.Holds fun t _ => t.IsRead := by
  obtain ⟨hv, hs⟩ := Template.isRead_of_arises hx
  exact h.holds hs hv (Template.inherited_isRead x.settings x.loader)

theorem Reaches.inside (h : x.Reaches s) : ∀ task ∈ s.agenda, task.Inside := by
  refine h.keeps (P := fun s => ∀ task ∈ s.agenda, task.Inside) ?_ ?_
  · rintro first ⟨-, ha⟩
    rw [ha]
    rintro task hm
    cases List.mem_singleton.mp hm
    exact ⟨0, _, .root, List.suffix_rfl⟩
  · intro a b ha hs
    exact hs.forall_agenda ha fun _ _ ht hb => Stage.inside_of_begets ht hb

end Rendering

/-- No text is lost, doubled or moved. The texts of a tree are texts of its source, one behind the
other, and each is there once, unless a construct whose opening tag is faulty or an arm whose ELSIF
is faulty is open around it: then it is not there. Whatever text a render comes to, in whichever
template, is a part of the source of that template. -/
theorem texts_are_kept :
    (∀ settings name path source depth,
      let items := Item.scan settings.tags source
      let root := (Template.parse settings name path source depth).root
      (Node.textsOf root).Sublist (items.filterMap Item.text?) ∧
      (Node.textsOf root).Pairwise (fun span later => span.stop ≤ later.start) ∧
      (∀ span ∈ items.filterMap Item.text?, span.IsPart source.toList ∧ span.start < span.stop) ∧
      ∀ before span after, items = before ++ .text span :: after →
        let around := (OpenTree.opened settings depth before).frames
        (Node.textsOf root).count span = (if Frame.discards around then 0 else 1) ∧
        ∀ f ∈ around, f.construct.Judged settings.tags before ∧
          (f.construct.isFaulty = true ↔
            Construct.rejects settings.tags f.construct.opener)) ∧
    ∀ x : Rendering, x.held.Arises → ∀ s, x.Reaches s → ∀ v c span left,
      .nodes v c (.text span :: left) ∈ s.agenda →
        span.IsPart v.template.source.toList ∧
        ∃ covered, covered ≠ [] ∧ Text.slice? v.template.source.toList span = some covered ∧
          v.template.text span = covered := by
  refine ⟨?_, ?_⟩
  · intro settings name path source depth items root
    have hscan := inOrder_scan settings.tags source
    have hsub : (Node.textsOf root).Sublist (items.filterMap Item.text?) := by
      have := OpenTree.retained_sublist settings depth {} items
      rwa [← Tree.textsOf_ofItems] at this
    have hpart (span : Span) (hm : span ∈ items.filterMap Item.text?) := hscan.texts_isPart hm
    refine ⟨hsub, hscan.texts_pairwise.sublist hsub,
      fun span hm => ⟨(hpart span hm).2, (hpart span hm).2.start_lt⟩, ?_⟩
    intro before span after hitems around
    refine ⟨?_, fun f hf => ?_⟩
    · have hn : (items.filterMap Item.text?).Nodup := by
        refine (List.Pairwise.and_mem.mp hscan.texts_pairwise).imp ?_
        rintro a b ⟨-, hb, hle⟩ rfl
        have := (hpart a hb).2.start_lt
        omega
      have hcount := Tree.count_textsOf_ofItems settings depth (hitems ▸ hn)
      rw [← hitems] at hcount
      exact hcount
    · have hj := OpenTree.judged_opened settings depth before f hf
      exact ⟨hj, hj.isFaulty_iff⟩
  · intro x hx s hs v c span left hm
    obtain ⟨loops, list, hi, hsuffix⟩ := hs.inside _ hm
    have hread : v.template.IsRead := (hs.isRead hx).agenda _ hm
    have hpart := hread.isPart hi (hsuffix.subset (List.mem_cons_self ..))
    obtain ⟨covered, hne, hslice⟩ := hpart.exists_slice?
    exact ⟨hpart, covered, hne, hslice, by rw [Template.text, hslice]; rfl⟩

/-- A loop of two rows whose body includes a template with a text behind a value. -/
def listedRender : Rendering where
  settings := {}
  loader := Library.loader ⟨[("row", "\x7b\x7bVAR n\x7d\x7d, ")]⟩
  held :=
    { template := Template.ofText {}
        "\x7b\x7bLOOP rows\x7d\x7d\x7b\x7bINCLUDE row\x7d\x7d\x7b\x7bENDLOOP\x7d\x7d." }
  scope := Scope.empty.withLoop "rows"
    [Scope.empty.withValue "n" "1", Scope.empty.withValue "n" "2"]

def listedVisit : Visit :=
  ⟨{ Template.parse {} "row" (some "row") "\x7b\x7bVAR n\x7d\x7d, " 1 with diagnostics := [] },
    [13]⟩

/-- Where `listedRender` comes to the included text in the first of its rows. -/
def listedStage : Stage where
  agenda :=
    [.nodes listedVisit ⟨listedRender.scope, [Scope.empty.withValue "n" "1"]⟩ [.text ⟨9, 11⟩],
      .nodes listedRender.visit ⟨listedRender.scope, [Scope.empty.withValue "n" "1"]⟩ [],
      .rows listedRender.visit ⟨listedRender.scope, []⟩ [.embed "row" 1 ⟨13, 28⟩]
        [Scope.empty.withValue "n" "2"],
      .nodes listedRender.visit ⟨listedRender.scope, []⟩ [.text ⟨39, 40⟩]]
  progress :=
    { listedRender.progress with
      out := { pieces := [Text.encode "1"] }
      store := listedRender.progress.store.fill [13] listedVisit.template
      loads := [("row", 1)] }

theorem listedRender_reaches : listedRender.Reaches listedStage := by
  let c : Context := ⟨listedRender.scope, [Scope.empty.withValue "n" "1"]⟩
  let first : Stage := ⟨listedRender.agenda, listedRender.progress⟩
  let looping : Stage :=
    ⟨[.rows listedRender.visit ⟨listedRender.scope, []⟩ [.embed "row" 1 ⟨13, 28⟩]
        [Scope.empty.withValue "n" "1", Scope.empty.withValue "n" "2"],
      .nodes listedRender.visit ⟨listedRender.scope, []⟩ [.text ⟨39, 40⟩]], listedRender.progress⟩
  let including : Stage :=
    ⟨.nodes listedRender.visit c [.embed "row" 1 ⟨13, 28⟩] :: listedStage.agenda.drop 2,
      listedRender.progress⟩
  let included : Stage :=
    ⟨.nodes listedVisit c [.value "n" none none, .text ⟨9, 11⟩] :: listedStage.agenda.drop 1,
      { listedStage.progress with out := {} }⟩
  have hb : listedRender.Begins first := ⟨by with_unfolding_all rfl, rfl⟩
  have hloop : Stage.Step listedRender.settings listedRender.loader first looping := by
    with_unfolding_all rfl
  have hrow : Stage.Step listedRender.settings listedRender.loader looping including := by
    with_unfolding_all rfl
  have hembed : Stage.Step listedRender.settings listedRender.loader including included := by
    with_unfolding_all rfl
  have hvalue : Stage.Step listedRender.settings listedRender.loader included listedStage := by
    with_unfolding_all rfl
  exact ⟨_, hb, .head hloop (.head hrow (.head hembed (.single hvalue)))⟩

theorem texts_are_kept_faulty :
    let root := (Template.parse {} "" none "\x7b\x7bIF \x7d\x7da\x7b\x7bENDIF\x7d\x7db" 0).root
    (Node.textsOf root).count ⟨7, 8⟩ = 0 ∧ (Node.textsOf root).count ⟨17, 18⟩ = 1 ∧
      listedRender.held.Arises ∧ listedRender.Reaches listedStage ∧
      Span.IsPart listedVisit.template.source.toList ⟨9, 11⟩ ∧
      listedVisit.template.text ⟨9, 11⟩ ≠ [] := by
  intro root
  have hscan : Item.scan {} "\x7b\x7bIF \x7d\x7da\x7b\x7bENDIF\x7d\x7db" =
      [.tag ⟨.cond, [], ⟨0, 7⟩, 1⟩, .text ⟨7, 8⟩, .tag ⟨.endif, [], ⟨8, 17⟩, 1⟩,
        .text ⟨17, 18⟩] := by
    decide +kernel
  have htree := (texts_are_kept.1 {} "" none "\x7b\x7bIF \x7d\x7da\x7b\x7bENDIF\x7d\x7db" 0).2.2.2
  have hinside := (htree [.tag ⟨.cond, [], ⟨0, 7⟩, 1⟩] ⟨7, 8⟩ _ hscan).1
  have hbehind := (htree [.tag ⟨.cond, [], ⟨0, 7⟩, 1⟩, .text ⟨7, 8⟩, .tag ⟨.endif, [], ⟨8, 17⟩, 1⟩]
    ⟨17, 18⟩ [] hscan).1
  obtain ⟨hpart, covered, hne, -, htext⟩ := texts_are_kept.2 listedRender (.read ..) listedStage
    listedRender_reaches listedVisit ⟨listedRender.scope, [Scope.empty.withValue "n" "1"]⟩ ⟨9, 11⟩
    [] List.mem_cons_self
  exact ⟨hinside, hbehind, .read .., listedRender_reaches, hpart, htext ▸ hne⟩

end Stencil
