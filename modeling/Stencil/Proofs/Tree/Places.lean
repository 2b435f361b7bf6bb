import Stencil.Proofs.Item.Places
import Stencil.Proofs.Tree.Leaves
import Stencil.Proofs.Tag.Leaf

/-! Where the findings of a tree stand.
What is wrong with a construct is found at the tag that opens it, however much later that is. The
main statements say that what holds of the places of all tags and findings of the items holds of the
places of the findings and of the inclusions of the tree. -/
namespace Stencil

variable {P : Nat → Span → Prop} {settings : Settings} {depth : Nat}

theorem Tag.stands_judge {α : Type} {tag : Tag} (h : P tag.line tag.span) (e : Except Problem α) :
    ∀ f ∈ (tag.judge e).2, P f.line f.span := by
  cases e with
  | ok a => exact List.forall_mem_nil _
  | error problem => exact List.forall_mem_singleton.mpr h

namespace OpenTree

/-- The invariant of building: `P` holds of the places of the findings, and of those of the tags
that open what is not closed yet. -/
structure Stands (P : Nat → Span → Prop) (t : OpenTree) : Prop where
  findings : ∀ f ∈ t.findings, P f.line f.span
  openers : ∀ f ∈ t.frames, P f.construct.opener.line f.construct.opener.span

theorem Stands.add {t : OpenTree} (h : t.Stands P) {nodes : List Node} {findings : List Finding}
    (hf : ∀ f ∈ findings, P f.line f.span) : (t.add nodes findings).Stands P :=
  ⟨List.forall_mem_append.mpr ⟨h.findings, hf⟩, h.openers⟩

theorem Stands.enter {t : OpenTree} (h : t.Stands P) {c : Construct} {findings : List Finding}
    (hf : ∀ f ∈ findings, P f.line f.span) (hc : P c.opener.line c.opener.span) :
    (t.enter c findings).Stands P :=
  ⟨List.forall_mem_append.mpr ⟨h.findings, hf⟩, List.forall_mem_cons.mpr ⟨hc, h.openers⟩⟩

theorem Stands.unwind {tags : TagSet} {terminator : Option TagKind} {frames : List Frame}
    {nodes : List Node} {findings : List Finding} (h : Stands P ⟨frames, nodes, findings⟩) :
    (unwind tags terminator frames nodes findings).Stands P := by
  induction frames generalizing nodes findings with
  | nil => exact h
  | cons f frames ih =>
    simp only [OpenTree.unwind]
    split
    · exact h
    · -- what is not closed is found at its opener
      obtain ⟨hopener, hopeners⟩ := List.forall_mem_cons.mp h.openers
      exact ih ⟨List.forall_mem_append.mpr ⟨h.findings, List.forall_mem_singleton.mpr hopener⟩,
        hopeners⟩

theorem Stands.terminate {tags : TagSet} {tag : Tag} (ht : P tag.line tag.span) {t : OpenTree}
    (h : t.Stands P) : (t.terminate tags tag).Stands P := by
  obtain ⟨frames, nodes, findings⟩ := t
  match frames with
  | [] => exact h
  | ⟨.alternative opener all, before⟩ :: frames =>
    exact ⟨h.findings, (List.forall_mem_cons.mp h.openers).2⟩
  | ⟨.loop opener name, before⟩ :: frames =>
    exact ⟨h.findings, (List.forall_mem_cons.mp h.openers).2⟩
  | ⟨.arms opener finished test, before⟩ :: frames =>
    obtain ⟨hopener, hopeners⟩ := List.forall_mem_cons.mp h.openers
    simp only [OpenTree.terminate]
    split
    · exact ⟨List.forall_mem_append.mpr ⟨h.findings, Tag.stands_judge ht _⟩,
        List.forall_mem_cons.mpr ⟨hopener, hopeners⟩⟩
    · exact ⟨h.findings, List.forall_mem_cons.mpr ⟨hopener, hopeners⟩⟩
    · exact ⟨h.findings, hopeners⟩

theorem Stands.step {t : OpenTree} (h : t.Stands P) {item : Item}
    (hi : ∀ place, item.place? = some place → P place.1 place.2) :
    (OpenTree.step settings depth t item).Stands P := by
  match item with
  | .text span => exact h.add (List.forall_mem_nil _)
  | .finding f => exact h.add (List.forall_mem_singleton.mpr (hi _ rfl))
  | .tag tag =>
    have htag : P tag.line tag.span := hi _ rfl
    by_cases ht : tag.kind.isTerminator
    · simp only [OpenTree.step, ht, if_true]
      split
      · exact (Stands.unwind h).terminate htag
      · exact h.add (List.forall_mem_singleton.mpr htag)
    · by_cases hc : tag.kind = .cond
      · rw [step_cond hc]
        exact h.enter (Tag.stands_judge htag _) htag
      · by_cases hl : tag.kind = .loop
        · rw [step_loop hl]
          exact h.enter (Tag.stands_judge htag _) htag
        · rw [step_leaf ht hc hl]
          exact h.add (Tag.stands_judge htag _)

theorem Stands.run {t : OpenTree} (h : t.Stands P) {items : List Item}
    (hi : ∀ item ∈ items, ∀ place, item.place? = some place → P place.1 place.2) :
    ∀ f ∈ (run settings depth t items).2, P f.line f.span := by
  induction items generalizing t with
  | nil => exact (Stands.unwind h).findings
  | cons item items ih =>
    rw [run_cons]
    obtain ⟨hitem, hitems⟩ := List.forall_mem_cons.mp hi
    exact ih (h.step hitem) hitems

end OpenTree

namespace Tree

variable {items : List Item}

theorem stands_findings_ofItems
    (hi : ∀ item ∈ items, ∀ place, item.place? = some place → P place.1 place.2) :
    ∀ f ∈ (Tree.ofItems settings depth items).2, P f.line f.span := by
  rw [OpenTree.ofItems_eq_run]
  have hempty : OpenTree.Stands P {} := ⟨List.forall_mem_nil _, List.forall_mem_nil _⟩
  exact hempty.run hi

theorem stands_embed_ofItems
    (hi : ∀ item ∈ items, ∀ place, item.place? = some place → P place.1 place.2) {loops : Nat}
    {list : List Node} {reference : String} {line : Nat} {span : Span}
    (h : Node.Inside (Tree.ofItems settings depth items).1 loops list)
    (hm : .embed reference line span ∈ list) : P line span := by
  have hall : Node.AllLeaves (fun _ node => ∀ reference line span,
      node = .embed reference line span → P line span) 0
      (Tree.ofItems settings depth items).1 := by
    apply Tree.allLeaves_ofItems
    intro item hitem
    cases item with
    | text span => rintro loops _ _ _ ⟨⟩
    | finding f => trivial
    | tag tag =>
      intro loops nodes hn
      rcases Tag.leaf_cases hn with ⟨_, _, _, -, rfl⟩ | ⟨name, rfl, -⟩ | ⟨_, -, rfl | rfl⟩ | rfl
      · exact ⟨nofun, trivial⟩
      · refine ⟨?_, trivial⟩
        rintro _ _ _ ⟨⟩
        exact hi _ hitem _ rfl
      · exact ⟨nofun, trivial⟩
      · exact ⟨nofun, trivial⟩
      · trivial
  exact Node.allLeaves_iff.mp (h.allLeaves hall) _ hm _ _ _ rfl

end Tree
end Stencil
