import Stencil.Proofs.Tree.Stack

/-! What is found while a tree is built.
Building adds to the findings and never takes one back. The main statement says that what is wrong
with a tag that has no body is found wherever the tag stands, also in a body that is left out. -/
namespace Stencil
namespace OpenTree

variable {settings : Settings} {depth : Nat}

theorem prefix_unwind (tags : TagSet) (terminator : Option TagKind) (frames : List Frame)
    (nodes : List Node) (findings : List Finding) :
    findings <+: (unwind tags terminator frames nodes findings).findings := by
  induction frames generalizing nodes findings with
  | nil => exact List.prefix_rfl
  | cons f frames ih =>
    unfold unwind
    split
    · exact List.prefix_rfl
    · exact (List.prefix_append ..).trans (ih ..)

theorem prefix_terminate (tags : TagSet) (tag : Tag) (t : OpenTree) :
    t.findings <+: (t.terminate tags tag).findings := by
  obtain ⟨frames, nodes, findings⟩ := t
  match frames with
  | [] => exact List.prefix_rfl
  | ⟨.alternative opener all, before⟩ :: frames => exact List.prefix_rfl
  | ⟨.loop opener name, before⟩ :: frames => exact List.prefix_rfl
  | ⟨.arms opener finished test, before⟩ :: frames =>
    simp only [terminate]
    split
    · exact List.prefix_append ..
    · exact List.prefix_rfl
    · exact List.prefix_rfl

theorem prefix_step (t : OpenTree) (item : Item) :
    t.findings <+: (step settings depth t item).findings := by
  match item with
  | .text span => exact List.prefix_append ..
  | .finding f => exact List.prefix_append ..
  | .tag tag =>
    by_cases ht : tag.kind.isTerminator
    · simp only [step, ht, if_true]
      split
      · exact (prefix_unwind ..).trans (prefix_terminate ..)
      · exact List.prefix_append ..
    · by_cases hc : tag.kind = .cond
      · rw [step_cond hc]
        exact List.prefix_append ..
      · by_cases hl : tag.kind = .loop
        · rw [step_loop hl]
          exact List.prefix_append ..
        · rw [step_leaf ht hc hl]
          exact List.prefix_append ..

theorem prefix_run (t : OpenTree) (items : List Item) :
    t.findings <+: (run settings depth t items).2 := by
  induction items generalizing t with
  | nil => exact prefix_unwind ..
  | cons item items ih =>
    rw [run_cons]
    exact (prefix_step t item).trans (ih _)

theorem mem_findings_run {t : OpenTree} {items : List Item} {tag : Tag} {problem : Problem}
    (hm : .tag tag ∈ items) (ht : ¬ tag.kind.isTerminator) (hc : tag.kind ≠ .cond)
    (hl : tag.kind ≠ .loop) (hp : ∀ loops, tag.leaf settings depth loops = .error problem) :
    tag.finding problem ∈ (run settings depth t items).2 := by
  induction items generalizing t with
  | nil => cases hm
  | cons item items ih =>
    rw [run_cons]
    rcases List.mem_cons.mp hm with rfl | hm
    · refine (prefix_run _ items).subset ?_
      rw [step_leaf ht hc hl, hp]
      exact List.mem_append_right _ (List.mem_singleton.mpr rfl)
    · exact ih hm

end OpenTree

theorem Tree.mem_findings_ofItems {settings : Settings} {depth : Nat} {items : List Item}
    {tag : Tag} {problem : Problem} (hm : .tag tag ∈ items) (ht : ¬ tag.kind.isTerminator)
    (hc : tag.kind ≠ .cond) (hl : tag.kind ≠ .loop)
    (hp : ∀ loops, tag.leaf settings depth loops = .error problem) :
    tag.finding problem ∈ (Tree.ofItems settings depth items).2 := by
  rw [OpenTree.ofItems_eq_run]
  exact OpenTree.mem_findings_run hm ht hc hl hp

end Stencil
