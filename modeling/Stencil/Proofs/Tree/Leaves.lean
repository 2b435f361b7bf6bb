import Stencil.Proofs.Tree.Stack

/-! What holds of every leaf of a tree.
A leaf is a node without a body. The main statement says that a property which the texts and the
tags of the items give to their nodes, at whatever number of open loops, holds of every leaf of the
tree with the number of loops that enclose it there. -/
namespace Stencil
namespace Node

mutual

/-- Whether `P` holds of the leaves of a node that stands inside so many loops. -/
def Leaves (P : Nat → Node → Prop) (loops : Nat) : Node → Prop
  | .cond _ yes no => AllLeaves P loops yes ∧ AllLeaves P loops no
  | .loop _ body => AllLeaves P (loops + 1) body
  | .text span => P loops (.text span)
  | .value name default formatter => P loops (.value name default formatter)
  | .leave level => P loops (.leave level)
  | .next level => P loops (.next level)
  | .embed reference line span => P loops (.embed reference line span)

def AllLeaves (P : Nat → Node → Prop) (loops : Nat) : List Node → Prop
  | [] => True
  | node :: rest => node.Leaves P loops ∧ AllLeaves P loops rest

end

variable {P Q : Nat → Node → Prop} {loops : Nat}

@[simp] theorem allLeaves_nil : AllLeaves P loops [] := trivial

@[simp] theorem allLeaves_cons {node : Node} {rest : List Node} :
    AllLeaves P loops (node :: rest) ↔ node.Leaves P loops ∧ AllLeaves P loops rest := Iff.rfl

@[simp] theorem leaves_cond {test : Test} {yes no : List Node} :
    (Node.cond test yes no).Leaves P loops ↔ AllLeaves P loops yes ∧ AllLeaves P loops no :=
  Iff.rfl

@[simp] theorem leaves_loop {name : String} {body : List Node} :
    (Node.loop name body).Leaves P loops ↔ AllLeaves P (loops + 1) body := Iff.rfl

theorem allLeaves_iff {nodes : List Node} :
    AllLeaves P loops nodes ↔ ∀ node ∈ nodes, node.Leaves P loops := by
  induction nodes with
  | nil => simp
  | cons node rest ih => simp [ih]

@[simp] theorem allLeaves_append {a b : List Node} :
    AllLeaves P loops (a ++ b) ↔ AllLeaves P loops a ∧ AllLeaves P loops b := by
  simp only [allLeaves_iff, List.mem_append]
  constructor
  · intro h
    exact ⟨fun n hn => h n (.inl hn), fun n hn => h n (.inr hn)⟩
  · rintro ⟨ha, hb⟩ n (hn | hn)
    · exact ha n hn
    · exact hb n hn

mutual

theorem leaves_of_forall (h : ∀ loops node, P loops node) (loops : Nat) (node : Node) :
    node.Leaves P loops := by
  match node with
  | .cond _ yes no => exact ⟨allLeaves_of_forall h loops yes, allLeaves_of_forall h loops no⟩
  | .loop _ body => exact allLeaves_of_forall h (loops + 1) body
  | .text _ | .value _ _ _ | .leave _ | .next _ | .embed _ _ _ => exact h loops _

theorem allLeaves_of_forall (h : ∀ loops node, P loops node) (loops : Nat) (nodes : List Node) :
    AllLeaves P loops nodes := by
  match nodes with
  | [] => trivial
  | node :: rest => exact ⟨leaves_of_forall h loops node, allLeaves_of_forall h loops rest⟩

end

/-- The lists of nodes of a tree, each with the number of loops of the tree that enclose it. -/
inductive Inside (root : List Node) : Nat → List Node → Prop
  | root : Inside root 0 root
  | yes {loops : Nat} {list : List Node} {test : Test} {yes no : List Node} :
    Inside root loops list → .cond test yes no ∈ list → Inside root loops yes
  | no {loops : Nat} {list : List Node} {test : Test} {yes no : List Node} :
    Inside root loops list → .cond test yes no ∈ list → Inside root loops no
  | body {loops : Nat} {list : List Node} {name : String} {body : List Node} :
    Inside root loops list → .loop name body ∈ list → Inside root (loops + 1) body

theorem Inside.allLeaves {root list : List Node} (h : Inside root loops list)
    (hr : AllLeaves P 0 root) : AllLeaves P loops list := by
  induction h with
  | root => exact hr
  | yes _ hm ih => exact (allLeaves_iff.mp ih _ hm).1
  | no _ hm ih => exact (allLeaves_iff.mp ih _ hm).2
  | body _ hm ih => exact allLeaves_iff.mp ih _ hm

end Node

/-- Whether an item gives `P` to its nodes, however many loops are open. -/
def Item.Yields (P : Nat → Node → Prop) (settings : Settings) (depth : Nat) : Item → Prop
  | .text span => ∀ loops, P loops (.text span)
  | .tag t => ∀ loops nodes, t.leaf settings depth loops = .ok nodes →
    Node.AllLeaves P loops nodes
  | .finding _ => True

variable {P : Nat → Node → Prop} {settings : Settings} {depth : Nat}

namespace Construct

def Leaves (P : Nat → Node → Prop) (loops : Nat) : Construct → Prop
  | arms _ finished _ => ∀ arm ∈ finished, Node.AllLeaves P loops arm.2
  | alternative _ all => ∀ arm ∈ all, Node.AllLeaves P loops arm.2
  | loop _ _ => True

/-- How many loops enclose the list that is being read of the construct, if so many enclose the
construct. -/
def loopsInside (loops : Nat) : Construct → Nat
  | loop _ _ => loops + 1
  | _ => loops

theorem allLeaves_foldArms {loops : Nat} {all : List Arm} {alternative : List Node}
    (ha : ∀ arm ∈ all, Node.AllLeaves P loops arm.2)
    (hn : Node.AllLeaves P loops alternative) :
    Node.AllLeaves P loops (Tree.foldArms all alternative) := by
  induction all with
  | nil => exact hn
  | cons arm more ih =>
    obtain ⟨test, yes⟩ := arm
    have hy : Node.AllLeaves P loops yes := ha _ (List.mem_cons_self ..)
    have hm := ih fun a h => ha a (List.mem_cons_of_mem _ h)
    cases test with
    | some test => exact ⟨⟨hy, hm⟩, trivial⟩
    | none => exact hm

theorem allLeaves_chain {loops : Nat} {all : List Arm} {alternative : List Node}
    (ha : ∀ arm ∈ all, Node.AllLeaves P loops arm.2)
    (hn : Node.AllLeaves P loops alternative) :
    Node.AllLeaves P loops (chain all alternative) := by
  unfold chain
  split
  · rename_i test yes more
    have hy : Node.AllLeaves P loops yes := ha _ (List.mem_cons_self ..)
    have hm := allLeaves_foldArms (fun a h => ha a (List.mem_cons_of_mem _ h)) hn
    exact ⟨⟨hy, hm⟩, trivial⟩
  · trivial

theorem allLeaves_nodes {loops : Nat} {c : Construct} {last : List Node} (hc : c.Leaves P loops)
    (hl : Node.AllLeaves P (c.loopsInside loops) last) :
    Node.AllLeaves P loops (c.nodes last) := by
  cases c with
  | arms opener finished test =>
    apply allLeaves_chain _ Node.allLeaves_nil
    intro arm hm
    rcases List.mem_append.mp hm with hm | hm
    · exact hc arm hm
    · rw [List.mem_singleton.mp hm]
      exact hl
  | alternative opener all => exact allLeaves_chain hc hl
  | loop opener name =>
    cases name with
    | none => trivial
    | some name => exact ⟨hl, trivial⟩

end Construct

namespace OpenTree

def FrameLeaves (P : Nat → Node → Prop) : List Frame → Prop
  | [] => True
  | f :: frames =>
    Node.AllLeaves P (Frame.loops frames) f.before ∧
      f.construct.Leaves P (Frame.loops frames) ∧ FrameLeaves P frames

/-- The invariant of building: `P` holds of every leaf that has been read. -/
structure Leaves (P : Nat → Node → Prop) (t : OpenTree) : Prop where
  nodes : Node.AllLeaves P (Frame.loops t.frames) t.nodes
  frames : FrameLeaves P t.frames

theorem loops_cons (f : Frame) (frames : List Frame) :
    Frame.loops (f :: frames) = f.construct.loopsInside (Frame.loops frames) := by
  obtain ⟨construct, before⟩ := f
  cases construct <;> simp [Construct.loopsInside]

theorem Leaves.add {t : OpenTree} (h : t.Leaves P) {nodes : List Node} {findings : List Finding}
    (hn : Node.AllLeaves P (Frame.loops t.frames) nodes) : (t.add nodes findings).Leaves P :=
  ⟨Node.allLeaves_append.mpr ⟨h.nodes, hn⟩, h.frames⟩

theorem Leaves.enter {t : OpenTree} (h : t.Leaves P) {c : Construct} {findings : List Finding}
    (hc : c.Leaves P (Frame.loops t.frames)) : (t.enter c findings).Leaves P :=
  ⟨trivial, h.nodes, hc, h.frames⟩

theorem Leaves.close {f : Frame} {frames : List Frame} {nodes : List Node}
    {findings findings' : List Finding} (h : Leaves P ⟨f :: frames, nodes, findings⟩) :
    Leaves P ⟨frames, f.close nodes, findings'⟩ := by
  obtain ⟨hn, hb, hc, hf⟩ := h
  rw [loops_cons] at hn
  exact ⟨Node.allLeaves_append.mpr ⟨hb, Construct.allLeaves_nodes hc hn⟩, hf⟩

theorem Leaves.unwind {tags : TagSet} {terminator : Option TagKind} {frames : List Frame}
    {nodes : List Node} {findings : List Finding} (h : Leaves P ⟨frames, nodes, findings⟩) :
    (unwind tags terminator frames nodes findings).Leaves P := by
  induction frames generalizing nodes findings with
  | nil => exact h
  | cons f frames ih =>
    simp only [OpenTree.unwind]
    split
    · exact h
    · exact ih h.close

theorem Leaves.terminate {tags : TagSet} {tag : Tag} {t : OpenTree} (h : t.Leaves P) :
    (t.terminate tags tag).Leaves P := by
  obtain ⟨frames, nodes, findings⟩ := t
  match frames with
  | [] => exact h
  | ⟨.alternative opener all, before⟩ :: frames => exact h.close
  | ⟨.loop opener name, before⟩ :: frames => exact h.close
  | ⟨.arms opener finished test, before⟩ :: frames =>
    obtain ⟨hn, hb, hc, hf⟩ := h
    rw [Frame.loops_arms] at hn
    have hall : ∀ arm ∈ finished ++ [(test, nodes)],
        Node.AllLeaves P (Frame.loops frames) arm.2 := by
      intro arm hm
      rcases List.mem_append.mp hm with hm | hm
      · exact hc arm hm
      · rw [List.mem_singleton.mp hm]
        exact hn
    simp only [OpenTree.terminate]
    split
    · exact ⟨trivial, hb, hall, hf⟩
    · exact ⟨trivial, hb, hall, hf⟩
    · have hopen : Leaves P ⟨⟨.arms opener finished test, before⟩ :: frames, nodes, findings⟩ :=
        ⟨by rwa [Frame.loops_arms], hb, hc, hf⟩
      exact hopen.close

theorem Leaves.step {t : OpenTree} (h : t.Leaves P) {item : Item}
    (hi : item.Yields P settings depth) : (OpenTree.step settings depth t item).Leaves P := by
  match item with
  | .text span => exact h.add ⟨hi _, trivial⟩
  | .finding f => exact h.add trivial
  | .tag tag =>
    by_cases ht : tag.kind.isTerminator
    · simp only [OpenTree.step, ht, if_true]
      split
      · exact (Leaves.unwind h).terminate
      · exact h.add trivial
    · by_cases hc : tag.kind = .cond
      · rw [step_cond hc]
        exact h.enter fun _ hm => absurd hm List.not_mem_nil
      · by_cases hl : tag.kind = .loop
        · rw [step_loop hl]
          exact h.enter trivial
        · rw [step_leaf ht hc hl]
          apply h.add
          cases hb : tag.leaf settings depth (Frame.loops t.frames) with
          | ok nodes => exact hi _ _ hb
          | error problem => trivial

theorem Leaves.run {t : OpenTree} (h : t.Leaves P) {items : List Item}
    (hi : ∀ item ∈ items, item.Yields P settings depth) :
    Node.AllLeaves P 0 (run settings depth t items).1 := by
  induction items generalizing t with
  | nil =>
    have hu : (OpenTree.unwind settings.tags none t.frames t.nodes t.findings).Leaves P :=
      Leaves.unwind h
    have hf : (OpenTree.unwind settings.tags none t.frames t.nodes t.findings).frames = [] :=
      frames_unwind_none ..
    have hn := hu.nodes
    rw [hf] at hn
    exact hn
  | cons item items ih =>
    rw [run_cons]
    exact ih (h.step (hi item (List.mem_cons_self ..)))
      fun i hm => hi i (List.mem_cons_of_mem _ hm)

end OpenTree

theorem Tree.allLeaves_ofItems {items : List Item}
    (hi : ∀ item ∈ items, item.Yields P settings depth) :
    Node.AllLeaves P 0 (Tree.ofItems settings depth items).1 := by
  rw [OpenTree.ofItems_eq_run]
  have hempty : OpenTree.Leaves P {} := ⟨Node.allLeaves_nil, trivial⟩
  exact hempty.run hi

end Stencil
