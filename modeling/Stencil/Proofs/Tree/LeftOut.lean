import Stencil.Proofs.Item.Order
import Stencil.Proofs.Tag.Leaf
import Stencil.Proofs.Tree.Stack

/-! What is left out of a tree.
The body of a faulty opening tag and the arm of a faulty ELSIF are read as any other, but their
nodes do not get into the tree. The main statement says that the texts of a tree, one branch of a
conditional after the other, are the texts of the items, in their order, without those that are
read while something faulty is open. -/
namespace Stencil

namespace Node

mutual

def texts : Node → List Span
  | .text span => [span]
  | .cond _ yes no => textsOf yes ++ textsOf no
  | .loop _ body => textsOf body
  | _ => []

/-- The spans of the texts of a list of nodes. -/
def textsOf : List Node → List Span
  | [] => []
  | node :: rest => node.texts ++ textsOf rest

end

@[simp] theorem textsOf_nil : textsOf [] = [] := rfl

@[simp] theorem textsOf_cons (node : Node) (rest : List Node) :
    textsOf (node :: rest) = node.texts ++ textsOf rest := rfl

@[simp] theorem texts_text (span : Span) : (Node.text span).texts = [span] := rfl

@[simp] theorem texts_cond (test : Test) (yes no : List Node) :
    (Node.cond test yes no).texts = textsOf yes ++ textsOf no := rfl

@[simp] theorem texts_loop (name : String) (body : List Node) :
    (Node.loop name body).texts = textsOf body := rfl

@[simp] theorem textsOf_append (a b : List Node) : textsOf (a ++ b) = textsOf a ++ textsOf b := by
  induction a with
  | nil => rfl
  | cons node rest ih => simp [ih]

end Node

theorem Tag.textsOf_leaf {settings : Settings} {depth loops : Nat} {tag : Tag} {nodes : List Node}
    (h : tag.leaf settings depth loops = .ok nodes) : Node.textsOf nodes = [] := by
  rcases Tag.leaf_cases h with ⟨_, _, _, -, rfl⟩ | ⟨_, rfl, -⟩ | ⟨_, -, rfl | rfl⟩ | rfl <;> rfl

namespace Construct

/-- Whether the tag that opens these arms is faulty: the first arm has no test. -/
def opensFaulty : List Arm → Bool
  | (some _, _) :: _ => false
  | _ => true

def finished : Construct → List Arm
  | arms _ finished _ => finished
  | alternative _ all => all
  | loop _ _ => []

/-- Whether the opening tag is faulty, so that the whole construct is left out. -/
def isFaulty : Construct → Bool
  | arms _ finished test => opensFaulty (finished ++ [(test, [])])
  | alternative _ all => opensFaulty all
  | loop _ name => name.isNone

/-- Whether what is being read of the construct is left out: the whole construct is, or this arm,
whose ELSIF is faulty. -/
def discards : Construct → Bool
  | arms opener finished test => (arms opener finished test).isFaulty || test.isNone
  | c => c.isFaulty

theorem opensFaulty_append (before : List Arm) (test : Option Test) (yes : List Node)
    (after : List Arm) :
    opensFaulty (before ++ (test, yes) :: after) = opensFaulty (before ++ [(test, [])]) := by
  cases before with
  | nil => cases test <;> rfl
  | cons arm before =>
    obtain ⟨first, _⟩ := arm
    cases first <;> rfl

theorem chain_of_opensFaulty {all : List Arm} (h : opensFaulty all = true)
    (alternative : List Node) : chain all alternative = [] := by
  unfold chain
  split
  · simp [opensFaulty] at h
  · rfl

theorem chain_of_not_opensFaulty {all : List Arm} (h : opensFaulty all = false)
    (alternative : List Node) : chain all alternative = Tree.foldArms all alternative := by
  unfold opensFaulty at h
  split at h
  · rfl
  · cases h

def armTexts (all : List Arm) : List Span :=
  all.flatMap fun arm => if arm.1.isSome then Node.textsOf arm.2 else []

theorem textsOf_foldArms (all : List Arm) (alternative : List Node) :
    Node.textsOf (Tree.foldArms all alternative) =
      armTexts all ++ Node.textsOf alternative := by
  induction all with
  | nil => rfl
  | cons arm more ih =>
    obtain ⟨test, yes⟩ := arm
    have hmore : Node.textsOf (Tree.foldArms ((test, yes) :: more) alternative) =
        (if test.isSome then Node.textsOf yes else []) ++
          Node.textsOf (Tree.foldArms more alternative) := by
      cases test with
      | some test => simp [Tree.foldArms]
      | none => rfl
    rw [hmore, ih]
    simp [armTexts]

theorem textsOf_chain (all : List Arm) (alternative : List Node) :
    Node.textsOf (chain all alternative) =
      if opensFaulty all then [] else armTexts all ++ Node.textsOf alternative := by
  cases h : opensFaulty all with
  | true => simp [chain_of_opensFaulty h]
  | false => simp [chain_of_not_opensFaulty h, textsOf_foldArms]

def texts (c : Construct) : List Span := if c.isFaulty then [] else armTexts c.finished

theorem textsOf_nodes (c : Construct) (last : List Node) :
    Node.textsOf (c.nodes last) = c.texts ++ if c.discards then [] else Node.textsOf last := by
  cases c with
  | arms opener finished test =>
    have hfaulty := opensFaulty_append finished test last []
    simp only [nodes, textsOf_chain, hfaulty, texts, discards, isFaulty, Construct.finished]
    by_cases h : opensFaulty (finished ++ [(test, [])]) = true <;> cases test <;>
      simp [h, armTexts]
  | alternative opener all =>
    simp only [nodes, textsOf_chain, texts, discards, isFaulty, Construct.finished]
    by_cases h : opensFaulty all = true <;> simp [h]
  | loop opener name => cases name <;> simp [nodes, texts, discards, isFaulty, armTexts,
      Construct.finished]

end Construct

namespace Frame

def discards (frames : List Frame) : Bool := frames.any fun f => f.construct.discards

@[simp] theorem discards_nil : discards [] = false := rfl

@[simp] theorem discards_cons (f : Frame) (frames : List Frame) :
    discards (f :: frames) = (f.construct.discards || discards frames) := rfl

def texts : List Frame → List Span
  | [] => []
  | f :: frames =>
    texts frames ++ if discards frames then [] else Node.textsOf f.before ++ f.construct.texts

end Frame

namespace OpenTree

variable {settings : Settings} {depth : Nat}

/-- The tree that is being built once these items have been read. -/
def opened (settings : Settings) (depth : Nat) (items : List Item) : OpenTree :=
  items.foldl (step settings depth) {}

def texts (t : OpenTree) : List Span :=
  Frame.texts t.frames ++ if Frame.discards t.frames then [] else Node.textsOf t.nodes

def retains (t : OpenTree) (item : Item) : List Span :=
  if Frame.discards t.frames then [] else item.text?.toList

def retained (settings : Settings) (depth : Nat) : OpenTree → List Item → List Span
  | _, [] => []
  | t, item :: items => t.retains item ++ retained settings depth (step settings depth t item) items

theorem texts_add (t : OpenTree) (nodes : List Node) (findings : List Finding) :
    (t.add nodes findings).texts =
      t.texts ++ if Frame.discards t.frames then [] else Node.textsOf nodes := by
  simp only [texts, add]
  by_cases h : Frame.discards t.frames = true <;> simp [h]

theorem texts_enter (t : OpenTree) {c : Construct} (hc : c.finished = [])
    (findings : List Finding) : (t.enter c findings).texts = t.texts := by
  have hnone : c.texts = [] := by simp [Construct.texts, hc, Construct.armTexts]
  simp [texts, enter, Frame.texts, hnone]

theorem texts_close (f : Frame) (frames : List Frame) (nodes : List Node)
    (findings findings' : List Finding) :
    texts ⟨frames, f.close nodes, findings'⟩ = texts ⟨f :: frames, nodes, findings⟩ := by
  simp only [texts, Frame.close, Frame.texts, Frame.discards_cons, Node.textsOf_append,
    f.construct.textsOf_nodes]
  by_cases h : Frame.discards frames = true <;> by_cases hf : f.construct.discards = true <;>
    simp [h, hf]

theorem texts_unwind (tags : TagSet) (terminator : Option TagKind) (frames : List Frame)
    (nodes : List Node) (findings : List Finding) :
    (unwind tags terminator frames nodes findings).texts = texts ⟨frames, nodes, findings⟩ := by
  induction frames generalizing nodes findings with
  | nil => rfl
  | cons f frames ih =>
    unfold unwind
    split
    · rfl
    · rw [ih, texts_close]

theorem texts_finish (opener : Tag) (done : List Arm) (test : Option Test) (before : List Node)
    (frames : List Frame) (nodes : List Node) (findings findings' : List Finding) {c : Construct}
    (hc : c.finished = done ++ [(test, nodes)])
    (hf : c.isFaulty = (Construct.arms opener done test).isFaulty) :
    texts ⟨⟨c, before⟩ :: frames, [], findings'⟩ =
      texts ⟨⟨.arms opener done test, before⟩ :: frames, nodes, findings⟩ := by
  have hmore : c.texts = (Construct.arms opener done test).texts ++
      if (Construct.arms opener done test).discards then [] else Node.textsOf nodes := by
    simp only [Construct.texts, hc, hf, Construct.discards]
    by_cases h : (Construct.arms opener done test).isFaulty = true <;> cases test <;>
      simp [h, Construct.armTexts, Construct.finished]
  simp only [texts, Frame.texts, Frame.discards_cons, hmore, Node.textsOf_nil]
  by_cases h : Frame.discards frames = true <;>
    by_cases hd : (Construct.arms opener done test).discards = true <;> simp [h, hd]

theorem texts_terminate (tags : TagSet) (tag : Tag) (t : OpenTree) :
    (t.terminate tags tag).texts = t.texts := by
  obtain ⟨frames, nodes, findings⟩ := t
  match frames with
  | [] => rfl
  | ⟨.alternative opener all, before⟩ :: frames => exact texts_close ..
  | ⟨.loop opener name, before⟩ :: frames => exact texts_close ..
  | ⟨.arms opener done test, before⟩ :: frames =>
    simp only [terminate]
    split
    · refine texts_finish opener done test before frames nodes findings _ rfl ?_
      simp only [Construct.isFaulty, List.append_assoc]
      exact Construct.opensFaulty_append done test nodes _
    · exact texts_finish opener done test before frames nodes findings _ rfl
        (Construct.opensFaulty_append done test nodes [])
    · exact texts_close ..

theorem texts_step (t : OpenTree) (item : Item) :
    (step settings depth t item).texts = t.texts ++ t.retains item := by
  match item with
  | .text span =>
    rw [step, texts_add]
    simp [retains, Item.text?]
  | .finding f =>
    rw [step, texts_add]
    simp [retains, Item.text?]
  | .tag tag =>
    have hnone : t.retains (.tag tag) = [] := by simp [retains, Item.text?]
    rw [hnone, List.append_nil]
    by_cases ht : tag.kind.isTerminator
    · simp only [step, ht, if_true]
      split
      · rw [texts_terminate, texts_unwind]
      · rw [texts_add]
        simp
    · by_cases hc : tag.kind = .cond
      · rw [step_cond hc]
        exact texts_enter t rfl _
      · by_cases hl : tag.kind = .loop
        · rw [step_loop hl]
          exact texts_enter t rfl _
        · rw [step_leaf ht hc hl, texts_add]
          cases hb : tag.leaf settings depth (Frame.loops t.frames) with
          | ok nodes => simp [Tag.judge, Tag.textsOf_leaf hb]
          | error problem => simp [Tag.judge]

/-- The texts of the tree are those that have been kept and those that will be. -/
theorem textsOf_run (t : OpenTree) (items : List Item) :
    Node.textsOf (run settings depth t items).1 =
      t.texts ++ retained settings depth t items := by
  induction items generalizing t with
  | nil =>
    have hu := texts_unwind settings.tags none t.frames t.nodes t.findings
    rw [texts, frames_unwind_none] at hu
    simpa [run, finish, retained, Frame.texts] using hu
  | cons item items ih =>
    rw [run_cons, ih, texts_step, retained, List.append_assoc]

theorem retained_append (t : OpenTree) (before after : List Item) :
    retained settings depth t (before ++ after) =
      retained settings depth t before ++
        retained settings depth (before.foldl (step settings depth) t) after := by
  induction before generalizing t with
  | nil => rfl
  | cons item before ih => simp [retained, ih]

/-- No text is kept that is not one of the items, and the order stays. -/
theorem retained_sublist (settings : Settings) (depth : Nat) (t : OpenTree) (items : List Item) :
    (retained settings depth t items).Sublist (items.filterMap Item.text?) := by
  induction items generalizing t with
  | nil => exact .slnil
  | cons item items ih =>
    have hitem : (t.retains item).Sublist item.text?.toList := by
      unfold retains
      split
      · exact List.nil_sublist _
      · exact List.Sublist.refl _
    have hcons : (item :: items).filterMap Item.text? =
        item.text?.toList ++ items.filterMap Item.text? := by
      cases h : item.text? <;> simp [h]
    rw [hcons, retained]
    exact hitem.append (ih _)

end OpenTree

/-- How a construct comes about that is opened by tags of these items: what is noted of a tag in it
is what the attributes of the tag are read as. -/
inductive Construct.Judged (tags : TagSet) (items : List Item) : Construct → Prop
  | cond {opener : Tag} : .tag opener ∈ items → opener.kind = .cond →
    Judged tags items (.arms opener [] (opener.judge (opener.test tags)).1)
  | elsif {opener next : Tag} {done : List Arm} {test : Option Test} {nodes : List Node} :
    Judged tags items (.arms opener done test) → .tag next ∈ items → next.kind = .elsif →
    Judged tags items (.arms opener (done ++ [(test, nodes)]) (next.judge (next.test tags)).1)
  | alt {opener : Tag} {done : List Arm} {test : Option Test} {nodes : List Node} :
    Judged tags items (.arms opener done test) →
    Judged tags items (.alternative opener (done ++ [(test, nodes)]))
  | loop {opener : Tag} : .tag opener ∈ items → opener.kind = .loop →
    Judged tags items (.loop opener (opener.judge (opener.name tags)).1)

namespace Construct

variable {tags : TagSet} {items : List Item} {c : Construct}

/-- Whether the attributes of an opening tag are faulty. -/
def rejects (tags : TagSet) (opener : Tag) : Prop :=
  if opener.kind = .loop then ∃ problem, opener.name tags = .error problem
  else ∃ problem, opener.test tags = .error problem

theorem isNone_judge {α : Type} (tag : Tag) (reading : Except Problem α) :
    (tag.judge reading).1.isNone = true ↔ ∃ problem, reading = .error problem := by
  cases reading <;> simp [Tag.judge]

theorem Judged.isFaulty_iff (h : c.Judged tags items) :
    c.isFaulty = true ↔ rejects tags c.opener := by
  induction h with
  | @cond opener _ hk =>
    have hfaulty : isFaulty (.arms opener [] (opener.judge (opener.test tags)).1) =
        (opener.judge (opener.test tags)).1.isNone := by
      cases h : (opener.judge (opener.test tags)).1 <;> rfl
    rw [hfaulty, isNone_judge]
    simp [rejects, Construct.opener, hk]
  | @elsif opener next done test nodes _ _ _ ih =>
    refine Iff.trans ?_ ih
    simp only [isFaulty, List.append_assoc, List.singleton_append, opensFaulty_append]
  | @alt opener done test nodes _ ih =>
    refine Iff.trans ?_ ih
    simp only [isFaulty, opensFaulty_append]
  | @loop opener _ hk =>
    rw [isFaulty, isNone_judge]
    simp [rejects, Construct.opener, hk]

end Construct

namespace OpenTree

variable {settings : Settings} {depth : Nat}

theorem frames_unwind_suffix (tags : TagSet) (terminator : Option TagKind) (frames : List Frame)
    (nodes : List Node) (findings : List Finding) :
    (unwind tags terminator frames nodes findings).frames <:+ frames := by
  induction frames generalizing nodes findings with
  | nil => exact List.suffix_rfl
  | cons f frames ih =>
    unfold unwind
    split
    · exact List.suffix_rfl
    · exact (ih _ _).trans (List.suffix_cons _ _)

theorem judged_terminate {tags : TagSet} {items : List Item} {tag : Tag} {t : OpenTree}
    (h : ∀ f ∈ t.frames, f.construct.Judged tags items) (ht : .tag tag ∈ items) :
    ∀ f ∈ (t.terminate tags tag).frames, f.construct.Judged tags items := by
  obtain ⟨frames, nodes, findings⟩ := t
  match frames with
  | [] => exact h
  | ⟨.alternative opener all, before⟩ :: frames => exact (List.forall_mem_cons.mp h).2
  | ⟨.loop opener name, before⟩ :: frames => exact (List.forall_mem_cons.mp h).2
  | ⟨.arms opener done test, before⟩ :: frames =>
    obtain ⟨hc, hframes⟩ := List.forall_mem_cons.mp h
    simp only [terminate]
    split
    · rename_i hk
      exact List.forall_mem_cons.mpr ⟨hc.elsif ht hk, hframes⟩
    · exact List.forall_mem_cons.mpr ⟨hc.alt, hframes⟩
    · exact hframes

theorem judged_step {items : List Item} {item : Item} {t : OpenTree}
    (h : ∀ f ∈ t.frames, f.construct.Judged settings.tags items) (hi : item ∈ items) :
    ∀ f ∈ (step settings depth t item).frames, f.construct.Judged settings.tags items := by
  match item with
  | .text span => exact h
  | .finding f => exact h
  | .tag tag =>
    by_cases ht : tag.kind.isTerminator
    · simp only [step, ht, if_true]
      split
      · exact judged_terminate (fun f hf => h f ((frames_unwind_suffix ..).subset hf)) hi
      · exact h
    · by_cases hc : tag.kind = .cond
      · rw [step_cond hc]
        exact List.forall_mem_cons.mpr ⟨.cond hi hc, h⟩
      · by_cases hl : tag.kind = .loop
        · rw [step_loop hl]
          exact List.forall_mem_cons.mpr ⟨.loop hi hl, h⟩
        · rw [step_leaf ht hc hl]
          exact h

theorem judged_opened (settings : Settings) (depth : Nat) (items : List Item) :
    ∀ f ∈ (opened settings depth items).frames, f.construct.Judged settings.tags items := by
  have hsteps (left : List Item) (t : OpenTree)
      (h : ∀ f ∈ t.frames, f.construct.Judged settings.tags items) (hl : left ⊆ items) :
      ∀ f ∈ (left.foldl (step settings depth) t).frames,
        f.construct.Judged settings.tags items := by
    induction left generalizing t with
    | nil => exact h
    | cons item left ih =>
      obtain ⟨hi, hleft⟩ := List.cons_subset.mp hl
      exact ih _ (judged_step h hi) hleft
  exact hsteps items {} (by simp) (List.Subset.refl _)

end OpenTree

namespace Tree

variable {settings : Settings} {depth : Nat}

theorem textsOf_ofItems (items : List Item) :
    Node.textsOf (ofItems settings depth items).1 =
      OpenTree.retained settings depth {} items := by
  rw [OpenTree.ofItems_eq_run, OpenTree.textsOf_run]
  rfl

/-- A text is in the tree once, or not at all if it is read while something faulty is open. -/
theorem count_textsOf_ofItems (settings : Settings) (depth : Nat) {before after : List Item}
    {span : Span}
    (hn : ((before ++ .text span :: after).filterMap Item.text?).Nodup) :
    (Node.textsOf (ofItems settings depth (before ++ .text span :: after)).1).count span =
      if Frame.discards (OpenTree.opened settings depth before).frames then 0 else 1 := by
  have hsplit : (before ++ .text span :: after).filterMap Item.text? =
      before.filterMap Item.text? ++ span :: after.filterMap Item.text? := by
    simp [Item.text?]
  rw [hsplit] at hn
  obtain ⟨-, hafter, hbefore⟩ := List.nodup_append.mp hn
  have hb : span ∉ OpenTree.retained settings depth {} before := fun hm =>
    hbefore span ((OpenTree.retained_sublist ..).subset hm) span (List.mem_cons_self ..) rfl
  have ha : ∀ t, span ∉ OpenTree.retained settings depth t after := fun t hm =>
    (List.nodup_cons.mp hafter).1 ((OpenTree.retained_sublist ..).subset hm)
  rw [textsOf_ofItems, OpenTree.retained_append, OpenTree.retained, List.count_append,
    List.count_append, List.count_eq_zero.mpr hb, List.count_eq_zero.mpr (ha _)]
  simp only [OpenTree.retains, OpenTree.opened, Item.text?]
  by_cases h : Frame.discards (before.foldl (OpenTree.step settings depth) {}).frames = true <;>
    simp [h]

end Tree
end Stencil
