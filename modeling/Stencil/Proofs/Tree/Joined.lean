import Stencil.Proofs.Item.Joined
import Stencil.Proofs.Tree.Findings
import Stencil.Proofs.Tree.Locality
import Stencil.Template

/-! Reading two texts as one.
Building a tree does with moved items what it does with the items, and moves what comes of them. The
main statement says that a text in which nothing is wrong and that ends with a tag or a comment, and
any other one joined have the nodes of the first and then, moved, those of the second, and what is
wrong with the second, moved as well. -/
namespace Stencil

mutual

def Node.behind (before : List Char) : Node → Node
  | .text span => .text (span.behind before)
  | .value name default formatter => .value name default formatter
  | .cond test yes no => .cond test (allBehind before yes) (allBehind before no)
  | .loop name body => .loop name (allBehind before body)
  | .leave level => .leave level
  | .next level => .next level
  | .embed reference line span =>
    .embed reference (Text.lineFeeds before + line) (span.behind before)

def Node.allBehind (before : List Char) : List Node → List Node
  | [] => []
  | node :: rest => node.behind before :: allBehind before rest

end

variable (before : List Char)

theorem Node.allBehind_eq_map (nodes : List Node) :
    allBehind before nodes = nodes.map (Node.behind before) := by
  induction nodes with
  | nil => rfl
  | cons node rest ih => rw [allBehind, ih, List.map_cons]

mutual

theorem Node.behind_nil_left (node : Node) : node.behind [] = node := by
  match node with
  | .cond test yes no => rw [behind, allBehind_nil_left yes, allBehind_nil_left no]
  | .loop name body => rw [behind, allBehind_nil_left body]
  | .text span => rw [behind, Span.behind_nil]
  | .embed reference line span =>
    rw [behind, Span.behind_nil, Text.lineFeeds_nil, Nat.zero_add]
  | .value _ _ _ | .leave _ | .next _ => rfl

theorem Node.allBehind_nil_left (nodes : List Node) : allBehind [] nodes = nodes := by
  match nodes with
  | [] => rfl
  | node :: rest => rw [allBehind, behind_nil_left node, allBehind_nil_left rest]

end

@[simp] theorem Node.allBehind_nil : allBehind before [] = [] := rfl

@[simp] theorem Node.allBehind_append (a b : List Node) :
    allBehind before (a ++ b) = allBehind before a ++ allBehind before b := by
  simp only [allBehind_eq_map, List.map_append]

namespace Tag

variable (t : Tag)

theorem judge_behind {α : Type} (result : Except Problem α) :
    (t.behind before).judge result =
      ((t.judge result).1, (t.judge result).2.map (Finding.behind before)) := by
  cases result <;> rfl

theorem value_behind (settings : Settings) :
    ((t.behind before).value settings).map ([·]) =
      ((t.value settings).map ([·])).map (Node.allBehind before) := by
  have hname : (t.behind before).name settings.tags = t.name settings.tags := rfl
  have hformatter : (t.behind before).formatter settings = t.formatter settings := rfl
  unfold value
  rw [hname, hformatter]
  cases t.name settings.tags with
  | error problem => rfl
  | ok name => cases t.formatter settings <;> rfl

theorem embed_behind (settings : Settings) (depth : Nat) :
    ((t.behind before).embed settings depth).map ([·]) =
      ((t.embed settings depth).map ([·])).map (Node.allBehind before) := by
  have hname : (t.behind before).name settings.tags = t.name settings.tags := rfl
  unfold embed
  rw [hname]
  cases t.name settings.tags with
  | error problem => rfl
  | ok name =>
    dsimp only
    split <;> rfl

theorem leaf_behind (settings : Settings) (depth loops : Nat) :
    (t.behind before).leaf settings depth loops =
      (t.leaf settings depth loops).map (Node.allBehind before) := by
  have hkind : (t.behind before).kind = t.kind := rfl
  have hlevel : (t.behind before).level settings.tags loops = t.level settings.tags loops := rfl
  unfold leaf
  rw [hkind, hlevel]
  split
  · exact t.value_behind before settings
  · exact t.embed_behind before settings depth
  · cases t.level settings.tags loops <;> rfl
  · cases t.level settings.tags loops <;> rfl
  · rfl

end Tag

def Construct.behind : Construct → Construct
  | arms opener finished test =>
    arms (opener.behind before) (finished.map fun arm => (arm.1, Node.allBehind before arm.2)) test
  | alternative opener all =>
    alternative (opener.behind before) (all.map fun arm => (arm.1, Node.allBehind before arm.2))
  | loop opener name => loop (opener.behind before) name

def Frame.behind (f : Frame) : Frame :=
  ⟨f.construct.behind before, Node.allBehind before f.before⟩

def OpenTree.behind (t : OpenTree) : OpenTree :=
  ⟨t.frames.map (Frame.behind before), Node.allBehind before t.nodes,
    t.findings.map (Finding.behind before)⟩

namespace Construct

variable (c : Construct)

@[simp] theorem accepted_behind : (c.behind before).accepted = c.accepted := by
  cases c <;> rfl

@[simp] theorem closing_behind : (c.behind before).closing = c.closing := by
  cases c <;> rfl

theorem unclosed_behind (tags : TagSet) :
    (c.behind before).unclosed tags = (c.unclosed tags).behind before := by
  cases c <;> rfl

theorem foldArms_behind (arms : List Arm) (alternative : List Node) :
    Tree.foldArms (arms.map fun arm => (arm.1, Node.allBehind before arm.2))
        (Node.allBehind before alternative) =
      Node.allBehind before (Tree.foldArms arms alternative) := by
  induction arms with
  | nil => rfl
  | cons arm arms ih =>
    obtain ⟨test, yes⟩ := arm
    cases test with
    | none => exact ih
    | some test => exact congrArg (fun no => [Node.cond test (Node.allBehind before yes) no]) ih

theorem chain_behind (all : List Arm) (alternative : List Node) :
    chain (all.map fun arm => (arm.1, Node.allBehind before arm.2))
        (Node.allBehind before alternative) =
      Node.allBehind before (chain all alternative) := by
  match all with
  | [] => rfl
  | (none, yes) :: more => rfl
  | (some test, yes) :: more =>
    exact congrArg (fun no => [Node.cond test (Node.allBehind before yes) no])
      (foldArms_behind before more alternative)

theorem nodes_behind (last : List Node) :
    (c.behind before).nodes (Node.allBehind before last) =
      Node.allBehind before (c.nodes last) := by
  cases c with
  | arms opener finished test =>
    have hchain := chain_behind before (finished ++ [(test, last)]) []
    rwa [List.map_append] at hchain
  | alternative opener all => exact chain_behind before all last
  | loop opener name => cases name <;> rfl

end Construct

namespace Frame

theorem close_behind (f : Frame) (last : List Node) :
    (f.behind before).close (Node.allBehind before last) =
      Node.allBehind before (f.close last) := by
  simp only [close, behind, Construct.nodes_behind, Node.allBehind_append]

theorem awaited_behind (frames : List Frame) :
    awaited (frames.map (Frame.behind before)) = awaited frames := by
  induction frames with
  | nil => rfl
  | cons f frames ih =>
    rw [List.map_cons, awaited_cons, awaited_cons, ih, behind, Construct.accepted_behind]

theorem loops_behind (frames : List Frame) :
    loops (frames.map (Frame.behind before)) = loops frames := by
  unfold loops
  rw [List.countP_map]
  refine List.countP_congr fun f _ => ?_
  simp [behind]

end Frame

namespace OpenTree

variable {settings : Settings} {depth : Nat}

theorem add_behind (t : OpenTree) (nodes : List Node) (findings : List Finding) :
    (t.behind before).add (Node.allBehind before nodes) (findings.map (Finding.behind before)) =
      (t.add nodes findings).behind before := by
  simp only [add, behind, Node.allBehind_append, List.map_append]

theorem enter_behind (t : OpenTree) (construct : Construct) (findings : List Finding) :
    (t.behind before).enter (construct.behind before) (findings.map (Finding.behind before)) =
      (t.enter construct findings).behind before := by
  simp only [enter, behind, List.map_append, List.map_cons, Frame.behind, Node.allBehind_nil]

theorem unwind_behind (tags : TagSet) (terminator : Option TagKind) (frames : List Frame)
    (nodes : List Node) (findings : List Finding) :
    unwind tags terminator (frames.map (Frame.behind before)) (Node.allBehind before nodes)
        (findings.map (Finding.behind before)) =
      (unwind tags terminator frames nodes findings).behind before := by
  induction frames generalizing nodes findings with
  | nil => rfl
  | cons f frames ih =>
    rw [List.map_cons, unwind, unwind, Frame.behind, Construct.accepted_behind]
    split
    · rfl
    · rw [← ih, ← Frame.close_behind, Construct.unclosed_behind, List.map_append]
      rfl

theorem terminate_behind (tags : TagSet) (tag : Tag) (t : OpenTree) :
    (t.behind before).terminate tags (tag.behind before) =
      (t.terminate tags tag).behind before := by
  obtain ⟨frames, nodes, findings⟩ := t
  have hclose (f : Frame) (frames : List Frame) :
      (⟨frames.map (Frame.behind before), (f.behind before).close (Node.allBehind before nodes),
          findings.map (Finding.behind before)⟩ : OpenTree) =
        OpenTree.behind before ⟨frames, f.close nodes, findings⟩ := by
    rw [Frame.close_behind]
    rfl
  match frames with
  | [] => rfl
  | ⟨.alternative opener all, outer⟩ :: frames => exact hclose _ frames
  | ⟨.loop opener name, outer⟩ :: frames => exact hclose _ frames
  | ⟨.arms opener finished test, outer⟩ :: frames =>
    have hkind : (tag.behind before).kind = tag.kind := rfl
    have htest : (tag.behind before).test tags = tag.test tags := rfl
    simp only [behind, List.map_cons, Frame.behind, Construct.behind, terminate, hkind, htest]
    split
    · simp only [Tag.judge_behind, List.map_append, List.map_cons, List.map_nil,
        Node.allBehind_nil, Frame.behind, Construct.behind]
    · simp only [List.map_append, List.map_cons, List.map_nil, Node.allBehind_nil, Frame.behind,
        Construct.behind]
    · exact hclose ⟨.arms opener finished test, outer⟩ frames

theorem step_behind (t : OpenTree) (item : Item) :
    step settings depth (t.behind before) (item.behind before) =
      (step settings depth t item).behind before := by
  match item with
  | .text span => exact add_behind before t [.text span] []
  | .finding f => exact add_behind before t [] [f]
  | .tag tag =>
    have hkind : (tag.behind before).kind = tag.kind := rfl
    have htest : (tag.behind before).test settings.tags = tag.test settings.tags := rfl
    have hname : (tag.behind before).name settings.tags = tag.name settings.tags := rfl
    -- where a tag goes is decided by its kind and by what is awaited, and neither moves
    by_cases ht : tag.kind.isTerminator
    · have hawaited : Frame.awaited (t.behind before).frames = Frame.awaited t.frames :=
        Frame.awaited_behind before t.frames
      simp only [Item.behind, step, hkind, ht, if_true, hawaited]
      split
      · rw [← terminate_behind, ← unwind_behind]
        rfl
      · exact add_behind before t [] [tag.finding _]
    · by_cases hc : tag.kind = .cond
      · rw [Item.behind, step_cond (hkind.trans hc), step_cond hc, htest]
        simp only [Tag.judge_behind]
        exact enter_behind before t (.arms tag [] _) _
      · by_cases hl : tag.kind = .loop
        · rw [Item.behind, step_loop (hkind.trans hl), step_loop hl, hname]
          simp only [Tag.judge_behind]
          exact enter_behind before t (.loop tag _) _
        · have hloops : Frame.loops (t.behind before).frames = Frame.loops t.frames :=
            Frame.loops_behind before t.frames
          have hmoved : step settings depth (t.behind before) (.tag (tag.behind before)) = _ :=
            step_leaf ht hc hl
          rw [Item.behind, hmoved, step_leaf ht hc hl, hloops, Tag.leaf_behind]
          dsimp only
          rw [← add_behind]
          cases tag.leaf settings depth (Frame.loops t.frames) <;> rfl

theorem run_behind (t : OpenTree) (items : List Item) :
    run settings depth (t.behind before) (items.map (Item.behind before)) =
      (Node.allBehind before (run settings depth t items).1,
        (run settings depth t items).2.map (Finding.behind before)) := by
  induction items generalizing t with
  | nil =>
    have hclosed := unwind_behind before settings.tags none t.frames t.nodes t.findings
    exact congrArg (fun closed : OpenTree => (closed.nodes, closed.findings)) hclosed
  | cons item items ih => rw [List.map_cons, run_cons, step_behind, ih, run_cons]

theorem run_of_finished (nodes : List Node) (findings : List Finding) (items : List Item) :
    run settings depth ⟨[], nodes, findings⟩ items =
      (nodes ++ (Tree.ofItems settings depth items).1,
        findings ++ (Tree.ofItems settings depth items).2) := by
  rw [run_list]
  simp [Frame.awaited, Frame.loops, Tree.rest_list_nil, Tree.ofItems_eq, run, add, finish, unwind]

theorem frames_of_finish {tags : TagSet} {t : OpenTree} (h : (t.finish tags).2 = []) :
    t.frames = [] := by
  obtain ⟨frames, nodes, findings⟩ := t
  cases frames with
  | nil => rfl
  | cons f frames =>
    have hprefix : findings ++ [f.construct.unclosed tags] <+:
        (finish tags ⟨f :: frames, nodes, findings⟩).2 := by
      unfold finish unwind
      simp only [Option.mem_def, reduceCtorEq, false_and, exists_false, if_false]
      exact prefix_unwind tags none frames _ _
    rw [h, List.prefix_nil] at hprefix
    simp at hprefix

theorem finding_mem_run {t : OpenTree} {items : List Item} {f : Finding}
    (hm : .finding f ∈ items) : f ∈ (run settings depth t items).2 := by
  induction items generalizing t with
  | nil => cases hm
  | cons item items ih =>
    rw [run_cons]
    rcases List.mem_cons.mp hm with rfl | hm
    · refine (prefix_run _ items).subset ?_
      exact List.mem_append_right _ (List.mem_singleton.mpr rfl)
    · exact ih hm

end OpenTree

namespace Tree

variable {settings : Settings} {depth : Nat}

/-- Items without findings of their own, followed by others: the trees stand one after the other. -/
theorem ofItems_append {items : List Item} (h : (ofItems settings depth items).2 = [])
    (more : List Item) :
    ofItems settings depth (items ++ more) =
      ((ofItems settings depth items).1 ++ (ofItems settings depth more).1,
        (ofItems settings depth more).2) := by
  have hfinish : ofItems settings depth items =
      (OpenTree.opened settings depth items).finish settings.tags := OpenTree.ofItems_eq_run items
  rw [hfinish] at h ⊢
  rw [OpenTree.ofItems_append]
  have hframes := OpenTree.frames_of_finish h
  generalize OpenTree.opened settings depth items = t at h hframes ⊢
  obtain ⟨frames, nodes, findings⟩ := t
  obtain rfl : frames = [] := hframes
  obtain rfl : findings = [] := h
  exact OpenTree.run_of_finished nodes [] more

theorem ofItems_behind (items : List Item) :
    ofItems settings depth (items.map (Item.behind before)) =
      (Node.allBehind before (ofItems settings depth items).1,
        (ofItems settings depth items).2.map (Finding.behind before)) := by
  rw [OpenTree.ofItems_eq_run, OpenTree.ofItems_eq_run]
  exact OpenTree.run_behind before {} items

end Tree

def Diagnostic.behind (d : Diagnostic) (text : String) : Diagnostic :=
  { d with
    location := d.location.map fun l =>
      ⟨Text.lineFeeds text.toList + l.line, l.span.behind text.toList, text ++ l.source⟩ }

/-- Two sources joined, the first without faults and with a tag or a comment at its end, have the
tree of the first and then, moved, that of the second, whose diagnostics are moved as well. -/
theorem Template.parse_append {settings : Settings} (hv : settings.tags.emptyEntry? = none)
    {c : Char} (hs : settings.tags.SealedBy c) {a : String} (ha : settings.tags.EndsClosed a)
    {name : String} {path : Option String} {depth : Nat}
    (hd : (parse settings name path a depth).diagnostics = []) (b : String) :
    (parse settings name path (a ++ b) depth).root =
        (parse settings name path a depth).root ++
          (parse settings name path b depth).root.map (Node.behind a.toList) ∧
      (parse settings name path (a ++ b) depth).diagnostics =
        (parse settings name path b depth).diagnostics.map (·.behind a) := by
  have hfindings : (Tree.ofItems settings depth (Item.scan settings.tags a)).2 = [] :=
    List.map_eq_nil_iff.mp hd
  have hclean : ∀ f, .finding f ∉ Item.scan settings.tags a := by
    intro f hf
    have hm : f ∈ (Tree.ofItems settings depth (Item.scan settings.tags a)).2 := by
      rw [OpenTree.ofItems_eq_run]
      exact OpenTree.finding_mem_run hf
    rw [hfindings] at hm
    cases hm
  have htree := Tree.ofItems_append hfindings
    ((Item.scan settings.tags b).map (Item.behind a.toList))
  rw [← Item.scan_append hv hs ha hclean, Tree.ofItems_behind, Node.allBehind_eq_map] at htree
  unfold parse
  rw [htree]
  refine ⟨rfl, ?_⟩
  dsimp only
  rw [List.map_map, List.map_map]
  rfl

end Stencil
