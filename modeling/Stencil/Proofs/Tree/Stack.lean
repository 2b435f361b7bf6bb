import Stencil.Proofs.Tree.Reading

/-! Building a tree with a stack of open constructs.
Every item is one step of a machine. A terminator closes what has been opened inside the innermost
construct that accepts it, and the end of the items closes everything. The main statement says that
the recursive readers, which hand each other the terminators to stop at, build the same tree and
find the same in the same order. -/
namespace Stencil

/-- A conditional or a loop that is not closed yet. -/
inductive Construct
  /-- A conditional before its ELSE: the arms that are finished, the opener's first, and the test
  of the arm that is being read. -/
  | arms (opener : Tag) (finished : List Arm) (test : Option Test)
  /-- A conditional after its ELSE. -/
  | alternative (opener : Tag) (all : List Arm)
  | loop (opener : Tag) (name : Option String)

namespace Construct

def opener : Construct → Tag
  | arms opener _ _ => opener
  | alternative opener _ => opener
  | loop opener _ => opener

def accepted : Construct → List TagKind
  | arms .. => [.elsif, .alt, .endif]
  | alternative .. => [.endif]
  | loop .. => [.endloop]

def closing : Construct → TagKind
  | loop .. => .endloop
  | _ => .endif

theorem closing_mem_accepted (c : Construct) : c.closing ∈ c.accepted := by
  cases c <;> simp [closing, accepted]

theorem isTerminator_of_accepted {c : Construct} {kind : TagKind} (h : kind ∈ c.accepted) :
    kind.isTerminator := by
  cases c <;> simp only [accepted, List.mem_cons, List.not_mem_nil, or_false] at h
  · rcases h with rfl | rfl | rfl <;> rfl
  · subst h
    rfl
  · subst h
    rfl

/-- The nodes of a conditional with these arms: none if the first of them was faulty. -/
def chain (all : List Arm) (alternative : List Node) : List Node :=
  match all with
  | (some test, yes) :: more => [.cond test yes (Tree.foldArms more alternative)]
  | _ => []

def nodes (last : List Node) : Construct → List Node
  | arms _ finished test => chain (finished ++ [(test, last)]) []
  | alternative _ all => chain all last
  | loop _ (some name) => [.loop name last]
  | loop _ none => []

def unclosed (tags : TagSet) (c : Construct) : Finding :=
  c.opener.finding (.unclosed (tags.keyword c.opener.kind) (tags.keyword c.closing))

end Construct

/-- An open construct, and the nodes before it in the list where it stands. -/
structure Frame where
  construct : Construct
  before : List Node

namespace Frame

def close (f : Frame) (last : List Node) : List Node := f.before ++ f.construct.nodes last

def awaited (frames : List Frame) : StopSet := frames.flatMap fun f => f.construct.accepted

@[simp] theorem awaited_cons (f : Frame) (frames : List Frame) :
    awaited (f :: frames) = f.construct.accepted ++ awaited frames := rfl

def loops (frames : List Frame) : Nat := frames.countP fun f => f.construct.closing = .endloop

@[simp] theorem loops_loop (opener : Tag) (name : Option String) (before : List Node)
    (frames : List Frame) : loops (⟨.loop opener name, before⟩ :: frames) = loops frames + 1 := by
  simp [loops, Construct.closing]

@[simp] theorem loops_arms (opener : Tag) (finished : List Arm) (test : Option Test)
    (before : List Node) (frames : List Frame) :
    loops (⟨.arms opener finished test, before⟩ :: frames) = loops frames := by
  simp [loops, Construct.closing]

@[simp] theorem loops_alternative (opener : Tag) (all : List Arm) (before : List Node)
    (frames : List Frame) :
    loops (⟨.alternative opener all, before⟩ :: frames) = loops frames := by
  simp [loops, Construct.closing]

end Frame

/-- A tree that is being built: the open constructs, the innermost first, the nodes of the list
that is being read, and the findings so far. -/
structure OpenTree where
  frames : List Frame := []
  nodes : List Node := []
  findings : List Finding := []

namespace OpenTree

def add (t : OpenTree) (nodes : List Node) (findings : List Finding) : OpenTree :=
  { t with nodes := t.nodes ++ nodes, findings := t.findings ++ findings }

def enter (t : OpenTree) (construct : Construct) (findings : List Finding) : OpenTree :=
  ⟨⟨construct, t.nodes⟩ :: t.frames, [], t.findings ++ findings⟩

/-- Closes the innermost constructs, each with a finding, up to the first that accepts the
terminator. Without a terminator all of them are closed. -/
def unwind (tags : TagSet) (terminator : Option TagKind) :
    List Frame → List Node → List Finding → OpenTree
  | [], nodes, findings => ⟨[], nodes, findings⟩
  | f :: frames, nodes, findings =>
    if ∃ kind ∈ terminator, kind ∈ f.construct.accepted then ⟨f :: frames, nodes, findings⟩
    else unwind tags terminator frames (f.close nodes) (findings ++ [f.construct.unclosed tags])

@[simp] theorem frames_unwind_none (tags : TagSet) (frames : List Frame) (nodes : List Node)
    (findings : List Finding) : (unwind tags none frames nodes findings).frames = [] := by
  induction frames generalizing nodes findings with
  | nil => rfl
  | cons f frames ih => simp [unwind, ih]

/-- Applies a terminator to the innermost construct, which accepts it. -/
def terminate (tags : TagSet) (tag : Tag) : OpenTree → OpenTree
  | ⟨⟨.arms opener finished test, before⟩ :: frames, nodes, findings⟩ =>
    match tag.kind with
    | .elsif =>
      let next := tag.judge (tag.test tags)
      ⟨⟨.arms opener (finished ++ [(test, nodes)]) next.1, before⟩ :: frames, [],
        findings ++ next.2⟩
    | .alt => ⟨⟨.alternative opener (finished ++ [(test, nodes)]), before⟩ :: frames, [], findings⟩
    | _ => ⟨frames, Frame.close ⟨.arms opener finished test, before⟩ nodes, findings⟩
  | ⟨f :: frames, nodes, findings⟩ => ⟨frames, f.close nodes, findings⟩
  | ⟨[], nodes, findings⟩ => ⟨[], nodes, findings⟩

def step (settings : Settings) (depth : Nat) (t : OpenTree) : Item → OpenTree
  | .text span => t.add [.text span] []
  | .finding f => t.add [] [f]
  | .tag tag =>
    if tag.kind.isTerminator then
      if tag.kind ∈ Frame.awaited t.frames then
        (unwind settings.tags (some tag.kind) t.frames t.nodes t.findings).terminate
          settings.tags tag
      else t.add [] [tag.finding (.unexpected (settings.tags.keyword tag.kind))]
    else
      match tag.kind with
      | .cond =>
        let test := tag.judge (tag.test settings.tags)
        t.enter (.arms tag [] test.1) test.2
      | .loop =>
        let name := tag.judge (tag.name settings.tags)
        t.enter (.loop tag name.1) name.2
      | _ =>
        let built := tag.judge (tag.leaf settings depth (Frame.loops t.frames))
        t.add (built.1.getD []) built.2

def finish (tags : TagSet) (t : OpenTree) : List Node × List Finding :=
  let closed := unwind tags none t.frames t.nodes t.findings
  (closed.nodes, closed.findings)

def run (settings : Settings) (depth : Nat) (t : OpenTree) (items : List Item) :
    List Node × List Finding :=
  (items.foldl (step settings depth) t).finish settings.tags

section Simulation

variable {settings : Settings} {depth : Nat}

theorem run_cons (t : OpenTree) (item : Item) (items : List Item) :
    run settings depth t (item :: items) =
      run settings depth (step settings depth t item) items := rfl

theorem step_cond {t : OpenTree} {tag : Tag} (hk : tag.kind = .cond) :
    step settings depth t (.tag tag) =
      let test := tag.judge (tag.test settings.tags)
      t.enter (.arms tag [] test.1) test.2 := by
  have ht : ¬ tag.kind.isTerminator := by simp [hk, TagKind.isTerminator]
  simp only [step]
  rw [if_neg ht]
  simp only [hk]

theorem step_loop {t : OpenTree} {tag : Tag} (hk : tag.kind = .loop) :
    step settings depth t (.tag tag) =
      let name := tag.judge (tag.name settings.tags)
      t.enter (.loop tag name.1) name.2 := by
  have ht : ¬ tag.kind.isTerminator := by simp [hk, TagKind.isTerminator]
  simp only [step]
  rw [if_neg ht]
  simp only [hk]

theorem step_leaf {t : OpenTree} {tag : Tag} (ht : ¬ tag.kind.isTerminator)
    (hc : tag.kind ≠ .cond) (hl : tag.kind ≠ .loop) :
    step settings depth t (.tag tag) =
      let built := tag.judge (tag.leaf settings depth (Frame.loops t.frames))
      t.add (built.1.getD []) built.2 := by
  simp only [step]
  rw [if_neg ht]

theorem step_frame {f : Frame} {frames : List Frame} {nodes : List Node} {findings : List Finding}
    {tag : Tag} (ht : tag.kind.isTerminator) (ha : tag.kind ∉ f.construct.accepted)
    (hw : tag.kind ∈ Frame.awaited frames) :
    step settings depth ⟨f :: frames, nodes, findings⟩ (.tag tag) =
      step settings depth
        ⟨frames, f.close nodes, findings ++ [f.construct.unclosed settings.tags]⟩ (.tag tag) := by
  have hw' : tag.kind ∈ Frame.awaited (f :: frames) := by
    rw [Frame.awaited_cons]
    exact List.mem_append_right _ hw
  simp only [step, ht, hw, hw', if_true, unwind, Option.mem_def, Option.some.injEq,
    exists_eq_left', ha, if_false]

theorem step_accepted {f : Frame} {frames : List Frame} {nodes : List Node}
    {findings : List Finding} {tag : Tag} (ht : tag.kind.isTerminator)
    (ha : tag.kind ∈ f.construct.accepted) :
    step settings depth ⟨f :: frames, nodes, findings⟩ (.tag tag) =
      terminate settings.tags tag ⟨f :: frames, nodes, findings⟩ := by
  have hw : tag.kind ∈ Frame.awaited (f :: frames) := by
    rw [Frame.awaited_cons]
    exact List.mem_append_left _ ha
  simp only [step, ht, hw, if_true, unwind, Option.mem_def, Option.some.injEq,
    exists_eq_left', ha]

theorem terminate_closing {f : Frame} {frames : List Frame} {nodes : List Node}
    {findings : List Finding} {tag : Tag} (hk : tag.kind = f.construct.closing) :
    terminate settings.tags tag ⟨f :: frames, nodes, findings⟩ =
      ⟨frames, f.close nodes, findings⟩ := by
  obtain ⟨construct, before⟩ := f
  cases construct with
  | arms opener finished test =>
    have hk' : tag.kind = .endif := hk
    simp only [terminate, hk']
  | alternative opener all => rfl
  | loop opener name => rfl

/-- Closing the innermost construct, by its terminator or for want of it, is what the machine does
where a list of the construct has come to its end. -/
theorem run_close {f : Frame} {frames : List Frame} {nodes : List Node} {findings : List Finding}
    {items : List Item}
    (hh : Tree.Halts (f.construct.accepted ++ Frame.awaited frames) items)
    (hn : ∀ kind ∈ f.construct.accepted, kind ≠ f.construct.closing →
      Tree.take? kind items = none) :
    run settings depth ⟨f :: frames, nodes, findings⟩ items =
      let closed := Tree.close settings.tags f.construct.opener f.construct.closing items
      run settings depth ⟨frames, f.close nodes, findings ++ closed.1⟩ closed.2 := by
  cases hc : Tree.take? f.construct.closing items with
  | some p =>
    obtain ⟨tag, rest⟩ := p
    obtain ⟨rfl, hk⟩ := Tree.take?_eq_some_iff.mp hc
    have ha : tag.kind ∈ f.construct.accepted := hk ▸ f.construct.closing_mem_accepted
    have ht : tag.kind.isTerminator := f.construct.isTerminator_of_accepted ha
    simp only [Tree.close, hc, run, List.foldl_cons, List.append_nil]
    rw [step_accepted ht ha, terminate_closing hk]
  | none =>
    simp only [Tree.close, hc]
    rcases hh with rfl | ⟨tag, more, rfl, ht, hw⟩
    · simp [run, finish, unwind, Construct.unclosed]
    · have ha : tag.kind ∉ f.construct.accepted := by
        intro ha
        by_cases hk : tag.kind = f.construct.closing
        · exact Tree.take?_eq_none_iff.mp hc _ _ rfl hk
        · exact Tree.take?_eq_none_iff.mp (hn _ ha hk) _ _ rfl rfl
      have hw' : tag.kind ∈ Frame.awaited frames := (List.mem_append.mp hw).resolve_left ha
      simp only [run, List.foldl_cons]
      rw [step_frame ht ha hw']
      rfl

mutual

/-- The machine reads a list as the recursive reader does that stops at the awaited terminators. -/
theorem run_list (t : OpenTree) (items : List Item) :
    run settings depth t items =
      let p := Tree.list settings depth (Frame.awaited t.frames) (Frame.loops t.frames) items
      run settings depth (t.add p.nodes p.findings) p.rest := by
  match items with
  | [] => simp [add]
  | .text span :: items =>
    have ih := run_list (t.add [.text span] []) items
    simpa [Tree.list_text, run_cons, step, add] using ih
  | .finding f :: items =>
    have ih := run_list (t.add [] [f]) items
    simpa [Tree.list_finding, run_cons, step, add] using ih
  | .tag tag :: items =>
    by_cases ht : tag.kind.isTerminator
    · by_cases hs : tag.kind ∈ Frame.awaited t.frames
      · simp [Tree.list_stop ht hs, add]
      · have ih := run_list
          (t.add [] [tag.finding (.unexpected (settings.tags.keyword tag.kind))]) items
        simpa [Tree.list_unexpected ht hs, run_cons, step, ht, hs, add] using ih
    · have hn := run_node t ht items
      have hl := Tree.length_node_le settings depth (Frame.awaited t.frames)
        (Frame.loops t.frames) tag items
      generalize hp : Tree.node settings depth (Frame.awaited t.frames) (Frame.loops t.frames) tag
        items = p at hn hl
      have ih := run_list (t.add p.nodes p.findings) p.rest
      rw [hn, Tree.list_node ht, hp]
      simpa [add] using ih
termination_by 3 * items.length + 0

theorem run_node (t : OpenTree) {tag : Tag} (ht : ¬ tag.kind.isTerminator) (items : List Item) :
    run settings depth t (.tag tag :: items) =
      let p := Tree.node settings depth (Frame.awaited t.frames) (Frame.loops t.frames) tag items
      run settings depth (t.add p.nodes p.findings) p.rest := by
  rw [run_cons]
  by_cases hc : tag.kind = .cond
  · rw [step_cond hc, Tree.node_cond hc]
    exact run_conditional t tag items
  · by_cases hl : tag.kind = .loop
    · rw [step_loop hl, Tree.node_loop hl]
      exact run_loop t tag items
    · rw [step_leaf ht hc hl, Tree.node_leaf hc hl]
termination_by 3 * items.length + 2

theorem run_conditional (t : OpenTree) (opener : Tag) (items : List Item) :
    let test := opener.judge (opener.test settings.tags)
    run settings depth (t.enter (.arms opener [] test.1) test.2) items =
      let p := Tree.conditional settings depth (Frame.awaited t.frames) (Frame.loops t.frames)
        opener items
      run settings depth (t.add p.nodes p.findings) p.rest := by
  intro test
  simp only [enter]
  have hb := run_list ⟨⟨.arms opener [] test.1, t.nodes⟩ :: t.frames, [], t.findings ++ test.2⟩ items
  simp only [Frame.awaited_cons, Construct.accepted, Frame.loops_arms, List.cons_append,
    List.nil_append, add] at hb
  have hbl := Tree.length_list_le settings depth
    (.elsif :: .alt :: .endif :: Frame.awaited t.frames) (Frame.loops t.frames) items
  have hbh := Tree.halts_list settings depth
    (.elsif :: .alt :: .endif :: Frame.awaited t.frames) (Frame.loops t.frames) items
  rw [Tree.conditional_eq]
  dsimp only
  generalize Tree.list settings depth (.elsif :: .alt :: .endif :: Frame.awaited t.frames)
    (Frame.loops t.frames) items = body at hb hbl hbh
  obtain ⟨finished, last, nodes, harms, ha⟩ := run_arms opener [] test.1 t.nodes t.frames
    body.nodes (t.findings ++ test.2 ++ body.findings) body.rest
  have hal := Tree.length_arms_le settings depth
    (.elsif :: .alt :: .endif :: Frame.awaited t.frames) (Frame.loops t.frames) body.rest
  have hah := Tree.halts_arms settings depth _ (Frame.loops t.frames) body.rest hbh
  generalize Tree.arms settings depth (.elsif :: .alt :: .endif :: Frame.awaited t.frames)
    (Frame.loops t.frames) body.rest = arms at harms ha hal hah
  have hc := run_alternative opener finished last t.nodes t.frames nodes
    (t.findings ++ test.2 ++ body.findings ++ arms.findings) arms.rest hah.1 hah.2
  rw [hb, ha, hc, harms]
  cases test.1 <;> simp [add, Construct.chain, test]
termination_by 3 * items.length + 1

theorem run_arms (opener : Tag) (finished : List Arm) (test : Option Test) (before : List Node)
    (frames : List Frame) (nodes : List Node) (findings : List Finding) (items : List Item) :
    let p := Tree.arms settings depth (.elsif :: .alt :: .endif :: Frame.awaited frames)
      (Frame.loops frames) items
    ∃ finished' test' nodes', finished' ++ [(test', nodes')] = finished ++ (test, nodes) :: p.arms ∧
      run settings depth ⟨⟨.arms opener finished test, before⟩ :: frames, nodes, findings⟩ items =
        run settings depth ⟨⟨.arms opener finished' test', before⟩ :: frames, nodes',
          findings ++ p.findings⟩ p.rest := by
  match h : Tree.take? .elsif items with
  | none =>
    rw [Tree.arms_none h]
    exact ⟨finished, test, nodes, rfl, by simp⟩
  | some (tag, rest) =>
    have hlen := Tree.length_of_take? h
    obtain ⟨rfl, hk⟩ := Tree.take?_eq_some_iff.mp h
    have hb := run_list ⟨⟨.arms opener (finished ++ [(test, nodes)])
      (tag.judge (tag.test settings.tags)).1, before⟩ :: frames, [],
      findings ++ (tag.judge (tag.test settings.tags)).2⟩ rest
    simp only [Frame.awaited_cons, Construct.accepted, Frame.loops_arms, List.cons_append,
      List.nil_append, add] at hb
    have hbl := Tree.length_list_le settings depth
      (.elsif :: .alt :: .endif :: Frame.awaited frames) (Frame.loops frames) rest
    rw [Tree.arms_some h, run_cons, step_accepted (by simp [hk, TagKind.isTerminator])
      (by simp [hk, Construct.accepted])]
    simp only [terminate, hk]
    rw [hb]
    obtain ⟨finished', test', nodes', harms, ha⟩ := run_arms opener (finished ++ [(test, nodes)])
      (tag.judge (tag.test settings.tags)).1 before frames
      (Tree.list settings depth (.elsif :: .alt :: .endif :: Frame.awaited frames)
        (Frame.loops frames) rest).nodes
      (findings ++ (tag.judge (tag.test settings.tags)).2 ++
        (Tree.list settings depth (.elsif :: .alt :: .endif :: Frame.awaited frames)
          (Frame.loops frames) rest).findings)
      (Tree.list settings depth (.elsif :: .alt :: .endif :: Frame.awaited frames)
        (Frame.loops frames) rest).rest
    refine ⟨finished', test', nodes', by simp [harms], ?_⟩
    rw [ha]
    simp only [List.append_assoc]
termination_by 3 * items.length + 0

theorem run_alternative (opener : Tag) (finished : List Arm) (test : Option Test)
    (before : List Node) (frames : List Frame) (nodes : List Node) (findings : List Finding)
    (items : List Item)
    (hh : Tree.Halts (.elsif :: .alt :: .endif :: Frame.awaited frames) items)
    (he : Tree.take? .elsif items = none) :
    let p := Tree.alternative settings depth (Frame.awaited frames) (Frame.loops frames) items
    let closed := Tree.close settings.tags opener .endif p.rest
    run settings depth ⟨⟨.arms opener finished test, before⟩ :: frames, nodes, findings⟩ items =
      run settings depth ⟨frames, before ++ Construct.chain (finished ++ [(test, nodes)]) p.nodes,
        findings ++ p.findings ++ closed.1⟩ closed.2 := by
  match h : Tree.take? .alt items with
  | none =>
    rw [Tree.alternative_none h, run_close (f := ⟨.arms opener finished test, before⟩) hh]
    · simp [Construct.opener, Construct.closing, Frame.close, Construct.nodes]
    · intro kind ha hc
      simp only [Construct.accepted, List.mem_cons, List.not_mem_nil, or_false] at ha
      rcases ha with rfl | rfl | rfl
      · exact he
      · exact h
      · exact absurd rfl hc
  | some (tag, rest) =>
    have hlen := Tree.length_of_take? h
    obtain ⟨rfl, hk⟩ := Tree.take?_eq_some_iff.mp h
    have hb := run_list ⟨⟨.alternative opener (finished ++ [(test, nodes)]), before⟩ :: frames, [],
      findings⟩ rest
    simp only [Frame.awaited_cons, Construct.accepted, Frame.loops_alternative, List.cons_append,
      List.nil_append, add] at hb
    rw [Tree.alternative_some h, run_cons, step_accepted (by simp [hk, TagKind.isTerminator])
      (by simp [hk, Construct.accepted])]
    simp only [terminate, hk]
    rw [hb, run_close (f := ⟨.alternative opener (finished ++ [(test, nodes)]), before⟩)]
    · simp [Construct.opener, Construct.closing, Frame.close, Construct.nodes]
    · exact Tree.halts_list settings depth _ _ rest
    · intro kind ha hc
      simp only [Construct.accepted, List.mem_singleton] at ha
      exact absurd ha hc
termination_by 3 * items.length + 0

theorem run_loop (t : OpenTree) (opener : Tag) (items : List Item) :
    let name := opener.judge (opener.name settings.tags)
    run settings depth (t.enter (.loop opener name.1) name.2) items =
      let p := Tree.loop settings depth (Frame.awaited t.frames) (Frame.loops t.frames)
        opener items
      run settings depth (t.add p.nodes p.findings) p.rest := by
  intro name
  simp only [enter]
  have hb := run_list ⟨⟨.loop opener name.1, t.nodes⟩ :: t.frames, [], t.findings ++ name.2⟩ items
  simp only [Frame.awaited_cons, Construct.accepted, Frame.loops_loop, List.cons_append,
    List.nil_append, add] at hb
  have hh := Tree.halts_list settings depth (.endloop :: Frame.awaited t.frames)
    (Frame.loops t.frames + 1) items
  rw [Tree.loop_eq, hb, run_close (f := ⟨.loop opener name.1, t.nodes⟩) hh]
  · cases hname : name.1 <;>
      simp [Construct.opener, Construct.closing, Frame.close, Construct.nodes, add, name, hname]
  · intro kind ha hc
    simp only [Construct.accepted, List.mem_singleton] at ha
    exact absurd ha hc
termination_by 3 * items.length + 1

end

/-- The recursive readers build what the machine builds. -/
theorem ofItems_eq_run (items : List Item) :
    Tree.ofItems settings depth items = run settings depth {} items := by
  rw [Tree.ofItems_eq, run_list]
  simp [Frame.awaited, Frame.loops, Tree.rest_list_nil, run, add, finish, unwind]

end Simulation

/-- Reading is the machine: the same tree, and the same findings in the same order, with no item
left over once the outermost list is read. -/
theorem readers_eq_stack_machine (settings : Settings) (depth : Nat) (items : List Item) :
    Tree.ofItems settings depth items =
        (items.foldl (step settings depth) {}).finish settings.tags ∧
      (Tree.readList settings depth [] 0 items).1.rest = [] :=
  ⟨ofItems_eq_run items, Tree.rest_list_nil settings depth items⟩

end OpenTree
end Stencil
