import Stencil.Proofs.Tree.LeftOut
import Stencil.Proofs.Tree.Outline

/-! How far the fault of one tag reaches.
A tag with faulty attributes opens and closes the same constructs as with sound ones, so what
follows it is read alike. The main statement says that the fault costs one node of the tree and one
finding, wherever the tag stands. -/
namespace Stencil

namespace Node

/-- A tree with one place in it where a list of nodes stands. -/
inductive Placed : (List Node → List Node) → Prop
  | here : Placed fun x => x
  | beside {tree : List Node → List Node} (before after : List Node) :
      Placed tree → Placed fun x => before ++ tree x ++ after
  | yes {tree : List Node → List Node} (test : Test) (no : List Node) :
      Placed tree → Placed fun x => [.cond test (tree x) no]
  | no {tree : List Node → List Node} (test : Test) (yes : List Node) :
      Placed tree → Placed fun x => [.cond test yes (tree x)]
  | body {tree : List Node → List Node} (name : String) :
      Placed tree → Placed fun x => [.loop name (tree x)]

/-- A tree in which a list of nodes has one place, or none if the list is left out. -/
structure Carries (lost : Bool) (tree : List Node → List Node) : Prop where
  const : lost = true → ∀ x y, tree x = tree y
  placed : lost = false → Placed tree

namespace Carries

theorem here : Carries false fun x => x := ⟨Bool.noConfusion, fun _ => .here⟩

theorem gone {tree : List Node → List Node} (h : ∀ x y, tree x = tree y) : Carries true tree :=
  ⟨fun _ => h, Bool.noConfusion⟩

variable {lost : Bool} {tree : List Node → List Node}

theorem map (h : Carries lost tree) (g : List Node → List Node)
    (hg : ∀ {tree : List Node → List Node}, Placed tree → Placed fun x => g (tree x)) :
    Carries lost fun x => g (tree x) :=
  ⟨fun hl x y => congrArg g (h.const hl x y), fun hl => hg (h.placed hl)⟩

theorem beside (h : Carries lost tree) (before after : List Node) :
    Carries lost fun x => before ++ tree x ++ after :=
  h.map (fun x => before ++ x ++ after) (.beside before after)

theorem after (h : Carries lost tree) (before : List Node) :
    Carries lost fun x => before ++ tree x := by
  simpa using h.beside before []

theorem before (h : Carries lost tree) (after : List Node) :
    Carries lost fun x => tree x ++ after := by
  simpa using h.beside [] after

theorem part {out : Bool} {g : List Node → List Node} (h : Carries lost tree)
    (hout : out = true → ∀ x y, g x = g y)
    (hg : out = false → ∀ {tree : List Node → List Node},
      Placed tree → Placed fun x => g (tree x)) :
    Carries (out || lost) fun x => g (tree x) := by
  cases out with
  | true => exact gone fun x y => hout rfl _ _
  | false => exact h.map g (hg rfl)

end Carries

theorem Placed.foldArms {tree : List Node → List Node} (h : Placed tree) (arms : List Arm) :
    Placed fun x => Tree.foldArms arms (tree x) := by
  induction arms with
  | nil => exact h
  | cons arm arms ih =>
    obtain ⟨test, yes⟩ := arm
    cases test with
    | none => exact ih
    | some test => exact .no test yes ih

end Node

namespace Construct

open Node (Carries Placed)

variable {lost : Bool} {tree : List Node → List Node}

theorem foldArms_append (a b : List Arm) (alternative : List Node) :
    Tree.foldArms (a ++ b) alternative = Tree.foldArms a (Tree.foldArms b alternative) := by
  simp [Tree.foldArms]

theorem chain_append {a : List Arm} (ha : a ≠ []) (b : List Arm) (alternative : List Node) :
    chain (a ++ b) alternative = chain a (Tree.foldArms b alternative) := by
  match a, ha with
  | (some test, yes) :: a, _ => simp [chain, foldArms_append]
  | (none, yes) :: a, _ => rfl

theorem carries_chain (h : Carries lost tree) (all : List Arm) :
    Carries (opensFaulty all || lost) fun x => chain all (tree x) := by
  refine h.part (fun hf x y => ?_) (fun hf tree hp => ?_)
  · rw [chain_of_opensFaulty hf, chain_of_opensFaulty hf]
  · simpa only [chain_of_not_opensFaulty hf] using hp.foldArms all

/-- What one arm carries the conditional carries, unless the arm or the opening tag is faulty. -/
theorem carries_arm (h : Carries lost tree) (opener : Tag) (done : List Arm) (test : Option Test)
    (more : List Arm) (alternative : List Node) :
    Carries ((arms opener done test).discards || lost) fun x =>
      chain (done ++ (test, tree x) :: more) alternative := by
  have hfaulty (yes : List Node) := opensFaulty_append done test yes more
  have hfold (yes : List Node) :
      Tree.foldArms (done ++ (test, yes) :: more) alternative =
        Tree.foldArms done (Tree.foldArms ((test, yes) :: more) alternative) :=
    foldArms_append done _ alternative
  refine h.part (g := fun yes => chain (done ++ (test, yes) :: more) alternative)
    (fun hd x y => ?_) (fun hd tree hp => ?_)
  · by_cases hf : opensFaulty (done ++ [(test, [])]) = true
    · rw [chain_of_opensFaulty ((hfaulty x).trans hf), chain_of_opensFaulty ((hfaulty y).trans hf)]
    · have ht : test = none := by simpa [discards, isFaulty, hf] using hd
      rw [Bool.not_eq_true] at hf
      rw [chain_of_not_opensFaulty ((hfaulty x).trans hf),
        chain_of_not_opensFaulty ((hfaulty y).trans hf), hfold, hfold, ht]
      rfl
  · obtain ⟨hf, ht⟩ : opensFaulty (done ++ [(test, [])]) = false ∧ test.isNone = false := by
      simpa [discards, isFaulty] using hd
    obtain ⟨test, rfl⟩ : ∃ t, test = some t := by
      cases test with
      | none => cases ht
      | some t => exact ⟨t, rfl⟩
    simp only [chain_of_not_opensFaulty ((hfaulty _).trans hf), hfold]
    exact (hp.yes test (Tree.foldArms more alternative)).foldArms done

/-- The nodes of the construct once it is closed, if what it had read were these nodes and what
is read further are the rest of that list, more arms, and what no test holds for. -/
def completed (last : List Node) (more : List Arm) (alternative nodes : List Node) :
    Construct → List Node
  | arms _ done test => chain (done ++ (test, nodes ++ last) :: more) alternative
  | c => c.nodes (nodes ++ last)

theorem carries_completed (h : Carries lost tree) (last : List Node) (more : List Arm)
    (alternative : List Node) (c : Construct) :
    Carries (c.discards || lost) fun x => c.completed last more alternative (tree x) := by
  have hlast := h.before last
  cases c with
  | arms opener done test => exact carries_arm hlast opener done test more alternative
  | alternative opener all => exact carries_chain hlast all
  | loop opener name =>
    refine hlast.part (g := fun x => (loop opener name).nodes x) (fun hd x y => ?_)
      (fun hd tree hp => ?_)
    · cases name with
      | none => rfl
      | some name => cases hd
    · cases name with
      | none => cases hd
      | some name => exact hp.body name

theorem completed_of_accepted {c : Construct} (h : c.accepted = [c.closing]) (last : List Node)
    (more : List Arm) (alternative nodes : List Node) :
    c.completed last more alternative nodes = c.nodes (nodes ++ last) := by
  cases c with
  | arms opener done test => exact (accepted_arms_ne opener done test h).elim
  | alternative => rfl
  | loop => rfl

end Construct

namespace OpenTree

open Node (Carries Placed)

variable {settings : Settings} {depth : Nat}

theorem run_body {c c' : Construct} (hc : c'.outline = c.outline) (before : List Node)
    (frames : List Frame) (nodes : List Node) (findings : List Finding) (items : List Item) :
    let body := Tree.list settings depth (c.accepted ++ Frame.awaited frames)
      (Frame.loops (⟨c, []⟩ :: frames)) items
    run settings depth ⟨⟨c', before⟩ :: frames, nodes, findings⟩ items =
      run settings depth ⟨⟨c', before⟩ :: frames, nodes ++ body.nodes, findings ++ body.findings⟩
        body.rest := by
  have hall : Frame.outlines (⟨c', before⟩ :: frames) = Frame.outlines (⟨c, []⟩ :: frames) := by
    simp [Frame.outlines, hc]
  rw [run_list]
  simp only [Frame.awaited_of_outlines hall, Frame.loops_of_outlines hall]
  rfl

/-- Where a construct ends, and what has been found by then, does not depend on what has been read
of it before. -/
theorem run_construct (settings : Settings) (depth : Nat) (c : Construct) (frames : List Frame)
    (items : List Item) :
    ∃ last arms alternative more rest, ∀ c' : Construct, c'.outline = c.outline →
      ∀ before nodes findings,
        run settings depth ⟨⟨c', before⟩ :: frames, nodes, findings⟩ items =
          run settings depth ⟨frames, before ++ c'.completed last arms alternative nodes,
            findings ++ more⟩ rest := by
  let stop : StopSet := c.accepted ++ Frame.awaited frames
  let body := Tree.list settings depth stop (Frame.loops (⟨c, []⟩ :: frames)) items
  have hh : Tree.Halts stop body.rest := Tree.halts_list ..
  by_cases hs : c.accepted = [c.closing]
  · let closed := Tree.close settings.tags c.opener c.closing body.rest
    refine ⟨body.nodes, [], [], body.findings ++ closed.1, closed.2, ?_⟩
    intro c' hc before nodes findings
    have hs' : c'.accepted = [c'.closing] := by
      rw [Construct.accepted_of_outline hc, Construct.closing_of_outline hc, hs]
    rw [run_body hc, run_close, Construct.completed_of_accepted hs']
    · simp only [Construct.close_of_outline hc, Frame.close, List.append_assoc]
      rfl
    · simpa only [Construct.accepted_of_outline hc] using hh
    · intro kind ha hk
      rw [hs', List.mem_singleton] at ha
      exact absurd ha hk
  · obtain ⟨opener, done, test, rfl⟩ := Construct.exists_arms_of_accepted hs
    let arms := Tree.arms settings depth stop (Frame.loops frames) body.rest
    let alternative := Tree.alternative settings depth (Frame.awaited frames) (Frame.loops frames)
      arms.rest
    let closed := Tree.close settings.tags opener .endif alternative.rest
    refine ⟨body.nodes, arms.arms, alternative.nodes,
      body.findings ++ arms.findings ++ alternative.findings ++ closed.1, closed.2, ?_⟩
    intro c' hc before nodes findings
    obtain ⟨opener', done', test', rfl⟩ := Construct.exists_arms_of_outline hc
    have hah := Tree.halts_arms settings depth stop (Frame.loops frames) body.rest hh
    obtain ⟨done₁, test₁, nodes₁, harms, ha⟩ := @run_arms settings depth
      opener' done' test' before frames (nodes ++ body.nodes) (findings ++ body.findings) body.rest
    have hl := @run_alternative settings depth opener' done₁ test₁ before
      frames nodes₁ (findings ++ body.findings ++ arms.findings) arms.rest hah.1 hah.2
    have hcl : Tree.close settings.tags opener' .endif alternative.rest = closed :=
      Construct.close_of_outline hc settings.tags alternative.rest
    rw [run_body hc]
    refine ha.trans (hl.trans ?_)
    simp only [harms, Construct.completed]
    rw [hcl]
    simp only [List.append_assoc]
    rfl

/-- A list of nodes that has one place among those that have been read has one place in the tree,
unless something faulty is open around it. What else is read and found does not depend on it. -/
theorem run_carries (settings : Settings) (depth : Nat) {lost : Bool}
    {tree : List Node → List Node} (h : Carries lost tree)
    (frames : List Frame) (items : List Item) :
    ∃ tree' more, Carries (Frame.discards frames || lost) tree' ∧ ∀ x findings,
      run settings depth ⟨frames, tree x, findings⟩ items = (tree' x, findings ++ more) := by
  induction frames generalizing lost tree items with
  | nil =>
    let all := Tree.list settings depth [] 0 items
    refine ⟨_, all.findings, h.before all.nodes, fun x findings => ?_⟩
    rw [run_list]
    show run settings depth ⟨[], _, _⟩ all.rest = _
    rw [Tree.rest_list_nil]
    rfl
  | cons f frames ih =>
    obtain ⟨last, arms, alternative, more, rest, hrun⟩ :=
      run_construct settings depth f.construct frames items
    obtain ⟨tree', more', htree, hall⟩ :=
      ih ((f.construct.carries_completed h last arms alternative).after f.before) rest
    refine ⟨tree', more ++ more', ?_, fun x findings => ?_⟩
    · rwa [Frame.discards_cons, Bool.or_comm f.construct.discards, Bool.or_assoc]
    · rw [hrun f.construct rfl, hall, List.append_assoc]

theorem opened_append (before items : List Item) :
    opened settings depth (before ++ items) =
      items.foldl (step settings depth) (opened settings depth before) := List.foldl_append

theorem ofItems_append (before items : List Item) :
    Tree.ofItems settings depth (before ++ items) =
      run settings depth (opened settings depth before) items := by
  rw [ofItems_eq_run, run, List.foldl_append]
  rfl

/-- What the attributes of a tag decide, of which `reading` tells whether they are sound. With
sound ones the tree has the nodes `sound` in one place, and with faulty ones it has the nodes
`faulty` there; a fault is found next after `earlier`, and nothing else that is found or open after
any further items differs. The tree is the same in either case if the place is lost. -/
structure FaultIsLocal {α : Type} (settings : Settings) (depth : Nat) (before after : List Item)
    (tag : Tag) (reading : Tag → Except Problem α) (earlier : List Finding) (lost : Bool)
    (sound : α → List Node) (faulty : List Node) : Prop where
  result : ∃ tree more, Carries lost tree ∧ ∀ attributes,
    Tree.ofItems settings depth (before ++ .tag { tag with attributes } :: after) =
      match reading { tag with attributes } with
      | .ok a => (tree (sound a), earlier ++ more)
      | .error problem => (tree faulty, earlier ++ tag.finding problem :: more)
  ahead : ∀ good bad a problem, reading { tag with attributes := good } = .ok a →
    reading { tag with attributes := bad } = .error problem → ∀ upto,
      AheadBy (tag.finding problem) earlier
        (opened settings depth (before ++ .tag { tag with attributes := good } :: upto))
        (opened settings depth (before ++ .tag { tag with attributes := bad } :: upto))

theorem faultIsLocal_of_step {α : Type} (settings : Settings) (depth : Nat)
    {before : List Item} {tag : Tag} (reading : Tag → Except Problem α) {earlier : List Finding}
    {outer : List Frame} {outside : List Node} {c₀ : Construct}
    (c : List Attribute → Option α → Construct)
    (hc : ∀ attributes a, (c attributes a).outline = c₀.outline)
    (hstep : ∀ attributes,
      step settings depth (opened settings depth before) (.tag { tag with attributes }) =
        let judged := tag.judge (reading { tag with attributes })
        ⟨⟨c attributes judged.1, outside⟩ :: outer, [], earlier ++ judged.2⟩) (after : List Item) :
    ∃ last arms alternative, ∀ {lost : Bool} {tree : List Node → List Node} {sound : α → List Node}
      {faulty : List Node}, Carries lost tree →
      (∀ attributes a, (c attributes (some a)).completed last arms alternative [] =
        tree (sound a)) →
      (∀ attributes, (c attributes none).completed last arms alternative [] = tree faulty) →
      FaultIsLocal settings depth before after tag reading earlier (Frame.discards outer || lost)
        sound faulty := by
  obtain ⟨last, arms, alternative, more, rest, hrun⟩ := run_construct settings depth c₀ outer after
  refine ⟨last, arms, alternative, fun {lost tree sound faulty} ht hsound hfaulty => ⟨?_, ?_⟩⟩
  · obtain ⟨tree', more', htree', hall⟩ :=
      run_carries settings depth (ht.after outside) outer rest
    refine ⟨tree', more ++ more', htree', fun attributes => ?_⟩
    rw [ofItems_append, run_cons, hstep]
    cases hr : reading { tag with attributes } with
    | ok a =>
      dsimp only [Tag.judge]
      rw [hrun _ (hc attributes (some a)), hsound, hall, List.append_nil, List.append_assoc]
    | error problem =>
      dsimp only [Tag.judge]
      rw [hrun _ (hc attributes none), hfaulty, hall]
      simp
  · intro good bad a problem hg hb upto
    rw [opened_append, opened_append, List.foldl_cons, List.foldl_cons]
    refine AheadBy.steps ?_ upto
    rw [hstep, hstep, hg, hb]
    refine ⟨?_, [], rfl, rfl⟩
    simp [Frame.outlines, hc]

theorem exists_unwind (tags : TagSet) {kind : TagKind} {frames : List Frame}
    (h : kind ∈ Frame.awaited frames) (nodes : List Node) (findings : List Finding) :
    ∃ f outer nodes' findings', kind ∈ f.construct.accepted ∧
      unwind tags (some kind) frames nodes findings = ⟨f :: outer, nodes', findings'⟩ := by
  induction frames generalizing nodes findings with
  | nil => cases h
  | cons f frames ih =>
    by_cases ha : kind ∈ f.construct.accepted
    · exact ⟨f, frames, nodes, findings, ha, by simp [unwind, ha]⟩
    · have hframes : kind ∈ Frame.awaited frames := (List.mem_append.mp h).resolve_left ha
      obtain ⟨f', outer, nodes', findings', ha', hu⟩ := ih hframes (f.close nodes)
        (findings ++ [f.construct.unclosed tags])
      exact ⟨f', outer, nodes', findings', ha', by simp [unwind, ha, hu]⟩

theorem step_elsif {t : OpenTree} {tag opener : Tag} {done : List Arm} {test : Option Test}
    {outside nodes : List Node} {outer : List Frame} {findings : List Finding}
    (hk : tag.kind = .elsif) (ha : .elsif ∈ Frame.awaited t.frames)
    (hu : unwind settings.tags (some .elsif) t.frames t.nodes t.findings =
      ⟨⟨.arms opener done test, outside⟩ :: outer, nodes, findings⟩) :
    step settings depth t (.tag tag) =
      let next := tag.judge (tag.test settings.tags)
      ⟨⟨.arms opener (done ++ [(test, nodes)]) next.1, outside⟩ :: outer, [],
        findings ++ next.2⟩ := by
  have ht : tag.kind.isTerminator := by simp [hk, TagKind.isTerminator]
  simp only [step]
  rw [if_pos ht, hk, if_pos ha, hu]
  simp only [terminate, hk]

theorem step_unexpected {t : OpenTree} {tag : Tag} (ht : tag.kind.isTerminator)
    (ha : tag.kind ∉ Frame.awaited t.frames) :
    step settings depth t (.tag tag) =
      t.add [] [tag.finding (.unexpected (settings.tags.keyword tag.kind))] := by
  simp only [step]
  rw [if_pos ht, if_neg ha]

section Faults

variable (settings : Settings) (depth : Nat) (before after : List Item) {tag : Tag}

/-- A tag without a body that is faulty is as good as absent but for its finding. -/
theorem leaf_fault {problem : Problem} (hk : tag.kind ∈ [.var, .embed, .leave, .next])
    (hp : tag.leaf settings depth (Frame.loops (opened settings depth before).frames) =
      .error problem) :
    (∃ tree more,
      Tree.ofItems settings depth (before ++ after) =
        (tree, (opened settings depth before).findings ++ more) ∧
      Tree.ofItems settings depth (before ++ .tag tag :: after) =
        (tree, (opened settings depth before).findings ++ tag.finding problem :: more)) ∧
    ∀ upto, AheadBy (tag.finding problem) (opened settings depth before).findings
      (opened settings depth (before ++ upto))
      (opened settings depth (before ++ .tag tag :: upto)) := by
  generalize ht : opened settings depth before = t at hp ⊢
  obtain ⟨frames, nodes, findings⟩ := t
  have hleaf : ¬ tag.kind.isTerminator ∧ tag.kind ≠ .cond ∧ tag.kind ≠ .loop := by
    simp only [List.mem_cons, List.not_mem_nil, or_false] at hk
    rcases hk with hk | hk | hk | hk <;> simp [hk, TagKind.isTerminator]
  have hstep : step settings depth ⟨frames, nodes, findings⟩ (.tag tag) =
      ⟨frames, nodes, findings ++ [tag.finding problem]⟩ := by
    rw [step_leaf hleaf.1 hleaf.2.1 hleaf.2.2, hp]
    simp [Tag.judge, add]
  refine ⟨?_, fun upto => ?_⟩
  · obtain ⟨tree, more, -, hall⟩ := run_carries settings depth
      (Node.Carries.gone fun _ _ => rfl : Node.Carries true fun _ => nodes) frames after
    refine ⟨tree [], more, ?_, ?_⟩
    · rw [ofItems_append, ht]
      exact hall [] findings
    · rw [ofItems_append, run_cons, ht, hstep]
      simpa using hall [] (findings ++ [tag.finding problem])
  · have hahead : AheadBy (tag.finding problem) findings ⟨frames, nodes, findings⟩
        ⟨frames, nodes, findings ++ [tag.finding problem]⟩ := ⟨rfl, [], by simp, rfl⟩
    rw [opened_append, opened_append, List.foldl_cons, ht, hstep]
    exact hahead.steps upto

/-- Faulty attributes of an IF cost its node with all that is in it. -/
theorem cond_fault (hk : tag.kind = .cond) : ∃ yes no,
    FaultIsLocal settings depth before after tag (Tag.test settings.tags)
      (opened settings depth before).findings
      (Frame.discards (opened settings depth before).frames)
      (fun test => [.cond test yes no]) [] := by
  have houtline (attributes : List Attribute) (test : Option Test) :
      (Construct.arms { tag with attributes } [] test).outline =
        (Construct.arms tag [] none).outline := rfl
  obtain ⟨yes, arms, alternative, hlocal⟩ := faultIsLocal_of_step settings depth
    (Tag.test settings.tags) _ houtline (fun attributes => step_cond hk) after
  have hplace : FaultIsLocal settings depth before after tag (Tag.test settings.tags)
      (opened settings depth before).findings
      (Frame.discards (opened settings depth before).frames || false)
      (fun test => [.cond test yes (Tree.foldArms arms alternative)]) [] :=
    hlocal Node.Carries.here (fun _ _ => rfl) fun _ => rfl
  rw [Bool.or_false] at hplace
  exact ⟨yes, Tree.foldArms arms alternative, hplace⟩

/-- Faulty attributes of a LOOP cost its node with all that is in it. -/
theorem loop_fault (hk : tag.kind = .loop) : ∃ body,
    FaultIsLocal settings depth before after tag (Tag.name settings.tags)
      (opened settings depth before).findings
      (Frame.discards (opened settings depth before).frames)
      (fun name => [.loop name body]) [] := by
  have houtline (attributes : List Attribute) (name : Option String) :
      (Construct.loop { tag with attributes } name).outline =
        (Construct.loop tag none).outline := rfl
  obtain ⟨body, _, _, hlocal⟩ := faultIsLocal_of_step settings depth (Tag.name settings.tags) _
    houtline (fun attributes => step_loop hk) after
  have hplace : FaultIsLocal settings depth before after tag (Tag.name settings.tags)
      (opened settings depth before).findings
      (Frame.discards (opened settings depth before).frames || false)
      (fun name => [.loop name body]) [] :=
    hlocal Node.Carries.here (fun _ _ => rfl) fun _ => rfl
  rw [Bool.or_false] at hplace
  exact ⟨body, hplace⟩

/-- Faulty attributes of an ELSIF cost its conditional, in whose place is what its test decided
against. -/
theorem elsif_fault (hk : tag.kind = .elsif)
    (ha : .elsif ∈ Frame.awaited (opened settings depth before).frames) :
    ∃ f outer nodes findings yes no,
      unwind settings.tags (some .elsif) (opened settings depth before).frames
          (opened settings depth before).nodes (opened settings depth before).findings =
        ⟨f :: outer, nodes, findings⟩ ∧
      FaultIsLocal settings depth before after tag (Tag.test settings.tags) findings
        (Frame.discards outer || f.construct.isFaulty) (fun test => [.cond test yes no]) no := by
  obtain ⟨⟨c, outside⟩, outer, nodes, findings, hf, hu⟩ := exists_unwind settings.tags ha
    (opened settings depth before).nodes (opened settings depth before).findings
  cases c with
  | alternative => simp [Construct.accepted] at hf
  | loop => simp [Construct.accepted] at hf
  | arms opener done test =>
    have houtline (_ : List Attribute) (next : Option Test) :
        (Construct.arms opener (done ++ [(test, nodes)]) next).outline =
          (Construct.arms opener (done ++ [(test, nodes)]) none).outline := rfl
    obtain ⟨yes, arms, alternative, hlocal⟩ := faultIsLocal_of_step settings depth
      (Tag.test settings.tags) _ houtline (fun attributes => step_elsif hk ha hu) after
    have hcarries : Node.Carries (Construct.arms opener done test).isFaulty
        (Construct.chain (done ++ [(test, nodes)])) := by
      have hchain := Construct.carries_chain Node.Carries.here (done ++ [(test, nodes)])
      rwa [Bool.or_false, Construct.opensFaulty_append] at hchain
    refine ⟨_, outer, nodes, findings, yes, Tree.foldArms arms alternative, hu, ?_⟩
    refine hlocal hcarries (fun _ next => ?_) fun _ => ?_
    · exact Construct.chain_append (by simp) _ _
    · exact Construct.chain_append (by simp) _ _

theorem ofItems_of_stray (hk : tag.kind = .elsif)
    (ha : .elsif ∉ Frame.awaited (opened settings depth before).frames)
    (attributes : List Attribute) :
    Tree.ofItems settings depth (before ++ .tag { tag with attributes } :: after) =
      Tree.ofItems settings depth (before ++ .tag tag :: after) := by
  have hstep (attributes : List Attribute) :
      step settings depth (opened settings depth before) (.tag { tag with attributes }) =
        (opened settings depth before).add []
          [tag.finding (.unexpected (settings.tags.keyword tag.kind))] :=
    step_unexpected (by simp [hk, TagKind.isTerminator]) (by rwa [hk])
  rw [ofItems_append, ofItems_append, run_cons, run_cons, hstep]
  exact congrArg (run settings depth · after) (hstep tag.attributes).symm

end Faults

end OpenTree

open OpenTree

/-- The fault of one tag is local. A tag without a body that is faulty is as good as absent but for
its finding; faulty attributes of an opening tag cost its node with all that is in it; those of an
ELSIF cost its conditional, in whose place is what its test decided against; and each of them costs
one finding, before those of what follows. An ELSIF that nothing open accepts has no conditional,
and its attributes mean nothing. -/
theorem faults_are_local (settings : Settings) (depth : Nat) (before after : List Item)
    (tag : Tag) :
    let t := opened settings depth before
    (tag.kind ∈ [.var, .embed, .leave, .next] → ∀ problem,
      tag.leaf settings depth (Frame.loops t.frames) = .error problem →
        (∃ tree more,
          Tree.ofItems settings depth (before ++ after) = (tree, t.findings ++ more) ∧
          Tree.ofItems settings depth (before ++ .tag tag :: after) =
            (tree, t.findings ++ tag.finding problem :: more)) ∧
        ∀ upto, AheadBy (tag.finding problem) t.findings (opened settings depth (before ++ upto))
          (opened settings depth (before ++ .tag tag :: upto))) ∧
    (tag.kind = .cond → ∃ yes no,
      FaultIsLocal settings depth before after tag (Tag.test settings.tags) t.findings
        (Frame.discards t.frames) (fun test => [.cond test yes no]) []) ∧
    (tag.kind = .loop → ∃ body,
      FaultIsLocal settings depth before after tag (Tag.name settings.tags) t.findings
        (Frame.discards t.frames) (fun name => [.loop name body]) []) ∧
    (tag.kind = .elsif →
      if .elsif ∈ Frame.awaited t.frames then
        ∃ f outer nodes findings yes no,
          unwind settings.tags (some .elsif) t.frames t.nodes t.findings =
            ⟨f :: outer, nodes, findings⟩ ∧
          FaultIsLocal settings depth before after tag (Tag.test settings.tags) findings
            (Frame.discards outer || f.construct.isFaulty) (fun test => [.cond test yes no]) no
      else ∀ attributes,
        Tree.ofItems settings depth (before ++ .tag { tag with attributes } :: after) =
          Tree.ofItems settings depth (before ++ .tag tag :: after)) := by
  intro t
  refine ⟨fun hk problem hp => leaf_fault settings depth before after hk hp,
    fun hk => cond_fault settings depth before after hk,
    fun hk => loop_fault settings depth before after hk, fun hk => ?_⟩
  split
  · rename_i ha
    exact elsif_fault settings depth before after hk ha
  · rename_i ha
    exact ofItems_of_stray settings depth before after hk ha

theorem faults_are_local_rows :
    let jump : Tag := ⟨.leave, [], ⟨0, 9⟩, 1⟩
    let rows : Tag := ⟨.loop, [.bare "rows"], ⟨0, 13⟩, 1⟩
    let opener : Tag := ⟨.cond, [.bare "a"], ⟨13, 21⟩, 1⟩
    let next : Tag := ⟨.elsif, [.bare "b"], ⟨22, 33⟩, 1⟩
    let after : List Item := [.text ⟨33, 40⟩, .tag ⟨.endloop, [], ⟨40, 51⟩, 2⟩]
    (∃ tree more,
      Tree.ofItems {} 0 ([] ++ after) = (tree, more) ∧
      Tree.ofItems {} 0 ([] ++ .tag jump :: after) =
        (tree, jump.finding (.outsideLoop "BREAK") :: more)) ∧
    (∃ body, FaultIsLocal {} 0 [] after rows (Tag.name {}) [] false
      (fun name => [.loop name body]) []) ∧
    (∃ yes no, FaultIsLocal {} 0 [.tag rows] after opener (Tag.test {}) [] false
      (fun test => [.cond test yes no]) []) ∧
    ∃ f outer nodes findings yes no,
      unwind {} (some .elsif)
          [⟨.arms opener [] (some ⟨"a", none⟩), []⟩, ⟨.loop rows (some "rows"), []⟩]
        [.text ⟨21, 22⟩] [] = ⟨f :: outer, nodes, findings⟩ ∧
      FaultIsLocal {} 0 [.tag rows, .tag opener, .text ⟨21, 22⟩] after next (Tag.test {}) findings
        (Frame.discards outer || f.construct.isFaulty) (fun test => [.cond test yes no]) no := by
  intro jump rows opener next after
  have hjump := (faults_are_local {} 0 [] after jump).1 (by simp [jump]) (.outsideLoop "BREAK") rfl
  have hrows := (faults_are_local {} 0 [] after rows).2.2.1 rfl
  have hopener := (faults_are_local {} 0 [.tag rows] after opener).2.1 rfl
  have hnext :=
    (faults_are_local {} 0 [.tag rows, .tag opener, .text ⟨21, 22⟩] after next).2.2.2 rfl
  exact ⟨hjump.1, hrows, hopener, hnext⟩

end Stencil
