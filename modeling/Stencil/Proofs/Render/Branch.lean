import Stencil.Proofs.Render.Lockstep
import Stencil.Proofs.Tree.Chain

/-! Which branch of a conditional is rendered.
The arms of a conditional are nested, each in what is rendered if the test before does not hold.
The main statement says that rendering the node of a chain is rendering the list behind the first
tag whose test is valid and holds, or else the list behind the ELSE, and entering nothing else. -/
namespace Stencil

def Clause.holds (settings : Settings) (c : Context) (clause : Clause) : Bool :=
  (clause.test? settings).any (·.holds c)

/-- The first arm whose test holds, or else what is behind the ELSE. -/
def Chain.selected (settings : Settings) (c : Context) (chain : Chain) : Option Clause :=
  ((chain.first :: chain.further).find? (Clause.holds settings c)).or chain.alternative

def Chain.branch (settings : Settings) (depth : Nat) (stop : StopSet) (loops : Nat) (c : Context)
    (chain : Chain) : List Node :=
  (chain.selected settings c).elim [] fun clause => (clause.read settings depth stop loops).nodes

namespace Render

variable {enter enter' : Inclusion} {v : Visit}

theorem walkNode_cond (enter : Inclusion) (v : Visit) (c : Context) (test : Test)
    (yes no : List Node) :
    walkNode enter v c (.cond test yes no) =
      walkList enter v c (if test.holds c then yes else no) := by
  rw [walkNode]
  split <;> rfl

theorem walkList_cond (enter : Inclusion) (v : Visit) (c : Context) (test : Test)
    (yes no : List Node) :
    walkList enter v c [.cond test yes no] =
      walkList enter v c (if test.holds c then yes else no) := by
  funext p
  cases hp : p.halted with
  | true => rw [walkList_of_halted _ _ _ _ hp, walkList_of_halted _ _ _ _ hp]
  | false =>
    rw [walkList_cons _ _ _ _ _ hp, walkNode_cond, walkList]
    generalize walkList enter v c (if test.holds c then yes else no) = m
    simp only [bind, EStateM.bind]
    cases m p with
    | ok flow p' => cases flow <;> rfl
    | error e p' => rfl

theorem walkList_foldArms (enter : Inclusion) (v : Visit) (c : Context) (arms : List Arm)
    (alternative : List Node) :
    walkList enter v c (Tree.foldArms arms alternative) =
      walkList enter v c
        ((arms.find? fun arm => arm.1.any (·.holds c)).elim alternative (·.2)) := by
  induction arms with
  | nil => rfl
  | cons arm arms ih =>
    obtain ⟨test, body⟩ := arm
    cases test with
    | none => exact ih
    | some test =>
      have hfold : Tree.foldArms ((some test, body) :: arms) alternative =
          [.cond test body (Tree.foldArms arms alternative)] := rfl
      rw [hfold, walkList_cond]
      cases ht : test.holds c with
      | true => simp [ht]
      | false => simpa [ht] using ih

/-- The node of a chain is rendered as the branch that is selected. -/
theorem walkNode_chain (settings : Settings) (depth : Nat) (stop : StopSet) (loops : Nat)
    (chain : Chain) {test : Test} (htest : chain.first.test? settings = some test)
    (enter : Inclusion) (v : Visit) (c : Context) :
    walkNode enter v c (.cond test (chain.first.read settings depth stop loops).nodes
        (chain.no settings depth stop loops)) =
      walkList enter v c (chain.branch settings depth stop loops c) := by
  have hfirst : chain.first.holds settings c = test.holds c := by
    rw [Clause.holds, htest, Option.any_some]
  rw [walkNode_cond, Chain.branch, Chain.selected]
  cases ht : test.holds c with
  | true =>
    rw [List.find?_cons_of_pos (by rw [hfirst, ht])]
    rfl
  | false =>
    rw [List.find?_cons_of_neg (by rw [hfirst, ht]; decide), if_neg (by decide), Chain.no,
      walkList_foldArms, List.find?_map]
    have hholds : ((fun arm : Arm => arm.1.any (·.holds c)) ∘
        Clause.arm settings depth stop loops) = Clause.holds settings c := rfl
    rw [hholds, Chain.otherwise]
    cases chain.further.find? (Clause.holds settings c) with
    | some clause => rfl
    | none => cases chain.alternative <;> rfl

/-- Whether it is the same to enter the inclusions among these nodes in the one way or the other. -/
def EnteredAlike (enter enter' : Inclusion) (v : Visit) (nodes : List Node) : Prop :=
  Node.AllLeaves (fun _ leaf => ∀ reference line span, leaf = .embed reference line span →
    ∀ c, enter' v c reference line span = enter v c reference line span) 0 nodes

theorem walkList_congr (c : Context) {nodes : List Node} (h : EnteredAlike enter enter' v nodes) :
    walkList enter' v c nodes = walkList enter v c nodes := by
  funext p
  have hpaced : Paced Eq := ⟨fun h => h ▸ rfl, fun e p q h => h ▸ inStep_refl⟩
  have hwalk : InStep Eq (walkList enter v c nodes) (walkList enter' v c nodes) p p := by
    refine inStep_walkList_of_text hpaced (fun _ => rfl) ?_ c 0 nodes h rfl
    rintro c loops reference line span p _ halike rfl
    rw [halike reference line span rfl c]
    exact inStep_refl
  rcases hwalk.ok_or_error with ⟨a, p', b, q', hm, hm', rfl, rfl⟩ | ⟨e, p', q', hm, hm', rfl⟩
  · rw [hm, hm']
  · rw [hm, hm']

end Render

/-- Of a conditional whose first test is valid, exactly the first arm is rendered whose test holds,
in the order of the text and without the faulty arms, or else what is behind the ELSE. Only its
inclusions matter: the others are not entered, and nothing is loaded for them. -/
theorem first_arm_is_rendered (settings : Settings) (depth : Nat) (stop : StopSet) (loops : Nat)
    (chain : Chain) {test : Test} (htest : chain.first.tag.test settings.tags = .ok test)
    (hnested : chain.Nested stop) :
    ∃ node findings,
      (∀ rest, Tree.node settings depth stop loops chain.first.tag (chain.inside ++ rest) =
        ⟨[node], findings, rest⟩) ∧
      ∀ (v : Visit) (c : Context) (enter : Render.Inclusion),
        Render.walkNode enter v c node =
          Render.walkList enter v c (chain.branch settings depth stop loops c) ∧
        ∀ enter', Render.EnteredAlike enter enter' v (chain.branch settings depth stop loops c) →
          Render.walkNode enter' v c node = Render.walkNode enter v c node := by
  have htest' : chain.first.test? settings = some test := by
    rw [Clause.test?, htest]
    rfl
  refine ⟨.cond test (chain.first.read settings depth stop loops).nodes
    (chain.no settings depth stop loops), chain.findings settings depth stop loops,
    fun rest => ?_, fun v c enter => ?_⟩
  · rw [Tree.node_cond chain.first_kind]
    exact Tree.conditional_chain chain hnested htest' rest
  · have hwalk (enter : Render.Inclusion) :=
      Render.walkNode_chain settings depth stop loops chain htest' enter v c
    refine ⟨hwalk enter, fun enter' halike => ?_⟩
    rw [hwalk enter', hwalk enter]
    exact Render.walkList_congr c halike

namespace Chain

/-- IF a, an ELSIF that names nothing and has an inclusion behind it, ELSIF c, ELSE, ENDIF. -/
def sample : Chain where
  first := ⟨⟨.cond, [.bare "a"], ⟨0, 6⟩, 1⟩, [.text ⟨6, 7⟩]⟩
  further := [⟨⟨.elsif, [], ⟨7, 14⟩, 1⟩, [.tag ⟨.embed, [.bare "x"], ⟨14, 25⟩, 1⟩]⟩,
    ⟨⟨.elsif, [.bare "c"], ⟨25, 34⟩, 1⟩, [.text ⟨34, 35⟩]⟩]
  alternative := some ⟨⟨.alt, [], ⟨35, 41⟩, 1⟩, [.text ⟨41, 42⟩]⟩
  closer := ⟨.endif, [], ⟨42, 49⟩, 1⟩
  first_kind := rfl
  further_kind := by simp
  alternative_kind := by simp
  closer_kind := rfl

end Chain

/-- The faulty arm is skipped together with its inclusion. -/
theorem first_arm_is_rendered_sample :
    ∃ node findings,
      (∀ rest, Tree.node {} 0 [] 0 Chain.sample.first.tag (Chain.sample.inside ++ rest) =
        ⟨[node], findings, rest⟩) ∧
      ∀ (v : Visit) (enter : Render.Inclusion),
        Render.walkNode enter v ⟨Scope.empty.withValue "c" "1", []⟩ node =
          Render.walkList enter v ⟨Scope.empty.withValue "c" "1", []⟩ [.text ⟨34, 35⟩] := by
  have hnested : Chain.sample.Nested [] := by decide
  obtain ⟨node, findings, hread, hwalk⟩ :=
    first_arm_is_rendered {} 0 [] 0 Chain.sample rfl hnested
  refine ⟨node, findings, hread, fun v enter => ?_⟩
  have hselected : Chain.sample.selected {} ⟨Scope.empty.withValue "c" "1", []⟩ =
      some ⟨⟨.elsif, [.bare "c"], ⟨25, 34⟩, 1⟩, [.text ⟨34, 35⟩]⟩ := by rfl
  rw [(hwalk v _ enter).1, Chain.branch, hselected, Option.elim_some, Clause.read,
    Tree.list_text, Tree.list_nil]

end Stencil
