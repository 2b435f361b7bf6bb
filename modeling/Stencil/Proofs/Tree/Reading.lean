import Stencil.Tree

/-! The equations of reading a tree.
Each reader is taken without the proof that it adds no items, so that an equation says what is
read. What a list leaves behind is nothing, or a terminator that something around it awaits. -/
namespace Stencil
namespace Tree

section Readers

variable (settings : Settings) (depth : Nat) (stop : StopSet) (loops : Nat)

/-- What is read of a list of nodes. -/
def list (items : List Item) : Parsed := (readList settings depth stop loops items).1

def node (tag : Tag) (items : List Item) : Parsed :=
  (readTag settings depth stop loops tag items).1

def conditional (opener : Tag) (items : List Item) : Parsed :=
  (readCond settings depth stop loops opener items).1

def arms (items : List Item) : ParsedArms := (readArms settings depth stop loops items).1

def alternative (items : List Item) : Parsed :=
  (readAlternative settings depth stop loops items).1

def loop (opener : Tag) (items : List Item) : Parsed :=
  (readLoop settings depth stop loops opener items).1

theorem length_list_le (items : List Item) :
    (list settings depth stop loops items).rest.length ≤ items.length :=
  (readList settings depth stop loops items).2

theorem length_node_le (tag : Tag) (items : List Item) :
    (node settings depth stop loops tag items).rest.length ≤ items.length :=
  (readTag settings depth stop loops tag items).2

theorem length_arms_le (items : List Item) :
    (arms settings depth stop loops items).rest.length ≤ items.length :=
  (readArms settings depth stop loops items).2

end Readers

variable {settings : Settings} {depth : Nat} {stop : StopSet} {loops : Nat} {items rest : List Item}
  {tag opener : Tag}

@[simp] theorem list_nil : list settings depth stop loops [] = ⟨[], [], []⟩ := by
  rw [list, readList]

theorem list_text (span : Span) :
    list settings depth stop loops (.text span :: items) =
      { list settings depth stop loops items with
        nodes := .text span :: (list settings depth stop loops items).nodes } := by
  rw [list, readList]
  rfl

theorem list_finding (f : Finding) :
    list settings depth stop loops (.finding f :: items) =
      { list settings depth stop loops items with
        findings := f :: (list settings depth stop loops items).findings } := by
  rw [list, readList]
  rfl

theorem list_stop (ht : tag.kind.isTerminator) (hs : tag.kind ∈ stop) :
    list settings depth stop loops (.tag tag :: items) = ⟨[], [], .tag tag :: items⟩ := by
  rw [list, readList, if_pos ht, if_pos hs]

theorem list_unexpected (ht : tag.kind.isTerminator) (hs : tag.kind ∉ stop) :
    list settings depth stop loops (.tag tag :: items) =
      { list settings depth stop loops items with
        findings := tag.finding (.unexpected (settings.tags.keyword tag.kind)) ::
          (list settings depth stop loops items).findings } := by
  rw [list, readList, if_pos ht, if_neg hs]
  rfl

theorem list_node (ht : ¬ tag.kind.isTerminator) :
    list settings depth stop loops (.tag tag :: items) =
      let first := node settings depth stop loops tag items
      let more := list settings depth stop loops first.rest
      ⟨first.nodes ++ more.nodes, first.findings ++ more.findings, more.rest⟩ := by
  rw [list, readList, if_neg ht]
  rfl

theorem node_cond (hk : tag.kind = .cond) :
    node settings depth stop loops tag items = conditional settings depth stop loops tag items := by
  rw [node, readTag]
  split
  · rfl
  · simp_all
  · simp_all

theorem node_loop (hk : tag.kind = .loop) :
    node settings depth stop loops tag items = loop settings depth stop loops tag items := by
  rw [node, readTag]
  split
  · simp_all
  · rfl
  · simp_all

theorem node_leaf (hc : tag.kind ≠ .cond) (hl : tag.kind ≠ .loop) :
    node settings depth stop loops tag items =
      let built := tag.judge (tag.leaf settings depth loops)
      ⟨built.1.getD [], built.2, items⟩ := by
  rw [node, readTag]
  split
  · contradiction
  · contradiction
  · rfl

theorem conditional_eq :
    conditional settings depth stop loops opener items =
      let armStop := .elsif :: .alt :: .endif :: stop
      let test := opener.judge (opener.test settings.tags)
      let body := list settings depth armStop loops items
      let arms := arms settings depth armStop loops body.rest
      let alternative := alternative settings depth stop loops arms.rest
      let closed := close settings.tags opener .endif alternative.rest
      ⟨match test.1 with
        | some test => [.cond test body.nodes (foldArms arms.arms alternative.nodes)]
        | none => [],
        test.2 ++ body.findings ++ arms.findings ++ alternative.findings ++ closed.1, closed.2⟩ := by
  rw [conditional, readCond]
  rfl

theorem arms_none (h : take? .elsif items = none) :
    arms settings depth stop loops items = ⟨[], [], items⟩ := by
  rw [arms, readArms]
  split
  · rfl
  · simp_all

theorem arms_some (h : take? .elsif items = some (tag, rest)) :
    arms settings depth stop loops items =
      let test := tag.judge (tag.test settings.tags)
      let body := list settings depth stop loops rest
      let more := arms settings depth stop loops body.rest
      ⟨(test.1, body.nodes) :: more.arms, test.2 ++ body.findings ++ more.findings,
        more.rest⟩ := by
  rw [arms, readArms]
  split
  · simp_all
  · rename_i t r hr
    rw [h] at hr
    cases hr
    rfl

theorem alternative_none (h : take? .alt items = none) :
    alternative settings depth stop loops items = ⟨[], [], items⟩ := by
  rw [alternative, readAlternative]
  split
  · rfl
  · simp_all

theorem alternative_some (h : take? .alt items = some (tag, rest)) :
    alternative settings depth stop loops items =
      list settings depth (.endif :: stop) loops rest := by
  rw [alternative, readAlternative]
  split
  · simp_all
  · rename_i t r hr
    rw [h] at hr
    cases hr
    rfl

theorem loop_eq :
    loop settings depth stop loops opener items =
      let name := opener.judge (opener.name settings.tags)
      let body := list settings depth (.endloop :: stop) (loops + 1) items
      let closed := close settings.tags opener .endloop body.rest
      ⟨match name.1 with
        | some name => [.loop name body.nodes]
        | none => [],
        name.2 ++ body.findings ++ closed.1, closed.2⟩ := by
  rw [loop, readLoop]
  rfl

/-- What a list can leave behind that is read up to the terminators `stop`. -/
def Halts (stop : StopSet) (rest : List Item) : Prop :=
  rest = [] ∨ ∃ tag more, rest = .tag tag :: more ∧ tag.kind.isTerminator ∧ tag.kind ∈ stop

theorem take?_eq_some_iff {kind : TagKind} :
    take? kind items = some (tag, rest) ↔ items = .tag tag :: rest ∧ tag.kind = kind := by
  unfold take?
  split
  · rename_i t r
    by_cases hk : t.kind = kind
    · simp only [hk, if_true, Option.some.injEq, Prod.mk.injEq, List.cons.injEq, Item.tag.injEq]
      constructor
      · rintro ⟨rfl, rfl⟩
        exact ⟨⟨rfl, rfl⟩, hk⟩
      · rintro ⟨h, _⟩
        exact h
    · simp only [hk, if_false, List.cons.injEq, Item.tag.injEq, reduceCtorEq, false_iff]
      rintro ⟨⟨rfl, _⟩, h⟩
      exact hk h
  · rename_i h
    simp only [reduceCtorEq, false_iff]
    rintro ⟨rfl, _⟩
    exact h _ _ rfl

theorem take?_eq_none_iff {kind : TagKind} :
    take? kind items = none ↔ ∀ tag rest, items = .tag tag :: rest → tag.kind ≠ kind := by
  constructor
  · intro h tag rest hi hk
    rw [take?_eq_some_iff.mpr ⟨hi, hk⟩] at h
    cases h
  · intro h
    cases ht : take? kind items with
    | none => rfl
    | some p =>
      obtain ⟨hi, hk⟩ := take?_eq_some_iff.mp (show take? kind items = some (p.1, p.2) from ht)
      exact absurd hk (h _ _ hi)

/-- A list is read up to the end or up to a terminator that ends it. -/
theorem halts_list (settings : Settings) (depth : Nat) (stop : StopSet) (loops : Nat)
    (items : List Item) : Halts stop (list settings depth stop loops items).rest := by
  match items with
  | [] => exact .inl (by simp)
  | .text span :: items =>
    rw [list_text]
    exact halts_list settings depth stop loops items
  | .finding f :: items =>
    rw [list_finding]
    exact halts_list settings depth stop loops items
  | .tag tag :: items =>
    by_cases ht : tag.kind.isTerminator
    · by_cases hs : tag.kind ∈ stop
      · rw [list_stop ht hs]
        exact .inr ⟨tag, items, rfl, ht, hs⟩
      · rw [list_unexpected ht hs]
        exact halts_list settings depth stop loops items
    · rw [list_node ht]
      have := length_node_le settings depth stop loops tag items
      exact halts_list settings depth stop loops (node settings depth stop loops tag items).rest
termination_by items.length

theorem rest_list_nil (settings : Settings) (depth : Nat) (items : List Item) :
    (list settings depth [] 0 items).rest = [] := by
  rcases halts_list settings depth [] 0 items with h | ⟨tag, more, _, _, h⟩
  · exact h
  · cases h

/-- After the arms comes what ends the last of them, and that is no ELSIF. -/
theorem halts_arms (settings : Settings) (depth : Nat) (stop : StopSet) (loops : Nat)
    (items : List Item) (hh : Halts stop items) :
    Halts stop (arms settings depth stop loops items).rest ∧
      take? .elsif (arms settings depth stop loops items).rest = none := by
  match h : take? .elsif items with
  | none =>
    rw [arms_none h]
    exact ⟨hh, h⟩
  | some (tag, rest) =>
    rw [arms_some h]
    have := length_of_take? h
    have := length_list_le settings depth stop loops rest
    exact halts_arms settings depth stop loops _ (halts_list settings depth stop loops rest)
termination_by items.length

theorem ofItems_eq :
    ofItems settings depth items =
      ((list settings depth [] 0 items).nodes, (list settings depth [] 0 items).findings) := rfl

end Tree
end Stencil
