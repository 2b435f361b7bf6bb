import Stencil.Tag.Meaning

/-! How items become a tree.
A list of nodes ends at a terminator that something open around it is waiting for. A terminator
that nothing waits for is reported and left out; a conditional or loop whose own terminator does
not come is reported and keeps what it has; a tag with bad attributes is left out together with
its body. -/
namespace Stencil

abbrev StopSet := List TagKind

/-- What has been read, and the items that are left. -/
structure Parsed where
  nodes : List Node
  findings : List Finding
  rest : List Item

/-- An arm of a conditional. Its test is absent if its tag was faulty. -/
abbrev Arm := Option Test × List Node

/-- The arms of a conditional after the first. -/
structure ParsedArms where
  arms : List Arm
  findings : List Finding
  rest : List Item

namespace Tree

def take? (kind : TagKind) : List Item → Option (Tag × List Item)
  | .tag t :: rest => if t.kind = kind then some (t, rest) else none
  | _ => none

theorem length_of_take? {kind : TagKind} {items rest : List Item} {t : Tag}
    (h : take? kind items = some (t, rest)) : items.length = rest.length + 1 := by
  unfold take? at h
  split at h
  · split at h
    · simp_all
    · simp at h
  · simp at h

/-- Arms become nested conditionals, the last one innermost; a faulty arm is left out. -/
def foldArms (arms : List Arm) (alternative : List Node) : List Node :=
  arms.foldr (fun arm no =>
    match arm.1 with
    | some test => [.cond test arm.2 no]
    | none => no) alternative

/-- Takes the tag that closes a body off the items, or finds that `opener` is not closed. -/
def close (tags : TagSet) (opener : Tag) (closing : TagKind) (items : List Item) :
    List Finding × List Item :=
  match take? closing items with
  | some (_, rest) => ([], rest)
  | none =>
    ([opener.finding (.unclosed (tags.keyword opener.kind) (tags.keyword closing))], items)

theorem length_close (tags : TagSet) (opener : Tag) (closing : TagKind) (items : List Item) :
    (close tags opener closing items).2.length ≤ items.length := by
  unfold close
  split
  · rename_i h
    simp [length_of_take? h]
  · simp

mutual

/-- Reads a list of nodes, inside so many loops, up to a terminator in `stop`. -/
def readList (settings : Settings) (depth : Nat) (stop : StopSet) (loops : Nat)
    (items : List Item) : { p : Parsed // p.rest.length ≤ items.length } :=
  match items with
  | [] => ⟨⟨[], [], []⟩, Nat.le_refl _⟩
  | .text span :: items =>
    let ⟨more, le⟩ := readList settings depth stop loops items
    ⟨{ more with nodes := .text span :: more.nodes }, Nat.le_succ_of_le le⟩
  | .finding f :: items =>
    let ⟨more, le⟩ := readList settings depth stop loops items
    ⟨{ more with findings := f :: more.findings }, Nat.le_succ_of_le le⟩
  | .tag tag :: items =>
    if tag.kind.isTerminator then
      if tag.kind ∈ stop then ⟨⟨[], [], .tag tag :: items⟩, Nat.le_refl _⟩
      else
        let ⟨more, le⟩ := readList settings depth stop loops items
        let f := tag.finding (.unexpected (settings.tags.keyword tag.kind))
        ⟨{ more with findings := f :: more.findings }, Nat.le_succ_of_le le⟩
    else
      let ⟨first, firstLe⟩ := readTag settings depth stop loops tag items
      let ⟨more, le⟩ := readList settings depth stop loops first.rest
      ⟨⟨first.nodes ++ more.nodes, first.findings ++ more.findings, more.rest⟩,
        Nat.le_succ_of_le (Nat.le_trans le firstLe)⟩
termination_by 3 * items.length + 0

def readTag (settings : Settings) (depth : Nat) (stop : StopSet) (loops : Nat) (tag : Tag)
    (items : List Item) : { p : Parsed // p.rest.length ≤ items.length } :=
  match tag.kind with
  | .cond => readCond settings depth stop loops tag items
  | .loop => readLoop settings depth stop loops tag items
  | _ =>
    let built := tag.judge (tag.leaf settings depth loops)
    ⟨⟨built.1.getD [], built.2, items⟩, Nat.le_refl _⟩
termination_by 3 * items.length + 2

def readCond (settings : Settings) (depth : Nat) (stop : StopSet) (loops : Nat) (opener : Tag)
    (items : List Item) : { p : Parsed // p.rest.length ≤ items.length } :=
  let armStop := .elsif :: .alt :: .endif :: stop
  let test := opener.judge (opener.test settings.tags)
  let ⟨body, bodyLe⟩ := readList settings depth armStop loops items
  let ⟨arms, armsLe⟩ := readArms settings depth armStop loops body.rest
  let ⟨alternative, le⟩ := readAlternative settings depth stop loops arms.rest
  let closed := close settings.tags opener .endif alternative.rest
  let no := foldArms arms.arms alternative.nodes
  let nodes := match test.1 with
    | some test => [.cond test body.nodes no]
    | none => []
  ⟨⟨nodes, test.2 ++ body.findings ++ arms.findings ++ alternative.findings ++ closed.1,
      closed.2⟩,
    Nat.le_trans (length_close _ _ _ _) (Nat.le_trans le (Nat.le_trans armsLe bodyLe))⟩
termination_by 3 * items.length + 1

def readArms (settings : Settings) (depth : Nat) (stop : StopSet) (loops : Nat)
    (items : List Item) : { p : ParsedArms // p.rest.length ≤ items.length } :=
  match h : take? .elsif items with
  | none => ⟨⟨[], [], items⟩, Nat.le_refl _⟩
  | some (tag, rest) =>
    have lengthEq := length_of_take? h
    let test := tag.judge (tag.test settings.tags)
    let ⟨body, bodyLe⟩ := readList settings depth stop loops rest
    let ⟨more, le⟩ := readArms settings depth stop loops body.rest
    ⟨⟨(test.1, body.nodes) :: more.arms, test.2 ++ body.findings ++ more.findings, more.rest⟩,
      by show more.rest.length ≤ _; omega⟩
termination_by 3 * items.length + 0

def readAlternative (settings : Settings) (depth : Nat) (stop : StopSet) (loops : Nat)
    (items : List Item) : { p : Parsed // p.rest.length ≤ items.length } :=
  match h : take? .alt items with
  | none => ⟨⟨[], [], items⟩, Nat.le_refl _⟩
  | some (_, rest) =>
    have lengthEq := length_of_take? h
    let ⟨body, bodyLe⟩ := readList settings depth (.endif :: stop) loops rest
    ⟨body, by omega⟩
termination_by 3 * items.length + 0

def readLoop (settings : Settings) (depth : Nat) (stop : StopSet) (loops : Nat) (opener : Tag)
    (items : List Item) : { p : Parsed // p.rest.length ≤ items.length } :=
  let name := opener.judge (opener.name settings.tags)
  let ⟨body, le⟩ := readList settings depth (.endloop :: stop) (loops + 1) items
  let closed := close settings.tags opener .endloop body.rest
  let nodes := match name.1 with
    | some name => [.loop name body.nodes]
    | none => []
  ⟨⟨nodes, name.2 ++ body.findings ++ closed.1, closed.2⟩,
    Nat.le_trans (length_close _ _ _ _) le⟩
termination_by 3 * items.length + 1

end

/-- The nodes and findings of the items of a template that is `depth` inclusions deep. -/
def ofItems (settings : Settings) (depth : Nat) (items : List Item) :
    List Node × List Finding :=
  let p := (readList settings depth [] 0 items).1
  (p.nodes, p.findings)

end Tree
end Stencil
