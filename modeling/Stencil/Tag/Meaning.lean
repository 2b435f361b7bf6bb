import Stencil.Item
import Stencil.Node
import Stencil.Format.Escape

/-! What single tags mean.
Each tag without a body becomes one node or one problem, and each opening tag the part of a node
that its attributes give. -/
namespace Stencil

/-- What parsing depends on besides the text. -/
structure Settings where
  tags : TagSet := {}
  formats : FormatRegistry := .standard
  /-- Templates nested this deep may not include others. -/
  includeLimit : Nat := 30

namespace Tag

/-- The `name=` attribute, or else the first value that stands alone. -/
def name (tags : TagSet) (tag : Tag) : Except Problem String :=
  match (Attribute.named? "name" tag.attributes).or (Attribute.bare? tag.attributes) with
  | some name => .ok name
  | none => .error (.missingName (tags.keyword tag.kind))

/-- The formatter asked for by `fmt=`, or else by `format=`. -/
def formatter (settings : Settings) (tag : Tag) : Except Problem (Option Formatter) :=
  match (Attribute.named? "fmt" tag.attributes).or (Attribute.named? "format" tag.attributes) with
  | none => .ok none
  | some format =>
    match settings.formats.find? format with
    | some f => .ok (some f)
    | none => .error (.unknownFormat (settings.tags.keyword tag.kind) format)

/-- The comparison: the first inline one, or else equality with `value=`. -/
def comparison (tags : TagSet) (tag : Tag) : Except Problem (Option (Operator × String)) :=
  match Attribute.compare? tag.attributes with
  | some (text, literal) =>
    match Operator.ofText? text with
    | some operator => .ok (some (operator, literal))
    | none => .error (.unknownOperator (tags.keyword tag.kind) text)
  | none => .ok ((Attribute.named? "value" tag.attributes).map fun v => (.equal, v))

def test (tags : TagSet) (tag : Tag) : Except Problem Test :=
  match tag.name tags with
  | .error p => .error p
  | .ok name =>
    match tag.comparison tags with
    | .error p => .error p
    | .ok comparison => .ok ⟨name, comparison⟩

def value (settings : Settings) (tag : Tag) : Except Problem Node :=
  match tag.name settings.tags with
  | .error p => .error p
  | .ok name =>
    match tag.formatter settings with
    | .error p => .error p
    | .ok formatter => .ok (.value name (Attribute.named? "default" tag.attributes) formatter)

/-- The node of an inclusion in a template that is itself `depth` inclusions deep. -/
def embed (settings : Settings) (depth : Nat) (tag : Tag) : Except Problem Node :=
  match tag.name settings.tags with
  | .error p => .error p
  | .ok name =>
    if depth < settings.includeLimit then .ok (.embed name tag.line tag.span)
    else .error (.tooDeep (settings.tags.keyword tag.kind) settings.includeLimit)

/-- The level of a jump inside so many loops: one unless `level=` says otherwise. -/
def level (tags : TagSet) (loops : Nat) (tag : Tag) : Except Problem Nat :=
  if loops = 0 then .error (.outsideLoop (tags.keyword tag.kind))
  else
    match Attribute.named? "level" tag.attributes with
    | none => .ok 1
    | some text =>
      match (Text.count? text).filter fun n => 1 ≤ n ∧ n ≤ loops with
      | some n => .ok n
      | none => .error (.badLevel (tags.keyword tag.kind) text)

/-- The nodes of a tag without a body: one, or none for a tag that has one. -/
def leaf (settings : Settings) (depth loops : Nat) (tag : Tag) : Except Problem (List Node) :=
  match tag.kind with
  | .var => (tag.value settings).map ([·])
  | .embed => (tag.embed settings depth).map ([·])
  | .leave => (tag.level settings.tags loops).map fun n => [.leave n]
  | .next => (tag.level settings.tags loops).map fun n => [.next n]
  | _ => .ok []

/-- A jump never leaves more loops than enclose it. -/
theorem level_le {tags : TagSet} {loops n : Nat} {tag : Tag} (h : tag.level tags loops = .ok n) :
    1 ≤ n ∧ n ≤ loops := by
  unfold level at h
  split at h
  · simp at h
  · split at h
    · simp only [Except.ok.injEq] at h
      omega
    · split at h
      · rename_i hf
        obtain ⟨_, hm⟩ := Option.filter_eq_some_iff.mp hf
        simp only [Except.ok.injEq] at h
        simpa [h] using hm
      · simp at h

def finding (tag : Tag) (problem : Problem) : Finding := ⟨problem, tag.line, tag.span⟩

/-- The value built from a tag, or nothing with a finding at the tag. -/
def judge {α : Type} (tag : Tag) : Except Problem α → Option α × List Finding
  | .ok a => (some a, [])
  | .error p => (none, [tag.finding p])

end Tag
end Stencil
