import Mathlib.Data.List.Forall2
import Stencil.Proofs.Tag.Arrangement
import Stencil.Proofs.Tree.Outline

/-! Trees of tags whose attributes are arranged in another way.
Nothing of the attributes of an opening tag is left in a tree under construction but what has been
looked up, so two trees that differ in them only go on in step. The main statement says that the
items with other arrangements of their attributes become the same tree, with the same findings. -/
namespace Stencil

/-- The same items, but for the arrangement of the attributes of tags. -/
inductive Item.Arranged : Item → Item → Prop
  | text (span : Span) : Arranged (.text span) (.text span)
  | finding (f : Finding) : Arranged (.finding f) (.finding f)
  | tag {tag : Tag} {l : List Attribute} (h : Attribute.Arranged tag.kind tag.attributes l) :
      Arranged (.tag tag) (.tag (tag.withAttributes l))

namespace Construct

def plain : Construct → Construct
  | arms opener finished test => arms (opener.withAttributes []) finished test
  | alternative opener all => alternative (opener.withAttributes []) all
  | loop opener name => loop (opener.withAttributes []) name

@[simp] theorem outline_plain (c : Construct) : c.plain.outline = c.outline := by cases c <;> rfl

@[simp] theorem nodes_plain (c : Construct) (last : List Node) :
    c.plain.nodes last = c.nodes last := by
  cases c with
  | arms | alternative => rfl
  | loop opener name => cases name <;> rfl

end Construct

namespace Frame

def plain (f : Frame) : Frame := ⟨f.construct.plain, f.before⟩

end Frame

namespace OpenTree

variable {settings : Settings} {depth : Nat}

def plain (t : OpenTree) : OpenTree := { t with frames := t.frames.map Frame.plain }

end OpenTree

namespace Tree

end Tree
end Stencil
