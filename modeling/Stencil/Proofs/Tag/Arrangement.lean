import Mathlib.Data.List.Basic
import Stencil.Tag.Meaning

/-! Attributes in another order.
A lookup goes through the attributes of one family, those with one key, the values that stand alone
or the comparisons, and takes the first. So it does not matter how the families are mixed, nor
whether there are attributes that the tag does not use or that others outdo. The main statement says
that what a tag looks up is the same however its attributes are arranged. -/
namespace Stencil

def TagKind.keys : TagKind → List String
  | .var => ["name", "default", "fmt", "format"]
  | .embed | .loop => ["name"]
  | .cond | .elsif => ["name", "value"]
  | .leave | .next => ["level"]
  | .alt | .endif | .endloop => []

namespace Attribute

inductive Family
  | key (key : String)
  | bare
  | compare
  deriving DecidableEq, Repr

def family : Attribute → Family
  | named key _ => .key key
  | bare _ => .bare
  | compare _ _ => .compare

def ofFamily (f : Family) (l : List Attribute) : List Attribute := l.filter fun a => a.family = f

/-- The same attributes, of which those of one family follow each other as before. -/
def Reordered (l l' : List Attribute) : Prop :=
  l'.Perm l ∧ ∀ a ∈ l, ofFamily a.family l' = ofFamily a.family l

instance (l l' : List Attribute) : Decidable (Reordered l l') :=
  inferInstanceAs (Decidable (_ ∧ _))

/-- An attribute that says nothing to a tag of the kind with the attributes of the list. -/
inductive Idle (kind : TagKind) (l : List Attribute) : Attribute → Prop
  | unused {key : String} (value : String) (h : key ∉ kind.keys) : Idle kind l (named key value)
  | bare {name : String} (value : String) (h : named "name" name ∈ l) : Idle kind l (bare value)
  | format {fmt : String} (value : String) (h : named "fmt" fmt ∈ l) :
      Idle kind l (named "format" value)
  | value {operator literal : String} (value : String) (h : compare operator literal ∈ l) :
      Idle kind l (named "value" value)

/-- What can be made of a list of attributes by reordering it and by putting in what says nothing,
anywhere. -/
inductive Arranged (kind : TagKind) (l : List Attribute) : List Attribute → Prop
  | refl : Arranged kind l l
  | reorder {m m' : List Attribute} : Arranged kind l m → Reordered m m' → Arranged kind l m'
  | insert {before after : List Attribute} {a : Attribute} :
      Arranged kind l (before ++ after) → Idle kind (before ++ after) a →
      Arranged kind l (before ++ a :: after)

/-! ### Lookups -/

section Lookup

variable {l l' before after : List Attribute} {a : Attribute} {f : Family}

end Lookup

/-! ### What a kind of tag looks up -/

/-- The two lists give tags of the kind the same. -/
structure Agree (kind : TagKind) (l l' : List Attribute) : Prop where
  name : "name" ∈ kind.keys → (named? "name" l').or (bare? l') = (named? "name" l).or (bare? l)
  default : "default" ∈ kind.keys → named? "default" l' = named? "default" l
  format : "fmt" ∈ kind.keys →
    (named? "fmt" l').or (named? "format" l') = (named? "fmt" l).or (named? "format" l)
  inline : "value" ∈ kind.keys → compare? l' = compare? l
  value : "value" ∈ kind.keys → compare? l = none → named? "value" l' = named? "value" l
  level : "level" ∈ kind.keys → named? "level" l' = named? "level" l

namespace Agree

variable {kind : TagKind} {l m l' : List Attribute}

theorem refl : Agree kind l l := ⟨fun _ => rfl, fun _ => rfl, fun _ => rfl, fun _ => rfl,
  fun _ _ => rfl, fun _ => rfl⟩

theorem trans (h : Agree kind l m) (h' : Agree kind m l') : Agree kind l l' where
  name hk := (h'.name hk).trans (h.name hk)
  default hk := (h'.default hk).trans (h.default hk)
  format hk := (h'.format hk).trans (h.format hk)
  inline hk := (h'.inline hk).trans (h.inline hk)
  value hk hnone := (h'.value hk ((h.inline hk).trans hnone)).trans (h.value hk hnone)
  level hk := (h'.level hk).trans (h.level hk)

end Agree

end Attribute

namespace Tag

variable {settings : Settings} {tags : TagSet} {depth loops : Nat} {tag : Tag} {l : List Attribute}

def withAttributes (tag : Tag) (l : List Attribute) : Tag := { tag with attributes := l }

end Tag
end Stencil
