import Stencil.Tag.Meaning

/-! What tags without a body give.
The main statement lists the nodes that such a tag may stand for, with what its attributes have been
read as. -/
namespace Stencil

variable {settings : Settings} {depth : Nat}

theorem exists_of_map_eq_ok {ε α β : Type} {x : Except ε α} {f : α → β} {b : β}
    (h : x.map f = .ok b) : ∃ a, x = .ok a ∧ f a = b := by
  cases x with
  | error e => cases h
  | ok a =>
    cases h
    exact ⟨a, rfl, rfl⟩

theorem Tag.exists_of_value {tag : Tag} {node : Node} (h : tag.value settings = .ok node) :
    ∃ name default formatter, tag.formatter settings = .ok formatter ∧
      node = .value name default formatter := by
  unfold Tag.value at h
  split at h
  · cases h
  · split at h
    · cases h
    · rename_i formatter hformatter
      cases h
      exact ⟨_, _, formatter, hformatter, rfl⟩

theorem Tag.exists_of_embed {tag : Tag} {node : Node} (h : tag.embed settings depth = .ok node) :
    ∃ name, node = .embed name tag.line tag.span ∧ depth < settings.includeLimit ∧
      tag.name settings.tags = .ok name := by
  unfold Tag.embed at h
  split at h
  · cases h
  · rename_i name hname
    split at h
    · rename_i hlt
      cases h
      exact ⟨name, rfl, hlt, hname⟩
    · cases h

/-- The nodes that a tag without a body gives: a value, an inclusion if the template is not too
deep, a jump out of loops that there are, or none. -/
theorem Tag.leaf_cases {loops : Nat} {tag : Tag} {nodes : List Node}
    (h : tag.leaf settings depth loops = .ok nodes) :
    (∃ name default formatter, tag.formatter settings = .ok formatter ∧
      nodes = [.value name default formatter]) ∨
    (∃ name, nodes = [.embed name tag.line tag.span] ∧ depth < settings.includeLimit ∧
      tag.name settings.tags = .ok name) ∨
    (∃ level, (1 ≤ level ∧ level ≤ loops) ∧ (nodes = [.leave level] ∨ nodes = [.next level])) ∨
    nodes = [] := by
  unfold Tag.leaf at h
  split at h
  · obtain ⟨node, hn, rfl⟩ := exists_of_map_eq_ok h
    obtain ⟨name, default, formatter, hf, rfl⟩ := Tag.exists_of_value hn
    exact .inl ⟨name, default, formatter, hf, rfl⟩
  · obtain ⟨node, hn, rfl⟩ := exists_of_map_eq_ok h
    obtain ⟨name, rfl, hlt, hname⟩ := Tag.exists_of_embed hn
    exact .inr (.inl ⟨name, rfl, hlt, hname⟩)
  · obtain ⟨level, hl, rfl⟩ := exists_of_map_eq_ok h
    exact .inr (.inr (.inl ⟨level, Tag.level_le hl, .inl rfl⟩))
  · obtain ⟨level, hl, rfl⟩ := exists_of_map_eq_ok h
    exact .inr (.inr (.inl ⟨level, Tag.level_le hl, .inr rfl⟩))
  · cases h
    exact .inr (.inr (.inr rfl))

end Stencil
