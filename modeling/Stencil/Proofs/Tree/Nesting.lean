import Stencil.Proofs.Tree.Reading

/-! What a list takes of the items.
The constructs that have been opened and not closed are told by the terminators that mean something
to them, and each item changes them in one way. The main statement says that the items which such a
count does not find ended are read to their end as one list, whatever follows them. -/
namespace Stencil

namespace TagKind

abbrev armStops : StopSet := [.elsif, .alt, .endif]

end TagKind

namespace Tree

open TagKind (armStops)

/-- What an item does to the constructs that have been opened before it in a list, the innermost
first. A terminator goes to the first that it means something to; if it means something to none of
them, it is out of place, or it ends the list if it is awaited outside. -/
def nest (outer : StopSet) (opened : List StopSet) : Item → Option (List StopSet)
  | .tag tag =>
    if tag.kind.isTerminator then
      match opened.dropWhile (tag.kind ∉ ·) with
      | accepted :: more =>
        match tag.kind with
        | .elsif => some (accepted :: more)
        | .alt => some ([.endif] :: more)
        | _ => some more
      | [] => if tag.kind ∈ outer then none else some opened
    else
      match tag.kind with
      | .cond => some (armStops :: opened)
      | .loop => some ([.endloop] :: opened)
      | _ => some opened
  | _ => some opened

def nested (outer : StopSet) (opened : List StopSet) (items : List Item) :
    Option (List StopSet) := items.foldlM (nest outer) opened

/-- Whether the items are a list that a terminator of this kind ends: none of them does, and what
they leave open lets it pass. -/
def IsList (outer : StopSet) (kind : TagKind) (items : List Item) : Prop :=
  ∃ inner ∈ nested outer [] items, ∀ accepted ∈ inner, kind ∉ accepted

instance (outer : StopSet) (kind : TagKind) (items : List Item) :
    Decidable (IsList outer kind items) :=
  inferInstanceAs (Decidable (∃ inner ∈ nested outer [] items, ∀ accepted ∈ inner, kind ∉ accepted))

def Passes (opened : List StopSet) (items : List Item) : Prop :=
  ∀ tag more, items = .tag tag :: more → ∀ accepted ∈ opened, tag.kind ∉ accepted

def Alike (rest other : List Item) : Prop := other = [] ∨ other.head? = rest.head?

variable {outer stop : StopSet} {opened inner start : List StopSet} {accepted : StopSet}
  {items rest other : List Item} {tag : Tag}

section Nest

@[simp] theorem nested_nil : nested outer opened [] = some opened := rfl

theorem nested_cons (item : Item) :
    nested outer opened (item :: items) =
      (nest outer opened item).bind fun start => nested outer start items := by
  rw [nested, List.foldlM_cons]
  rfl

theorem nested_append :
    nested outer opened (items ++ other) =
      (nested outer opened items).bind fun start => nested outer start other := by
  rw [nested, List.foldlM_append]
  rfl

theorem dropWhile_passed (opened : List StopSet) (h : ∀ accepted ∈ inner, tag.kind ∉ accepted) :
    (inner ++ opened).dropWhile (tag.kind ∉ ·) = opened.dropWhile (tag.kind ∉ ·) :=
  List.dropWhile_append_of_pos fun accepted ha => by simpa using h accepted ha

theorem nest_accepted (ht : tag.kind.isTerminator) (hi : ∀ accepted ∈ inner, tag.kind ∉ accepted)
    (ha : tag.kind ∈ accepted) :
    nest outer (inner ++ accepted :: opened) (.tag tag) =
      match tag.kind with
      | .elsif => some (accepted :: opened)
      | .alt => some ([.endif] :: opened)
      | _ => some opened := by
  rw [nest, if_pos ht, dropWhile_passed _ hi, List.dropWhile_cons_of_neg (by simpa using ha)]

theorem nest_unaccepted (ht : tag.kind.isTerminator)
    (hi : ∀ accepted ∈ opened, tag.kind ∉ accepted) :
    nest outer opened (.tag tag) = if tag.kind ∈ outer then none else some opened := by
  have hnil : opened.dropWhile (tag.kind ∉ ·) = [] := by
    have hd := dropWhile_passed [] hi
    rwa [List.append_nil] at hd
  rw [nest, if_pos ht, hnil]

end Nest

section Ends

theorem passes_nil (items : List Item) : Passes [] items :=
  fun _ _ _ _ hm => absurd hm List.not_mem_nil

theorem alike_refl (items : List Item) : Alike items items := .inr rfl

theorem Alike.append (h : Alike rest other) (items : List Item) :
    Alike (items ++ rest) (items ++ other) := by
  cases items with
  | nil => exact h
  | cons item items => exact .inr rfl

theorem Alike.halts (h : Alike rest other) (hr : Halts stop rest) : Halts stop other := by
  rcases h with rfl | h
  · exact .inl rfl
  · rcases hr with rfl | ⟨tag, more, rfl, ht, hs⟩
    · exact .inl (List.head?_eq_none_iff.mp h)
    · obtain ⟨left, rfl⟩ := List.head?_eq_some_iff.mp h
      exact .inr ⟨tag, left, rfl, ht, hs⟩

theorem Alike.take?_eq_none (h : Alike rest other) {kind : TagKind}
    (hr : take? kind rest = none) : take? kind other = none := by
  rcases h with rfl | h
  · rfl
  · refine take?_eq_none_iff.mpr fun tag more ho => ?_
    subst ho
    obtain ⟨left, rfl⟩ := List.head?_eq_some_iff.mp h.symm
    exact take?_eq_none_iff.mp hr _ _ rfl

theorem list_of_halts (settings : Settings) (depth loops : Nat) (h : Halts stop items) :
    list settings depth stop loops items = ⟨[], [], items⟩ := by
  rcases h with rfl | ⟨tag, more, rfl, ht, hs⟩
  · exact list_nil
  · exact list_stop ht hs

theorem IsList.unique {taken left : List Item} (h : IsList stop tag.kind items)
    (ht : tag.kind.isTerminator) (hs : tag.kind ∈ stop)
    (hn : nested stop [] taken = some inner) (hp : Passes inner left) (hh : Halts stop left)
    (he : items ++ .tag tag :: rest = taken ++ left) :
    taken = items ∧ left = .tag tag :: rest := by
  obtain ⟨kept, hopen, hpass⟩ := h
  rw [Option.mem_def] at hopen
  rcases List.append_eq_append_iff.mp he with ⟨more, htaken, hmore⟩ | ⟨more, hitems, hmore⟩
  · -- more than the items would contain the tag, which ends the list
    cases more with
    | nil => exact ⟨by rw [htaken, List.append_nil], hmore.symm⟩
    | cons item more =>
      obtain ⟨rfl, -⟩ := List.cons.inj hmore
      rw [htaken, nested_append, hopen, Option.bind_some, nested_cons,
        nest_unaccepted ht hpass, if_pos hs] at hn
      cases hn
  · -- less than the items would leave one of them that ends the list
    cases more with
    | nil => exact ⟨by rw [hitems, List.append_nil], hmore⟩
    | cons item more =>
      rcases hh with hnil | ⟨tag', more', hcons, ht', hs'⟩
      · rw [hnil] at hmore
        cases hmore
      · obtain ⟨rfl, -⟩ := List.cons.inj (hmore.symm.trans hcons)
        rw [hitems, nested_append, hn, Option.bind_some, nested_cons,
          nest_unaccepted ht' (hp tag' more' hcons), if_pos hs'] at hopen
        cases hopen

end Ends

/-- What a reader takes of the items. It begins with `start` open and leaves open what was so and
perhaps more; what follows means nothing to the latter, but ends it. Nothing but whether it ends
there depends on what follows. -/
def Takes (outer : StopSet) (opened start : List StopSet) (read : List Item → Parsed)
    (items : List Item) : Prop :=
  ∃ taken inner, items = taken ++ (read items).rest ∧
    nested outer start taken = some (inner ++ opened) ∧ Passes inner (read items).rest ∧
    (inner ≠ [] → Halts (opened.flatten ++ outer) (read items).rest) ∧
    ∀ other, Alike (read items).rest other →
      read (taken ++ other) = ⟨(read items).nodes, (read items).findings, other⟩

namespace Takes

variable {read : List Item → Parsed} {item : Item} {nodes : List Node} {findings : List Finding}

theorem of_none (h : ∀ other, Alike items other → read other = ⟨nodes, findings, other⟩) :
    Takes outer opened opened read items := by
  have hself := h items (alike_refl items)
  refine ⟨[], [], ?_, by simp, passes_nil _, fun hne => absurd rfl hne, fun other ho => ?_⟩
  · rw [hself, List.nil_append]
  · rw [hself] at ho ⊢
    rw [List.nil_append, h other ho]

theorem cons (nodes : List Node) (findings : List Finding)
    (hread : ∀ items, read (item :: items) =
      ⟨nodes ++ (read items).nodes, findings ++ (read items).findings, (read items).rest⟩)
    (hnest : nest outer start item = some start) (h : Takes outer opened start read items) :
    Takes outer opened start read (item :: items) := by
  obtain ⟨taken, inner, he, hn, hp, hh, ho⟩ := h
  unfold Takes
  rw [hread]
  refine ⟨item :: taken, inner, ?_, ?_, hp, hh, fun other halike => ?_⟩
  · rw [List.cons_append, ← he]
  · rw [nested_cons, hnest, Option.bind_some, hn]
  · rw [List.cons_append, hread, ho other halike]

end Takes

section Taking

variable (settings : Settings) (depth : Nat)

theorem taken_close (tags : TagSet) (opener : Tag) {closing : TagKind}
    (hc : closing = .endif ∨ closing = .endloop) (ha : closing ∈ accepted)
    (hp : Passes inner rest) (hh : Halts (accepted ++ (opened.flatten ++ outer)) rest)
    (hn : ∀ kind ∈ accepted, kind ≠ closing → take? kind rest = none) :
    ∃ taken inner', rest = taken ++ (close tags opener closing rest).2 ∧
      nested outer (inner ++ accepted :: opened) taken = some (inner' ++ opened) ∧
      Passes inner' (close tags opener closing rest).2 ∧
      (inner' ≠ [] → Halts (opened.flatten ++ outer) (close tags opener closing rest).2) ∧
      ∀ other, Alike (close tags opener closing rest).2 other →
        close tags opener closing (taken ++ other) =
          ((close tags opener closing rest).1, other) := by
  unfold close
  cases h : take? closing rest with
  | some p =>
    obtain ⟨tag, left⟩ := p
    obtain ⟨rfl, rfl⟩ := take?_eq_some_iff.mp h
    have ht : tag.kind.isTerminator := by rcases hc with hc | hc <;> rw [hc] <;> rfl
    refine ⟨[.tag tag], [], rfl, ?_, passes_nil _, fun hne => absurd rfl hne, fun other _ => ?_⟩
    · rw [nested_cons, nest_accepted ht (hp tag left rfl) ha]
      rcases hc with hc | hc <;> rw [hc] <;> rfl
    · rw [List.singleton_append, take?_eq_some_iff.mpr ⟨rfl, rfl⟩]
  | none =>
    -- what comes next means nothing to the construct either, which stays open
    have hnone (tag : Tag) (more : List Item) (he : rest = .tag tag :: more) :
        tag.kind ∉ accepted := by
      intro hm
      by_cases hk : tag.kind = closing
      · exact take?_eq_none_iff.mp h _ _ he hk
      · exact take?_eq_none_iff.mp (hn _ hm hk) _ _ he rfl
    refine ⟨[], inner ++ [accepted], rfl, by simp, ?_, fun _ => ?_, fun other ho => ?_⟩
    · intro tag more he kinds hk
      rcases List.mem_append.mp hk with hk | hk
      · exact hp tag more he kinds hk
      · rw [List.mem_singleton.mp hk]
        exact hnone tag more he
    · rcases hh with rfl | ⟨tag, more, rfl, ht, hs⟩
      · exact .inl rfl
      · exact .inr ⟨tag, more, rfl, ht, (List.mem_append.mp hs).resolve_left (hnone _ _ rfl)⟩
    · rw [List.nil_append, ho.take?_eq_none h]

theorem takes_of_halts (loops : Nat) (h : Halts (opened.flatten ++ outer) items) :
    Takes outer opened opened (list settings depth (opened.flatten ++ outer) loops) items :=
  .of_none fun _ ho => list_of_halts settings depth loops (ho.halts h)

/-- A list takes what its first construct takes, and more if that is closed. -/
theorem takes_list_node {loops : Nat} (ht : ¬ tag.kind.isTerminator)
    (hstart : nest outer opened (.tag tag) = some start)
    (hnode : Takes outer opened start
      (node settings depth (opened.flatten ++ outer) loops tag) items)
    (hmore : Takes outer opened opened (list settings depth (opened.flatten ++ outer) loops)
      (node settings depth (opened.flatten ++ outer) loops tag items).rest) :
    Takes outer opened opened (list settings depth (opened.flatten ++ outer) loops)
      (.tag tag :: items) := by
  obtain ⟨taken, inner, he, hn, hp, hh, ho⟩ := hnode
  unfold Takes
  rw [list_node ht]
  dsimp only
  generalize node settings depth (opened.flatten ++ outer) loops tag items = first
    at he hp hh ho hmore ⊢
  obtain ⟨taken', inner', he', hn', hp', -, ho'⟩ := hmore
  have hrest := halts_list settings depth (opened.flatten ++ outer) loops first.rest
  have hread (other : List Item)
      (h : Alike (list settings depth (opened.flatten ++ outer) loops first.rest).rest other) :
      list settings depth (opened.flatten ++ outer) loops
          (.tag tag :: (taken ++ taken') ++ other) =
        ⟨first.nodes ++ (list settings depth (opened.flatten ++ outer) loops first.rest).nodes,
          first.findings ++
            (list settings depth (opened.flatten ++ outer) loops first.rest).findings,
          other⟩ := by
    have hfirst := ho (taken' ++ other) (by rw [he']; exact h.append taken')
    rw [List.cons_append, List.append_assoc, list_node ht, hfirst]
    dsimp only
    rw [ho' other h]
  have heq : .tag tag :: items = .tag tag :: (taken ++ taken') ++
      (list settings depth (opened.flatten ++ outer) loops first.rest).rest := by
    rw [List.cons_append, List.append_assoc, ← he', ← he]
  cases inner with
  | nil =>
    refine ⟨.tag tag :: (taken ++ taken'), inner', heq, ?_, hp', fun _ => hrest, hread⟩
    rw [nested_cons, hstart, Option.bind_some, nested_append, hn]
    exact hn'
  | cons accepted inner =>
    -- what the tag began is still open, so that the list ends with it
    have hhalts := hh (List.cons_ne_nil _ _)
    rw [list_of_halts settings depth loops hhalts] at he' heq hread ⊢
    obtain rfl : taken' = [] := by simpa using he'
    rw [List.append_nil] at heq hread
    refine ⟨.tag tag :: taken, accepted :: inner, heq, ?_, hp, fun _ => hhalts, hread⟩
    rw [nested_cons, hstart, Option.bind_some, hn]

mutual

/-- What a list takes leaves the constructs open that were open before it, but for those that its
items begin and that what follows ends. -/
theorem takes_list (outer : StopSet) (opened : List StopSet) (loops : Nat) (items : List Item) :
    Takes outer opened opened (list settings depth (opened.flatten ++ outer) loops) items := by
  match items with
  | [] => exact takes_of_halts settings depth loops (.inl rfl)
  | .text span :: items =>
    exact .cons [.text span] [] (fun _ => list_text span) rfl (takes_list outer opened loops items)
  | .finding f :: items =>
    exact .cons [] [f] (fun _ => list_finding f) rfl (takes_list outer opened loops items)
  | .tag tag :: items =>
    by_cases ht : tag.kind.isTerminator
    · by_cases hs : tag.kind ∈ opened.flatten ++ outer
      · exact takes_of_halts settings depth loops (.inr ⟨tag, items, rfl, ht, hs⟩)
      · have hnest : nest outer opened (.tag tag) = some opened := by
          rw [nest_unaccepted ht fun accepted ha hm =>
            hs (List.mem_append_left _ (List.mem_flatten_of_mem ha hm)),
            if_neg fun hm => hs (List.mem_append_right _ hm)]
        exact .cons [] [tag.finding (.unexpected (settings.tags.keyword tag.kind))]
          (fun _ => list_unexpected ht hs) hnest (takes_list outer opened loops items)
    · obtain ⟨start, hstart, hnode⟩ := takes_node outer opened loops ht items
      have hlen := length_node_le settings depth (opened.flatten ++ outer) loops tag items
      exact takes_list_node settings depth ht hstart hnode (takes_list outer opened loops _)
termination_by 3 * items.length + 0

theorem takes_node (outer : StopSet) (opened : List StopSet) (loops : Nat) {tag : Tag}
    (ht : ¬ tag.kind.isTerminator) (items : List Item) :
    ∃ start, nest outer opened (.tag tag) = some start ∧
      Takes outer opened start (node settings depth (opened.flatten ++ outer) loops tag) items := by
  rw [nest, if_neg ht]
  by_cases hc : tag.kind = .cond
  · rw [hc]
    refine ⟨_, rfl, ?_⟩
    have hread : node settings depth (opened.flatten ++ outer) loops tag =
        conditional settings depth (opened.flatten ++ outer) loops tag :=
      funext fun _ => node_cond hc
    rw [hread]
    exact takes_conditional outer opened loops tag items
  · by_cases hl : tag.kind = .loop
    · rw [hl]
      refine ⟨_, rfl, ?_⟩
      have hread : node settings depth (opened.flatten ++ outer) loops tag =
          loop settings depth (opened.flatten ++ outer) loops tag := funext fun _ => node_loop hl
      rw [hread]
      exact takes_loop outer opened loops tag items
    · exact ⟨opened, by split <;> first | contradiction | rfl, .of_none fun _ _ => node_leaf hc hl⟩
termination_by 3 * items.length + 2

theorem takes_conditional (outer : StopSet) (opened : List StopSet) (loops : Nat) (opener : Tag)
    (items : List Item) :
    Takes outer opened (armStops :: opened)
      (conditional settings depth (opened.flatten ++ outer) loops opener) items := by
  have hbody : Takes outer (armStops :: opened) (armStops :: opened)
      (list settings depth (.elsif :: .alt :: .endif :: (opened.flatten ++ outer)) loops) items :=
    takes_list outer (armStops :: opened) loops items
  obtain ⟨t₁, inner₁, he₁, hn₁, hp₁, -, ho₁⟩ := hbody
  have hlen₁ := length_list_le settings depth
    (.elsif :: .alt :: .endif :: (opened.flatten ++ outer)) loops items
  have hh₁ := halts_list settings depth (.elsif :: .alt :: .endif :: (opened.flatten ++ outer))
    loops items
  rw [Takes, conditional_eq]
  dsimp only
  generalize list settings depth (.elsif :: .alt :: .endif :: (opened.flatten ++ outer)) loops
    items = body at he₁ hp₁ ho₁ hlen₁ hh₁ ⊢
  obtain ⟨t₂, inner₂, he₂, hn₂, hp₂, ho₂⟩ := taken_arms outer opened loops body.rest hp₁ hh₁
  have hlen₂ := length_arms_le settings depth
    (.elsif :: .alt :: .endif :: (opened.flatten ++ outer)) loops body.rest
  obtain ⟨hh₂, hnone₂⟩ := halts_arms settings depth _ loops body.rest hh₁
  generalize arms settings depth (.elsif :: .alt :: .endif :: (opened.flatten ++ outer)) loops
    body.rest = further at he₂ hp₂ ho₂ hlen₂ hh₂ hnone₂ ⊢
  obtain ⟨t₃, inner₃, accepted, he₃, hn₃, hp₃, hm₃, hh₃, hnone₃, ho₃⟩ :=
    taken_alternative outer opened loops further.rest hp₂ hh₂ hnone₂
  generalize alternative settings depth (opened.flatten ++ outer) loops further.rest = last
    at he₃ hp₃ hh₃ hnone₃ ho₃ ⊢
  obtain ⟨t₄, inner₄, he₄, hn₄, hp₄, hh₄, ho₄⟩ := taken_close settings.tags opener
    (.inl rfl) hm₃ hp₃ hh₃ hnone₃
  generalize close settings.tags opener .endif last.rest = closed at he₄ hp₄ hh₄ ho₄ ⊢
  refine ⟨t₁ ++ (t₂ ++ (t₃ ++ t₄)), inner₄, ?_, ?_, hp₄, hh₄, fun other h => ?_⟩
  · simp only [List.append_assoc]
    rw [← he₄, ← he₃, ← he₂, ← he₁]
  · simp only [nested_append, hn₁, Option.bind_some, hn₂, hn₃, hn₄]
  · have h₄ := ho₄ other h
    have h₃ := ho₃ (t₄ ++ other) (by rw [he₄]; exact h.append t₄)
    have h₂ := ho₂ (t₃ ++ (t₄ ++ other)) (by rw [he₃, he₄]; exact (h.append t₄).append t₃)
    have h₁ := ho₁ (t₂ ++ (t₃ ++ (t₄ ++ other)))
      (by rw [he₂, he₃, he₄]; exact ((h.append t₄).append t₃).append t₂)
    have happend : t₁ ++ (t₂ ++ (t₃ ++ t₄)) ++ other = t₁ ++ (t₂ ++ (t₃ ++ (t₄ ++ other))) := by
      simp only [List.append_assoc]
    rw [happend, conditional_eq]
    dsimp only
    rw [h₁]
    dsimp only
    rw [h₂]
    dsimp only
    rw [h₃]
    dsimp only
    rw [h₄]
termination_by 3 * items.length + 1

theorem taken_arms (outer : StopSet) (opened : List StopSet) (loops : Nat) (items : List Item)
    {inner : List StopSet} (hp : Passes inner items)
    (hh : Halts (.elsif :: .alt :: .endif :: (opened.flatten ++ outer)) items) :
    let p := arms settings depth (.elsif :: .alt :: .endif :: (opened.flatten ++ outer)) loops items
    ∃ taken inner', items = taken ++ p.rest ∧
      nested outer (inner ++ armStops :: opened) taken = some (inner' ++ armStops :: opened) ∧
      Passes inner' p.rest ∧
      ∀ other, Alike p.rest other →
        arms settings depth (.elsif :: .alt :: .endif :: (opened.flatten ++ outer)) loops
          (taken ++ other) = ⟨p.arms, p.findings, other⟩ := by
  match h : take? .elsif items with
  | none =>
    rw [arms_none h]
    exact ⟨[], inner, rfl, rfl, hp, fun other ho => arms_none (ho.take?_eq_none h)⟩
  | some (tag, rest) =>
    have hlen := length_of_take? h
    obtain ⟨rfl, hk⟩ := take?_eq_some_iff.mp h
    have hbody : Takes outer (armStops :: opened) (armStops :: opened)
        (list settings depth (.elsif :: .alt :: .endif :: (opened.flatten ++ outer)) loops) rest :=
      takes_list outer (armStops :: opened) loops rest
    obtain ⟨t₁, inner₁, he₁, hn₁, hp₁, -, ho₁⟩ := hbody
    have hlen₁ := length_list_le settings depth
      (.elsif :: .alt :: .endif :: (opened.flatten ++ outer)) loops rest
    have hh₁ := halts_list settings depth (.elsif :: .alt :: .endif :: (opened.flatten ++ outer))
      loops rest
    rw [arms_some h]
    generalize list settings depth (.elsif :: .alt :: .endif :: (opened.flatten ++ outer)) loops
      rest = body at he₁ hp₁ ho₁ hlen₁ hh₁
    obtain ⟨t₂, inner₂, he₂, hn₂, hp₂, ho₂⟩ := taken_arms outer opened loops body.rest hp₁ hh₁
    have hnest : nest outer (inner ++ armStops :: opened) (.tag tag) =
        some (armStops :: opened) := by
      rw [nest_accepted (by rw [hk]; rfl) (hp tag rest rfl) (by simp [hk])]
      simp only [hk]
    refine ⟨.tag tag :: (t₁ ++ t₂), inner₂, ?_, ?_, hp₂, fun other ho => ?_⟩
    · rw [List.cons_append, List.append_assoc, ← he₂, ← he₁]
    · rw [nested_cons, hnest, Option.bind_some, nested_append, hn₁, Option.bind_some, hn₂]
    · have h₂ := ho₂ other ho
      have h₁ := ho₁ (t₂ ++ other) (by rw [he₂]; exact ho.append t₂)
      rw [List.cons_append, List.append_assoc, arms_some (take?_eq_some_iff.mpr ⟨rfl, hk⟩), h₁]
      dsimp only
      rw [h₂]
termination_by 3 * items.length + 0

/-- The list for the case that no test holds is taken where the last arm ends. -/
theorem taken_alternative (outer : StopSet) (opened : List StopSet) (loops : Nat)
    (items : List Item) {inner : List StopSet} (hp : Passes inner items)
    (hh : Halts (.elsif :: .alt :: .endif :: (opened.flatten ++ outer)) items)
    (he : take? .elsif items = none) :
    let p := alternative settings depth (opened.flatten ++ outer) loops items
    ∃ taken inner' accepted, items = taken ++ p.rest ∧
      nested outer (inner ++ armStops :: opened) taken = some (inner' ++ accepted :: opened) ∧
      Passes inner' p.rest ∧ .endif ∈ accepted ∧
      Halts (accepted ++ (opened.flatten ++ outer)) p.rest ∧
      (∀ kind ∈ accepted, kind ≠ .endif → take? kind p.rest = none) ∧
      ∀ other, Alike p.rest other →
        alternative settings depth (opened.flatten ++ outer) loops (taken ++ other) =
          ⟨p.nodes, p.findings, other⟩ := by
  match h : take? .alt items with
  | none =>
    rw [alternative_none h]
    refine ⟨[], inner, armStops, rfl, rfl, hp, by simp, hh, fun kind hm hk => ?_,
      fun other ho => alternative_none (ho.take?_eq_none h)⟩
    simp only [armStops, List.mem_cons, List.not_mem_nil, or_false] at hm
    rcases hm with rfl | rfl | rfl
    · exact he
    · exact h
    · exact absurd rfl hk
  | some (tag, rest) =>
    have hlen := length_of_take? h
    obtain ⟨rfl, hk⟩ := take?_eq_some_iff.mp h
    have hbody : Takes outer ([.endif] :: opened) ([.endif] :: opened)
        (list settings depth (.endif :: (opened.flatten ++ outer)) loops) rest :=
      takes_list outer ([.endif] :: opened) loops rest
    obtain ⟨t₁, inner₁, he₁, hn₁, hp₁, -, ho₁⟩ := hbody
    have hnest : nest outer (inner ++ armStops :: opened) (.tag tag) =
        some ([.endif] :: opened) := by
      rw [nest_accepted (by rw [hk]; rfl) (hp tag rest rfl) (by simp [hk])]
      simp only [hk]
    rw [alternative_some h]
    refine ⟨.tag tag :: t₁, inner₁, [.endif], ?_, ?_, hp₁, by simp,
      halts_list settings depth _ loops rest, fun kind hm hne => ?_, fun other ho => ?_⟩
    · rw [List.cons_append, ← he₁]
    · rw [nested_cons, hnest, Option.bind_some, hn₁]
    · exact absurd (List.mem_singleton.mp hm) hne
    · rw [List.cons_append, alternative_some (take?_eq_some_iff.mpr ⟨rfl, hk⟩), ho₁ other ho]
termination_by 3 * items.length + 0

theorem takes_loop (outer : StopSet) (opened : List StopSet) (loops : Nat) (opener : Tag)
    (items : List Item) :
    Takes outer opened ([.endloop] :: opened)
      (loop settings depth (opened.flatten ++ outer) loops opener) items := by
  have hbody : Takes outer ([.endloop] :: opened) ([.endloop] :: opened)
      (list settings depth (.endloop :: (opened.flatten ++ outer)) (loops + 1)) items :=
    takes_list outer ([.endloop] :: opened) (loops + 1) items
  obtain ⟨t₁, inner₁, he₁, hn₁, hp₁, -, ho₁⟩ := hbody
  have hh₁ := halts_list settings depth (.endloop :: (opened.flatten ++ outer)) (loops + 1) items
  rw [Takes, loop_eq]
  dsimp only
  generalize list settings depth (.endloop :: (opened.flatten ++ outer)) (loops + 1) items = body
    at he₁ hp₁ ho₁ hh₁ ⊢
  have hnone (kind : TagKind) (hm : kind ∈ [TagKind.endloop]) (hne : kind ≠ .endloop) :
      take? kind body.rest = none := absurd (List.mem_singleton.mp hm) hne
  obtain ⟨t₂, inner₂, he₂, hn₂, hp₂, hh₂, ho₂⟩ := taken_close settings.tags opener
    (.inr rfl) (List.mem_singleton_self _) hp₁ hh₁ hnone
  refine ⟨t₁ ++ t₂, inner₂, ?_, ?_, hp₂, hh₂, fun other h => ?_⟩
  · rw [List.append_assoc, ← he₂, ← he₁]
  · rw [nested_append, hn₁, Option.bind_some, hn₂]
  · have h₁ := ho₁ (t₂ ++ other) (by rw [he₂]; exact h.append t₂)
    rw [List.append_assoc, loop_eq]
    dsimp only
    rw [h₁]
    dsimp only
    rw [ho₂ other h]
termination_by 3 * items.length + 1

end

theorem isList_taken (stop : StopSet) (loops : Nat) {items rest : List Item} {tag : Tag}
    (h : (list settings depth stop loops items).rest = .tag tag :: rest) :
    ∃ taken, items = taken ++ .tag tag :: rest ∧ IsList stop tag.kind taken := by
  obtain ⟨taken, inner, he, hn, hp, -⟩ := takes_list settings depth stop [] loops items
  rw [List.flatten_nil, List.nil_append, h] at he hp
  rw [List.append_nil] at hn
  exact ⟨taken, he, inner, hn, hp tag rest rfl⟩

/-- A list is read up to the tag that ends it as it is read by itself. -/
theorem list_isList (loops : Nat) (h : IsList stop tag.kind items) (ht : tag.kind.isTerminator)
    (hs : tag.kind ∈ stop) (rest : List Item) :
    list settings depth stop loops (items ++ .tag tag :: rest) =
      { list settings depth stop loops items with rest := .tag tag :: rest } := by
  obtain ⟨taken, inner, he, hn, hp, -, ho⟩ :=
    takes_list settings depth stop [] loops (items ++ .tag tag :: rest)
  have hh := halts_list settings depth stop loops (items ++ .tag tag :: rest)
  rw [List.flatten_nil, List.nil_append] at he hp ho
  rw [List.append_nil] at hn
  obtain ⟨rfl, hrest⟩ := h.unique ht hs hn hp hh he
  have hself := ho [] (.inl rfl)
  rw [List.append_nil] at hself
  rw [hself]
  exact congrArg (Parsed.mk _ _) hrest

end Taking

end Tree
end Stencil
