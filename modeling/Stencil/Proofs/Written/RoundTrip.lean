import Stencil.Proofs.Tree.Reading
import Stencil.Proofs.Written.Meaning

/-! What is written is read again.
The items of marks give back the drafts that the marks stand for, whatever is read around them: a
list of nodes leaves what follows it, and what follows the first body of a conditional gives the
nodes for the case that its test fails and closes it. The main statement is that drafts can be
written, and that a text in which they are written has no findings and their tree. -/
namespace Stencil

namespace Mark

variable {source : List Char} {items : List Item} {marks : List Mark}

theorem exists_text_of_map {content : List Char}
    (h : items.map (ofItem? source) = (text content :: marks).map some) :
    ∃ span left, items = .text span :: left ∧ Text.slice? source span = some content ∧
      left.map (ofItem? source) = marks.map some := by
  obtain ⟨item, left, rfl, hitem, hleft⟩ := List.map_eq_cons_iff.mp h
  cases item with
  | text span =>
    obtain ⟨c, hc, he⟩ := Option.map_eq_some_iff.mp hitem
    cases he
    exact ⟨span, left, rfl, hc, hleft⟩
  | tag t => cases hitem
  | finding f => cases hitem

theorem exists_tag_of_map {kind : TagKind} {attributes : List Attribute}
    (h : items.map (ofItem? source) = (tag kind attributes :: marks).map some) :
    ∃ t left, items = .tag t :: left ∧ t.kind = kind ∧ t.attributes = attributes ∧
      left.map (ofItem? source) = marks.map some := by
  obtain ⟨item, left, rfl, hitem, hleft⟩ := List.map_eq_cons_iff.mp h
  cases item with
  | text span =>
    obtain ⟨c, _, he⟩ := Option.map_eq_some_iff.mp hitem
    cases he
  | tag t =>
    cases hitem
    exact ⟨t, left, rfl, rfl, rfl, hleft⟩
  | finding f => cases hitem

end Mark

/-- Whether the items of a template so deep, inside so many loops, are read as the drafts, whatever
list they are part of and whatever follows them. -/
def Restores (settings : Settings) (depth : Nat) (source : List Char) (loops : Nat)
    (drafts : List Draft) (items : List Item) : Slot → Prop
  | .list => ∃ nodes, Draft.ofNodes source nodes = drafts ∧ ∀ stop rest,
      Tree.list settings depth stop loops (items ++ rest) =
        let more := Tree.list settings depth stop loops rest
        ⟨nodes ++ more.nodes, more.findings, more.rest⟩
  | .alternative => ∃ nodes, Draft.ofNodes source nodes = drafts ∧
      (∃ t left, items = .tag t :: left ∧ t.kind ∈ Lays.alternatives) ∧ ∀ stop opener rest,
        let arms := Tree.arms settings depth (.elsif :: .alt :: .endif :: stop) loops (items ++ rest)
        let other := Tree.alternative settings depth stop loops arms.rest
        Tree.foldArms arms.arms other.nodes = nodes ∧ arms.findings = [] ∧ other.findings = [] ∧
          Tree.close settings.tags opener .endif other.rest = ([], rest)

namespace Restores

variable {settings : Settings} {depth loops : Nat} {source : List Char} {drafts yes no : List Draft}
  {items first second : List Item} {t closer : Tag}

theorem text {span : Span} {content : List Char} (hs : Text.slice? source span = some content)
    (h : Restores settings depth source loops drafts items .list) :
    Restores settings depth source loops (.text content :: drafts) (.text span :: items) .list := by
  obtain ⟨nodes, hnodes, hlist⟩ := h
  refine ⟨.text span :: nodes, ?_, fun stop rest => ?_⟩
  · rw [Draft.ofNodes, hnodes, Draft.ofNode, hs]
    rfl
  · rw [List.cons_append, Tree.list_text, hlist]
    rfl

theorem tag {draft : Draft} {kind : TagKind} {attributes : List Attribute}
    (hd : draft.tag? = some (kind, attributes)) (hw : draft.WellFormed settings loops)
    (hdepth : depth < settings.includeLimit) (hk : t.kind = kind) (ha : t.attributes = attributes)
    (h : Restores settings depth source loops drafts items .list) :
    Restores settings depth source loops (draft :: drafts) (.tag t :: items) .list := by
  obtain ⟨nodes, hnodes, hlist⟩ := h
  obtain ⟨node, hleaf, hnode⟩ := Tag.exists_leaf hd hw hdepth hk ha source
  obtain ⟨_, hcond, hloop, hterminator⟩ := Mark.plain_of_tag? hd hw
  refine ⟨node :: nodes, ?_, fun stop rest => ?_⟩
  · rw [Draft.ofNodes, hnodes, hnode]
  · rw [List.cons_append, Tree.list_node (by simp [hk, hterminator]),
      Tree.node_leaf (by rwa [hk]) (by rwa [hk]), hleaf]
    simp only [Tag.judge, Option.getD_some]
    rw [hlist]
    rfl

theorem alternatives_stop {kind : TagKind} (h : kind ∈ Lays.alternatives) :
    kind.isTerminator = true ∧ ∀ stop, kind ∈ TagKind.elsif :: .alt :: .endif :: stop := by
  simp only [Lays.alternatives, List.mem_cons, List.not_mem_nil, or_false] at h
  rcases h with rfl | rfl | rfl <;> simp [TagKind.isTerminator]

theorem list_stop (h : Restores settings depth source loops drafts first .list)
    (hk : closer.kind.isTerminator = true) :
    ∃ nodes, Draft.ofNodes source nodes = drafts ∧ ∀ stop rest, closer.kind ∈ stop →
      Tree.list settings depth stop loops (first ++ .tag closer :: rest) =
        ⟨nodes, [], .tag closer :: rest⟩ := by
  obtain ⟨nodes, hnodes, hlist⟩ := h
  refine ⟨nodes, hnodes, fun stop rest hs => ?_⟩
  rw [hlist, Tree.list_stop hk hs]
  simp

theorem cond {test : Test} (hk : t.kind = .cond) (ha : t.attributes = test.attributes)
    (hyes : Restores settings depth source loops yes first .list)
    (hno : Restores settings depth source loops no second .alternative)
    (h : Restores settings depth source loops drafts items .list) :
    Restores settings depth source loops (.cond test yes no :: drafts)
      (.tag t :: (first ++ (second ++ items))) .list := by
  obtain ⟨noNodes, hnoNodes, ⟨closer, left, rfl, hcloser⟩, hno⟩ := hno
  obtain ⟨hterminator, hmem⟩ := alternatives_stop hcloser
  obtain ⟨yesNodes, hyesNodes, hyes⟩ := hyes.list_stop hterminator
  obtain ⟨nodes, hnodes, hlist⟩ := h
  refine ⟨.cond test yesNodes noNodes :: nodes, ?_, fun stop rest => ?_⟩
  · rw [Draft.ofNodes, Draft.ofNode, hyesNodes, hnoNodes, hnodes]
  · obtain ⟨hfold, harms, hother, hclose⟩ := hno stop t (items ++ rest)
    have hbody := hyes _ (left ++ (items ++ rest)) (hmem stop)
    have hcond : Tree.conditional settings depth stop loops t
        (first ++ (.tag closer :: left ++ (items ++ rest))) =
        ⟨[.cond test yesNodes noNodes], [], items ++ rest⟩ := by
      rw [Tree.conditional_eq, Tag.test_eq ha]
      simp only [Tag.judge, List.cons_append, hbody]
      simp only [List.cons_append] at hfold harms hother hclose
      rw [hfold, harms, hother, hclose]
      rfl
    rw [show .tag t :: (first ++ (.tag closer :: left ++ items)) ++ rest =
        .tag t :: (first ++ (.tag closer :: left ++ (items ++ rest))) by simp,
      Tree.list_node (by simp [hk, TagKind.isTerminator]), Tree.node_cond hk, hcond]
    simp only
    rw [hlist]
    rfl

theorem loop {name : String} (hk : t.kind = .loop) (ha : t.attributes = [.named "name" name])
    (hc : closer.kind = .endloop)
    (hbody : Restores settings depth source (loops + 1) yes first .list)
    (h : Restores settings depth source loops drafts items .list) :
    Restores settings depth source loops (.loop name yes :: drafts)
      (.tag t :: (first ++ .tag closer :: items)) .list := by
  obtain ⟨bodyNodes, hbodyNodes, hbody⟩ := hbody.list_stop (by rw [hc]; rfl)
  obtain ⟨nodes, hnodes, hlist⟩ := h
  refine ⟨.loop name bodyNodes :: nodes, ?_, fun stop rest => ?_⟩
  · rw [Draft.ofNodes, Draft.ofNode, hbodyNodes, hnodes]
  · have hclose : Tree.take? .endloop (.tag closer :: (items ++ rest)) =
        some (closer, items ++ rest) := Tree.take?_eq_some_iff.mpr ⟨rfl, hc⟩
    have hloop : Tree.loop settings depth stop loops t (first ++ .tag closer :: (items ++ rest)) =
        ⟨[.loop name bodyNodes], [], items ++ rest⟩ := by
      rw [Tree.loop_eq, Tag.name_eq ha, hbody _ _ (by simp [hc])]
      simp only [Tag.judge, Tree.close, hclose, List.append_nil]
    rw [show .tag t :: (first ++ .tag closer :: items) ++ rest =
        .tag t :: (first ++ .tag closer :: (items ++ rest)) by simp,
      Tree.list_node (by simp [hk, TagKind.isTerminator]), Tree.node_loop hk, hloop]
    simp only
    rw [hlist]
    rfl

theorem endif (hk : closer.kind = .endif) :
    Restores settings depth source loops [] [.tag closer] .alternative := by
  refine ⟨[], rfl, ⟨closer, [], rfl, by rw [hk]; decide⟩, fun stop opener rest => ?_⟩
  have helsif : Tree.take? .elsif (.tag closer :: rest) = none :=
    Tree.take?_eq_none_iff.mpr fun _ _ h => by cases h; simp [hk]
  have halt : Tree.take? .alt (.tag closer :: rest) = none :=
    Tree.take?_eq_none_iff.mpr fun _ _ h => by cases h; simp [hk]
  have hclose : Tree.take? .endif (.tag closer :: rest) = some (closer, rest) :=
    Tree.take?_eq_some_iff.mpr ⟨rfl, hk⟩
  simp [Tree.arms_none helsif, Tree.alternative_none halt, Tree.close, hclose, Tree.foldArms]

theorem alt (hk : t.kind = .alt) (hc : closer.kind = .endif)
    (h : Restores settings depth source loops drafts items .list) :
    Restores settings depth source loops drafts (.tag t :: (items ++ [.tag closer]))
      .alternative := by
  obtain ⟨nodes, hnodes, hlist⟩ := h.list_stop (by rw [hc]; rfl)
  refine ⟨nodes, hnodes, ⟨t, _, rfl, by rw [hk]; decide⟩, fun stop opener rest => ?_⟩
  have helsif : Tree.take? .elsif (.tag t :: (items ++ .tag closer :: rest)) = none :=
    Tree.take?_eq_none_iff.mpr fun _ _ h => by cases h; simp [hk]
  have halt : Tree.take? .alt (.tag t :: (items ++ .tag closer :: rest)) =
      some (t, items ++ .tag closer :: rest) := Tree.take?_eq_some_iff.mpr ⟨rfl, hk⟩
  have hclose : Tree.take? .endif (.tag closer :: rest) = some (closer, rest) :=
    Tree.take?_eq_some_iff.mpr ⟨rfl, hc⟩
  have hbody := hlist (.endif :: stop) rest (by simp [hc])
  rw [show .tag t :: (items ++ [.tag closer]) ++ rest =
    .tag t :: (items ++ .tag closer :: rest) by simp]
  simp [Tree.arms_none helsif, Tree.alternative_some halt, hbody, Tree.close, hclose,
    Tree.foldArms]

theorem elsif {test : Test} (hk : t.kind = .elsif) (ha : t.attributes = test.attributes)
    (hyes : Restores settings depth source loops yes first .list)
    (hno : Restores settings depth source loops no second .alternative) :
    Restores settings depth source loops [.cond test yes no] (.tag t :: (first ++ second))
      .alternative := by
  obtain ⟨noNodes, hnoNodes, ⟨closer, left, rfl, hcloser⟩, hno⟩ := hno
  obtain ⟨hterminator, hmem⟩ := alternatives_stop hcloser
  obtain ⟨yesNodes, hyesNodes, hyes⟩ := hyes.list_stop hterminator
  refine ⟨[.cond test yesNodes noNodes], ?_, ⟨t, _, rfl, by rw [hk]; decide⟩,
    fun stop opener rest => ?_⟩
  · rw [Draft.ofNodes, Draft.ofNode, hyesNodes, hnoNodes]
    rfl
  · obtain ⟨hfold, harms, hother, hclose⟩ := hno stop opener rest
    have hbody := hyes _ (left ++ rest) (hmem stop)
    have htake : Tree.take? .elsif (.tag t :: (first ++ .tag closer :: (left ++ rest))) =
        some (t, first ++ .tag closer :: (left ++ rest)) := Tree.take?_eq_some_iff.mpr ⟨rfl, hk⟩
    rw [show .tag t :: (first ++ .tag closer :: left) ++ rest =
      .tag t :: (first ++ .tag closer :: (left ++ rest)) by simp]
    simp only [Tree.arms_some htake, Tag.test_eq ha, Tag.judge, hbody]
    simp only [List.cons_append] at hfold harms hother hclose
    refine ⟨?_, ?_, hother, hclose⟩
    · rw [Tree.foldArms, List.foldr_cons, ← Tree.foldArms, hfold]
    · rw [harms]
      rfl

end Restores

namespace Lays

variable {settings : Settings} {depth loops : Nat} {drafts : List Draft} {marks : List Mark}

theorem restores {slot : Slot} (h : Lays slot drafts marks)
    (hw : Draft.AllWellFormed settings loops drafts) (hdepth : depth < settings.includeLimit)
    {source : List Char} {items : List Item}
    (hi : items.map (Mark.ofItem? source) = marks.map some) :
    Restores settings depth source loops drafts items slot := by
  induction h generalizing loops items with
  | nil =>
    obtain rfl := List.map_eq_nil_iff.mp hi
    exact ⟨[], rfl, fun stop rest => rfl⟩
  | text _ ih =>
    obtain ⟨span, left, rfl, hs, hi⟩ := Mark.exists_text_of_map hi
    exact (ih hw.2.1 hi).text hs
  | tag hd _ ih =>
    obtain ⟨t, left, rfl, hk, ha, hi⟩ := Mark.exists_tag_of_map hi
    exact (ih hw.2.1 hi).tag hd hw.1 hdepth hk ha
  | cond _ _ _ ihYes ihNo ih =>
    obtain ⟨⟨_, _, hyes, hno⟩, hrest, _⟩ := hw
    rw [List.cons_append, List.cons_append] at hi
    obtain ⟨t, left, rfl, hk, ha, hi⟩ := Mark.exists_tag_of_map hi
    rw [List.map_append, List.map_append, List.append_assoc] at hi
    obtain ⟨first, left, rfl, hfirst, hi⟩ := List.map_eq_append_iff.mp hi
    obtain ⟨second, left, rfl, hsecond, hi⟩ := List.map_eq_append_iff.mp hi
    exact .cond hk ha (ihYes hyes hfirst) (ihNo hno hsecond) (ih hrest hi)
  | loop _ _ ihBody ih =>
    obtain ⟨⟨_, hbody⟩, hrest, _⟩ := hw
    rw [List.cons_append] at hi
    obtain ⟨t, left, rfl, hk, ha, hi⟩ := Mark.exists_tag_of_map hi
    rw [List.map_append] at hi
    obtain ⟨first, left, rfl, hfirst, hi⟩ := List.map_eq_append_iff.mp hi
    obtain ⟨closer, left, rfl, hc, _, hi⟩ := Mark.exists_tag_of_map hi
    exact .loop hk ha hc (ihBody hbody hfirst) (ih hrest hi)
  | endif =>
    obtain ⟨closer, left, rfl, hk, _, hi⟩ := Mark.exists_tag_of_map hi
    obtain rfl := List.map_eq_nil_iff.mp hi
    exact .endif hk
  | alt _ ih =>
    rw [List.cons_append] at hi
    obtain ⟨t, left, rfl, hk, _, hi⟩ := Mark.exists_tag_of_map hi
    rw [List.map_append] at hi
    obtain ⟨first, left, rfl, hfirst, hi⟩ := List.map_eq_append_iff.mp hi
    obtain ⟨closer, left, rfl, hc, _, hi⟩ := Mark.exists_tag_of_map hi
    obtain rfl := List.map_eq_nil_iff.mp hi
    exact .alt hk hc (ih hw hfirst)
  | elsif _ _ ihYes ihNo =>
    obtain ⟨⟨_, _, hyes, hno⟩, _⟩ := hw
    rw [List.cons_append] at hi
    obtain ⟨t, left, rfl, hk, ha, hi⟩ := Mark.exists_tag_of_map hi
    rw [List.map_append] at hi
    obtain ⟨first, left, rfl, hfirst, hi⟩ := List.map_eq_append_iff.mp hi
    exact .elsif hk ha (ihYes hyes hfirst) (ihNo hno hi)

theorem exists_marks : (drafts : List Draft) → ∃ marks, Lays .list drafts marks
  | [] => ⟨[], .nil⟩
  | .text content :: rest =>
    let ⟨marks, h⟩ := exists_marks rest
    ⟨_, .text h⟩
  | .value name default formatter :: rest =>
    let ⟨marks, h⟩ := exists_marks rest
    ⟨_, .tag rfl h⟩
  | .cond test yes no :: rest =>
    let ⟨first, hyes⟩ := exists_marks yes
    let ⟨second, hno⟩ := exists_marks no
    let ⟨marks, h⟩ := exists_marks rest
    ⟨_, .cond hyes (.alt hno) h⟩
  | .loop name body :: rest =>
    let ⟨inner, hbody⟩ := exists_marks body
    let ⟨marks, h⟩ := exists_marks rest
    ⟨_, .loop hbody h⟩
  | .leave level :: rest | .next level :: rest | .embed reference :: rest =>
    let ⟨marks, h⟩ := exists_marks rest
    ⟨_, .tag rfl h⟩

end Lays

theorem toLower_of_isLower {c : Char} (h : c.isLower = true) : c.toLower = c := by
  unfold Char.toLower
  split
  · rename_i hc
    have hle : 'a'.val ≤ c.val := of_decide_eq_true (Bool.and_eq_true_iff.mp h).1
    exact absurd (UInt32.le_trans hle hc.2) (by decide)
  · rfl

theorem Attribute.exists_allSpell {attributes : List Attribute}
    (h : ∀ a ∈ attributes, a.Plain) : ∃ text, AllSpell attributes text := by
  induction attributes with
  | nil => exact ⟨[], .nil⟩
  | cons a rest ih =>
    obtain ⟨more, hmore⟩ := ih fun b hb => h b (List.mem_cons_of_mem _ hb)
    have ha := h a List.mem_cons_self
    cases a with
    | named key value =>
      obtain ⟨_, hlower, _, quote, hq, hv⟩ := ha
      have hword : key.toList.map Char.toLower = key.toList :=
        (List.map_congr_left fun c hc => toLower_of_isLower (hlower c hc)).trans (List.map_id _)
      exact ⟨_, .cons (.named hword hq hv) hmore⟩
    | bare value => cases ha
    | compare operator value =>
      obtain ⟨_, _, quote, hq, hv⟩ := ha
      exact ⟨_, .cons (.compare hq hv) hmore⟩

theorem Mark.exists_allSpell {marks : List Mark} (h : ∀ m ∈ marks, m.Plain) :
    ∃ text, AllSpell marks text := by
  induction marks with
  | nil => exact ⟨[], .nil⟩
  | cons m rest ih =>
    obtain ⟨more, hmore⟩ := ih fun other ho => h other (List.mem_cons_of_mem _ ho)
    cases m with
    | text content => exact ⟨_, .text hmore⟩
    | tag kind attributes =>
      obtain ⟨written, hwritten⟩ := Attribute.exists_allSpell (h _ List.mem_cons_self).1
      exact ⟨_, .tag rfl hwritten hmore⟩

/-- What is written is read again. Well-formed drafts can be written, and whichever letters, quotes
and further arms are chosen, the template has no diagnostics and the tree of the drafts. -/
theorem written_is_read {settings : Settings} (ht : settings.tags = {}) {depth : Nat}
    (hd : depth < settings.includeLimit) {drafts : List Draft}
    (hw : Draft.AllWellFormed settings 0 drafts) :
    (∃ source : String, Draft.Written drafts source.toList) ∧
    ∀ source : String, Draft.Written drafts source.toList → ∀ name path,
      (Template.parse settings name path source depth).diagnostics = [] ∧
        Draft.ofNodes source.toList (Template.parse settings name path source depth).root =
          drafts := by
  constructor
  · obtain ⟨marks, hlays⟩ := Lays.exists_marks drafts
    obtain ⟨text, htext⟩ := Mark.exists_allSpell (hlays.plain hw)
    exact ⟨String.ofList text, marks, hlays, by rwa [String.toList_ofList]⟩
  · rintro source ⟨marks, hlays, hspell⟩ name path
    have hapart : Mark.Apart (marks ++ []) := hlays.apart_append hw trivial (by simp)
    rw [List.append_nil] at hapart
    have hitems := Mark.map_scan hspell (hlays.plain hw) hapart
    obtain ⟨nodes, hnodes, hlist⟩ := hlays.restores hw hd hitems
    have hread := hlist [] []
    rw [List.append_nil, Tree.list_nil] at hread
    simp only [Template.parse, ht, Tree.ofItems_eq, hread, List.append_nil, List.map_nil, hnodes,
      and_self]

/-- A text that ends in a brace, and a quoted value that contains what closes a tag. -/
theorem written_is_read_braces : ({} : Settings).tags = {} ∧ 0 < ({} : Settings).includeLimit ∧
    ∃ (drafts : List Draft) (source : String),
      drafts = [.text ['a', '\x7b'], .cond ⟨"x", some (.equal, "\"\x7d\x7d")⟩ [] []] ∧
      source = "a\x7b\x7b\x7bif NAME='x' == '\"\x7d\x7d'\x7d\x7d\x7b\x7bEndIf\x7d\x7d" ∧
      Draft.AllWellFormed {} 0 drafts ∧ Draft.Written drafts source.toList ∧
      (Template.parse {} "" none source 0).diagnostics = [] ∧
      Draft.ofNodes source.toList (Template.parse {} "" none source 0).root = drafts := by
  have hq : ∀ s : String, '\n' ∉ s.toList → '\'' ∉ s.toList → Quotable s := fun s hn hs =>
    ⟨hn, '\'', rfl, hs⟩
  have hw : Draft.AllWellFormed {} 0
      [.text ['a', '\x7b'], .cond ⟨"x", some (.equal, "\"\x7d\x7d")⟩ [] []] := by
    refine ⟨⟨by decide, by decide⟩, ⟨⟨hq _ (by decide) (by decide), ?_, trivial, trivial⟩, trivial,
      by decide⟩, by decide⟩
    intro c hc
    cases hc
    exact hq _ (by decide) (by decide)
  have hlays : Lays .list [.text ['a', '\x7b'], .cond ⟨"x", some (.equal, "\"\x7d\x7d")⟩ [] []]
      [.text ['a', '\x7b'], .tag .cond [.named "name" "x", .compare "==" "\"\x7d\x7d"],
        .tag .endif []] := .text (.cond .nil .endif .nil)
  have hname : Attribute.Spells (.named "name" "x") " NAME='x'".toList := by
    have : Attribute.Spells (.named "name" "x")
        (' ' :: "NAME".toList ++ '=' :: '\'' :: "x".toList ++ ['\'']) :=
      .named (by decide) rfl (by decide)
    simpa using this
  have hcompare : Attribute.Spells (.compare "==" "\"\x7d\x7d") " == '\"\x7d\x7d'".toList := by
    have : Attribute.Spells (.compare "==" "\"\x7d\x7d")
        (' ' :: "==".toList ++ ' ' :: '\'' :: "\"\x7d\x7d".toList ++ ['\'']) :=
      .compare rfl (by decide)
    simpa using this
  have hspell : Mark.AllSpell [.text ['a', '\x7b'],
      .tag .cond [.named "name" "x", .compare "==" "\"\x7d\x7d"], .tag .endif []]
      "a\x7b\x7b\x7bif NAME='x' == '\"\x7d\x7d'\x7d\x7d\x7b\x7bEndIf\x7d\x7d".toList := by
    have hif : "if".toList.map Char.toLower =
        (({} : TagSet).keyword .cond).toList.map Char.toLower := by decide
    have hendif : "EndIf".toList.map Char.toLower =
        (({} : TagSet).keyword .endif).toList.map Char.toLower := by decide
    have htags := Mark.AllSpell.tag hif (.cons hname (.cons hcompare .nil)) (.tag hendif .nil .nil)
    have hall := @Mark.AllSpell.text ['a', '\x7b'] _ _ htags
    simpa using hall
  have hwritten : Draft.Written
      [.text ['a', '\x7b'], .cond ⟨"x", some (.equal, "\"\x7d\x7d")⟩ [] []]
      "a\x7b\x7b\x7bif NAME='x' == '\"\x7d\x7d'\x7d\x7d\x7b\x7bEndIf\x7d\x7d".toList :=
    ⟨_, hlays, hspell⟩
  exact ⟨rfl, by decide, _, _, rfl, rfl, hw, hwritten,
    (written_is_read rfl (by decide) hw).2 _ hwritten "" none⟩

end Stencil
