import Stencil.Proofs.Item.Sequence
import Stencil.Proofs.Tree.Locality
import Stencil.Proofs.Tree.Places
import Stencil.Template
import Mathlib.Data.List.Induction

/-! The order of the findings of a tree.
Each item is one step, which finds at most one thing at the item, closes some of what is open with a
finding for each, and opens at most one construct. What is open is nested, and an opening tag is
either still open or has been found not to be closed at most once. The main statement says that the
findings of a source come in its order but for those of constructs that are not closed, and that
each of those comes as late as what has closed the construct. -/
namespace Stencil

variable {settings : Settings} {depth : Nat}

section Problems

variable {tag : Tag} {problem : Problem}

namespace Tag

theorem name_ne_unclosed {tags : TagSet} (h : tag.name tags = .error problem) :
    problem.isUnclosed = false := by
  unfold name at h
  split at h
  · cases h
  · cases h
    rfl

theorem comparison_ne_unclosed {tags : TagSet} (h : tag.comparison tags = .error problem) :
    problem.isUnclosed = false := by
  unfold comparison at h
  split at h
  · split at h
    · cases h
    · cases h
      rfl
  · cases h

theorem test_ne_unclosed {tags : TagSet} (h : tag.test tags = .error problem) :
    problem.isUnclosed = false := by
  unfold test at h
  split at h
  · rename_i hname
    cases h
    exact name_ne_unclosed hname
  · split at h
    · rename_i hcomparison
      cases h
      exact comparison_ne_unclosed hcomparison
    · cases h

theorem formatter_ne_unclosed (h : tag.formatter settings = .error problem) :
    problem.isUnclosed = false := by
  unfold formatter at h
  split at h
  · cases h
  · split at h
    · cases h
    · cases h
      rfl

theorem value_ne_unclosed (h : tag.value settings = .error problem) :
    problem.isUnclosed = false := by
  unfold value at h
  split at h
  · rename_i hname
    cases h
    exact name_ne_unclosed hname
  · split at h
    · rename_i hformatter
      cases h
      exact formatter_ne_unclosed hformatter
    · cases h

theorem embed_ne_unclosed (h : tag.embed settings depth = .error problem) :
    problem.isUnclosed = false := by
  unfold embed at h
  split at h
  · rename_i hname
    cases h
    exact name_ne_unclosed hname
  · split at h
    · cases h
    · cases h
      rfl

theorem level_ne_unclosed {tags : TagSet} {loops : Nat}
    (h : tag.level tags loops = .error problem) : problem.isUnclosed = false := by
  unfold level at h
  split at h
  · cases h
    rfl
  · split at h
    · cases h
    · split at h
      · cases h
      · cases h
        rfl

theorem error_of_map {α β : Type} {e : Except Problem α} {f : α → β}
    (h : e.map f = .error problem) : e = .error problem := by
  cases e with
  | ok a => cases h
  | error other =>
    cases h
    rfl

theorem leaf_ne_unclosed {loops : Nat} (h : tag.leaf settings depth loops = .error problem) :
    problem.isUnclosed = false := by
  unfold leaf at h
  split at h
  · exact value_ne_unclosed (error_of_map h)
  · exact embed_ne_unclosed (error_of_map h)
  · exact level_ne_unclosed (error_of_map h)
  · exact level_ne_unclosed (error_of_map h)
  · cases h

end Tag

end Problems

inductive Item.Finds : Item → List Finding → Prop
  | nothing {item : Item} : Finds item []
  | fault {f : Finding} : Finds (.finding f) [f]
  | problem {tag : Tag} {problem : Problem} :
    problem.isUnclosed = false → Finds (.tag tag) [tag.finding problem]

theorem Item.Finds.span_eq {tag : Tag} {own : List Finding} (h : Item.Finds (.tag tag) own) :
    ∀ f ∈ own, f.span = tag.span := by
  cases h with
  | nothing => exact List.forall_mem_nil _
  | problem => exact List.forall_mem_singleton.mpr rfl

theorem Tag.finds_judge {α : Type} {tag : Tag} {e : Except Problem α}
    (h : ∀ problem, e = .error problem → problem.isUnclosed = false) :
    Item.Finds (.tag tag) (tag.judge e).2 := by
  cases e with
  | ok a => exact .nothing
  | error problem => exact .problem (h problem rfl)

namespace Frame

def openers (frames : List Frame) : List Tag := frames.map fun f => f.construct.opener

/-- What is found if everything is closed for want of its terminators. -/
def missing (tags : TagSet) (frames : List Frame) : List Finding :=
  frames.map fun f => f.construct.unclosed tags

theorem isUnclosed_of_mem_missing {tags : TagSet} {frames : List Frame} {f : Finding}
    (h : f ∈ missing tags frames) : f.isUnclosed = true := by
  obtain ⟨frame, -, rfl⟩ := List.mem_map.mp h
  rfl

@[simp] theorem openers_cons (f : Frame) (frames : List Frame) :
    openers (f :: frames) = f.construct.opener :: openers frames := rfl

@[simp] theorem openers_append (a b : List Frame) : openers (a ++ b) = openers a ++ openers b :=
  List.map_append

end Frame

namespace OpenTree

/-- What a step from `t` to `t'` does to the findings and to what is open. -/
inductive Moves (tags : TagSet) (t t' : OpenTree) : Item → Prop
  | stay {item : Item} {own : List Finding} :
    item.Finds own → t'.findings = t.findings ++ own →
    Frame.openers t'.frames = Frame.openers t.frames → Moves tags t t' item
  | enter {tag : Tag} {own : List Finding} :
    Item.Finds (.tag tag) own → t'.findings = t.findings ++ own →
    Frame.openers t'.frames = tag :: Frame.openers t.frames → Moves tags t t' (.tag tag)
  | close {tag : Tag} {own : List Finding} {closed kept : List Frame} :
    tag.kind.isTerminator = true → Item.Finds (.tag tag) own → t.frames = closed ++ kept →
    t'.findings = t.findings ++ Frame.missing tags closed ++ own →
    Frame.openers t'.frames <:+ Frame.openers kept → Moves tags t t' (.tag tag)

theorem exists_closed (tags : TagSet) (terminator : Option TagKind) (frames : List Frame)
    (nodes : List Node) (findings : List Finding) :
    ∃ closed, frames = closed ++ (unwind tags terminator frames nodes findings).frames ∧
      (unwind tags terminator frames nodes findings).findings =
        findings ++ Frame.missing tags closed := by
  induction frames generalizing nodes findings with
  | nil => exact ⟨[], rfl, (List.append_nil _).symm⟩
  | cons f frames ih =>
    unfold unwind
    split
    · exact ⟨[], rfl, (List.append_nil _).symm⟩
    · obtain ⟨closed, hframes, hfindings⟩ := ih (f.close nodes)
        (findings ++ [f.construct.unclosed tags])
      refine ⟨f :: closed, congrArg (f :: ·) hframes, ?_⟩
      rw [hfindings, List.append_assoc]
      rfl

theorem findings_unwind_none (tags : TagSet) (frames : List Frame) (nodes : List Node)
    (findings : List Finding) :
    (unwind tags none frames nodes findings).findings = findings ++ Frame.missing tags frames := by
  obtain ⟨closed, hframes, hfindings⟩ := exists_closed tags none frames nodes findings
  rw [frames_unwind_none, List.append_nil] at hframes
  rw [hfindings, hframes]

theorem terminate_finds (tags : TagSet) (tag : Tag) (t : OpenTree) :
    ∃ own, Item.Finds (.tag tag) own ∧
      (t.terminate tags tag).findings = t.findings ++ own ∧
      Frame.openers (t.terminate tags tag).frames <:+ Frame.openers t.frames := by
  obtain ⟨frames, nodes, findings⟩ := t
  match frames with
  | [] => exact ⟨[], .nothing, (List.append_nil _).symm, List.suffix_rfl⟩
  | ⟨.alternative opener all, before⟩ :: frames =>
    exact ⟨[], .nothing, (List.append_nil _).symm, List.suffix_cons ..⟩
  | ⟨.loop opener name, before⟩ :: frames =>
    exact ⟨[], .nothing, (List.append_nil _).symm, List.suffix_cons ..⟩
  | ⟨.arms opener finished test, before⟩ :: frames =>
    simp only [terminate]
    split
    · exact ⟨_, Tag.finds_judge fun _ => Tag.test_ne_unclosed, rfl, List.suffix_rfl⟩
    · exact ⟨[], .nothing, (List.append_nil _).symm, List.suffix_rfl⟩
    · exact ⟨[], .nothing, (List.append_nil _).symm, List.suffix_cons ..⟩

theorem step_moves (settings : Settings) (depth : Nat) (t : OpenTree) (item : Item) :
    Moves settings.tags t (step settings depth t item) item := by
  match item with
  | .text span => exact .stay .nothing rfl rfl
  | .finding f => exact .stay .fault rfl rfl
  | .tag tag =>
    by_cases ht : tag.kind.isTerminator
    · by_cases ha : tag.kind ∈ Frame.awaited t.frames
      · simp only [step, ht, ha, if_true]
        obtain ⟨closed, hframes, hfindings⟩ :=
          exists_closed settings.tags (some tag.kind) t.frames t.nodes t.findings
        obtain ⟨own, hown, howns, hleft⟩ := terminate_finds settings.tags tag
          (unwind settings.tags (some tag.kind) t.frames t.nodes t.findings)
        exact .close ht hown hframes (by rw [howns, hfindings]) hleft
      · rw [step_unexpected ht ha]
        exact .stay (.problem rfl) rfl rfl
    · by_cases hc : tag.kind = .cond
      · rw [step_cond hc]
        exact .enter (Tag.finds_judge fun _ => Tag.test_ne_unclosed) rfl rfl
      · by_cases hl : tag.kind = .loop
        · rw [step_loop hl]
          exact .enter (Tag.finds_judge fun _ => Tag.name_ne_unclosed) rfl rfl
        · rw [step_leaf ht hc hl]
          exact .stay (Tag.finds_judge fun _ => Tag.leaf_ne_unclosed) rfl rfl

end OpenTree

namespace Finding

variable {tags : TagSet} {f : Finding} {place : Nat}

theorem Before.mono (h : f.Before tags place) {later : Nat} (hl : place ≤ later) :
    f.Before tags later := by
  rcases h with h | ⟨rfl, h⟩
  · exact .inl (by omega)
  · rcases Nat.eq_or_lt_of_le hl with rfl | hlt
    · exact .inr ⟨rfl, h⟩
    · exact .inl hlt

theorem Before.le (h : f.Before tags place) : f.span.start ≤ place := by
  rcases h with h | ⟨h, -⟩
  · exact Nat.le_of_lt h
  · exact Nat.le_of_eq h

theorem Before.lt (h : f.Before tags place) (hf : f.ofComment = false) : f.span.start < place := by
  rcases h with h | ⟨-, hc, -⟩
  · exact h
  · rw [hf] at hc
    cases hc

theorem ofComment_of_isUnclosed (h : f.isUnclosed = true) : f.ofComment = false := by
  obtain ⟨problem, line, span⟩ := f
  cases problem <;> first | rfl | cases h

end Finding

/-- What may be found at one item that stands from a place on, before the next place. -/
structure Notes (tags : TagSet) (place next : Nat) (own : List Finding) : Prop where
  single : own.length ≤ 1
  sound : ∀ f ∈ own, f.isUnclosed = false
  after : ∀ f ∈ own, place ≤ f.span.start
  before : ∀ f ∈ own, f.Before tags next

/-- The item stands from one place on and before another one. -/
structure Item.Between (tags : TagSet) (place next : Nat) (item : Item) : Prop where
  le : place ≤ next
  notes : ∀ own, item.Finds own → Notes tags place next own
  tag : ∀ t, item = .tag t → place ≤ t.span.start ∧ t.span.start < next

/-- The first of the items stands before a place from which on the others stand in order. -/
theorem Sequenced.exists_next {tags : TagSet} {place : Nat} {item : Item} {items : List Item}
    (h : Sequenced tags place (item :: items)) :
    ∃ next, item.Between tags place next ∧ Sequenced tags next items := by
  have hnothing (next : Nat) : Notes tags place next [] :=
    ⟨Nat.zero_le _, List.forall_mem_nil _, List.forall_mem_nil _, List.forall_mem_nil _⟩
  have hsingle (next : Nat) {f : Finding} (hu : f.isUnclosed = false) (hle : place ≤ f.span.start)
      (hb : f.Before tags next) : Notes tags place next [f] :=
    ⟨Nat.le_refl _, List.forall_mem_singleton.mpr hu, List.forall_mem_singleton.mpr hle,
      List.forall_mem_singleton.mpr hb⟩
  cases h with
  | text more =>
    refine ⟨place, ⟨Nat.le_refl _, ?_, nofun⟩, more⟩
    rintro own ⟨⟩
    exact hnothing _
  | @finding _ next f _ hu hle hb more =>
    refine ⟨next, ⟨Nat.le_trans hle hb.le, ?_, nofun⟩, more⟩
    rintro own (_ | _ | _)
    · exact hnothing _
    · exact hsingle next hu hle hb
  | @tag _ next t _ hle hlt more =>
    refine ⟨next, ⟨by omega, ?_, ?_⟩, more⟩
    · rintro own (_ | _ | hu)
      · exact hnothing _
      · exact hsingle next hu hle (.inl hlt)
    · rintro _ ⟨⟩
      exact ⟨hle, hlt⟩

/-- The invariant of building a tree up to a place: what has been found, but for what is not
closed, is in order before the place; so are the tags of what is open, the innermost the last of
them; and no tag that is open, or that has been found not to be closed, is another one of these. -/
structure Ordered (tags : TagSet) (place : Nat) (findings : List Finding) (openers : List Tag) :
    Prop where
  found : (findings.filter fun f => !f.isUnclosed).Pairwise fun f g => f.Before tags g.span.start
  before : ∀ f ∈ findings, f.Before tags place
  inside : ∀ o ∈ openers, o.span.start < place
  nested : openers.Pairwise fun inner outer => outer.span.start < inner.span.start
  once : ((findings.filter Finding.isUnclosed).map (fun f => f.span.start) ++
    openers.map fun o => o.span.start).Nodup

namespace Ordered

variable {tags : TagSet} {place next : Nat} {findings own : List Finding} {opened : List Tag}

theorem start : Ordered tags 0 [] [] :=
  ⟨.nil, List.forall_mem_nil _, List.forall_mem_nil _, .nil, .nil⟩

theorem note (h : Ordered tags place findings opened) (hn : Notes tags place next own)
    (hle : place ≤ next) : Ordered tags next (findings ++ own) opened where
  found := by
    have hown : own.filter (fun f => !f.isUnclosed) = own :=
      List.filter_eq_self.mpr fun f hf => by simp [hn.sound f hf]
    rw [List.filter_append, hown, List.pairwise_append]
    refine ⟨h.found, ?_, fun f hf g hg => ?_⟩
    · match own, hn.single with
      | [], _ => exact .nil
      | [f], _ => exact List.pairwise_singleton ..
    · exact (h.before f (List.mem_filter.mp hf).1).mono (hn.after g hg)
  before := List.forall_mem_append.mpr ⟨fun f hf => (h.before f hf).mono hle, hn.before⟩
  inside o ho := Nat.lt_of_lt_of_le (h.inside o ho) hle
  nested := h.nested
  once := by
    have hown : own.filter Finding.isUnclosed = [] :=
      List.filter_eq_nil_iff.mpr fun f hf => by simp [hn.sound f hf]
    rw [List.filter_append, hown, List.append_nil]
    exact h.once

theorem enter (h : Ordered tags place findings opened) (hn : Notes tags place next own)
    {tag : Tag} (ht : place ≤ tag.span.start) (hlt : tag.span.start < next) :
    Ordered tags next (findings ++ own) (tag :: opened) where
  found := (h.note hn (by omega)).found
  before := (h.note hn (by omega)).before
  inside := List.forall_mem_cons.mpr ⟨hlt, (h.note hn (by omega)).inside⟩
  nested := List.pairwise_cons.mpr
    ⟨fun o ho => Nat.lt_of_lt_of_le (h.inside o ho) ht, h.nested⟩
  once := by
    refine List.perm_middle.nodup_iff.mpr
      (List.nodup_cons.mpr ⟨?_, (h.note hn (by omega)).once⟩)
    rw [List.mem_append, List.mem_map, List.mem_map]
    rintro (⟨f, hf, (hs : f.span.start = tag.span.start)⟩ |
      ⟨o, ho, (hs : o.span.start = tag.span.start)⟩)
    · obtain ⟨hm, hu⟩ := List.mem_filter.mp hf
      rcases List.mem_append.mp hm with hm | hm
      · have := (h.before f hm).lt (Finding.ofComment_of_isUnclosed hu)
        omega
      · rw [hn.sound f hm] at hu
        cases hu
    · have := h.inside o ho
      omega

theorem close {closed : List Frame}
    (h : Ordered tags place findings (Frame.openers closed ++ opened)) :
    Ordered tags place (findings ++ Frame.missing tags closed) opened where
  found := by
    have hmissing : (Frame.missing tags closed).filter (fun f => !f.isUnclosed) = [] :=
      List.filter_eq_nil_iff.mpr fun f hf => by simp [Frame.isUnclosed_of_mem_missing hf]
    rw [List.filter_append, hmissing, List.append_nil]
    exact h.found
  before := by
    refine List.forall_mem_append.mpr ⟨h.before, fun f hf => ?_⟩
    obtain ⟨frame, hm, rfl⟩ := List.mem_map.mp hf
    exact .inl (h.inside _ (List.mem_append_left _ (List.mem_map_of_mem hm)))
  inside o ho := h.inside o (List.mem_append_right _ ho)
  nested := (List.pairwise_append.mp h.nested).2.1
  once := by
    have hmissing : (Frame.missing tags closed).filter Finding.isUnclosed =
        Frame.missing tags closed :=
      List.filter_eq_self.mpr fun f hf => Frame.isUnclosed_of_mem_missing hf
    have hstarts : (Frame.missing tags closed).map (fun f => f.span.start) =
        (Frame.openers closed).map fun o => o.span.start := by
      rw [Frame.missing, Frame.openers, List.map_map, List.map_map]
      rfl
    rw [List.filter_append, hmissing, List.map_append, hstarts, List.append_assoc,
      ← List.map_append]
    exact h.once

theorem suffix (h : Ordered tags place findings opened) {left : List Tag} (hl : left <:+ opened) :
    Ordered tags place findings left where
  found := h.found
  before := h.before
  inside o ho := h.inside o (hl.subset ho)
  nested := h.nested.sublist hl.sublist
  once := h.once.sublist ((List.Sublist.refl _).append (hl.sublist.map _))

end Ordered

namespace OpenTree

variable {tags : TagSet} {place next : Nat} {item : Item} {items : List Item} {t t' : OpenTree}

theorem Moves.ordered (h : Moves tags t t' item)
    (ho : Ordered tags place t.findings (Frame.openers t.frames))
    (hb : item.Between tags place next) :
    Ordered tags next t'.findings (Frame.openers t'.frames) := by
  cases h with
  | stay hown hf hopen =>
    rw [hf, hopen]
    exact ho.note (hb.notes _ hown) hb.le
  | enter hown hf hopen =>
    rw [hf, hopen]
    exact ho.enter (hb.notes _ hown) (hb.tag _ rfl).1 (hb.tag _ rfl).2
  | close _ hown hframes hf hopen =>
    rw [hframes, Frame.openers_append] at ho
    rw [hf]
    exact (ho.close.note (hb.notes _ hown) hb.le).suffix hopen

theorem opened_concat (before : List Item) (item : Item) :
    opened settings depth (before ++ [item]) =
      step settings depth (opened settings depth before) item :=
  opened_append before [item]

theorem ordered_opened (depth : Nat) (before : List Item) {items : List Item}
    (ho : Ordered settings.tags place (opened settings depth before).findings
      (Frame.openers (opened settings depth before).frames))
    (hs : Sequenced settings.tags place items) :
    ∃ next, Ordered settings.tags next (opened settings depth (before ++ items)).findings
      (Frame.openers (opened settings depth (before ++ items)).frames) := by
  induction items generalizing before place with
  | nil =>
    rw [List.append_nil]
    exact ⟨place, ho⟩
  | cons item items ih =>
    obtain ⟨next, hb, hmore⟩ := hs.exists_next
    rw [List.append_cons]
    refine ih _ ?_ hmore
    rw [opened_concat]
    exact (step_moves ..).ordered ho hb

theorem findings_ofItems (items : List Item) :
    (Tree.ofItems settings depth items).2 =
      (opened settings depth items).findings ++
        Frame.missing settings.tags (opened settings depth items).frames := by
  rw [ofItems_eq_run]
  exact findings_unwind_none ..

theorem mem_of_mem_openers {items : List Item} {o : Tag}
    (h : o ∈ Frame.openers (opened settings depth items).frames) : .tag o ∈ items := by
  induction items using List.reverseRecOn with
  | nil => cases h
  | append_singleton items item ih =>
    rw [opened_concat] at h
    rw [List.mem_append]
    cases step_moves settings depth (opened settings depth items) item with
    | stay _ _ hopen => exact .inl (ih (hopen ▸ h))
    | enter _ _ hopen =>
      rcases List.mem_cons.mp (hopen ▸ h) with rfl | h
      · exact .inr (List.mem_singleton_self _)
      · exact .inl (ih h)
    | close _ _ hframes _ hopen =>
      refine .inl (ih ?_)
      rw [hframes, Frame.openers_append]
      exact List.mem_append_right _ (hopen.subset h)

/-- What a tag has begun is closed by the terminator at which it is open for the last time, or by
the end of the items. -/
inductive ClosedBy (settings : Settings) (depth : Nat) (items : List Item) (opener : Tag) :
    Option Tag → Prop
  | terminator {before after : List Item} {t : Tag} :
    items = before ++ .tag t :: after → t.kind.isTerminator = true →
    opener ∈ Frame.openers (opened settings depth before).frames →
    opener ∉ Frame.openers (opened settings depth (before ++ [.tag t])).frames →
    ClosedBy settings depth items opener (some t)
  | ending : opener ∈ Frame.openers (opened settings depth items).frames →
    ClosedBy settings depth items opener none

def findingsFrom (settings : Settings) (depth : Nat) (frames : List Frame) (items : List Item) :
    List Finding := (run settings depth ⟨frames, [], []⟩ items).2

theorem run_findings (settings : Settings) (depth : Nat) (t : OpenTree) (items : List Item) :
    (run settings depth t items).2 =
      t.findings ++ findingsFrom settings depth t.frames items := by
  have hsteps := alike_steps settings depth (t := ⟨t.frames, [], []⟩) (u := t) rfl items
  obtain ⟨more, hmore, hfindings⟩ :=
    (hsteps.trans (alike_unwind settings.tags none hsteps.outlines)).findings
  have hfrom : findingsFrom settings depth t.frames items = more := hmore
  rw [hfrom]
  exact hfindings

theorem findingsFrom_cons {own : List Finding}
    (h : (step settings depth t item).findings = t.findings ++ own) :
    findingsFrom settings depth t.frames (item :: items) =
      own ++ findingsFrom settings depth (step settings depth t item).frames items := by
  have hrun := run_findings settings depth t (item :: items)
  rw [run_cons, run_findings, h, List.append_assoc] at hrun
  exact (List.append_cancel_left hrun).symm

end OpenTree

/-- The finding is not in between what has begun and what has closed a construct. -/
def Finding.Outside (f : Finding) (opener : Tag) (closer : Option Tag) : Prop :=
  f.span.start < opener.span.start ∨ ∃ t ∈ closer, t.span.start ≤ f.span.start

theorem Sequenced.le_start {tags : TagSet} {place : Nat} {items : List Item}
    (h : Sequenced tags place items) :
    ∀ item ∈ items, ∀ at_, item.place? = some at_ → place ≤ at_.2.start := by
  induction h with
  | nil => exact List.forall_mem_nil _
  | text _ ih => exact List.forall_mem_cons.mpr ⟨nofun, ih⟩
  | finding _ hle hb _ ih =>
    refine List.forall_mem_cons.mpr ⟨?_, fun item hm at_ hp => ?_⟩
    · rintro _ ⟨⟩
      exact hle
    · exact Nat.le_trans (Nat.le_trans hle hb.le) (ih item hm at_ hp)
  | tag hle hlt _ ih =>
    refine List.forall_mem_cons.mpr ⟨?_, fun item hm at_ hp => ?_⟩
    · rintro _ ⟨⟩
      exact hle
    · exact Nat.le_trans (Nat.le_trans hle (Nat.le_of_lt hlt)) (ih item hm at_ hp)

namespace OpenTree

theorem outside_findingsFrom {frames : List Frame} {items : List Item} {start place : Nat}
    (ho : ∀ o ∈ Frame.openers frames, o.span.start < start ∨ place ≤ o.span.start)
    (hs : Sequenced settings.tags place items) :
    ∀ d ∈ findingsFrom settings depth frames items,
      d.span.start < start ∨ place ≤ d.span.start := by
  have hstands : Stands (fun _ span => span.start < start ∨ place ≤ span.start)
      ⟨frames, [], []⟩ :=
    ⟨List.forall_mem_nil _, fun f hf => ho _ (List.mem_map_of_mem hf)⟩
  exact hstands.run fun item hm at_ hp => .inr (hs.le_start item hm at_ hp)

/-- If the finding is that of a construct that is not closed, then whatever is found later is
outside of what is in between the tag that has begun it and the one that has closed it. -/
def Late (settings : Settings) (depth : Nat) (items : List Item) (f : Finding)
    (later : List Finding) : Prop :=
  f.isUnclosed = true → ∃ opener closer, .tag opener ∈ items ∧ f = opener.finding f.problem ∧
    ClosedBy settings depth items opener closer ∧ ∀ d ∈ later, d.Outside opener closer

/-- Constructs that are closed by the same are found late if all that is found after them is outside
of them. -/
theorem late_missing {items : List Item} {closed : List Frame} {closer : Option Tag}
    {rest : List Finding}
    (hn : (Frame.openers closed).Pairwise fun inner outer => outer.span.start < inner.span.start)
    (hc : ∀ o ∈ Frame.openers closed, .tag o ∈ items ∧ ClosedBy settings depth items o closer)
    (hr : ∀ o ∈ Frame.openers closed, ∀ d ∈ rest, d.Outside o closer)
    (hl : ∀ f later, f :: later <:+ rest → Late settings depth items f later) :
    ∀ f later, f :: later <:+ Frame.missing settings.tags closed ++ rest →
      Late settings depth items f later := by
  induction closed with
  | nil => exact hl
  | cons g closed ih =>
    rw [Frame.openers_cons, List.pairwise_cons] at hn
    rw [Frame.openers_cons, List.forall_mem_cons] at hc hr
    rintro f later h
    rcases List.suffix_cons_iff.mp h with he | h
    · injection he with hf hlater
      subst hf hlater
      refine fun _ => ⟨g.construct.opener, closer, hc.1.1, rfl, hc.1.2, ?_⟩
      refine List.forall_mem_append.mpr ⟨fun d hd => ?_, hr.1⟩
      obtain ⟨outer, hm, rfl⟩ := List.mem_map.mp hd
      exact .inl (hn.1 _ (List.mem_map_of_mem hm))
    · exact ih hn.2 hc.2 hr.2 f later h

theorem late_own {items : List Item} {own rest : List Finding}
    (ho : ∀ f ∈ own, f.isUnclosed = false)
    (hl : ∀ f later, f :: later <:+ rest → Late settings depth items f later) :
    ∀ f later, f :: later <:+ own ++ rest → Late settings depth items f later := by
  induction own with
  | nil => exact hl
  | cons g own ih =>
    rw [List.forall_mem_cons] at ho
    intro f later h
    rcases List.suffix_cons_iff.mp h with he | h
    · injection he with hf
      subst hf
      intro hu
      rw [ho.1] at hu
      cases hu
    · exact ih ho.2 f later h

theorem late_findingsFrom {place : Nat} (before items : List Item)
    (ho : Ordered settings.tags place (opened settings depth before).findings
      (Frame.openers (opened settings depth before).frames))
    (hs : Sequenced settings.tags place items) :
    ∀ f later,
      f :: later <:+ findingsFrom settings depth (opened settings depth before).frames items →
        Late settings depth (before ++ items) f later := by
  induction items generalizing before place with
  | nil =>
    have hfrom : findingsFrom settings depth (opened settings depth before).frames [] =
        Frame.missing settings.tags (opened settings depth before).frames ++ [] :=
      (findings_unwind_none ..).trans (List.append_nil _).symm
    rw [hfrom, List.append_nil before]
    refine late_missing ho.nested (fun o hm => ⟨mem_of_mem_openers hm, .ending hm⟩)
      (fun _ _ => List.forall_mem_nil _) fun f later h => ?_
    cases List.suffix_nil.mp h
  | cons item items ih =>
    obtain ⟨next, hb, hmore⟩ := hs.exists_next
    have hmoves := step_moves settings depth (opened settings depth before) item
    have hnext := hmoves.ordered ho hb
    rw [← opened_concat] at hnext
    have hrest := ih (before ++ [item]) hnext hmore
    rw [List.append_assoc, List.singleton_append, opened_concat] at hrest
    cases hmoves with
    | stay hown hf _ =>
      rw [findingsFrom_cons hf]
      exact late_own (hb.notes _ hown).sound hrest
    | enter hown hf _ =>
      rw [findingsFrom_cons hf]
      exact late_own (hb.notes _ hown).sound hrest
    | @close tag own closed kept ht hown hframes hf hopen =>
      rw [List.append_assoc] at hf
      rw [findingsFrom_cons hf, List.append_assoc]
      have hnested := ho.nested
      rw [hframes, Frame.openers_append, List.pairwise_append] at hnested
      obtain ⟨hclosed, -, hkept⟩ := hnested
      have hbefore {o : Tag} (hm : o ∈ Frame.openers closed) :
          o ∈ Frame.openers (opened settings depth before).frames := by
        rw [hframes, Frame.openers_append]
        exact List.mem_append_left _ hm
      have hafter {o : Tag} (hm : o ∈ Frame.openers closed) :
          o ∉ Frame.openers (opened settings depth (before ++ [.tag tag])).frames := by
        rw [opened_concat]
        exact fun hin => Nat.lt_irrefl _ (hkept o hm o (hopen.subset hin))
      have hclosing (o : Tag) (hm : o ∈ Frame.openers closed) :
          ClosedBy settings depth (before ++ .tag tag :: items) o (some tag) :=
        .terminator rfl ht (hbefore hm) (hafter hm)
      refine late_missing hclosed (fun o hm => ⟨?_, hclosing o hm⟩) (fun o hm => ?_)
        (late_own (hb.notes _ hown).sound hrest)
      · exact List.mem_append_left _ (mem_of_mem_openers (hbefore hm))
      · refine List.forall_mem_append.mpr ⟨fun d hd => ?_, fun d hd => ?_⟩
        · exact .inr ⟨tag, rfl, Nat.le_of_eq (congrArg Span.start (hown.span_eq d hd)).symm⟩
        · have hle : tag.span.start ≤ next := Nat.le_of_lt (hb.tag tag rfl).2
          refine (outside_findingsFrom (fun o' ho' => .inl ?_) (hmore.mono hle) d hd).imp_right
            fun h => ⟨tag, rfl, h⟩
          exact hkept o hm o' (hopen.subset ho')

end OpenTree

/-- What is found is in order, and each construct is found not to be closed once. -/
theorem Tree.ordered_ofItems (depth : Nat) {items : List Item}
    (hs : Sequenced settings.tags 0 items) :
    ∃ place, Ordered settings.tags place (Tree.ofItems settings depth items).2 [] := by
  obtain ⟨place, ho⟩ := OpenTree.ordered_opened depth [] .start hs
  rw [OpenTree.findings_ofItems]
  refine ⟨place, Ordered.close ?_⟩
  rwa [List.append_nil]

/-- The findings of a source come in its order but for those of constructs that are not closed, and
strictly so if no tag is read where a comment opens, as with the default tags. No two of them are at
one place unless one is that of an endless comment. No two constructs that are not closed begin at
one place, and each is found after all that stands from its opening tag on and before what has
closed it. -/
theorem findings_are_in_source_order (settings : Settings) (depth : Nat) (source : String) :
    let items := Item.scan settings.tags source
    let found := (Tree.ofItems settings depth items).2
    (∀ name path, (Template.parse settings name path source depth).diagnostics =
      found.map fun f => f.toDiagnostic name source) ∧
    (found.filter fun f => !f.isUnclosed).Pairwise (fun f g => f.span.start ≤ g.span.start) ∧
    (settings.tags.CommentsApart →
      (found.filter fun f => !f.isUnclosed).Pairwise fun f g => f.span.start < g.span.start) ∧
    (settings.tags = {} → settings.tags.CommentsApart) ∧
    (found.filter fun f => !f.isUnclosed && !f.ofComment).Pairwise
      (fun f g => f.span.start < g.span.start) ∧
    (found.filter Finding.isUnclosed).Pairwise (fun f g => f.span.start ≠ g.span.start) ∧
    ∀ f later, f :: later <:+ found → OpenTree.Late settings depth items f later := by
  intro items found
  have hs : Sequenced settings.tags 0 items := sequenced_scan settings.tags source
  obtain ⟨place, ho⟩ := Tree.ordered_ofItems depth hs
  refine ⟨fun _ _ => rfl, ho.found.imp fun h => h.le, fun hapart => ?_, ?_, ?_, ?_, ?_⟩
  · refine ho.found.imp fun h => ?_
    rcases h with h | ⟨-, -, hnot⟩
    · exact h
    · exact absurd hapart hnot
  · intro htags
    rw [htags]
    exact TagSet.commentsApart_default
  · have hfilter : found.filter (fun f => !f.isUnclosed && !f.ofComment) =
        (found.filter fun f => !f.isUnclosed).filter fun f => !f.ofComment := by
      rw [List.filter_filter]
      exact List.filter_congr fun f _ => Bool.and_comm ..
    rw [hfilter]
    refine (ho.found.filter _).imp_of_mem fun hf _ h => h.lt ?_
    simpa using (List.mem_filter.mp hf).2
  · have honce := ho.once
    rw [List.map_nil, List.append_nil] at honce
    exact List.pairwise_map.mp honce
  · have hfrom : found = OpenTree.findingsFrom settings depth [] items :=
      congrArg Prod.snd (OpenTree.ofItems_eq_run items)
    rw [hfrom]
    exact OpenTree.late_findingsFrom [] items .start hs

/-- A loop with a conditional that is not closed in it, a terminator too many, and at the end a
faulty conditional and a comment that are both endless. -/
def mixedText : String :=
  "\x7b\x7bLOOP rows\x7d\x7d\x7b\x7bIF a\x7d\x7d\x7b\x7bVAR x fmt=no\x7d\x7d" ++
    "\x7b\x7bENDLOOP\x7d\x7d\x7b\x7bELSE\x7d\x7d\x7b\x7bIF \x7d\x7d\x7b\x7b* open"

theorem findings_are_in_source_order_mixed :
    let found := (Tree.ofItems {} 0 (Item.scan {} mixedText)).2
    found.map (fun f => (f.span.start, f.isUnclosed)) =
      [(21, false), (13, true), (48, false), (56, false), (63, false), (56, true)] ∧
    (found.filter fun f => !f.isUnclosed).Pairwise (fun f g => f.span.start < g.span.start) ∧
    ∃ f later opener closer, f :: later <:+ found ∧ f.span.start = 13 ∧
      OpenTree.ClosedBy {} 0 (Item.scan {} mixedText) opener closer ∧
      f = opener.finding f.problem ∧ ∀ d ∈ later, d.Outside opener closer := by
  intro found
  have hfound : found = [
      ⟨.unknownFormat "VAR" "no", 1, ⟨21, 37⟩⟩, ⟨.unclosed "IF" "ENDIF", 1, ⟨13, 21⟩⟩,
      ⟨.unexpected "ELSE", 1, ⟨48, 56⟩⟩, ⟨.missingName "IF", 1, ⟨56, 63⟩⟩,
      ⟨.unterminatedComment "\x7b\x7b*" "*\x7d\x7d", 1, ⟨63, 66⟩⟩,
      ⟨.unclosed "IF" "ENDIF", 1, ⟨56, 63⟩⟩] := by decide +kernel
  obtain ⟨-, -, hstrict, hapart, -, -, hlate⟩ := findings_are_in_source_order {} 0 mixedText
  refine ⟨by rw [hfound]; rfl, hstrict (hapart rfl), ?_⟩
  have hsuffix : ⟨.unclosed "IF" "ENDIF", 1, ⟨13, 21⟩⟩ :: found.drop 2 <:+ found :=
    ⟨found.take 1, by rw [hfound]; rfl⟩
  obtain ⟨opener, closer, -, hf, hclosed, hlater⟩ := hlate _ _ hsuffix rfl
  exact ⟨_, _, opener, closer, hsuffix, rfl, hclosed, hf, hlater⟩

end Stencil
