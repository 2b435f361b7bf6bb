import Mathlib.Data.List.Chain
import Stencil.Proofs.Tree.Nesting

/-! Conditionals with further arms.
A conditional is a chain of tags, each with a list behind it, up to the tag that closes it. The main
statements say that such a chain is read as one node whose arms are the lists, each read by itself,
and that every conditional whose closing tag is found is such a chain. -/
namespace Stencil

open TagKind (armStops)

structure Clause where
  tag : Tag
  body : List Item

/-- A conditional: IF, any number of ELSIF, perhaps ELSE, and the ENDIF that closes it. -/
structure Chain where
  first : Clause
  further : List Clause
  alternative : Option Clause
  closer : Tag
  first_kind : first.tag.kind = .cond
  further_kind : ∀ clause ∈ further, clause.tag.kind = .elsif
  alternative_kind : ∀ clause ∈ alternative, clause.tag.kind = .alt
  closer_kind : closer.kind = .endif

namespace Clause

def items (clause : Clause) : List Item := .tag clause.tag :: clause.body

/-- The terminators that end the list behind the tag, besides those that are awaited outside. -/
def stops (clause : Clause) : StopSet := if clause.tag.kind = .alt then [.endif] else armStops

def Precedes (stop : StopSet) (clause next : Clause) : Prop :=
  Tree.IsList (clause.stops ++ stop) next.tag.kind clause.body

def test? (settings : Settings) (clause : Clause) : Option Test :=
  (clause.tag.judge (clause.tag.test settings.tags)).1

variable (settings : Settings) (depth : Nat) (stop : StopSet) (loops : Nat)

def read (clause : Clause) : Parsed :=
  Tree.list settings depth (clause.stops ++ stop) loops clause.body

def arm (clause : Clause) : Arm :=
  (clause.test? settings, (clause.read settings depth stop loops).nodes)

def findings (clause : Clause) : List Finding :=
  (clause.tag.judge (clause.tag.test settings.tags)).2 ++
    (clause.read settings depth stop loops).findings

variable {settings depth stop loops} {clause next : Clause}

theorem precedes_iff_of_arm (h : clause.tag.kind ≠ .alt) :
    clause.Precedes stop next ↔
      Tree.IsList (.elsif :: .alt :: .endif :: stop) next.tag.kind clause.body := by
  rw [Precedes, stops, if_neg h]
  rfl

theorem precedes_iff_of_alternative (h : clause.tag.kind = .alt) :
    clause.Precedes stop next ↔ Tree.IsList (.endif :: stop) next.tag.kind clause.body := by
  rw [Precedes, stops, if_pos h]
  rfl

theorem read_of_arm (h : clause.tag.kind ≠ .alt) :
    clause.read settings depth stop loops =
      Tree.list settings depth (.elsif :: .alt :: .endif :: stop) loops clause.body := by
  rw [read, stops, if_neg h]
  rfl

theorem read_of_alternative (h : clause.tag.kind = .alt) :
    clause.read settings depth stop loops =
      Tree.list settings depth (.endif :: stop) loops clause.body := by
  rw [read, stops, if_pos h]
  rfl

instance : Decidable (clause.Precedes stop next) :=
  inferInstanceAs (Decidable (Tree.IsList (clause.stops ++ stop) next.tag.kind clause.body))

end Clause

namespace Chain

def ending (chain : Chain) : List Clause := chain.alternative.toList ++ [⟨chain.closer, []⟩]

def inside (chain : Chain) : List Item :=
  chain.first.body ++ (chain.further ++ chain.ending).flatMap Clause.items

/-- Whether each of the lists ends where the next tag of the chain comes. Nothing else can be read
as a conditional whose closing tag is found, see `Tree.exists_chain`. -/
def Nested (stop : StopSet) (chain : Chain) : Prop :=
  (chain.first :: (chain.further ++ chain.ending)).IsChain (Clause.Precedes stop)

instance (stop : StopSet) (chain : Chain) : Decidable (chain.Nested stop) :=
  inferInstanceAs (Decidable (List.IsChain (Clause.Precedes stop) _))

variable (settings : Settings) (depth : Nat) (stop : StopSet) (loops : Nat)

def otherwise (chain : Chain) : Parsed :=
  chain.alternative.elim ⟨[], [], []⟩ (Clause.read settings depth stop loops)

def no (chain : Chain) : List Node :=
  Tree.foldArms (chain.further.map (Clause.arm settings depth stop loops))
    (chain.otherwise settings depth stop loops).nodes

def findings (chain : Chain) : List Finding :=
  (chain.first :: chain.further).flatMap (Clause.findings settings depth stop loops) ++
    (chain.otherwise settings depth stop loops).findings

end Chain

namespace Tree

variable {settings : Settings} {depth loops : Nat} {stop : StopSet} {clause next last : Clause}
  {further more : List Clause}

theorem mem_armStops (hf : ∀ clause ∈ further, clause.tag.kind = .elsif)
    (hl : last.tag.kind = .alt ∨ last.tag.kind = .endif) (hn : next ∈ further ++ [last]) :
    next.tag.kind ∈ armStops := by
  rcases List.mem_append.mp hn with hn | hn
  · simp [hf next hn]
  · rw [List.mem_singleton.mp hn]
    rcases hl with hl | hl <;> simp [hl]

theorem list_arm (settings : Settings) (depth loops : Nat) (hc : clause.tag.kind ≠ .alt)
    (hf : ∀ clause ∈ further, clause.tag.kind = .elsif)
    (hl : last.tag.kind = .alt ∨ last.tag.kind = .endif)
    (hchain : (clause :: (further ++ [last])).IsChain (Clause.Precedes stop)) (left : List Item) :
    list settings depth (.elsif :: .alt :: .endif :: stop) loops
        (clause.body ++ ((further ++ [last]).flatMap Clause.items ++ left)) =
      { clause.read settings depth stop loops with
        rest := (further ++ [last]).flatMap Clause.items ++ left } := by
  obtain ⟨next, more, hnext⟩ := List.exists_cons_of_ne_nil
    (List.append_ne_nil_of_right_ne_nil further (List.cons_ne_nil last []))
  have hn : next.tag.kind ∈ armStops :=
    mem_armStops hf hl (hnext ▸ List.mem_cons_self (a := next) (l := more))
  rw [hnext] at hchain ⊢
  have ht : next.tag.kind.isTerminator := by
    simp only [List.mem_cons, List.not_mem_nil, or_false] at hn
    rcases hn with hn | hn | hn <;> rw [hn] <;> rfl
  have hp := (Clause.precedes_iff_of_arm hc).mp (List.isChain_cons_cons.mp hchain).1
  rw [Clause.read_of_arm hc]
  exact list_isList settings depth loops hp ht (List.mem_append_left stop hn) _

theorem arms_chain (settings : Settings) (depth loops : Nat)
    (hf : ∀ clause ∈ further, clause.tag.kind = .elsif)
    (hl : last.tag.kind = .alt ∨ last.tag.kind = .endif)
    (hchain : (further ++ [last]).IsChain (Clause.Precedes stop)) (left : List Item) :
    arms settings depth (.elsif :: .alt :: .endif :: stop) loops
        ((further ++ [last]).flatMap Clause.items ++ left) =
      ⟨further.map (Clause.arm settings depth stop loops),
        further.flatMap (Clause.findings settings depth stop loops), last.items ++ left⟩ := by
  induction further with
  | nil =>
    have hnone : take? .elsif (last.items ++ left) = none := by
      refine take?_eq_none_iff.mpr fun tag rest he hk => ?_
      obtain ⟨he, -⟩ := List.cons.inj he
      rw [Item.tag.inj he, hk] at hl
      rcases hl with hl | hl <;> cases hl
    rw [List.nil_append, List.flatMap_singleton, arms_none hnone]
    rfl
  | cons clause further ih =>
    have hk : clause.tag.kind = .elsif := hf clause List.mem_cons_self
    have hmore (other : Clause) (ho : other ∈ further) := hf other (List.mem_cons_of_mem _ ho)
    have hc : clause.tag.kind ≠ .alt := by simp [hk]
    have hbody := list_arm settings depth loops hc hmore hl hchain left
    have htake : take? .elsif ((clause :: further ++ [last]).flatMap Clause.items ++ left) =
        some (clause.tag,
          clause.body ++ ((further ++ [last]).flatMap Clause.items ++ left)) :=
      take?_eq_some_iff.mpr ⟨by simp [Clause.items], hk⟩
    rw [arms_some htake]
    dsimp only
    rw [hbody]
    dsimp only
    rw [ih hmore hchain.tail]
    simp [Clause.arm, Clause.findings, Clause.test?]

theorem exists_ending (chain : Chain) : ∃ last more, chain.ending = last :: more ∧
    (last.tag.kind = .alt ∨ last.tag.kind = .endif) := by
  unfold Chain.ending
  cases ha : chain.alternative with
  | none => exact ⟨_, _, rfl, .inr chain.closer_kind⟩
  | some clause => exact ⟨_, _, rfl, .inl (chain.alternative_kind clause ha)⟩

theorem alternative_chain (settings : Settings) (depth loops : Nat) (chain : Chain)
    (h : chain.ending.IsChain (Clause.Precedes stop)) (opener : Tag) (rest : List Item) :
    let p := alternative settings depth stop loops (chain.ending.flatMap Clause.items ++ rest)
    p.nodes = (chain.otherwise settings depth stop loops).nodes ∧
      p.findings = (chain.otherwise settings depth stop loops).findings ∧
      close settings.tags opener .endif p.rest = ([], rest) := by
  have hclose : close settings.tags opener .endif (.tag chain.closer :: rest) = ([], rest) := by
    rw [close, take?_eq_some_iff.mpr ⟨rfl, chain.closer_kind⟩]
  unfold Chain.ending at h ⊢
  unfold Chain.otherwise
  cases ha : chain.alternative with
  | none =>
    have hnone : take? .alt (.tag chain.closer :: rest) = none :=
      take?_eq_none_iff.mpr fun tag more he hk => by
        obtain ⟨rfl, -⟩ := List.cons.inj he |>.imp_left Item.tag.inj
        simp [chain.closer_kind] at hk
    simp [Clause.items, alternative_none hnone, hclose]
  | some clause =>
    have hk : clause.tag.kind = .alt := chain.alternative_kind clause ha
    rw [ha] at h
    have hp : clause.Precedes stop ⟨chain.closer, []⟩ := (List.isChain_cons_cons.mp h).1
    rw [Clause.precedes_iff_of_alternative hk] at hp
    have hread := list_isList settings depth loops hp
      (by simp [chain.closer_kind, TagKind.isTerminator]) (by simp [chain.closer_kind]) rest
    have htake : take? .alt (.tag clause.tag :: (clause.body ++ .tag chain.closer :: rest)) =
        some (clause.tag, clause.body ++ .tag chain.closer :: rest) :=
      take?_eq_some_iff.mpr ⟨rfl, hk⟩
    have hitems : ((some clause).toList ++ [(⟨chain.closer, []⟩ : Clause)]).flatMap Clause.items ++
        rest = .tag clause.tag :: (clause.body ++ .tag chain.closer :: rest) := by
      simp [Clause.items]
    rw [hitems, alternative_some htake, Option.elim_some, Clause.read_of_alternative hk, hread]
    exact ⟨rfl, rfl, hclose⟩

/-- A chain is read as one node, each list of it by itself, and nothing behind it matters. -/
theorem conditional_chain (chain : Chain) (h : chain.Nested stop) {test : Test}
    (htest : chain.first.test? settings = some test) (rest : List Item) :
    conditional settings depth stop loops chain.first.tag (chain.inside ++ rest) =
      ⟨[.cond test (chain.first.read settings depth stop loops).nodes
          (chain.no settings depth stop loops)],
        chain.findings settings depth stop loops, rest⟩ := by
  have hc : chain.first.tag.kind ≠ .alt := by simp [chain.first_kind]
  obtain ⟨last, more, hlast, hl⟩ := exists_ending chain
  have hsplit := h
  rw [Chain.Nested, hlast, ← List.cons_append, List.isChain_split] at hsplit
  obtain ⟨harms, hending⟩ := hsplit
  rw [← hlast] at hending
  have hlist := list_arm settings depth loops hc chain.further_kind hl harms
    (more.flatMap Clause.items ++ rest)
  have hfurther := arms_chain settings depth loops chain.further_kind hl harms.tail
    (more.flatMap Clause.items ++ rest)
  have hrest : last.items ++ (more.flatMap Clause.items ++ rest) =
      chain.ending.flatMap Clause.items ++ rest := by simp [hlast]
  rw [hrest] at hfurther
  have hinside : chain.inside ++ rest = chain.first.body ++
      ((chain.further ++ [last]).flatMap Clause.items ++
        (more.flatMap Clause.items ++ rest)) := by simp [Chain.inside, hlast]
  obtain ⟨hnodes, hfindings, hclose⟩ :=
    alternative_chain settings depth loops chain hending chain.first.tag rest
  rw [hinside, conditional_eq]
  dsimp only
  rw [hlist]
  dsimp only
  rw [hfurther]
  dsimp only
  rw [Clause.test?] at htest
  rw [hnodes, hfindings, hclose, htest]
  simp [Chain.findings, Chain.no, Clause.findings]

/-- The tag that closes a conditional which is read from these items, and what is behind it. -/
def closer? (settings : Settings) (depth : Nat) (stop : StopSet) (loops : Nat)
    (items : List Item) : Option (Tag × List Item) :=
  let body := list settings depth (.elsif :: .alt :: .endif :: stop) loops items
  let arms := arms settings depth (.elsif :: .alt :: .endif :: stop) loops body.rest
  take? .endif (alternative settings depth stop loops arms.rest).rest

theorem exists_clause (settings : Settings) (depth : Nat) (stop : StopSet) (loops : Nat)
    {items rest : List Item} {tag ends : Tag} (hc : tag.kind ≠ .alt)
    (h : (list settings depth (.elsif :: .alt :: .endif :: stop) loops items).rest =
      further.flatMap Clause.items ++ .tag ends :: rest)
    (hchain : ∀ last : Clause, last.tag = ends →
      (further ++ [last]).IsChain (Clause.Precedes stop)) :
    ∃ clause : Clause, clause.tag = tag ∧
      items = clause.body ++ (further.flatMap Clause.items ++ .tag ends :: rest) ∧
      ∀ last : Clause, last.tag = ends →
        (clause :: (further ++ [last])).IsChain (Clause.Precedes stop) := by
  obtain ⟨next, left, hnext, hhead⟩ : ∃ next left,
      further.flatMap Clause.items ++ .tag ends :: rest = .tag next :: left ∧
      ∀ last : Clause, last.tag = ends → ∀ c ∈ (further ++ [last]).head?, c.tag = next := by
    cases further with
    | nil => exact ⟨ends, rest, rfl, by simp⟩
    | cons clause further => exact ⟨clause.tag, _, rfl, by simp⟩
  obtain ⟨taken, htaken, hlist⟩ := isList_taken settings depth _ loops (h.trans hnext)
  refine ⟨⟨tag, taken⟩, rfl, hnext ▸ htaken, fun last hl => ?_⟩
  refine List.isChain_cons.mpr ⟨fun c hm => (Clause.precedes_iff_of_arm hc).mpr ?_, hchain last hl⟩
  rw [hhead last hl c hm]
  exact hlist

theorem exists_further (settings : Settings) (depth : Nat) (stop : StopSet) (loops : Nat)
    {items rest : List Item} {ends : Tag}
    (h : (arms settings depth (.elsif :: .alt :: .endif :: stop) loops items).rest =
      .tag ends :: rest) :
    ∃ further : List Clause, (∀ clause ∈ further, clause.tag.kind = .elsif) ∧
      items = further.flatMap Clause.items ++ .tag ends :: rest ∧
      ∀ last : Clause, last.tag = ends →
        (further ++ [last]).IsChain (Clause.Precedes stop) := by
  cases htake : take? .elsif items with
  | none =>
    rw [arms_none htake] at h
    exact ⟨[], nofun, h, fun last _ => List.isChain_singleton last⟩
  | some p =>
    obtain ⟨tag, more⟩ := p
    have hlen := length_of_take? htake
    have hle := length_list_le settings depth (.elsif :: .alt :: .endif :: stop) loops more
    obtain ⟨rfl, hk⟩ := take?_eq_some_iff.mp htake
    rw [arms_some htake] at h
    obtain ⟨further, hf, hitems, hchain⟩ := exists_further settings depth stop loops h
    have hc : tag.kind ≠ .alt := by simp [hk]
    obtain ⟨clause, rfl, hbody, hclause⟩ := exists_clause settings depth stop loops hc hitems hchain
    refine ⟨clause :: further, List.forall_mem_cons.mpr ⟨hk, hf⟩, ?_, hclause⟩
    rw [hbody, List.flatMap_cons, List.append_assoc]
    rfl
termination_by items.length

theorem exists_chain {opener closer : Tag} {items rest : List Item} (hk : opener.kind = .cond)
    (h : closer? settings depth stop loops items = some (closer, rest)) :
    ∃ chain : Chain, chain.first.tag = opener ∧ chain.closer = closer ∧
      items = chain.inside ++ rest ∧ chain.Nested stop := by
  have hc : opener.kind ≠ .alt := by simp [hk]
  unfold closer? at h
  dsimp only at h
  cases ha : take? .alt (arms settings depth (.elsif :: .alt :: .endif :: stop) loops
    (list settings depth (.elsif :: .alt :: .endif :: stop) loops items).rest).rest with
  | none =>
    rw [alternative_none ha] at h
    obtain ⟨hrest, hend⟩ := take?_eq_some_iff.mp h
    obtain ⟨further, hf, hitems, hchain⟩ := exists_further settings depth stop loops hrest
    obtain ⟨first, rfl, hbody, hnested⟩ :=
      exists_clause settings depth stop loops hc hitems hchain
    refine ⟨⟨first, further, none, closer, hk, hf, nofun, hend⟩, rfl, rfl, ?_,
      hnested ⟨closer, []⟩ rfl⟩
    simpa [Chain.inside, Chain.ending, Clause.items] using hbody
  | some p =>
    obtain ⟨tag, more⟩ := p
    obtain ⟨hrest, hk'⟩ := take?_eq_some_iff.mp ha
    rw [alternative_some ha] at h
    obtain ⟨hmore, hend⟩ := take?_eq_some_iff.mp h
    obtain ⟨taken, rfl, hlist⟩ := isList_taken settings depth _ loops hmore
    obtain ⟨further, hf, hitems, hchain⟩ := exists_further settings depth stop loops hrest
    obtain ⟨first, rfl, hbody, hnested⟩ :=
      exists_clause settings depth stop loops hc hitems hchain
    have hlast : Clause.Precedes stop ⟨tag, taken⟩ ⟨closer, []⟩ :=
      (Clause.precedes_iff_of_alternative hk').mpr hlist
    have hall : List.IsChain (Clause.Precedes stop)
        (first :: further ++ [⟨tag, taken⟩, ⟨closer, []⟩]) :=
      List.isChain_split.mpr ⟨hnested ⟨tag, taken⟩ rfl, List.isChain_pair.mpr hlast⟩
    refine ⟨⟨first, further, some ⟨tag, taken⟩, closer, hk, hf, ?_, hend⟩, rfl, rfl, ?_, hall⟩
    · rintro clause ⟨⟩
      exact hk'
    · simpa [Chain.inside, Chain.ending, Clause.items] using hbody

end Tree
end Stencil
