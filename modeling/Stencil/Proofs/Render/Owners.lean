import Stencil.Proofs.Render.Session
import Mathlib.Data.List.Chain

/-! Contexts follow the bindings.
The scopes of a context are a path in the tree of bindings: each row stands in a loop of the scope
that comes after it, and the last of them is the root. The main statement says that a render never
evaluates a node in any other context, so that a name is only looked for in the scopes that own the
current row, and that there are never more of them than the tree of bindings is high. -/
namespace Stencil
namespace Scope

def HasRow (s row : Scope) : Prop := ∃ name rows, s.loop? name = some rows ∧ row ∈ rows

mutual

/-- How many scopes the longest path of rows in rows has. -/
def height : Scope → Nat
  | mk _ loops => loopsHeight loops + 1

def loopsHeight : List (String × List Scope) → Nat
  | [] => 0
  | (_, rows) :: loops => max (rowsHeight rows) (loopsHeight loops)

def rowsHeight : List Scope → Nat
  | [] => 0
  | row :: rows => max row.height (rowsHeight rows)

end

theorem height_le_rowsHeight {row : Scope} {rows : List Scope} (h : row ∈ rows) :
    row.height ≤ rowsHeight rows := by
  induction rows with
  | nil => cases h
  | cons first rows ih =>
    rw [rowsHeight]
    rcases List.mem_cons.mp h with rfl | h
    · exact Nat.le_max_left _ _
    · exact Nat.le_trans (ih h) (Nat.le_max_right _ _)

theorem rowsHeight_le_loopsHeight {name : String} {rows : List Scope}
    {loops : List (String × List Scope)} (h : (name, rows) ∈ loops) :
    rowsHeight rows ≤ loopsHeight loops := by
  induction loops with
  | nil => cases h
  | cons first loops ih =>
    rw [loopsHeight]
    rcases List.mem_cons.mp h with rfl | h
    · exact Nat.le_max_left _ _
    · exact Nat.le_trans (ih h) (Nat.le_max_right _ _)

theorem height_pos (s : Scope) : 0 < s.height := by
  cases s
  rw [height]
  exact Nat.succ_pos _

theorem HasRow.height_lt {s row : Scope} (h : s.HasRow row) : row.height < s.height := by
  obtain ⟨name, rows, hl, hm⟩ := h
  have hloops : (name, rows) ∈ s.loops := Assoc.mem_of_get? hl
  have hrow := height_le_rowsHeight hm
  have hrows := rowsHeight_le_loopsHeight hloops
  cases s
  rw [height]
  exact Nat.lt_succ_of_le (Nat.le_trans hrow hrows)

end Scope

namespace Context

/-- The scopes of the context are a path in the tree of bindings that begins at the root. -/
structure Owned (root : Scope) (c : Context) : Prop where
  root : c.root = root
  path : c.frames.IsChain fun row owner => owner.HasRow row

/-- The rows stand in a loop of the innermost scope. -/
def HasRows (c : Context) (rows : List Scope) : Prop :=
  ∀ s ∈ c.frames.head?, ∀ row ∈ rows, s.HasRow row

/-- What is found in the innermost scope where anything is found. -/
def Nearest {α : Type} (c : Context) (find : Scope → Option α) (a : α) : Prop :=
  ∃ inner s outer, c.frames = inner ++ s :: outer ∧ find s = some a ∧ ∀ t ∈ inner, find t = none

variable {root row : Scope} {c owner : Context} {name : String} {rows : List Scope}

theorem value?_eq_some_iff {value : String} :
    c.value? name = some value ↔ c.Nearest (fun s => s.value? name) value :=
  List.findSome?_eq_some_iff

theorem loop?_eq_some_iff : c.loop? name = some rows ↔ c.Nearest (fun s => s.loop? name) rows :=
  List.findSome?_eq_some_iff

theorem owner?_eq_some {found open_ : List Scope} (h : owner? name rows = some (open_, found)) :
    ∃ inner s outer, rows = inner ++ s :: outer ∧ open_ = s :: outer ∧
      s.loop? name = some found ∧ ∀ t ∈ inner, t.loop? name = none := by
  induction rows with
  | nil => cases h
  | cons row rows ih =>
    rw [owner?] at h
    cases hl : row.loop? name with
    | some here =>
      rw [hl] at h
      cases h
      exact ⟨[], row, rows, rfl, rfl, hl, by simp⟩
    | none =>
      rw [hl] at h
      obtain ⟨inner, s, outer, rfl, ho, hs, hi⟩ := ih h
      exact ⟨row :: inner, s, outer, rfl, ho, hs, by simpa using ⟨hl, hi⟩⟩

theorem owner?_eq_none (h : owner? name rows = none) : ∀ t ∈ rows, t.loop? name = none := by
  induction rows with
  | nil => simp
  | cons row rows ih =>
    rw [owner?] at h
    cases hl : row.loop? name with
    | some here =>
      rw [hl] at h
      cases h
    | none =>
      rw [hl] at h
      simpa using ⟨hl, ih h⟩

theorem enter?_eq_some (h : c.enter? name = some (owner, rows)) :
    owner.root = c.root ∧ ∃ inner s outer, c.frames = inner ++ s :: outer ∧
      owner.frames = s :: outer ∧ s.loop? name = some rows ∧
      ∀ t ∈ inner, t.loop? name = none := by
  unfold enter? at h
  split at h
  · rename_i open_ found ho
    cases h
    obtain ⟨inner, s, outer, hr, rfl, hs, hi⟩ := owner?_eq_some ho
    exact ⟨rfl, inner, s, outer ++ [c.root], by simp [frames, hr], by simp [frames], hs, hi⟩
  · rename_i ho
    obtain ⟨found, hf, he⟩ := Option.map_eq_some_iff.mp h
    cases he
    exact ⟨rfl, c.rows, c.root, [], rfl, rfl, hf, owner?_eq_none ho⟩

theorem Owned.enter (hc : c.Owned root) (h : c.enter? name = some (owner, rows)) :
    owner.Owned root ∧ owner.HasRows rows := by
  obtain ⟨hr, inner, s, outer, hf, ho, hs, _⟩ := enter?_eq_some h
  refine ⟨⟨hr.trans hc.root, ?_⟩, ?_⟩
  · rw [ho]
    exact (hf ▸ hc.path).right_of_append
  · intro t ht row hm
    rw [ho] at ht
    cases ht
    exact ⟨name, rows, hs, hm⟩

theorem Owned.push (hc : c.Owned root) (h : c.HasRows (row :: rows)) : (c.push row).Owned root := by
  refine ⟨hc.root, ?_⟩
  have hpath : (row :: c.frames).IsChain fun row owner => owner.HasRow row :=
    List.isChain_cons.mpr ⟨fun s hs => h s hs row (List.mem_cons_self ..), hc.path⟩
  exact hpath

theorem length_add_height_le {open_ : List Scope} {s : Scope}
    (h : (open_ ++ [root]).IsChain fun row owner => owner.HasRow row)
    (hs : s ∈ (open_ ++ [root]).head?) :
    (open_ ++ [root]).length + s.height ≤ root.height + 1 := by
  induction open_ generalizing s with
  | nil =>
    cases hs
    simp [Nat.add_comm]
  | cons row open_ ih =>
    cases hs
    obtain ⟨hrow, hrest⟩ := List.isChain_cons.mp h
    cases hh : (open_ ++ [root]).head? with
    | none => simp at hh
    | some t =>
      -- one scope more, and at least one level of rows less below it
      have hlt := (hrow t hh).height_lt
      have hle := ih hrest hh
      simp only [List.cons_append, List.length_cons]
      omega

theorem Owned.length_le (hc : c.Owned root) : c.frames.length ≤ root.height := by
  obtain ⟨rfl, hpath⟩ := hc
  cases hh : c.frames.head? with
  | none => simp [frames] at hh
  | some s =>
    have hle := length_add_height_le hpath hh
    have hpos := s.height_pos
    unfold frames
    omega

end Context

/-- The context of a task is a path, and the rows of a loop are those of its innermost scope. -/
def Task.Owned (root : Scope) : Task → Prop
  | .nodes _ c _ => c.Owned root
  | .rows _ owner _ left => owner.Owned root ∧ owner.HasRows left

namespace Stage

variable {settings : Settings} {loader : Loader} {root : Scope} {s s' : Stage}

def Owned (root : Scope) (s : Stage) : Prop := ∀ task ∈ s.agenda, task.Owned root

theorem Owned.step (h : s.Owned root) (hs : Step settings loader s s') : s'.Owned root := by
  refine hs.forall_agenda h ?_
  intro task task' ht hb
  cases hb with
  | left => exact ht
  | branch _ => exact ht
  | nested _ => exact ht
  | loop he => exact Context.Owned.enter ht he
  | row => exact ht.1.push ht.2
  | rows => exact ⟨ht.1, fun s hs row hm => ht.2 s hs row (List.mem_cons_of_mem _ hm)⟩

end Stage

theorem Rendering.Reaches.owned {x : Rendering} {s : Stage} (h : x.Reaches s) :
    s.Owned x.scope := by
  refine h.keeps ?_ fun _ _ ha hstep => ha.step hstep
  intro first hb task ht
  rw [hb.2] at ht
  cases List.mem_singleton.mp ht
  exact ⟨rfl, List.isChain_singleton _⟩

theorem Test.exists_of_holds {test : Test} {c : Context} (h : test.holds c) :
    ∃ s ∈ c.frames, (s.value? test.name).isSome ∨ (s.loop? test.name).isSome := by
  have hvalue : ∀ value, c.value? test.name = some value → ∃ s ∈ c.frames,
      (s.value? test.name).isSome ∨ (s.loop? test.name).isSome := by
    intro value hv
    obtain ⟨inner, s, outer, hf, hs, _⟩ := Context.value?_eq_some_iff.mp hv
    exact ⟨s, by simp [hf], .inl (by simp [hs])⟩
  unfold Test.holds at h
  split at h
  · exact hvalue _ (by assumption)
  · obtain ⟨rows, hl⟩ := Option.isSome_iff_exists.mp h
    obtain ⟨inner, s, outer, hf, hs, _⟩ := Context.loop?_eq_some_iff.mp hl
    exact ⟨s, by simp [hf], .inr (by simp [hs])⟩
  · exact hvalue _ (by assumption)
  · cases h

/-- Every context in which a render evaluates nodes is a path in the tree of bindings, with no more
scopes than the tree is high. Names are looked for along this path alone, from the innermost scope
outwards, and a loop is entered in the part of it that owns the loop. The stages spoken of are those
that the render consists of. -/
theorem contexts_are_owned (x : Rendering) (hx : x.held.Arises) :
    (∃ ending, x.Yields ending ∧ x.run = x.leaves ending) ∧
    ∀ s, x.Reaches s → ∀ v c left, .nodes v c left ∈ s.agenda →
      c.Owned x.scope ∧ c.frames.length ≤ x.scope.height ∧
      (∀ name value, c.value? name = some value ↔ c.Nearest (fun s => s.value? name) value) ∧
      (∀ name rows, c.loop? name = some rows ↔ c.Nearest (fun s => s.loop? name) rows) ∧
      (∀ test : Test, test.holds c →
        ∃ s ∈ c.frames, (s.value? test.name).isSome ∨ (s.loop? test.name).isSome) ∧
      ∀ name owner rows, c.enter? name = some (owner, rows) →
        owner.Owned x.scope ∧ owner.HasRows rows ∧ owner.frames <:+ c.frames ∧
          c.Nearest (fun s => s.loop? name) rows := by
  refine ⟨⟨_, Rendering.yields_start hx.coherent, x.run_eq_leaves⟩, ?_⟩
  intro s hs v c left hm
  have hc : c.Owned x.scope := hs.owned _ hm
  refine ⟨hc, hc.length_le, fun _ _ => Context.value?_eq_some_iff,
    fun _ _ => Context.loop?_eq_some_iff, fun _ h => Test.exists_of_holds h, ?_⟩
  intro name owner rows he
  obtain ⟨howner, hrows⟩ := hc.enter he
  obtain ⟨_, inner, t, outer, hf, ho, ht, hi⟩ := Context.enter?_eq_some he
  exact ⟨howner, hrows, ⟨inner, by rw [hf, ho]⟩, inner, t, outer, hf, ht, hi⟩

/-- Two loops of the root, one inside the other in the text. -/
def siblingRender : Rendering where
  settings := {}
  loader := Library.loader {}
  held :=
    { template := Template.ofText {}
        ("\x7b\x7bLOOP a\x7d\x7d\x7b\x7bLOOP b\x7d\x7d\x7b\x7bVAR n\x7d\x7d" ++
          "\x7b\x7bENDLOOP\x7d\x7d\x7b\x7bENDLOOP\x7d\x7d") }
  scope := (Scope.empty.withLoop "a" [Scope.empty.withValue "n" "1"]).withLoop "b" [.empty]

/-- Inside both loops only a row of the inner one is open, as both belong to the root. -/
theorem contexts_are_owned_sibling : siblingRender.held.Arises ∧
    siblingRender.run.out.contents = [] ∧
    ∀ s, siblingRender.Reaches s → ∀ v c left, .nodes v c left ∈ s.agenda →
      c.frames.length ≤ 2 := by
  have h := (contexts_are_owned siblingRender (.read ..)).2
  have hheight : siblingRender.scope.height = 2 := by decide
  refine ⟨.read .., by decide +kernel, fun s hs v c left hm => ?_⟩
  rw [← hheight]
  exact (h s hs v c left hm).2.1

end Stencil
