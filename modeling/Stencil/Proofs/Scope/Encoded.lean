import Mathlib.Data.List.Perm.Basic
import Stencil.Proofs.Toml.Distinct

/-! Scopes written as tables.
A scope is written as a table that has its values as texts and its loops as arrays of tables, in any
order. What a table binds is read off entry by entry, as its keys are distinct: each of them becomes
a value or a loop. The main statement says that a scope is got back from every table that it is
written as, whatever stands in the arrays besides. -/
namespace Stencil

namespace Toml

namespace Value

/-- The text that the value is bound as, unless it is bound as a loop. -/
def text? : Value → Option String
  | string text => some text
  | integer n => some (integerText n)
  | float x => some x.text
  | boolean b => some (if b then "true" else "false")
  | date d => some d.inlineText
  | array _ | table _ => none

end Value

mutual

/-- The second value is the first one with more in its arrays, at any depth, but not more tables. -/
inductive Padded : Value → Value → Prop
  | same (v : Value) : Padded v v
  | array {elements elements' : List Value} (h : PaddedElements elements elements') :
      Padded (.array elements) (.array elements')
  | table {entries entries' : Table} (h : PaddedTable entries entries') :
      Padded (.table entries) (.table entries')

inductive PaddedElements : List Value → List Value → Prop
  | nil : PaddedElements [] []
  | keep {v v' : Value} {r r' : List Value} (h : Padded v v') (hr : PaddedElements r r') :
      PaddedElements (v :: r) (v' :: r')
  | add {v : Value} {r r' : List Value} (h : v.table? = none) (hr : PaddedElements r r') :
      PaddedElements r (v :: r')

inductive PaddedTable : Table → Table → Prop
  | nil : PaddedTable [] []
  | entry {key : String} {v v' : Value} {r r' : Table} (h : Padded v v') (hr : PaddedTable r r') :
      PaddedTable ((key, v) :: r) ((key, v') :: r')

end

end Toml

namespace Scope

open Toml (Table)

def names (s : Scope) : List String := s.values.map Prod.fst ++ s.loops.map Prod.fst

/-- No name is bound twice, neither as a value and as a loop nor as one of them, at any depth. -/
inductive Distinct : Scope → Prop
  | mk {s : Scope} (names : s.names.Nodup) (rows : ∀ p ∈ s.loops, ∀ row ∈ p.2, Distinct row) :
      Distinct s

mutual

/-- The table has a text for every value of the scope, and an array of tables for every loop. A loop
of one row may also be that table. -/
inductive Encodes : Scope → Table → Prop
  | mk {values : List (String × String)} {loops : List (String × List Scope)}
      {entries encoded : Table} (loopsEncoded : EncodesLoops loops encoded)
      (perm : entries.Perm (values.map (fun p => (p.1, .string p.2)) ++ encoded)) :
      Encodes (.mk values loops) entries

inductive EncodesLoops : List (String × List Scope) → Table → Prop
  | nil : EncodesLoops [] []
  | rows {name : String} {rows : List Scope} {tables : List Table}
      {loops : List (String × List Scope)} {encoded : Table} (h : EncodesRows rows tables)
      (hr : EncodesLoops loops encoded) :
      EncodesLoops ((name, rows) :: loops) ((name, .array (tables.map .table)) :: encoded)
  | row {name : String} {row : Scope} {table : Table} {loops : List (String × List Scope)}
      {encoded : Table} (h : Encodes row table) (hr : EncodesLoops loops encoded) :
      EncodesLoops ((name, [row]) :: loops) ((name, .table table) :: encoded)

inductive EncodesRows : List Scope → List Table → Prop
  | nil : EncodesRows [] []
  | row {row : Scope} {table : Table} {rows : List Scope} {tables : List Table}
      (h : Encodes row table) (hr : EncodesRows rows tables) :
      EncodesRows (row :: rows) (table :: tables)

end

/-! ### What an entry binds -/

def valueOf? (e : String × Toml.Value) : Option (String × String) := e.2.text?.map (e.1, ·)

def loopOf? (e : String × Toml.Value) : Option (String × List Scope) :=
  match e.2.text? with
  | some _ => none
  | none => some (e.1, e.2.tables.map ofTable)

theorem rowsOf_eq (elements : List Toml.Value) :
    rowsOf elements = (elements.filterMap Toml.Value.table?).map ofTable := by
  induction elements with
  | nil => rfl
  | cons v r ih => cases v <;> simp [rowsOf, List.filterMap_cons, Toml.Value.table?, ofTable, ih]

theorem bindValue_eq (key : String) (v : Toml.Value) (s : Scope) :
    bindValue key v s =
      match v.text? with
      | some text => s.withValue key text
      | none => s.withLoop key (v.tables.map ofTable) := by
  cases v with
  | array elements => simp [bindValue, Toml.Value.text?, Toml.Value.tables, rowsOf_eq]
  | _ => rfl

/-- Keys that are new and distinct are bound one after the other, each as a value or as a loop. -/
theorem ofEntries_eq {entries : Table} {s : Scope} (hnodup : (entries.map Prod.fst).Nodup)
    (hnew : ∀ key ∈ entries.map Prod.fst, key ∉ s.names) :
    ofEntries entries s =
      mk (s.values ++ entries.filterMap valueOf?) (s.loops ++ entries.filterMap loopOf?) := by
  induction entries generalizing s with
  | nil =>
    obtain ⟨values, loops⟩ := s
    simp [ofEntries]
  | cons e r ih =>
    obtain ⟨key, v⟩ := e
    obtain ⟨hkey, hr⟩ := List.nodup_cons.mp hnodup
    obtain ⟨hvalues, hloops⟩ : key ∉ s.values.map Prod.fst ∧ key ∉ s.loops.map Prod.fst :=
      not_or.mp fun h => hnew key List.mem_cons_self (List.mem_append.mpr h)
    have hlater (k : String) (hk : k ∈ r.map Prod.fst) : k ≠ key ∧ k ∉ s.names :=
      ⟨fun he => hkey (he ▸ hk), hnew k (List.mem_cons_of_mem _ hk)⟩
    rw [ofEntries, bindValue_eq]
    cases ht : v.text? with
    | some text =>
      have hs : s.withValue key text = mk (s.values ++ [(key, text)]) s.loops := by
        rw [withValue, Assoc.set_of_not_mem hvalues]
      simp only [hs]
      rw [ih hr]
      · simp [valueOf?, loopOf?, ht]
      · intro k hk
        obtain ⟨hne, hnot⟩ := hlater k hk
        simpa [names, hne] using hnot
    | none =>
      have hs : s.withLoop key (v.tables.map ofTable) =
          mk s.values (s.loops ++ [(key, v.tables.map ofTable)]) := by
        rw [withLoop, Assoc.set_of_not_mem hloops]
      simp only [hs]
      rw [ih hr]
      · simp [valueOf?, loopOf?, ht]
      · intro k hk
        obtain ⟨hne, hnot⟩ := hlater k hk
        simpa [names, hne] using hnot

theorem ofTable_eq {entries : Table} (hnodup : (entries.map Prod.fst).Nodup) :
    ofTable entries = mk (entries.filterMap valueOf?) (entries.filterMap loopOf?) := by
  rw [ofTable, ofEntries_eq hnodup fun _ _ => by simp [names, empty]]
  simp [empty]

theorem names_perm (entries : Table) :
    ((entries.filterMap valueOf?).map Prod.fst ++ (entries.filterMap loopOf?).map Prod.fst).Perm
      (entries.map Prod.fst) := by
  induction entries with
  | nil => exact .nil
  | cons e r ih =>
    cases ht : e.2.text? with
    | some text => simpa [valueOf?, loopOf?, ht] using ih
    | none =>
      simp only [List.filterMap_cons, valueOf?, loopOf?, ht, Option.map_none, List.map_cons]
      exact List.perm_middle.trans (.cons e.1 ih)

theorem distinct_ofTable {entries : Table} (h : Toml.Distinct entries) :
    (ofTable entries).Distinct := by
  induction h with
  | @mk entries hkeys _ ih =>
    rw [ofTable_eq hkeys]
    refine .mk ((names_perm entries).nodup_iff.mpr hkeys) ?_
    intro p hp row hrow
    obtain ⟨e, he, hloop⟩ := List.mem_filterMap.mp hp
    unfold loopOf? at hloop
    split at hloop
    · cases hloop
    · cases hloop
      obtain ⟨table, htable, rfl⟩ := List.mem_map.mp hrow
      exact ih e he table htable

/-! ### What stands in arrays besides -/

section Padded

open Toml (Padded PaddedElements PaddedTable)

mutual

theorem bindValue_padded (key : String) {v v' : Toml.Value} (h : Padded v v') (s : Scope) :
    bindValue key v' s = bindValue key v s := by
  match h with
  | .same _ => rfl
  | .array h => rw [bindValue, bindValue, rowsOf_padded h]
  | .table h => rw [bindValue, bindValue, ofEntries_padded h]

theorem rowsOf_padded {elements elements' : List Toml.Value} (h : PaddedElements elements elements') :
    rowsOf elements' = rowsOf elements := by
  match h with
  | .nil => rfl
  | .add (v := v) hv hr =>
    rw [← rowsOf_padded hr, rowsOf_eq, rowsOf_eq, List.filterMap_cons, hv]
  | .keep (.same v) hr =>
    cases v <;> simp [rowsOf, rowsOf_padded hr]
  | .keep (.array _) hr => rw [rowsOf, rowsOf, rowsOf_padded hr] <;> nofun
  | .keep (.table h) hr => rw [rowsOf, rowsOf, ofEntries_padded h, rowsOf_padded hr]

theorem ofEntries_padded {entries entries' : Table} (h : PaddedTable entries entries') (s : Scope) :
    ofEntries entries' s = ofEntries entries s := by
  match h with
  | .nil => rfl
  | .entry h hr => rw [ofEntries, ofEntries, bindValue_padded _ h, ofEntries_padded hr]

end

end Padded

/-! ### Scopes from what they are written as -/

theorem EncodesLoops.keys {loops : List (String × List Scope)} {encoded : Table}
    (h : EncodesLoops loops encoded) : encoded.map Prod.fst = loops.map Prod.fst := by
  match h with
  | .nil => rfl
  | .rows _ hr => exact congrArg _ hr.keys
  | .row _ hr => exact congrArg _ hr.keys

theorem EncodesLoops.text?_eq_none {loops : List (String × List Scope)} {encoded : Table}
    (h : EncodesLoops loops encoded) : ∀ e ∈ encoded, e.2.text? = none := by
  match h with
  | .nil => nofun
  | .rows _ hr => exact List.forall_mem_cons.mpr ⟨rfl, hr.text?_eq_none⟩
  | .row _ hr => exact List.forall_mem_cons.mpr ⟨rfl, hr.text?_eq_none⟩

theorem filterMap_table? (tables : List Table) :
    (tables.map Toml.Value.table).filterMap Toml.Value.table? = tables := by
  rw [List.filterMap_map]
  exact List.filterMap_some

section Same

variable {values : List (String × String)} {loops : List (String × List Scope)}
  {entries encoded : Table}

theorem Encodes.keys_perm {s : Scope} (h : Encodes s entries) :
    (entries.map Prod.fst).Perm s.names := by
  obtain ⟨hloops, hperm⟩ := h
  have hkeys := hperm.map Prod.fst
  rw [List.map_append, hloops.keys, List.map_map] at hkeys
  exact hkeys

/-- What a table binds that a scope is written as: the values of the scope, and the loops that are
written. -/
theorem EncodesLoops.ofTable_eq (hloops : EncodesLoops loops encoded)
    (hperm : entries.Perm (values.map (fun p => (p.1, .string p.2)) ++ encoded))
    (hnodup : (entries.map Prod.fst).Nodup) :
    ∃ values' loops', ofTable entries = mk values' loops' ∧ (mk values' loops').names.Nodup ∧
      values'.Perm values ∧
      loops'.Perm (encoded.map fun e => (e.1, e.2.tables.map ofTable)) := by
  have hnone := hloops.text?_eq_none
  refine ⟨_, _, Scope.ofTable_eq hnodup, (names_perm entries).nodup_iff.mpr hnodup, ?_, ?_⟩
  · have hvalues : encoded.filterMap valueOf? = [] := by
      refine List.filterMap_eq_nil_iff.mpr fun e he => ?_
      simp [valueOf?, hnone e he]
    have h := hperm.filterMap valueOf?
    rw [List.filterMap_append, hvalues, List.append_nil, List.filterMap_map] at h
    exact h.trans (.of_eq List.filterMap_some)
  · have hvalues : (values.map fun p => (p.1, Toml.Value.string p.2)).filterMap loopOf? = [] := by
      refine List.filterMap_eq_nil_iff.mpr fun e he => ?_
      obtain ⟨p, -, rfl⟩ := List.mem_map.mp he
      rfl
    have hencoded : encoded.filterMap loopOf? =
        encoded.map fun e => (e.1, e.2.tables.map ofTable) := by
      rw [← List.filterMap_eq_map]
      refine List.filterMap_congr fun e he => ?_
      simp [loopOf?, hnone e he]
    have h := hperm.filterMap loopOf?
    rw [List.filterMap_append, hvalues, List.nil_append, hencoded] at h
    exact h

mutual

theorem same_of_encodes {s : Scope} {entries : Table} (h : Encodes s entries) (hs : s.Distinct) :
    s.same (ofTable entries) = true := by
  match h with
  | @Encodes.mk values loops _ encoded hloops hperm =>
    obtain ⟨hnames, hrows⟩ := hs
    have hnodup := (Encodes.mk hloops hperm).keys_perm.nodup_iff.mpr hnames
    obtain ⟨values', loops', heq, hnames', hvalues, hencoded⟩ := hloops.ofTable_eq hperm hnodup
    obtain ⟨hvalueNames, hloopNames, -⟩ := List.nodup_append.mp hnames'
    have hlength : loops.length = loops'.length := by
      have hkeys := congrArg List.length hloops.keys
      simpa [hencoded.length_eq] using hkeys.symm
    rw [heq]
    simp only [same, values_mk, loops_mk, Bool.and_eq_true, beq_iff_eq, List.all_eq_true]
    refine ⟨⟨⟨hvalues.length_eq.symm, hlength⟩, fun p hp => ?_⟩,
      sameLoops_of_encodes hloops hrows fun e he => ?_⟩
    · exact Assoc.get?_of_mem hvalueNames (hvalues.mem_iff.mpr hp)
    · exact Assoc.get?_of_mem hloopNames (hencoded.mem_iff.mpr (List.mem_map_of_mem he))

theorem sameLoops_of_encodes {loops : List (String × List Scope)} {encoded : Table}
    (h : EncodesLoops loops encoded) (hs : ∀ p ∈ loops, ∀ row ∈ p.2, row.Distinct) {other : Scope}
    (ho : ∀ e ∈ encoded, other.loop? e.1 = some (e.2.tables.map ofTable)) :
    sameLoops loops other = true := by
  match h with
  | .nil => rfl
  | .rows h hr =>
    obtain ⟨hrow, hrows⟩ := List.forall_mem_cons.mp hs
    obtain ⟨hfirst, hothers⟩ := List.forall_mem_cons.mp ho
    simp only [Toml.Value.tables, filterMap_table?] at hfirst
    simp only [sameLoops, hfirst, sameRows_of_encodes h hrow, sameLoops_of_encodes hr hrows hothers,
      Bool.and_self]
  | .row h hr =>
    obtain ⟨hrow, hrows⟩ := List.forall_mem_cons.mp hs
    obtain ⟨hfirst, hothers⟩ := List.forall_mem_cons.mp ho
    simp only [Toml.Value.tables, List.map_cons, List.map_nil] at hfirst
    simp only [sameLoops, hfirst, sameRows, same_of_encodes h (hrow _ List.mem_cons_self),
      sameLoops_of_encodes hr hrows hothers, Bool.and_self]

theorem sameRows_of_encodes {rows : List Scope} {tables : List Table} (h : EncodesRows rows tables)
    (hs : ∀ row ∈ rows, row.Distinct) : sameRows rows (tables.map ofTable) = true := by
  match h with
  | .nil => rfl
  | .row h hr =>
    obtain ⟨hrow, hrows⟩ := List.forall_mem_cons.mp hs
    simp only [List.map_cons, sameRows, same_of_encodes h hrow, sameRows_of_encodes hr hrows,
      Bool.and_self]

end

end Same

mutual

/-- The scope as a table, with an array for every loop. -/
def encode : Scope → Table
  | mk values loops => values.map (fun p => (p.1, .string p.2)) ++ encodeLoops loops

def encodeLoops : List (String × List Scope) → Table
  | [] => []
  | (name, rows) :: r => (name, .array ((encodeRows rows).map .table)) :: encodeLoops r

def encodeRows : List Scope → List Table
  | [] => []
  | row :: r => encode row :: encodeRows r

end

mutual

theorem encodes_encode (s : Scope) : Encodes s (encode s) := by
  match s with
  | mk values loops => exact .mk (encodesLoops_encodeLoops loops) (.of_eq (by rw [encode]))

theorem encodesLoops_encodeLoops (loops : List (String × List Scope)) :
    EncodesLoops loops (encodeLoops loops) := by
  match loops with
  | [] => exact .nil
  | (name, rows) :: r =>
    exact .rows (encodesRows_encodeRows rows) (encodesLoops_encodeLoops r)

theorem encodesRows_encodeRows (rows : List Scope) : EncodesRows rows (encodeRows rows) := by
  match rows with
  | [] => exact .nil
  | row :: r => exact .row (encodes_encode row) (encodesRows_encodeRows r)

end

/-- A scope is got back from every table that it is written as, with the rows of its loops in order,
and there is such a table. What is put into arrays and is no table changes nothing, in any table. A
table never binds a name twice, at any depth: not if its keys are distinct, as those of every
document are. -/
theorem scopes_are_read_back (s : Scope) (hs : s.Distinct) :
    Encodes s (encode s) ∧
    (∀ entries, Encodes s entries → s.same (ofTable entries) = true) ∧
    (∀ entries padded, Toml.PaddedTable entries padded → ofTable padded = ofTable entries) ∧
    (∀ entries, Toml.Distinct entries → (ofTable entries).Distinct) ∧
    ∀ text bound, ofToml? text = some bound → bound.Distinct := by
  refine ⟨encodes_encode s, fun _ he => same_of_encodes he hs, fun _ _ hp => ofEntries_padded hp empty,
    fun _ => distinct_ofTable, ?_⟩
  intro text bound hbound
  obtain ⟨entries, hentries, rfl⟩ := Option.map_eq_some_iff.mp hbound
  exact distinct_ofTable (Toml.distinct_of_data hentries)

/-- A value, a loop and a loop of one row, written in another order, with a number between the rows
and the one row as its table. -/
theorem inventory_is_read_back :
    let row (n : String) : Scope := mk [("n", n)] []
    let line (n : String) : Toml.Value := .table [("n", .string n)]
    let s := mk [("title", "stock")] [("items", [row "1", row "2"]), ("owner", [row "3"])]
    s.Distinct ∧
      s.same (ofTable [("owner", line "3"), ("items", .array [line "1", .integer 5, line "2"]),
        ("title", .string "stock")]) = true := by
  intro row line s
  have hrow (n : String) : (row n).Distinct := .mk (by simp [row, names]) nofun
  have hs : s.Distinct := by
    refine .mk (by decide) ?_
    simpa [s] using ⟨⟨hrow "1", hrow "2"⟩, hrow "3"⟩
  obtain ⟨-, hread, hpadded, -⟩ := scopes_are_read_back s hs
  have hline (n : String) : Encodes (row n) [("n", .string n)] := .mk .nil (.refl _)
  have hencodes : Encodes s [("owner", line "3"), ("items", .array [line "1", line "2"]),
      ("title", .string "stock")] :=
    .mk (.rows (.row (hline "1") (.row (hline "2") .nil)) (.row (hline "3") .nil))
      (List.reverse_perm [_, _, _])
  refine ⟨hs, ?_⟩
  rw [hpadded _ _ (.entry (.same _) (.entry (.array (.keep (.same (line "1")) (.add rfl
    (.keep (.same (line "2")) .nil)))) (.entry (.same _) .nil)))]
  exact hread _ hencodes

end Scope
end Stencil
