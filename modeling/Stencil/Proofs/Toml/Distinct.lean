import Mathlib.Data.List.Basic
import Stencil.Scope.OfToml

/-! Keys of documents.
A table grows by one key at a time, and only by a key that it does not have. The main statement says
that no key stands twice in a table of a document that is read, at any depth. -/
namespace Stencil
namespace Toml

abbrev Table := List (String × Value)

namespace Value

def table? : Value → Option Table
  | table entries => some entries
  | _ => none

/-- The tables that a value is made of, which are its elements or itself. -/
def tables : Value → List Table
  | array elements => elements.filterMap table?
  | table entries => [entries]
  | _ => []

end Value

/-- No key stands twice in the table, nor in a table that a value in it is made of. -/
inductive Distinct : Table → Prop
  | mk {entries : Table} (keys : (entries.map Prod.fst).Nodup)
      (rows : ∀ e ∈ entries, ∀ row ∈ e.2.tables, Distinct row) : Distinct entries

def Value.Sound (v : Value) : Prop := ∀ row ∈ v.tables, Distinct row

theorem distinct_iff {entries : Table} :
    Distinct entries ↔ (entries.map Prod.fst).Nodup ∧ ∀ e ∈ entries, e.2.Sound :=
  ⟨fun ⟨keys, rows⟩ => ⟨keys, rows⟩, fun ⟨keys, rows⟩ => .mk keys rows⟩

theorem distinct_cons {key : String} {v : Value} {r : Table} :
    Distinct ((key, v) :: r) ↔ key ∉ r.map Prod.fst ∧ v.Sound ∧ Distinct r := by
  simp only [distinct_iff, List.map_cons, List.nodup_cons, List.forall_mem_cons]
  tauto

theorem Value.sound_table {entries : Table} : (Value.table entries).Sound ↔ Distinct entries := by
  simp [Value.Sound, Value.tables]

theorem Value.Sound.of_table? {v : Value} (h : v.Sound) {row : Table} (hrow : v.table? = some row) :
    Distinct row := by
  cases v with
  | table entries =>
    cases hrow
    exact Value.sound_table.mp h
  | _ => cases hrow

theorem Value.sound_array {elements : List Value} (h : ∀ v ∈ elements, v.Sound) :
    (Value.array elements).Sound := by
  intro row hrow
  obtain ⟨v, hv, hrow⟩ := List.mem_filterMap.mp hrow
  exact (h v hv).of_table? hrow

theorem Value.sound_array_cons {v : Value} {r : List Value} :
    (Value.array (v :: r)).Sound ↔
      (∀ row, v.table? = some row → Distinct row) ∧ (Value.array r).Sound := by
  cases hv : v.table? <;> simp [Value.Sound, Value.tables, hv]

/-! ### Tables that are being read -/

def Entry.Sound (e : Entry) : Prop := e.toValue.Sound

/-- No key stands twice in what has been read of a table. -/
def Entries.Sound (entries : Entries) : Prop := Distinct (entryValues entries)

theorem entryValues_eq (entries : Entries) :
    entryValues entries = entries.map fun p => (p.1, p.2.toValue) := by
  induction entries with
  | nil => rfl
  | cons p r ih => rw [entryValues, ih, List.map_cons]

theorem tableValues_eq (tables : List Entries) :
    tableValues tables = tables.map fun t => .table (entryValues t) := by
  induction tables with
  | nil => rfl
  | cons t r ih => rw [tableValues, ih, List.map_cons]

theorem Entry.sound_table {implied dotted : Bool} {entries : Entries} :
    (Entry.table implied dotted entries).Sound ↔ entries.Sound := Value.sound_table

theorem Entry.sound_tables {before : List Entries} {last : Entries} :
    (Entry.tables before last).Sound ↔ (∀ t ∈ before, Entries.Sound t) ∧ last.Sound := by
  have hrows : (Entry.tables before last).toValue.tables =
      before.map entryValues ++ [entryValues last] := by
    rw [Entry.toValue, Value.tables, tableValues_eq, List.filterMap_append, List.filterMap_map]
    have hbefore : before.filterMap (fun t => some (entryValues t)) = before.map entryValues := by
      simp
    exact congrArg (· ++ _) hbefore
  simp [Entry.Sound, Value.Sound, hrows, Entries.Sound, or_imp, forall_and]

namespace Entries

variable {entries entries' : Entries} {key : String}

theorem sound_iff :
    entries.Sound ↔ (entries.map Prod.fst).Nodup ∧ ∀ p ∈ entries, p.2.Sound := by
  rw [Entries.Sound, distinct_iff, entryValues_eq, List.map_map, List.forall_mem_map]
  rfl

theorem sound_nil : Sound [] := sound_iff.mpr ⟨List.nodup_nil, nofun⟩

theorem sound_cons {p : String × Entry} :
    Sound (p :: entries) ↔ p.1 ∉ entries.map Prod.fst ∧ p.2.Sound ∧ entries.Sound := by
  simp only [sound_iff, List.map_cons, List.nodup_cons, List.forall_mem_cons]
  tauto

theorem Sound.concat {e : Entry} (h : entries.Sound) (hkey : key ∉ entries.map Prod.fst)
    (he : e.Sound) : Sound (entries ++ [(key, e)]) := by
  induction entries with
  | nil => exact sound_cons.mpr ⟨List.not_mem_nil, he, sound_nil⟩
  | cons p r ih =>
    obtain ⟨hp, hsound, hr⟩ := sound_cons.mp h
    obtain ⟨hne, hkey⟩ := List.ne_and_not_mem_of_not_mem_cons hkey
    refine sound_cons.mpr ⟨?_, hsound, ih hr hkey⟩
    simpa [Ne.symm hne] using hp

theorem Sound.update {change : Option Entry → Option Entry} (h : entries.Sound)
    (hchange : ∀ found e, (∀ old ∈ found, old.Sound) → change found = some e → e.Sound)
    (hu : update key change entries = some entries') :
    entries'.Sound ∧ ∀ k ∈ entries'.map Prod.fst, k = key ∨ k ∈ entries.map Prod.fst := by
  induction entries generalizing entries' with
  | nil =>
    obtain ⟨e, he, rfl⟩ := Option.map_eq_some_iff.mp hu
    exact ⟨sound_cons.mpr ⟨List.not_mem_nil, hchange none e nofun he, sound_nil⟩, by simp⟩
  | cons p r ih =>
    obtain ⟨hp, hsound, hr⟩ := sound_cons.mp h
    rw [Entries.update] at hu
    split at hu
    · rename_i hkey
      obtain ⟨e, he, rfl⟩ := Option.map_eq_some_iff.mp hu
      refine ⟨sound_cons.mpr ⟨hkey ▸ hp, hchange _ e ?_ he, hr⟩, by simp [hkey]⟩
      rintro old ⟨⟩
      exact hsound
    · rename_i hne
      obtain ⟨r', hr', rfl⟩ := Option.map_eq_some_iff.mp hu
      obtain ⟨hsound', hkeys⟩ := ih hr hr'
      refine ⟨sound_cons.mpr ⟨fun hmem => ?_, hsound, hsound'⟩, ?_⟩
      · rcases hkeys _ hmem with hk | hk
        · exact hne hk
        · exact hp hk
      · intro k hk
        rcases List.mem_cons.mp hk with rfl | hk
        · exact .inr List.mem_cons_self
        · exact (hkeys k hk).imp_right (List.mem_cons_of_mem _)

theorem Sound.within {byDots : Bool} {change : Bool → Entries → Option Entries}
    (hchange : ∀ dotted inner inner', change dotted inner = some inner' → inner.Sound → inner'.Sound)
    {path : List String} {dotted : Bool} (h : entries.Sound)
    (hw : within byDots change path dotted entries = some entries') : entries'.Sound := by
  induction path generalizing entries entries' dotted with
  | nil => exact hchange _ _ _ hw h
  | cons key path ih =>
    refine (h.update (fun found e hfound he => ?_) hw).1
    match found with
    | none =>
      obtain ⟨inner, hinner, rfl⟩ := Option.map_eq_some_iff.mp he
      exact Entry.sound_table.mpr (ih sound_nil hinner)
    | some (.value _) => cases he
    | some (.tables before last) =>
      obtain ⟨inner, hinner, rfl⟩ := Option.map_eq_some_iff.mp he
      obtain ⟨hbefore, hlast⟩ := Entry.sound_tables.mp (hfound _ rfl)
      exact Entry.sound_tables.mpr ⟨hbefore, ih hlast hinner⟩
    | some (.table implied dotted inner) =>
      dsimp only at he
      split at he
      · cases he
      · obtain ⟨inner', hinner, rfl⟩ := Option.map_eq_some_iff.mp he
        exact Entry.sound_table.mpr (ih (Entry.sound_table.mp (hfound _ rfl)) hinner)

theorem not_mem_keys_of_get? (h : Assoc.get? key entries = none) : key ∉ entries.map Prod.fst := by
  induction entries with
  | nil => exact List.not_mem_nil
  | cons p r ih =>
    rw [Assoc.get?_cons] at h
    split at h
    · cases h
    · rename_i hne
      exact List.not_mem_cons_of_ne_of_not_mem (Ne.symm hne) (ih h)

theorem Sound.put {path : List String} {v : Value} (h : entries.Sound) (hv : v.Sound)
    (hp : put path key v entries = some entries') : entries'.Sound := by
  refine h.within (fun dotted inner inner' hinner hsound => ?_) hp
  split at hinner
  · cases hinner
  · rename_i hnot
    cases hinner
    have hnew : Assoc.get? key inner = none := by
      simpa using fun he => hnot (Bool.or_eq_true_iff.mpr (.inr he))
    exact hsound.concat (not_mem_keys_of_get? hnew) hv

theorem Sound.putAll {pairs : List Pair} (h : entries.Sound) (hpairs : ∀ p ∈ pairs, p.value.Sound)
    (hp : putAll pairs entries = some entries') : entries'.Sound := by
  induction pairs generalizing entries with
  | nil =>
    cases hp
    exact h
  | cons p pairs ih =>
    obtain ⟨hfirst, hothers⟩ := List.forall_mem_cons.mp hpairs
    obtain ⟨entries₁, hput, hp⟩ := Option.bind_eq_some_iff.mp hp
    exact ih (h.put hfirst hput) hothers hp

theorem sound_erase (key : String) (h : entries.Sound) :
    Sound (Assoc.erase key entries) ∧ key ∉ (Assoc.erase key entries).map Prod.fst ∧
      ∀ k ∈ (Assoc.erase key entries).map Prod.fst, k ∈ entries.map Prod.fst := by
  induction entries with
  | nil => exact ⟨sound_nil, List.not_mem_nil, nofun⟩
  | cons p r ih =>
    obtain ⟨hp, hsound, hr⟩ := sound_cons.mp h
    obtain ⟨herased, hgone, hkeys⟩ := ih hr
    rw [Assoc.erase]
    split
    · exact ⟨herased, hgone, fun k hk => List.mem_cons_of_mem _ (hkeys k hk)⟩
    · rename_i hne
      refine ⟨sound_cons.mpr ⟨fun hk => hp (hkeys _ hk), hsound, herased⟩,
        List.not_mem_cons_of_ne_of_not_mem (Ne.symm hne) hgone, fun k hk => ?_⟩
      exact List.mem_cons.mpr ((List.mem_cons.mp hk).imp_right (hkeys k))

theorem Sound.of_get? {e : Entry} (h : entries.Sound) (he : Assoc.get? key entries = some e) :
    e.Sound := (sound_iff.mp h).2 _ (Assoc.mem_of_get? he)

theorem Sound.addTable {path : List String} {pairs : List Pair} (h : entries.Sound)
    (hpairs : ∀ p ∈ pairs, p.value.Sound)
    (ht : addTable path key pairs entries = some entries') : entries'.Sound := by
  refine h.within (fun _ inner inner' hinner hsound => ?_) ht
  obtain ⟨herased, hgone, -⟩ := sound_erase key hsound
  -- what is read under the header goes into a table that was there or into a new one
  have hfinish {old : Entries} (hold : old.Sound)
      (hf : (Entries.putAll pairs old).map (fun read =>
        Assoc.erase key inner ++ [(key, Entry.table false false read)]) = some inner') :
      inner'.Sound := by
    obtain ⟨read, hread, rfl⟩ := Option.map_eq_some_iff.mp hf
    exact herased.concat hgone (Entry.sound_table.mpr (hold.putAll hpairs hread))
  dsimp only at hinner
  split at hinner
  · exact hfinish sound_nil hinner
  · rename_i old hold
    exact hfinish (Entry.sound_table.mp (hsound.of_get? hold)) hinner
  · cases hinner

theorem Sound.addElement {path : List String} {pairs : List Pair} (h : entries.Sound)
    (hpairs : ∀ p ∈ pairs, p.value.Sound)
    (ht : addElement path key pairs entries = some entries') : entries'.Sound := by
  refine h.within (fun _ inner inner' hinner hsound => ?_) ht
  refine (hsound.update (fun found e hfound he => ?_) hinner).1
  match found with
  | none =>
    obtain ⟨new, hnew, rfl⟩ := Option.map_eq_some_iff.mp he
    exact Entry.sound_tables.mpr ⟨nofun, sound_nil.putAll hpairs hnew⟩
  | some (.tables before last) =>
    obtain ⟨new, hnew, rfl⟩ := Option.map_eq_some_iff.mp he
    obtain ⟨hbefore, hlast⟩ := Entry.sound_tables.mp (hfound _ rfl)
    refine Entry.sound_tables.mpr ⟨fun t ht => ?_, sound_nil.putAll hpairs hnew⟩
    rcases List.mem_append.mp ht with ht | ht
    · exact hbefore t ht
    · cases List.mem_singleton.mp ht
      exact hlast
  | some (.value _) => cases he
  | some (.table ..) => cases he

end Entries

/-! ### Readers -/

def Reader.Gives {α : Type} (read : Reader α) (P : α → Prop) : Prop :=
  ∀ text a rest, read text = some (a, rest) → P a

theorem Reader.Gives.many {α : Type} {read : Reader α} {P : α → Prop} (h : read.Gives P)
    (text : List Char) : ∀ a ∈ (Reader.many read text).1, P a := by
  fun_induction Reader.many read text with
  | case1 => nofun
  | case2 text a rest hread _ _ ih => exact List.forall_mem_cons.mpr ⟨h _ _ _ hread, ih⟩
  | case3 => nofun

theorem Reader.Gives.skip {α : Type} {read : Reader α} {P : α → Prop} (h : read.Gives P)
    (skip : List Char → List Char) :
    Reader.Gives (fun text => (read text).map fun p => (p.1, skip p.2)) P := by
  intro text b rest hb
  obtain ⟨⟨a, left⟩, hread, heq⟩ := Option.map_eq_some_iff.mp hb
  cases heq
  exact h _ _ _ hread

namespace Value

variable {read : Reader Value}

theorem sound_of_arrayEnd {values : List Value} {text rest : List Char} {v : Value}
    (hvalues : ∀ v ∈ values, v.Sound)
    (h : (match skipFiller text with
      | ']' :: r => some (Value.array values, r)
      | _ => none) = some (v, rest)) : v.Sound := by
  split at h
  · cases h
    exact sound_array hvalues
  · cases h

theorem gives_elements (h : read.Gives Sound) : (elements read).Gives Sound := by
  have helement : Reader.Gives (fun text =>
      (read (skipFiller text)).map fun p => (p.1, skipFiller p.2)) Sound :=
    fun text => h.skip skipFiller (skipFiller text)
  intro text v rest hv
  unfold elements at hv
  dsimp only at hv
  split at hv
  · exact sound_of_arrayEnd (List.forall_mem_nil _) hv
  · rename_i first left hfirst
    refine sound_of_arrayEnd (List.forall_mem_cons.mpr ⟨helement _ _ _ hfirst, ?_⟩) hv
    refine Reader.Gives.many (fun text v rest hv => ?_) left
    split at hv
    · exact helement _ _ _ hv
    · cases hv

theorem gives_pair (h : read.Gives Sound) : (pair read).Gives fun p => p.value.Sound := by
  intro text p rest hp
  unfold pair at hp
  obtain ⟨⟨⟨path, key⟩, text₁⟩, -, hp⟩ := Option.bind_eq_some_iff.mp hp
  obtain ⟨⟨_, text₂⟩, -, hp⟩ := Option.bind_eq_some_iff.mp hp
  obtain ⟨⟨v, text₃⟩, hread, hp⟩ := Option.bind_eq_some_iff.mp hp
  cases hp
  exact h _ _ _ hread

theorem sound_of_tableEnd {pairs : List Entries.Pair} {text rest : List Char} {v : Value}
    (hpairs : ∀ p ∈ pairs, p.value.Sound)
    (h : (match skipSpace text with
      | c :: r =>
        if c = '\x7d' then (Entries.putAll pairs []).map fun es => (Value.table (entryValues es), r)
        else none
      | [] => none) = some (v, rest)) : v.Sound := by
  split at h
  · split at h
    · obtain ⟨es, hes, heq⟩ := Option.map_eq_some_iff.mp h
      cases heq
      exact sound_table.mpr (Entries.sound_nil.putAll hpairs hes)
    · cases h
  · cases h

theorem gives_inlineEntries (h : read.Gives Sound) : (inlineEntries read).Gives Sound := by
  have hspaced : Reader.Gives (fun text =>
      (pair read text).map fun p => (p.1, skipSpace p.2)) fun p => p.value.Sound :=
    (gives_pair h).skip skipSpace
  intro text v rest hv
  unfold inlineEntries at hv
  dsimp only at hv
  split at hv
  · exact sound_of_tableEnd (List.forall_mem_nil _) hv
  · rename_i first left hfirst
    refine sound_of_tableEnd (List.forall_mem_cons.mpr ⟨hspaced _ _ _ hfirst, ?_⟩) hv
    refine Reader.Gives.many (fun text p rest hp => ?_) left
    split at hp
    · exact hspaced _ _ _ hp
    · cases hp

theorem sound_of_tables {v : Value} (h : v.tables = []) : v.Sound := by
  rw [Sound, h]
  nofun

theorem gives_scalar : scalar.Gives Sound := by
  intro text v rest hv
  refine sound_of_tables ?_
  unfold scalar numeric at hv
  split at hv
  · cases hv
    rfl
  · cases hv
    rfl
  · simp only [Option.or_eq_some_iff, Option.map_eq_some_iff] at hv
    rcases hv with ⟨p, -, heq⟩ | ⟨-, ⟨⟨p, -, heq⟩ | ⟨-, p, -, heq⟩⟩ | ⟨-, p, -, heq⟩⟩ <;>
    · cases heq
      rfl

theorem gives_read (levels : Nat) : (Value.read levels).Gives Sound := by
  intro text v rest hv
  induction levels generalizing text v rest with
  | zero =>
    unfold Value.read at hv
    split at hv
    · split at hv
      · cases hv
      · split at hv
        · cases hv
        · exact gives_scalar _ _ _ hv
    · cases hv
  | succ levels ih =>
    unfold Value.read at hv
    split at hv
    · split at hv
      · exact gives_elements ih _ _ _ hv
      · split at hv
        · exact gives_inlineEntries ih _ _ _ hv
        · exact gives_scalar _ _ _ hv
    · cases hv

end Value

namespace Line

def Sound (line : Line) : Prop := ∀ p, line = .pair p → p.value.Sound

theorem gives_readHeader (ofArray : Bool) (closing : String) :
    (readHeader ofArray closing).Gives Sound := by
  intro text line rest hline
  unfold readHeader at hline
  obtain ⟨⟨⟨path, key⟩, text₁⟩, -, hline⟩ := Option.bind_eq_some_iff.mp hline
  obtain ⟨⟨_, text₂⟩, -, hline⟩ := Option.bind_eq_some_iff.mp hline
  obtain ⟨⟨_, text₃⟩, -, hline⟩ := Option.bind_eq_some_iff.mp hline
  cases hline
  nofun

theorem gives_readEntry : readEntry.Gives Sound := by
  intro text line rest hline
  unfold readEntry at hline
  split at hline
  · obtain ⟨p, -, hline⟩ := Option.bind_eq_some_iff.mp hline
    obtain ⟨q, -, hline⟩ := Option.bind_eq_some_iff.mp hline
    cases hline
    nofun
  · exact gives_readHeader _ _ _ _ _ hline
  · exact gives_readHeader _ _ _ _ _ hline
  · cases hline
    nofun
  · obtain ⟨p, -, heq⟩ := Option.map_eq_some_iff.mp hline
    cases heq
    nofun
  · obtain ⟨⟨p, left⟩, hread, hline⟩ := Option.bind_eq_some_iff.mp hline
    obtain ⟨q, -, hline⟩ := Option.bind_eq_some_iff.mp hline
    cases hline
    rintro _ ⟨⟩
    exact Value.gives_pair (Value.gives_read _) _ _ _ hread

theorem gives_read : Line.read.Gives Sound := gives_readEntry.skip skipSpace

end Line

theorem sound_sections {lines : List Line} (h : ∀ line ∈ lines, line.Sound) :
    (∀ p ∈ (sections lines).1, p.value.Sound) ∧
      ∀ s ∈ (sections lines).2, ∀ p ∈ s.2, p.value.Sound := by
  induction lines with
  | nil => exact ⟨nofun, nofun⟩
  | cons line lines ih =>
    obtain ⟨hline, hlines⟩ := List.forall_mem_cons.mp h
    obtain ⟨hfirst, hothers⟩ := ih hlines
    cases line with
    | idle => exact ⟨hfirst, hothers⟩
    | pair p => exact ⟨List.forall_mem_cons.mpr ⟨hline p rfl, hfirst⟩, hothers⟩
    | header ofArray path key => exact ⟨nofun, List.forall_mem_cons.mpr ⟨hfirst, hothers⟩⟩

theorem sound_ofLines {lines : List Line} (h : ∀ line ∈ lines, line.Sound) {root : Entries}
    (hr : ofLines lines = some root) : root.Sound := by
  obtain ⟨hfirst, hothers⟩ := sound_sections h
  obtain ⟨start, hstart, hr⟩ := Option.bind_eq_some_iff.mp hr
  have hsound := Entries.sound_nil.putAll hfirst hstart
  clear hstart
  generalize (sections lines).2 = others at hothers hr
  induction others generalizing start with
  | nil =>
    cases hr
    exact hsound
  | cons s others ih =>
    obtain ⟨hs, hothers⟩ := List.forall_mem_cons.mp hothers
    obtain ⟨next, hnext, hr⟩ := Option.bind_eq_some_iff.mp hr
    refine ih next ?_ hothers hr
    dsimp only at hnext
    split at hnext
    · exact hsound.addElement hs hnext
    · exact hsound.addTable hs hnext

theorem distinct_of_parse? {s : String} {entries : Table} (h : parse? s = some entries) :
    Distinct entries := by
  obtain ⟨-, h⟩ := Option.ite_none_right_eq_some.mp h
  obtain ⟨root, hroot, rfl⟩ := Option.map_eq_some_iff.mp h
  exact sound_ofLines (Line.gives_read.many _) hroot

/-! ### Dates -/

theorem Value.eq_table_of_settle {v w : Value} {row : Table} (h : v.settle = some w)
    (hw : w.table? = some row) : ∃ entries, v = .table entries := by
  cases v with
  | table entries => exact ⟨entries, rfl⟩
  | array elements =>
    rw [Value.settle] at h
    obtain ⟨elements', -, rfl⟩ := Option.map_eq_some_iff.mp h
    cases hw
  | _ =>
    cases h
    cases hw

mutual

theorem Value.Sound.settle {v v' : Value} (h : v.Sound) (hs : v.settle = some v') : v'.Sound := by
  match v with
  | .array elements =>
    rw [Value.settle] at hs
    obtain ⟨elements', hall, rfl⟩ := Option.map_eq_some_iff.mp hs
    exact sound_settleAll h hall
  | .table [] =>
    cases hs
    exact h
  | .table ((key, v) :: r) =>
    obtain ⟨hkey, hv, hr⟩ := distinct_cons.mp (Value.sound_table.mp h)
    unfold Value.settle at hs
    split at hs
    · split at hs
      · obtain ⟨d, -, rfl⟩ := Option.map_eq_some_iff.mp hs
        exact Value.sound_of_tables rfl
      · cases hs
    · split at hs
      · cases hs
      · rename_i w hw
        obtain ⟨r', hr', rfl⟩ := Option.map_eq_some_iff.mp hs
        obtain ⟨hdistinct, hkeys⟩ := hr.settleEntries hr'
        exact Value.sound_table.mpr
          (distinct_cons.mpr ⟨hkeys ▸ hkey, hv.settle hw, hdistinct⟩)
  | .string _ | .integer _ | .float _ | .boolean _ | .date _ =>
    cases hs
    exact h

theorem sound_settleAll {elements elements' : List Value} (h : (Value.array elements).Sound)
    (hs : Value.settleAll elements = some elements') : (Value.array elements').Sound := by
  match elements with
  | [] =>
    cases hs
    exact h
  | v :: r =>
    obtain ⟨hfirst, hothers⟩ := Value.sound_array_cons.mp h
    rw [Value.settleAll] at hs
    split at hs
    · rename_i w r' hw hr
      cases hs
      refine Value.sound_array_cons.mpr ⟨fun row hrow => ?_, sound_settleAll hothers hr⟩
      obtain ⟨entries, rfl⟩ := Value.eq_table_of_settle hw hrow
      exact (Value.Sound.settle (Value.sound_table.mpr (hfirst entries rfl)) hw).of_table? hrow
    · cases hs

theorem Distinct.settleEntries {entries entries' : Table} (h : Distinct entries)
    (hs : Value.settleEntries entries = some entries') :
    Distinct entries' ∧ entries'.map Prod.fst = entries.map Prod.fst := by
  match entries with
  | [] =>
    cases hs
    exact ⟨h, rfl⟩
  | (key, v) :: r =>
    obtain ⟨hkey, hv, hr⟩ := distinct_cons.mp h
    rw [Value.settleEntries] at hs
    split at hs
    · rename_i w r' hw hr'
      cases hs
      obtain ⟨hdistinct, hkeys⟩ := hr.settleEntries hr'
      exact ⟨distinct_cons.mpr ⟨hkeys ▸ hkey, hv.settle hw, hdistinct⟩, congrArg (key :: ·) hkeys⟩
    · cases hs

end

theorem distinct_of_data {s : String} {entries : Table}
    (h : (parse? s).bind Value.settleEntries = some entries) : Distinct entries := by
  obtain ⟨written, hwritten, hs⟩ := Option.bind_eq_some_iff.mp h
  exact ((distinct_of_parse? hwritten).settleEntries hs).1

end Toml
end Stencil
