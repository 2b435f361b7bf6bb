import Stencil.Sink
import Mathlib.Logic.Function.Basic

/-! Writes poured into sinks.
A log says which bytes go to which sink, in order. It is poured write by write, and the first write
that is not taken whole is the last one. The main statements say what the sinks hold when all of a
log has been poured into them, and what they hold when it has not. -/
namespace Stencil

namespace Sink

def Fits (s : Sink) (bytes : Bytes) : Prop := ∀ n, s.room = some n → bytes.length ≤ n

theorem write_of_fits {s : Sink} {piece : Bytes} (h : s.Fits piece) :
    s.write piece =
      ({ room := s.room.map (· - piece.length), pieces := piece :: s.pieces }, true) := by
  unfold write
  cases hr : s.room with
  | none => simp
  | some n =>
    have hn : piece.length ≤ n := h n hr
    simp [hn]

theorem write_of_not_fits {s : Sink} {piece : Bytes} (h : ¬ s.Fits piece) : ∃ n,
    s.room = some n ∧ n < piece.length ∧
      s.write piece = ({ room := some 0, pieces := piece.take n :: s.pieces }, false) := by
  cases hr : s.room with
  | none => exact (h fun n hn => by simp [hr] at hn).elim
  | some n =>
    have hn : ¬ piece.length ≤ n := by
      intro hle
      refine h fun m hm => ?_
      rw [hr] at hm
      cases hm
      exact hle
    refine ⟨n, rfl, Nat.lt_of_not_le hn, ?_⟩
    simp [write, hr, hn]

theorem fits_append {s : Sink} {a b : Bytes} :
    s.Fits (a ++ b) ↔ s.Fits a ∧ (s.write a).1.Fits b := by
  by_cases ha : s.Fits a
  · have hroom : (s.write a).1.room = s.room.map (· - a.length) := by rw [write_of_fits ha]
    constructor
    · intro h
      refine ⟨ha, fun n hn => ?_⟩
      rw [hroom] at hn
      obtain ⟨m, hm, rfl⟩ := Option.map_eq_some_iff.mp hn
      have := h m hm
      rw [List.length_append] at this
      omega
    · rintro ⟨-, hb⟩ m hm
      have h1 := ha m hm
      have h2 := hb (m - a.length) (by rw [hroom, hm]; rfl)
      rw [List.length_append]
      omega
  · refine ⟨fun h => (ha fun n hn => ?_).elim, fun h => (ha h.1).elim⟩
    have := h n hn
    rw [List.length_append] at this
    omega

theorem fits_of_room {s : Sink} (h : s.room = none) (bytes : Bytes) : s.Fits bytes := by
  intro n hn
  rw [h] at hn
  cases hn

theorem writeAll_of_room {s : Sink} (h : s.room = none) (pieces : List Bytes) :
    (s.writeAll pieces).2 = true := by
  induction pieces generalizing s with
  | nil => rfl
  | cons piece rest ih =>
    have hw := write_of_fits (fits_of_room h piece)
    rw [writeAll, hw]
    exact ih (by rw [h]; rfl)

theorem writeAll_iff_fits {s : Sink} {pieces : List Bytes} :
    (s.writeAll pieces).2 = true ↔ s.Fits pieces.flatten := by
  induction pieces generalizing s with
  | nil => simp [writeAll, Fits]
  | cons piece rest ih =>
    rw [List.flatten_cons, fits_append]
    by_cases h : s.Fits piece
    · have hw := write_of_fits h
      rw [writeAll, hw, and_iff_right h]
      exact ih
    · obtain ⟨n, -, -, hw⟩ := write_of_not_fits h
      rw [writeAll, hw]
      exact iff_of_false Bool.false_ne_true fun hall => h hall.1

theorem taken_append_of_fits {s : Sink} {a : Bytes} (h : s.Fits a) (b : Bytes) :
    s.taken (a ++ b) = a ++ (s.write a).1.taken b := by
  rw [write_of_fits h]
  unfold taken
  cases hr : s.room with
  | none => rfl
  | some n => simp [List.take_append, List.take_of_length_le (h n hr)]

theorem taken_append_of_not_fits {s : Sink} {a : Bytes} (h : ¬ s.Fits a) (b : Bytes) :
    s.taken (a ++ b) = s.taken a := by
  obtain ⟨n, hr, hlt, -⟩ := write_of_not_fits h
  unfold taken
  rw [hr]
  exact List.take_append_of_le_length (Nat.le_of_lt hlt)

theorem contents_writeAll_fst (s : Sink) (pieces : List Bytes) :
    (s.writeAll pieces).1.contents = s.contents ++ s.taken pieces.flatten := by
  induction pieces generalizing s with
  | nil =>
    have hnone : s.taken [] = [] := by
      unfold taken
      cases s.room <;> simp
    simp [writeAll, hnone]
  | cons piece rest ih =>
    have hc := s.contents_write piece
    rw [List.flatten_cons]
    by_cases h : s.Fits piece
    · have hw := write_of_fits h
      have htaken := taken_of_write hw
      rw [taken_append_of_fits h, ← List.append_assoc]
      rw [htaken] at hc
      rw [writeAll, ← hc, ← ih, hw]
    · obtain ⟨n, -, -, hw⟩ := write_of_not_fits h
      rw [taken_append_of_not_fits h, ← hc, writeAll, hw]

theorem contents_writeAll {s s' : Sink} {pieces : List Bytes}
    (h : s.writeAll pieces = (s', true)) : s'.contents = s.contents ++ pieces.flatten := by
  induction pieces generalizing s with
  | nil =>
    cases h
    simp
  | cons piece rest ih =>
    have hc := s.contents_write piece
    rw [writeAll] at h
    cases hw : s.write piece with
    | mk s₁ taken =>
      rw [hw] at h hc
      cases taken with
      | false => cases h
      | true =>
        rw [ih h, hc, taken_of_write hw]
        simp

end Sink

inductive Outlet
  | out
  | err
  deriving DecidableEq, Repr

structure Writing where
  outlet : Outlet
  piece : Bytes

/-- How much room each sink has; as much as one likes where nothing is said. -/
abbrev Limits := Outlet → Option Nat

abbrev Sinks := Outlet → Sink

def Writing.bytes (log : List Writing) (o : Outlet) : Bytes :=
  (log.filter fun w => w.outlet = o).flatMap Writing.piece

namespace Writing

@[simp] theorem bytes_nil (o : Outlet) : bytes [] o = [] := rfl

theorem bytes_cons (w : Writing) (log : List Writing) (o : Outlet) :
    bytes (w :: log) o = (if w.outlet = o then w.piece else []) ++ bytes log o := by
  by_cases h : w.outlet = o <;> simp [bytes, h]

end Writing

namespace Sinks

def within (s : Sinks) (limits : Limits) : Sinks := fun o => { s o with room := limits o }

def Unlimited (s : Sinks) : Prop := ∀ o, (s o).room = none

/-- Writes one after the other, up to the first that is not taken whole. The sink that has not taken
it is told. -/
def pour (s : Sinks) : List Writing → Sinks × Option Outlet
  | [] => (s, none)
  | w :: rest =>
    match (s w.outlet).write w.piece with
    | (sink, true) => pour (Function.update s w.outlet sink) rest
    | (sink, false) => (Function.update s w.outlet sink, some w.outlet)

variable {s s' : Sinks} {log : List Writing} {w : Writing} {o : Outlet}

theorem pour_cons_of_fits (h : (s w.outlet).Fits w.piece) :
    s.pour (w :: log) =
      pour (Function.update s w.outlet ((s w.outlet).write w.piece).1) log := by
  rw [pour, Sink.write_of_fits h]

theorem pour_cons_of_not_fits (h : ¬ (s w.outlet).Fits w.piece) :
    s.pour (w :: log) =
      (Function.update s w.outlet ((s w.outlet).write w.piece).1, some w.outlet) := by
  obtain ⟨n, -, -, hw⟩ := Sink.write_of_not_fits h
  rw [pour, hw]

theorem pour_append (s : Sinks) (a b : List Writing) :
    s.pour (a ++ b) =
      match s.pour a with
      | (s', none) => s'.pour b
      | (s', some o) => (s', some o) := by
  induction a generalizing s with
  | nil => rfl
  | cons w a ih =>
    by_cases h : (s w.outlet).Fits w.piece
    · rw [List.cons_append, pour_cons_of_fits h, pour_cons_of_fits h, ih]
    · rw [List.cons_append, pour_cons_of_not_fits h, pour_cons_of_not_fits h]

theorem pour_map (s : Sinks) (o : Outlet) (pieces : List Bytes) :
    s.pour (pieces.map fun piece => ⟨o, piece⟩) =
      (Function.update s o ((s o).writeAll pieces).1,
        if ((s o).writeAll pieces).2 then none else some o) := by
  induction pieces generalizing s with
  | nil => simp [pour, Sink.writeAll]
  | cons piece rest ih =>
    rw [List.map_cons]
    by_cases h : (s o).Fits piece
    · have hw := Sink.write_of_fits h
      rw [pour_cons_of_fits (w := ⟨o, piece⟩) h, ih, hw]
      simp [Sink.writeAll, hw]
    · obtain ⟨n, -, -, hw⟩ := Sink.write_of_not_fits h
      rw [pour_cons_of_not_fits (w := ⟨o, piece⟩) h, hw]
      simp [Sink.writeAll, hw]

theorem fits_cons (h : (s w.outlet).Fits w.piece) :
    (s o).Fits (Writing.bytes (w :: log) o) ↔
      (Function.update s w.outlet ((s w.outlet).write w.piece).1 o).Fits
        (Writing.bytes log o) := by
  rw [Writing.bytes_cons]
  by_cases ho : w.outlet = o
  · subst ho
    rw [if_pos rfl, Sink.fits_append, Function.update_self]
    exact and_iff_right h
  · rw [if_neg ho, Function.update_of_ne (Ne.symm ho), List.nil_append]

theorem pour_snd_eq_none_iff :
    (s.pour log).2 = none ↔ ∀ o, (s o).Fits (Writing.bytes log o) := by
  induction log generalizing s with
  | nil => simp [pour, Sink.Fits]
  | cons w log ih =>
    by_cases h : (s w.outlet).Fits w.piece
    · rw [pour_cons_of_fits h, ih]
      exact forall_congr' fun o => (fits_cons h).symm
    · rw [pour_cons_of_not_fits h]
      refine ⟨nofun, fun hall => (h ?_).elim⟩
      have hw := hall w.outlet
      rw [Writing.bytes_cons, if_pos rfl, Sink.fits_append] at hw
      exact hw.1

theorem contents_update_of_fits (h : (s w.outlet).Fits w.piece) (o : Outlet) :
    (Function.update s w.outlet ((s w.outlet).write w.piece).1 o).contents =
      (s o).contents ++ if w.outlet = o then w.piece else [] := by
  by_cases ho : w.outlet = o
  · subst ho
    rw [Function.update_self, if_pos rfl, Sink.contents_write,
      Sink.taken_of_write (Sink.write_of_fits h)]
  · rw [Function.update_of_ne (Ne.symm ho), if_neg ho, List.append_nil]

theorem contents_of_pour (h : s.pour log = (s', none)) (o : Outlet) :
    (s' o).contents = (s o).contents ++ Writing.bytes log o := by
  induction log generalizing s with
  | nil =>
    cases h
    simp
  | cons w log ih =>
    by_cases hw : (s w.outlet).Fits w.piece
    · rw [pour_cons_of_fits hw] at h
      rw [ih h, contents_update_of_fits hw, Writing.bytes_cons, List.append_assoc]
    · rw [pour_cons_of_not_fits hw] at h
      cases h

/-- Every sink holds a part of what goes to it, from the beginning on. -/
theorem exists_prefix_of_pour (s : Sinks) (log : List Writing) (o : Outlet) :
    ∃ part, part <+: Writing.bytes log o ∧
      ((s.pour log).1 o).contents = (s o).contents ++ part := by
  induction log generalizing s with
  | nil => exact ⟨[], List.prefix_rfl, (List.append_nil _).symm⟩
  | cons w log ih =>
    by_cases hw : (s w.outlet).Fits w.piece
    · obtain ⟨part, hpart, hc⟩ := ih (Function.update s w.outlet ((s w.outlet).write w.piece).1)
      refine ⟨(if w.outlet = o then w.piece else []) ++ part, ?_, ?_⟩
      · rw [Writing.bytes_cons]
        exact (List.prefix_append_right_inj _).mpr hpart
      · rw [pour_cons_of_fits hw, hc, contents_update_of_fits hw, List.append_assoc]
    · obtain ⟨n, -, -, hn⟩ := Sink.write_of_not_fits hw
      rw [pour_cons_of_not_fits hw, hn, Writing.bytes_cons]
      by_cases ho : w.outlet = o
      · subst ho
        refine ⟨w.piece.take n, ?_, ?_⟩
        · rw [if_pos rfl]
          exact (List.take_prefix _ _).trans (List.prefix_append _ _)
        · simp [Sink.contents]
      · refine ⟨[], List.nil_prefix, ?_⟩
        simp [Function.update_of_ne (Ne.symm ho)]

theorem length_of_pour (h : s.pour log = (s', some o)) : ∃ n, (s o).room = some n ∧
    (s' o).contents.length = (s o).contents.length + n := by
  induction log generalizing s with
  | nil => cases h
  | cons w log ih =>
    by_cases hw : (s w.outlet).Fits w.piece
    · rw [pour_cons_of_fits hw] at h
      obtain ⟨n, hn, hlength⟩ := ih h
      rw [contents_update_of_fits hw, List.length_append] at hlength
      by_cases ho : w.outlet = o
      · subst ho
        rw [Function.update_self, Sink.write_of_fits hw] at hn
        obtain ⟨m, hm, rfl⟩ := Option.map_eq_some_iff.mp hn
        have hle := hw m hm
        rw [if_pos rfl] at hlength
        exact ⟨m, hm, by omega⟩
      · rw [Function.update_of_ne (Ne.symm ho)] at hn
        rw [if_neg ho] at hlength
        exact ⟨n, hn, by simpa using hlength⟩
    · rw [pour_cons_of_not_fits hw] at h
      obtain ⟨n, hr, hlt, hn⟩ := Sink.write_of_not_fits hw
      injection h with hs ho
      obtain rfl := Option.some.inj ho
      refine ⟨n, hr, ?_⟩
      rw [← hs, Function.update_self, hn]
      simp [Sink.contents]
      omega

/-- The pieces that have been poured do not depend on how much room there is. -/
theorem pieces_of_pour {t t' : Sinks} (h : s.pour log = (s', none)) (ht : t.pour log = (t', none))
    (hp : ∀ o, (t o).pieces = (s o).pieces) (o : Outlet) : (t' o).pieces = (s' o).pieces := by
  induction log generalizing s t with
  | nil =>
    cases h
    cases ht
    exact hp o
  | cons w log ih =>
    by_cases hs : (s w.outlet).Fits w.piece
    · by_cases hw : (t w.outlet).Fits w.piece
      · rw [pour_cons_of_fits hs] at h
        rw [pour_cons_of_fits hw] at ht
        refine ih h ht fun o => ?_
        by_cases ho : w.outlet = o
        · subst ho
          simp [Sink.write_of_fits hs, Sink.write_of_fits hw, hp]
        · simp [Function.update_of_ne (Ne.symm ho), hp]
      · rw [pour_cons_of_not_fits hw] at ht
        cases ht
    · rw [pour_cons_of_not_fits hs] at h
      cases h

theorem room_of_pour (hs : s.Unlimited) (o : Outlet) :
    ((s.pour log).1 o).room = none := by
  induction log generalizing s with
  | nil => exact hs o
  | cons w log ih =>
    have hw := Sink.fits_of_room (hs w.outlet) w.piece
    rw [pour_cons_of_fits hw]
    refine ih fun o => ?_
    by_cases ho : w.outlet = o
    · subst ho
      rw [Function.update_self, Sink.write_of_fits hw, hs]
      rfl
    · rw [Function.update_of_ne (Ne.symm ho), hs]

theorem pour_of_room (hs : s.Unlimited) (log : List Writing) :
    s.pour log = ((s.pour log).1, none) :=
  Prod.ext rfl (pour_snd_eq_none_iff.mpr fun o => Sink.fits_of_room (hs o) _)

end Sinks
end Stencil
