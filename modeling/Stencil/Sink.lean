import Stencil.Text

/-! Sinks: where bytes are written.
A sink may have room for so many bytes only. The write that does not fit fails, but the part of it
that fits is kept. The main statements say what a write adds to the contents. -/
namespace Stencil

inductive WriteError
  | full
  | formatter (reason : String)
  deriving DecidableEq, Repr

def WriteError.message : WriteError → String
  | full => "sink full"
  | formatter reason => reason

structure Sink where
  /-- How many more bytes are taken; any number if absent. -/
  room : Option Nat := none
  /-- The pieces taken so far, the newest first. -/
  pieces : List Bytes := []
  deriving DecidableEq, Repr

namespace Sink

def contents (s : Sink) : Bytes := s.pieces.reverse.flatten

/-- The sink after a write, and whether the whole piece was taken. -/
def write (s : Sink) (piece : Bytes) : Sink × Bool :=
  match s.room with
  | none => ({ s with pieces := piece :: s.pieces }, true)
  | some n =>
    if piece.length ≤ n then (⟨some (n - piece.length), piece :: s.pieces⟩, true)
    else (⟨some 0, piece.take n :: s.pieces⟩, false)

/-- Writes pieces up to the first that is not taken whole. -/
def writeAll (s : Sink) : List Bytes → Sink × Bool
  | [] => (s, true)
  | piece :: r =>
    match s.write piece with
    | (s', true) => s'.writeAll r
    | (s', false) => (s', false)

/-- How much of a piece a sink has room for. -/
def taken (s : Sink) (piece : Bytes) : Bytes :=
  match s.room with
  | none => piece
  | some n => piece.take n

theorem contents_write (s : Sink) (piece : Bytes) :
    (s.write piece).1.contents = s.contents ++ s.taken piece := by
  unfold write taken contents
  cases s.room with
  | none => simp
  | some n =>
    dsimp only
    split
    · rename_i h
      simp [List.take_of_length_le h]
    · simp

theorem taken_of_write {s s' : Sink} {piece : Bytes} (h : s.write piece = (s', true)) :
    s.taken piece = piece := by
  unfold write at h
  unfold taken
  cases hr : s.room with
  | none => rfl
  | some n =>
    rw [hr] at h
    dsimp only at h
    split at h
    · rename_i hn
      simp [List.take_of_length_le hn]
    · simp at h

end Sink
end Stencil
