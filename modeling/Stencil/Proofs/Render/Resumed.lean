import Stencil.Proofs.Render.Lockstep

/-! Renders that resume others.
A render may go on, behind what has been written and asked for before, with what another one begins
with. Whatever the two then write, report, load or keep, they do it in lockstep, as long as their
diagnostics can be written. -/
namespace Stencil

/-- The sink where so much has been written before. -/
def Sink.after (s : Sink) (written : List Bytes) : Sink :=
  { s with pieces := s.pieces ++ written }

/-- The loader as it answers when so much has been written and asked for. -/
def Loader.after (l : Loader) (written : List Bytes) (loads : Nat) : Loader :=
  ⟨fun m path => l.load ⟨m.written ++ written, m.loads + loads⟩ path⟩

section After

variable (written : List Bytes)

@[simp] theorem Sink.after_nil (s : Sink) : s.after [] = s := by
  simp [after]

theorem Sink.contents_after (s : Sink) :
    (s.after written).contents = written.reverse.flatten ++ s.contents := by
  simp [after, contents]

theorem Sink.write_after (s : Sink) (piece : Bytes) :
    (s.after written).write piece = ((s.write piece).1.after written, (s.write piece).2) := by
  obtain ⟨room, pieces⟩ := s
  cases room with
  | none => rfl
  | some n =>
    simp only [after, write]
    split <;> rfl

theorem Sink.writeAll_after (s : Sink) (pieces : List Bytes) :
    (s.after written).writeAll pieces =
      ((s.writeAll pieces).1.after written, (s.writeAll pieces).2) := by
  induction pieces generalizing s with
  | nil => rfl
  | cons piece rest ih =>
    rw [writeAll, writeAll, write_after]
    cases s.write piece with
    | mk s' taken =>
      cases taken with
      | true => exact ih s'
      | false => rfl

@[simp] theorem Loader.after_nil (l : Loader) : l.after [] 0 = l := by
  simp [after]

theorem Loader.after_of_isSteady {l : Loader} (h : l.IsSteady) (loads : Nat) :
    l.after written loads = l := by
  obtain ⟨load⟩ := l
  exact congrArg Loader.mk (funext fun m => funext fun path => h _ m path)

end After

/-- A render has come as far behind so much that was written and asked for before as the other one
has, and the diagnostics of both can be written. -/
structure Progress.Resumes (S : Store → Store → Prop) (written : List Bytes)
    (asked : List (String × Nat)) (p q : Progress) : Prop where
  out : q.out = p.out.after written
  loads : q.loads = p.loads ++ asked
  halted : q.halted = p.halted
  room : p.err.room = none
  room' : q.err.room = none
  store : S p.store q.store

namespace Render

variable {S : Store → Store → Prop} {written : List Bytes} {asked : List (String × Nat)}
  {p q : Progress}

theorem inStep_emit (e : Emission) (h : p.Resumes S written asked q) :
    InStep (Progress.Resumes S written asked) (emit e) (emit e) p q := by
  unfold InStep Lockstep emit Emission.writeTo
  rw [h.out, Sink.writeAll_after]
  cases p.out.writeAll e.pieces with
  | mk out taken =>
    have hr : ({ p with out } : Progress).Resumes S written asked
        { q with out := out.after written } :=
      ⟨rfl, h.loads, h.halted, h.room, h.room', h.store⟩
    cases taken with
    | false => exact ⟨rfl, hr⟩
    | true => cases e.failure <;> exact ⟨rfl, hr⟩

theorem inStep_report (d d' : Diagnostic) (h : p.Resumes S written asked q) :
    InStep (Progress.Resumes S written asked) (report d) (report d') p q := by
  unfold InStep Lockstep report
  rw [Sink.write_of_room h.room, Sink.write_of_room h.room']
  exact ⟨rfl, h.out, h.loads, h.halted, h.room, h.room', h.store⟩

theorem inStep_reportAll (ds : List Diagnostic) (h : p.Resumes S written asked q) :
    InStep (Progress.Resumes S written asked) (reportAll ds) (reportAll ds) p q :=
  inStep_reportAll_of_report (fun d _ _ h => inStep_report d d h) ds h

theorem inStep_halt (d d' : Diagnostic) (h : p.Resumes S written asked q) :
    InStep (Progress.Resumes S written asked) (halt d) (halt d') p q := by
  refine (inStep_report d d' h).bind fun _ _ p' q' hd => ?_
  exact ⟨rfl, hd.2.out, hd.2.loads, rfl, hd.2.room, hd.2.room', hd.2.store⟩

/-- A template is loaded as it is when the other render has come as far. -/
theorem inStep_load (settings : Settings) (loader : Loader) (depth : Nat) (path : String)
    (h : p.Resumes S written asked q) :
    InStep (Progress.Resumes S written asked)
      (load settings (loader.after written asked.length) depth path)
      (load settings loader depth path) p q := by
  have hmoment : (⟨q.out.pieces, q.loads.length⟩ : Moment) =
      ⟨p.out.pieces ++ written, p.loads.length + asked.length⟩ := by
    rw [h.out, h.loads, List.length_append]
    rfl
  have hloads : (path, depth) :: q.loads = (path, depth) :: p.loads ++ asked := by
    rw [h.loads, List.cons_append]
  unfold InStep Lockstep load
  dsimp only
  rw [hmoment]
  exact ⟨rfl, h.out, hloads, h.halted, h.room, h.room', h.store⟩

theorem inStep_fill {position position' : Position} {t : Template}
    (h : p.Resumes S written asked q)
    (hs : S (p.store.fill position t) (q.store.fill position' t)) :
    InStep (Progress.Resumes S written asked) (fill position t) (fill position' t) p q :=
  ⟨rfl, h.out, h.loads, h.halted, h.room, h.room', hs⟩

theorem paced_resumes : Paced (Progress.Resumes S written asked) :=
  ⟨fun h => h.halted, fun e _ _ h => inStep_emit e h⟩

end Render
end Stencil
