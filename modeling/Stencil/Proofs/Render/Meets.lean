import Stencil.Render

/-! What a part of a render meets: a condition on how it ends normally, and one on how it stops at
a write error. Each building block has an equation, so that a walk is taken apart at its binds. -/
namespace Stencil

namespace Sink

theorem room_of_write {s s' : Sink} {piece : Bytes} (h : s.write piece = (s', false)) :
    s'.room = some 0 := by
  unfold write at h
  split at h
  · simp at h
  · split at h
    · simp at h
    · cases h
      rfl

theorem room_of_writeAll {s s' : Sink} {pieces : List Bytes}
    (h : s.writeAll pieces = (s', false)) : s'.room = some 0 := by
  induction pieces generalizing s with
  | nil => simp [writeAll] at h
  | cons piece r ih =>
    unfold writeAll at h
    split at h
    · exact ih h
    · rename_i s'' hw
      cases h
      exact room_of_write hw

theorem room_write {s : Sink} (h : s.room = none) (piece : Bytes) :
    (s.write piece).1.room = none := by
  simp [write, h]

theorem room_writeAll {s : Sink} (h : s.room = none) (pieces : List Bytes) :
    (s.writeAll pieces).1.room = none := by
  induction pieces generalizing s with
  | nil => exact h
  | cons piece r ih =>
    have hw := room_write h piece
    unfold writeAll
    cases he : s.write piece with
    | mk s' taken =>
      rw [he] at hw
      cases taken with
      | true => exact ih hw
      | false => exact hw

theorem write_of_room {s : Sink} (h : s.room = none) (piece : Bytes) :
    s.write piece = ({ s with pieces := piece :: s.pieces }, true) := by
  simp [write, h]

end Sink

namespace Progress

/-- Nothing but what has been written and reported differs, and no sink has got a limit. -/
structure Writes (p p' : Progress) : Prop where
  eq : p' = { p with out := p'.out, err := p'.err, reported := p'.reported }
  out : p.out.room = none → p'.out.room = none
  err : p.err.room = none → p'.err.room = none

variable {p p' p'' : Progress}

@[refl] theorem Writes.refl (p : Progress) : p.Writes p := ⟨rfl, id, id⟩

theorem Writes.store (h : p.Writes p') : p'.store = p.store := by rw [h.eq]

theorem Writes.halted (h : p.Writes p') : p'.halted = p.halted := by rw [h.eq]

theorem Writes.loads (h : p.Writes p') : p'.loads = p.loads := by rw [h.eq]

theorem Writes.trans (h : p.Writes p') (h' : p'.Writes p'') : p.Writes p'' := by
  refine ⟨?_, fun hp => h'.out (h.out hp), fun hp => h'.err (h.err hp)⟩
  rw [h'.eq, h.store, h.halted, h.loads]

end Progress

namespace Render

variable {α β : Type}

/-- Begun at `p`, the walk ends normally as `ok` says or stops at a write error as `stop` says. -/
def Meets (m : Walk α) (p : Progress) (ok : α → Progress → Prop)
    (stop : WriteError → Progress → Prop) : Prop :=
  match m p with
  | .ok a p' => ok a p'
  | .error e p' => stop e p'

variable {p : Progress} {ok ok' : α → Progress → Prop} {stop stop' : WriteError → Progress → Prop}

@[simp] theorem meets_pure {a : α} : Meets (pure a) p ok stop ↔ ok a p := Iff.rfl

@[simp] theorem meets_bind {m : Walk α} {f : α → Walk β} {ok : β → Progress → Prop} :
    Meets (m >>= f) p ok stop ↔ Meets m p (fun a p' => Meets (f a) p' ok stop) stop := by
  unfold Meets
  simp only [bind, EStateM.bind]
  cases m p <;> rfl

@[simp] theorem meets_get {ok : Progress → Progress → Prop} :
    Meets (get : Walk Progress) p ok stop ↔ ok p p := Iff.rfl

theorem Meets.mono {m : Walk α} (h : Meets m p ok stop) (ho : ∀ a p', ok a p' → ok' a p')
    (hs : ∀ e p', stop e p' → stop' e p') : Meets m p ok' stop' := by
  unfold Meets at *
  cases hm : m p with
  | ok a p' =>
    rw [hm] at h
    exact ho a p' h
  | error e p' =>
    rw [hm] at h
    exact hs e p' h

theorem Meets.and {m : Walk α} (h : Meets m p ok stop) (h' : Meets m p ok' stop') :
    Meets m p (fun a p' => ok a p' ∧ ok' a p') (fun e p' => stop e p' ∧ stop' e p') := by
  unfold Meets at *
  cases hm : m p with
  | ok a p' =>
    rw [hm] at h h'
    exact ⟨h, h'⟩
  | error e p' =>
    rw [hm] at h h'
    exact ⟨h, h'⟩

theorem meets_result {m : Walk α} {P : EStateM.Result WriteError Progress α → Prop} :
    Meets m p (fun a p' => P (.ok a p')) (fun e p' => P (.error e p')) ↔ P (m p) := by
  unfold Meets
  cases m p <;> rfl

theorem meets_self (m : Walk α) (p : Progress) :
    Meets m p (fun a p' => m p = .ok a p') (fun e p' => m p = .error e p') :=
  (meets_result (P := fun r => m p = r)).mpr rfl

theorem Meets.of_ok {m : Walk α} {a : α} {p' : Progress} (h : Meets m p ok stop)
    (he : m p = .ok a p') : ok a p' := by
  unfold Meets at h
  rwa [he] at h

theorem Meets.of_error {m : Walk α} {e : WriteError} {p' : Progress} (h : Meets m p ok stop)
    (he : m p = .error e p') : stop e p' := by
  unfold Meets at h
  rwa [he] at h

theorem meets_emit {e : Emission} {ok : Unit → Progress → Prop} :
    Meets (emit e) p ok stop ↔
      match e.writeTo p.out with
      | (out, .ok ()) => ok () { p with out }
      | (out, .error error) => stop error { p with out } := by
  unfold Meets emit
  cases he : e.writeTo p.out with
  | mk out result => cases result <;> rfl

theorem meets_report {d : Diagnostic} {ok : Unit → Progress → Prop} :
    Meets (report d) p ok stop ↔
      match p.err.write (Text.encode (d.text ++ "\n")) with
      | (err, true) => ok () { p with err, reported := p.reported ++ [d] }
      | (err, false) => stop .full { p with err } := by
  unfold Meets report
  cases he : p.err.write (Text.encode (d.text ++ "\n")) with
  | mk err taken => cases taken <;> rfl

theorem meets_load {settings : Settings} {loader : Loader} {depth : Nat} {path : String}
    {ok : Except Problem Template → Progress → Prop} :
    Meets (load settings loader depth path) p ok stop ↔
      ok (Template.load settings loader ⟨p.out.pieces, p.loads.length⟩ depth path)
        { p with loads := (path, depth) :: p.loads } := Iff.rfl

theorem meets_fill {position : Position} {t : Template} {ok : Unit → Progress → Prop} :
    Meets (fill position t) p ok stop ↔
      ok () { p with store := p.store.fill position t } := Iff.rfl

theorem meets_halt {d : Diagnostic} {ok : Flow → Progress → Prop} :
    Meets (halt d) p ok stop ↔
      Meets (report d) p (fun _ p' => ok .on { p' with halted := true }) stop := by
  rw [halt, meets_bind]
  rfl

theorem meets_emit_writes (e : Emission) :
    Meets (emit e) p (fun _ => p.Writes) (fun _ => p.Writes) := by
  have hr := fun h : p.out.room = none => Sink.room_writeAll h e.pieces
  rw [meets_emit]
  unfold Emission.writeTo
  cases hw : p.out.writeAll e.pieces with
  | mk out taken =>
    rw [hw] at hr
    cases taken with
    | false => exact ⟨rfl, hr, id⟩
    | true => cases e.failure <;> exact ⟨rfl, hr, id⟩

theorem meets_report_writes (d : Diagnostic) :
    Meets (report d) p (fun _ => p.Writes) (fun _ => p.Writes) := by
  have hr := fun h : p.err.room = none => Sink.room_write h (Text.encode (d.text ++ "\n"))
  rw [meets_report]
  cases hw : p.err.write (Text.encode (d.text ++ "\n")) with
  | mk err taken =>
    rw [hw] at hr
    cases taken <;> exact ⟨rfl, id, hr⟩

theorem meets_reportAll_writes (ds : List Diagnostic) :
    Meets (reportAll ds) p (fun _ => p.Writes) (fun _ => p.Writes) := by
  induction ds generalizing p with
  | nil => exact .refl p
  | cons d r ih =>
    rw [reportAll, meets_bind]
    refine (meets_report_writes d).mono ?_ fun _ _ h => h
    intro _ p' hp'
    exact ih.mono (fun _ _ h => hp'.trans h) fun _ _ h => hp'.trans h

def inner (settings : Settings) (loader : Loader) : Nat → Visit → Context → Walk Flow
  | 0, _, _ => pure .on
  | levels + 1, nested, c => walk settings loader levels nested c

def enter (settings : Settings) (loader : Loader) (levels : Nat) : Inclusion :=
  fun v c reference line span => do
    match ← resolve settings loader v reference line span with
    | none => pure .on
    | some nested => inner settings loader levels nested c

theorem walk_eq (settings : Settings) (loader : Loader) (levels : Nat) (v : Visit) (c : Context) :
    walk settings loader levels v c =
      walkList (enter settings loader levels) v c v.template.root := by
  rw [walk]
  cases levels <;> rfl

theorem get_bind (f : Progress → Walk β) : (get >>= f : Walk β) p = f p p := rfl

theorem walkList_of_halted (enter : Inclusion) (v : Visit) (c : Context) (nodes : List Node)
    {p : Progress} (hp : p.halted = true) : walkList enter v c nodes p = .ok .on p := by
  cases nodes with
  | nil =>
    rw [walkList]
    rfl
  | cons node rest =>
    rw [walkList]
    exact (get_bind _).trans (congrFun (if_pos hp) p)

theorem walkList_cons (enter : Inclusion) (v : Visit) (c : Context) (node : Node)
    (rest : List Node) {p : Progress} (hp : p.halted = false) :
    walkList enter v c (node :: rest) p =
      (do
        match ← walkNode enter v c node with
        | .on => walkList enter v c rest
        | flow => pure flow) p := by
  rw [walkList]
  exact (get_bind _).trans (congrFun (if_neg (by simp [hp])) p)

end Render
end Stencil
