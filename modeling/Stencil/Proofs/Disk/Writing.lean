import Stencil.Disk

/-! Where paths lead after a file has been written.
The main statements say that a path leads where it led before, or to the file, or nowhere both
times, and that where it leads does not depend on what is written. -/
namespace Stencil
namespace Disk

variable {d e e' : Disk} {place : Place} {content content' : Bytes}

/-- A file has been written at a place where there was no directory. -/
structure IsWritten (d : Disk) (place : Place) (content : Bytes) (e : Disk) : Prop where
  home : e.home = d.home
  file : e.at? place = some (.file content)
  others : ∀ other, other ≠ place → e.at? other = d.at? other
  free : d.at? place ≠ some .directory

theorem isWritten_write (h : d.at? place ≠ some .directory) (content : Bytes) :
    d.IsWritten place content (d.write place content) := by
  have hne : place ≠ [] := by
    rintro rfl
    exact h rfl
  refine ⟨rfl, ?_, fun other ho => ?_, h⟩
  · rw [write, at?_put _ _ _ _ hne, if_pos rfl]
  · rw [write, at?_put _ _ _ _ hne, if_neg ho]

theorem IsWritten.write (h : d.IsWritten place content e) (content' : Bytes) :
    d.IsWritten place content' (e.write place content') := by
  have hfree : e.at? place ≠ some .directory := by
    rw [h.file]
    exact nofun
  have hw := isWritten_write hfree content'
  exact ⟨hw.home.trans h.home, hw.file,
    fun other ho => (hw.others other ho).trans (h.others other ho), h.free⟩

theorem IsWritten.directory_iff (h : d.IsWritten place content e) (other : Place) :
    e.at? other = some .directory ↔ d.at? other = some .directory := by
  by_cases ho : other = place
  · subst ho
    rw [h.file]
    exact ⟨nofun, fun hd => (h.free hd).elim⟩
  · rw [h.others other ho]

theorem follow_cons (d : Disk) (start : Place) (name : List Char) (names : List (List Char)) :
    d.follow start (name :: names) =
      if d.at? start = some .directory then
        if name = ['.'] then d.follow start names
        else if name = ['.', '.'] then d.follow start.dropLast names
        else if nameLimit < Text.size name then .error .nameTooLong
        else if (d.at? (start ++ [name])).isSome then d.follow (start ++ [name]) names
        else .error .notFound
      else .error .notADirectory := by
  rw [follow]
  split
  next h =>
    rw [if_pos h]
    dsimp only
    cases d.at? (start ++ [name]) <;> rfl
  next h => rw [if_neg h]

theorem follow_of_file {start : Place} (h : d.at? start = some (.file content))
    (names : List (List Char)) :
    d.follow start names = if names = [] then .ok start else .error .notADirectory := by
  cases names with
  | nil => rfl
  | cons name names =>
    rw [follow_cons, h, if_neg nofun, if_neg (List.cons_ne_nil _ _)]

theorem exists_error_of_free (h : d.at? place ≠ some .directory) {names : List (List Char)}
    (hne : names ≠ []) : d.follow place names = .error .notADirectory := by
  cases names with
  | nil => exact (hne rfl).elim
  | cons name names => rw [follow_cons, if_neg h]

theorem IsWritten.follow_cases (h : d.IsWritten place content e) (start : Place)
    (names : List (List Char)) :
    e.follow start names = .ok place ∨ e.follow start names = d.follow start names ∨
      ∃ a b, e.follow start names = .error a ∧ d.follow start names = .error b := by
  induction names generalizing start with
  | nil => exact .inr (.inl rfl)
  | cons name names ih =>
    rw [follow_cons, follow_cons]
    simp only [h.directory_iff]
    split
    · split
      · exact ih start
      split
      · exact ih start.dropLast
      split
      · exact .inr (.inl rfl)
      by_cases hnext : start ++ [name] = place
      · -- the next step leads to the file, and nothing can be followed from there
        rw [hnext, h.file, follow_of_file h.file, Option.isSome_some, if_pos rfl]
        by_cases hlast : names = []
        · exact .inl (if_pos hlast)
        · rw [if_neg hlast]
          refine .inr (.inr ?_)
          rw [exists_error_of_free h.free hlast]
          split
          · exact ⟨_, _, rfl, rfl⟩
          · exact ⟨_, _, rfl, rfl⟩
      · rw [h.others _ hnext]
        split
        · exact ih _
        · exact .inr (.inl rfl)
    · exact .inr (.inl rfl)

theorem IsWritten.follow_eq (h : d.IsWritten place content e) (h' : d.IsWritten place content' e')
    (start : Place) (names : List (List Char)) : e'.follow start names = e.follow start names := by
  have hsome (other : Place) : (e'.at? other).isSome = (e.at? other).isSome := by
    by_cases ho : other = place
    · rw [ho, h.file, h'.file]
      rfl
    · rw [h.others other ho, h'.others other ho]
  induction names generalizing start with
  | nil => rfl
  | cons name names ih =>
    rw [follow_cons, follow_cons]
    simp only [h.directory_iff, h'.directory_iff, ih, hsome]

theorem IsWritten.origin (h : d.IsWritten place content e) (path : String) :
    e.origin path = d.origin path := by
  rw [Disk.origin, Disk.origin, h.home]

theorem IsWritten.find_eq (h : d.IsWritten place content e) (h' : d.IsWritten place content' e')
    (path : String) : e'.find path = e.find path := by
  unfold find
  rw [h.origin, h'.origin, h.follow_eq h']

theorem IsWritten.find_cases (h : d.IsWritten place content e) (path : String) :
    e.find path = .ok place ∨ e.find path = d.find path ∨
      ∃ a b, e.find path = .error a ∧ d.find path = .error b := by
  unfold find
  cases vet path with
  | error a => exact .inr (.inl rfl)
  | ok _ =>
    rw [h.origin]
    exact h.follow_cases _ _

theorem IsWritten.load_of_find (h : d.IsWritten place content e) {path : String}
    (hp : e.find path = .ok place) : e.load path = .ok (Text.decodeLossy content) := by
  unfold load
  rw [hp]
  simp only [h.file]

/-- By any other path the same template is read as before, or none both times. -/
theorem IsWritten.load_cases (h : d.IsWritten place content e) {path : String}
    (hp : e.find path ≠ .ok place) : e.load path = d.load path ∨
      ∃ a b, e.load path = .error (.unreadable a) ∧ d.load path = .error (.unreadable b) := by
  unfold load
  rcases h.find_cases path with hfile | hsame | ⟨a, b, ha, hb⟩
  · exact (hp hfile).elim
  · rw [hsame] at hp ⊢
    cases hf : d.find path with
    | error a => exact .inl rfl
    | ok other =>
      have ho : other ≠ place := by
        rintro rfl
        exact hp hf
      left
      simp only [h.others other ho]
  · rw [ha, hb]
    exact .inr ⟨_, _, rfl, rfl⟩

theorem free_of_target {path : String} (h : d.target path = .ok place) :
    d.at? place ≠ some .directory := by
  unfold target at h
  cases hvet : vet path with
  | error a =>
    rw [hvet] at h
    cases h
  | ok _ =>
    rw [hvet] at h
    simp only [bind, Except.bind] at h
    split at h
    · cases h
    split at h
    · cases h
    split at h
    · split at h
      · cases h
      split at h
      · cases h
      split at h
      · cases h
      next hfree =>
        cases h
        exact hfree
    · cases h

end Disk
end Stencil
