/-! Lists of keys and values. The first value under a key is the one that counts. The main
statement says what is found after a value has been set. -/
namespace Stencil
namespace Assoc

variable {κ α : Type} [DecidableEq κ]

/-- The first value under a key. -/
def get? (key : κ) : List (κ × α) → Option α
  | [] => none
  | (k, a) :: r => if k = key then some a else get? key r

/-- Puts a value in the place of the first one under its key, or at the end. -/
def set (key : κ) (a : α) : List (κ × α) → List (κ × α)
  | [] => [(key, a)]
  | (k, b) :: r => if k = key then (key, a) :: r else (k, b) :: set key a r

def erase (key : κ) : List (κ × α) → List (κ × α)
  | [] => []
  | (k, a) :: r => if k = key then erase key r else (k, a) :: erase key r

@[simp] theorem get?_nil (key : κ) : get? key ([] : List (κ × α)) = none := rfl

@[simp] theorem get?_cons (key k : κ) (a : α) (r : List (κ × α)) :
    get? key ((k, a) :: r) = if k = key then some a else get? key r := rfl

theorem mem_of_get? {key : κ} {a : α} {pairs : List (κ × α)} (h : get? key pairs = some a) :
    (key, a) ∈ pairs := by
  induction pairs with
  | nil => simp at h
  | cons p r ih =>
    obtain ⟨k, b⟩ := p
    rw [get?_cons] at h
    split at h
    · rename_i hk
      cases h
      exact hk ▸ List.mem_cons_self ..
    · exact List.mem_cons_of_mem _ (ih h)

/-- Where a key stands once, what stands with it is found under it. -/
theorem get?_of_mem {key : κ} {a : α} {pairs : List (κ × α)} (hnodup : (pairs.map Prod.fst).Nodup)
    (h : (key, a) ∈ pairs) : get? key pairs = some a := by
  induction pairs with
  | nil => simp at h
  | cons p r ih =>
    obtain ⟨k, b⟩ := p
    obtain ⟨hk, hr⟩ := List.nodup_cons.mp hnodup
    rw [get?_cons]
    rcases List.mem_cons.mp h with heq | h
    · cases heq
      exact if_pos rfl
    · rw [if_neg, ih hr h]
      rintro rfl
      exact hk (List.mem_map.mpr ⟨_, h, rfl⟩)

theorem set_of_not_mem {key : κ} {pairs : List (κ × α)} (h : key ∉ pairs.map Prod.fst) (a : α) :
    set key a pairs = pairs ++ [(key, a)] := by
  induction pairs with
  | nil => rfl
  | cons p r ih =>
    obtain ⟨k, b⟩ := p
    obtain ⟨hk, hr⟩ : key ≠ k ∧ key ∉ r.map Prod.fst := by simpa using h
    rw [set, if_neg (Ne.symm hk), ih hr, List.cons_append]

theorem get?_set (key other : κ) (a : α) (pairs : List (κ × α)) :
    get? other (set key a pairs) = if other = key then some a else get? other pairs := by
  induction pairs with
  | nil =>
    by_cases h : other = key
    · simp [set, h]
    · simp [set, h, Ne.symm h]
  | cons p r ih =>
    obtain ⟨k, b⟩ := p
    simp only [set]
    by_cases hk : k = key
    · by_cases h : other = key
      · simp [hk, h]
      · simp [hk, h, Ne.symm h]
    · by_cases ho : k = other
      · have hne : other ≠ key := fun h => hk (ho.trans h)
        simp [ho, hne]
      · simpa [hk, ho] using ih

theorem get?_erase (key other : κ) (pairs : List (κ × α)) :
    get? other (erase key pairs) = if other = key then none else get? other pairs := by
  induction pairs with
  | nil => simp [erase]
  | cons p r ih =>
    obtain ⟨k, a⟩ := p
    simp only [erase]
    by_cases hk : k = key
    · rw [if_pos hk, ih]
      by_cases h : other = key
      · simp [h]
      · simp [hk, h, Ne.symm h]
    · by_cases ho : k = other
      · subst ho
        simp [hk]
      · simp [hk, ho, ih]

end Assoc
end Stencil
