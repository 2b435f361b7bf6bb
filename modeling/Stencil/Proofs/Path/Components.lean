import Mathlib.Data.List.TakeWhile
import Stencil.Path

/-! The components of paths.
A path is its lead, a slash or a point at the beginning, and the parts between its slashes that mean
something. The main statements say what the parent of a path and a path inside a directory are by
their components, so that a reference leads to equal paths from equal paths. -/
namespace Stencil
namespace Path

/-! ### Segments -/

theorem segments_ne_nil (text : List Char) : segments text ≠ [] := by
  cases text with
  | nil => exact List.cons_ne_nil _ _
  | cons c r =>
    unfold segments
    split
    · exact List.cons_ne_nil _ _
    · split <;> exact List.cons_ne_nil _ _

@[simp] theorem segments_slash (r : List Char) : segments ('/' :: r) = [] :: segments r := by
  rw [segments, if_pos rfl]

theorem segments_cons_of_ne {c : Char} (hc : c ≠ '/') {r s : List Char} {ss : List (List Char)}
    (h : segments r = s :: ss) : segments (c :: r) = (c :: s) :: ss := by
  rw [segments, if_neg hc, h]

theorem segments_append (a b : List Char) :
    segments (a ++ '/' :: b) = segments a ++ segments b := by
  induction a with
  | nil => rw [List.nil_append, segments_slash]; rfl
  | cons c r ih =>
    by_cases hc : c = '/'
    · subst hc
      rw [List.cons_append, segments_slash, segments_slash, ih]
      rfl
    · obtain ⟨s, ss, hs⟩ := List.exists_cons_of_ne_nil (segments_ne_nil r)
      rw [List.cons_append, segments_cons_of_ne hc hs, List.cons_append]
      refine segments_cons_of_ne hc ?_
      rw [ih, hs, List.cons_append]

theorem unsegment_cons (s : List Char) {ss : List (List Char)} (h : ss ≠ []) :
    unsegment (s :: ss) = s ++ '/' :: unsegment ss := by
  cases ss with
  | nil => exact absurd rfl h
  | cons t ts => rfl

theorem unsegment_segments (text : List Char) : unsegment (segments text) = text := by
  induction text with
  | nil => rfl
  | cons c r ih =>
    by_cases hc : c = '/'
    · subst hc
      rw [segments_slash, unsegment_cons _ (segments_ne_nil r), ih]
      rfl
    · obtain ⟨s, ss, hs⟩ := List.exists_cons_of_ne_nil (segments_ne_nil r)
      rw [segments_cons_of_ne hc hs]
      rw [hs] at ih
      rw [← ih]
      cases ss <;> rfl

theorem unsegment_append {a b : List (List Char)} (ha : a ≠ []) (hb : b ≠ []) :
    unsegment (a ++ b) = unsegment a ++ '/' :: unsegment b := by
  induction a with
  | nil => exact absurd rfl ha
  | cons s ss ih =>
    cases ss with
    | nil => exact unsegment_cons s hb
    | cons t ts =>
      have hmore := ih (List.cons_ne_nil _ _)
      rw [List.cons_append, unsegment_cons s (by simp), hmore,
        unsegment_cons s (List.cons_ne_nil _ _), List.append_assoc]
      rfl

theorem slash_not_mem_segments {text : List Char} : ∀ s ∈ segments text, '/' ∉ s := by
  induction text with
  | nil => simp [segments]
  | cons c r ih =>
    by_cases hc : c = '/'
    · subst hc
      rw [segments_slash]
      exact List.forall_mem_cons.mpr ⟨List.not_mem_nil, ih⟩
    · obtain ⟨s, ss, hs⟩ := List.exists_cons_of_ne_nil (segments_ne_nil r)
      rw [hs] at ih
      obtain ⟨hfirst, hmore⟩ := List.forall_mem_cons.mp ih
      rw [segments_cons_of_ne hc hs]
      refine List.forall_mem_cons.mpr ⟨?_, hmore⟩
      exact List.not_mem_cons_of_ne_of_not_mem (Ne.symm hc) hfirst

theorem segments_of_not_mem {text : List Char} (h : '/' ∉ text) : segments text = [text] := by
  induction text with
  | nil => rfl
  | cons c r ih =>
    obtain ⟨hc, hr⟩ := List.ne_and_not_mem_of_not_mem_cons h
    exact segments_cons_of_ne (Ne.symm hc) (ih hr)

theorem segments_unsegment {ss : List (List Char)} (hne : ss ≠ []) (h : ∀ s ∈ ss, '/' ∉ s) :
    segments (unsegment ss) = ss := by
  induction ss with
  | nil => exact absurd rfl hne
  | cons s ss ih =>
    obtain ⟨hs, hss⟩ := List.forall_mem_cons.mp h
    cases ss with
    | nil => exact segments_of_not_mem hs
    | cons t ts =>
      rw [unsegment_cons s (List.cons_ne_nil _ _), segments_append, segments_of_not_mem hs,
        ih (List.cons_ne_nil _ _) hss]
      rfl

/-! ### Lead and parts -/

def lead : List Char → List Component
  | '/' :: _ => [.root]
  | ['.'] => [.here]
  | '.' :: '/' :: _ => [.here]
  | _ => []

def parts (text : List Char) : List Component :=
  ((segments text).filter fun s => !isIdle s).map component

theorem parts_append (a b : List Char) : parts (a ++ '/' :: b) = parts a ++ parts b := by
  rw [parts, segments_append, List.filter_append, List.map_append]
  rfl

@[simp] theorem parts_nil : parts [] = [] := rfl

@[simp] theorem parts_slash (r : List Char) : parts ('/' :: r) = parts r := parts_append [] r

/-- How a text begins: with a slash, with a point that stands for itself, or with neither. -/
inductive Begins : List Char → Prop
  | root (r : List Char) : splitHead ('/' :: r) = (['/'], r) → lead ('/' :: r) = [.root] →
    Begins ('/' :: r)
  | here (r : List Char) : splitHead ('.' :: r) = (['.'], r) → lead ('.' :: r) = [.here] →
    parts ('.' :: r) = parts r → Begins ('.' :: r)
  | other (text : List Char) : splitHead text = ([], text) → lead text = [] → Begins text

theorem begins (text : List Char) : Begins text := by
  cases text with
  | nil => exact .other [] rfl rfl
  | cons c r =>
    by_cases hslash : c = '/'
    · subst hslash
      exact .root r rfl rfl
    by_cases hpoint : c = '.'
    · subst hpoint
      cases r with
      | nil => exact .here [] rfl rfl rfl
      | cons d t =>
        by_cases hd : d = '/'
        · subst hd
          exact .here _ rfl rfl (parts_append ['.'] t)
        · exact .other _ (by simp [splitHead, hd]) (by simp [lead, hd])
    · exact .other _ (by simp [splitHead, hslash, hpoint]) (by simp [lead, hslash, hpoint])

theorem components_eq (path : String) :
    components path = lead path.toList ++ parts path.toList := by
  unfold components
  generalize path.toList = text
  cases begins text with
  | root r hs hl =>
    rw [hs, hl, parts_slash]
    rfl
  | here r hs hl hp =>
    rw [hs, hl, hp]
    rfl
  | other _ hs hl =>
    rw [hs, hl]
    rfl

theorem lead_append {a : List Char} (ha : a ≠ []) (b : List Char) :
    lead (a ++ '/' :: b) = lead a := by
  cases a with
  | nil => exact absurd rfl ha
  | cons c r =>
    by_cases hslash : c = '/'
    · subst hslash
      rfl
    by_cases hpoint : c = '.'
    · subst hpoint
      cases r with
      | nil => rfl
      | cons d t => by_cases hd : d = '/' <;> simp [lead, hd]
    · simp [lead, hslash, hpoint]

theorem components_ofList (text : List Char) :
    components (String.ofList text) = lead text ++ parts text := by
  rw [components_eq, String.toList_ofList]

theorem components_eq_nil_iff {path : String} : components path = [] ↔ path = "" := by
  refine ⟨fun h => ?_, fun h => by subst h; rfl⟩
  rw [components_eq, List.append_eq_nil_iff] at h
  obtain ⟨hlead, hparts⟩ := h
  rw [← String.toList_eq_nil_iff]
  revert hlead hparts
  generalize path.toList = text
  intro hlead hparts
  cases text with
  | nil => rfl
  | cons c r =>
    -- the first segment is neither empty nor a point, so that it is a part
    have hslash : c ≠ '/' := by
      rintro rfl
      cases hlead
    obtain ⟨s, ss, hs⟩ := List.exists_cons_of_ne_nil (segments_ne_nil r)
    have hidle : isIdle (c :: s) = false := by
      unfold isIdle
      by_cases hpoint : c = '.'
      · subst hpoint
        cases r with
        | nil => cases hlead
        | cons d t =>
          have hd : d ≠ '/' := by
            rintro rfl
            cases hlead
          obtain ⟨s', ss', hs'⟩ := List.exists_cons_of_ne_nil (segments_ne_nil t)
          rw [segments_cons_of_ne hd hs'] at hs
          cases hs
          simp
      · simp [hpoint]
    rw [parts, segments_cons_of_ne hslash hs, List.filter_cons_of_pos (by simp [hidle])] at hparts
    cases hparts

theorem exists_split_of_dropWhile {ss before : List (List Char)} {last : List Char}
    (h : ss.reverse.dropWhile isIdle = last :: before) :
    ∃ tail, ss = (before.dropWhile isIdle).reverse ++ tail ∧ tail ≠ [] ∧
      (tail.filter fun s => !isIdle s).map component = [component last] := by
  have hidle (l : List (List Char)) :
      (l.takeWhile isIdle).reverse.filter (fun s => !isIdle s) = [] := by
    rw [List.filter_eq_nil_iff]
    intro s hs
    simp [List.mem_takeWhile_imp (List.mem_reverse.mp hs)]
  have hlast : isIdle last = false := by
    have hhead := List.head_dropWhile_not isIdle (l := ss.reverse) (by simp [h])
    simpa [h] using hhead
  refine ⟨(before.takeWhile isIdle).reverse ++ last :: (ss.reverse.takeWhile isIdle).reverse,
    ?_, by simp, ?_⟩
  · have hsplit : ss.reverse = ss.reverse.takeWhile isIdle ++
        last :: (before.takeWhile isIdle ++ before.dropWhile isIdle) := by
      rw [List.takeWhile_append_dropWhile, ← h, List.takeWhile_append_dropWhile]
    have hreverse := congrArg List.reverse hsplit
    simpa only [List.reverse_reverse, List.reverse_append, List.reverse_cons, List.append_assoc,
      List.cons_append, List.nil_append] using hreverse
  · rw [List.filter_append, hidle, List.nil_append, List.filter_cons_of_pos (by simp [hlast]),
      hidle]
    rfl

theorem parts_unsegment {ss : List (List Char)} (hne : ss ≠ []) (h : ∀ s ∈ ss, '/' ∉ s) :
    parts (unsegment ss) = (ss.filter fun s => !isIdle s).map component := by
  rw [parts, segments_unsegment hne h]

theorem parts_eq_nil_of_dropWhile {text : List Char}
    (h : (segments text).reverse.dropWhile isIdle = []) : parts text = [] := by
  have hidle : ∀ s ∈ (segments text).reverse, isIdle s = true :=
    List.dropWhile_eq_nil_iff.mp h
  rw [parts, List.map_eq_nil_iff, List.filter_eq_nil_iff]
  intro s hs
  simp [hidle s (List.mem_reverse.mpr hs)]

theorem splitHead_spec (text : List Char) :
    ∃ head body, splitHead text = (head, body) ∧ text = head ++ body ∧
      components (String.ofList head) = lead text ∧ parts text = parts body ∧
      (head = [] → text.head? ≠ some '/') := by
  cases begins text with
  | root r hs hl => exact ⟨_, _, hs, rfl, by rw [hl]; rfl, parts_slash r, by simp⟩
  | here r hs hl hp => exact ⟨_, _, hs, rfl, by rw [hl]; rfl, hp, by simp⟩
  | other _ hs hl =>
    refine ⟨_, _, hs, rfl, by rw [hl]; rfl, rfl, fun _ hslash => ?_⟩
    obtain ⟨r, rfl⟩ := List.head?_eq_some_iff.mp hslash
    cases hs

theorem component_ne_root (segment : List Char) : component segment ≠ .root := by
  unfold component
  split <;> exact Component.noConfusion

theorem exists_components_of_parent? {path directory : String}
    (h : parent? path = some directory) :
    ∃ last, last ≠ .root ∧ components path = components directory ++ [last] := by
  obtain ⟨head, body, hsplit, htext, hlead, hparts, hslash⟩ := splitHead_spec path.toList
  rw [components_eq path]
  simp only [parent?, hsplit] at h
  split at h
  next last before hdrop =>
    obtain ⟨tail, hsegments, htail, hlast⟩ := exists_split_of_dropWhile hdrop
    refine ⟨component last, component_ne_root last, ?_⟩
    cases h
    generalize hkept : (before.dropWhile isIdle).reverse = kept at hsegments
    by_cases hempty : kept = []
    · subst hempty
      rw [List.nil_append] at hsegments
      rw [unsegment, List.append_nil, hlead, hparts, parts, hsegments, hlast]
    -- the directory is what stands before one of the slashes
    have hbody : body = unsegment kept ++ '/' :: unsegment tail := by
      rw [← unsegment_append hempty htail, ← hsegments, unsegment_segments]
    have hwhole : path.toList = (head ++ unsegment kept) ++ '/' :: unsegment tail := by
      rw [List.append_assoc, ← hbody, htext]
    have hne : head ++ unsegment kept ≠ [] := by
      intro hnil
      refine hslash (List.append_eq_nil_iff.mp hnil).1 ?_
      rw [hwhole, hnil]
      rfl
    have hfree : ∀ s ∈ tail, '/' ∉ s := fun s hs =>
      slash_not_mem_segments s (hsegments ▸ List.mem_append_right kept hs)
    rw [components_ofList, hwhole, lead_append hne, parts_append, parts_unsegment htail hfree,
      hlast, List.append_assoc]
  next hdrop =>
    split at h
    next hhere =>
      subst hhere
      cases h
      refine ⟨.here, Component.noConfusion, ?_⟩
      rw [hparts, parts_eq_nil_of_dropWhile hdrop, ← hlead]
      rfl
    next => cases h

theorem components_of_parent?_eq_none {path : String} (h : parent? path = none) :
    components path = [] ∨ components path = [.root] := by
  rw [components_eq path]
  unfold parent? at h
  generalize path.toList = text at h
  cases begins text with
  | root r hs hl =>
    simp only [hs] at h
    split at h
    · cases h
    next hdrop => exact .inr (by rw [hl, parts_slash, parts_eq_nil_of_dropWhile hdrop]; rfl)
  | here r hs =>
    simp only [hs] at h
    split at h <;> cases h
  | other _ hs hl =>
    simp only [hs] at h
    split at h
    · cases h
    next hdrop => exact .inl (by rw [hl, parts_eq_nil_of_dropWhile hdrop]; rfl)

theorem components_ne_of_parent? {path path' directory : String} (h : parent? path = none)
    (h' : parent? path' = some directory) : components path ≠ components path' := by
  obtain ⟨last, hroot, hlast⟩ := exists_components_of_parent? h'
  intro heq
  rcases components_of_parent?_eq_none h with hnone | hnone
  · rw [heq, hlast] at hnone
    exact List.append_ne_nil_of_right_ne_nil _ (List.cons_ne_nil _ _) hnone
  · rw [heq, hlast, List.append_eq_singleton_iff] at hnone
    rcases hnone with ⟨-, hone⟩ | ⟨-, hone⟩
    · exact hroot (List.head_eq_of_cons_eq hone)
    · cases hone

theorem components_parent? {path path' : String} (h : components path = components path') :
    (parent? path).map components = (parent? path').map components := by
  cases hparent : parent? path with
  | none =>
    cases hparent' : parent? path' with
    | none => rfl
    | some directory' =>
      exact absurd h (components_ne_of_parent? hparent hparent')
  | some directory =>
    cases hparent' : parent? path' with
    | none => exact absurd h.symm (components_ne_of_parent? hparent' hparent)
    | some directory' =>
      obtain ⟨last, -, hlast⟩ := exists_components_of_parent? hparent
      obtain ⟨last', -, hlast'⟩ := exists_components_of_parent? hparent'
      rw [hlast, hlast'] at h
      exact congrArg some (List.append_inj_left' h rfl)

/-! ### Paths inside a directory -/

theorem join_of_isAbsolute {base path : String} (h : isAbsolute path = true) :
    join base path = path := by
  rw [join, h, Bool.true_or, if_pos rfl]

/-- A path inside a directory has the components of the directory and its own parts. -/
theorem components_join {base path : String} (hbase : base ≠ "") (h : isAbsolute path = false) :
    components (join base path) = components base ++ parts path.toList := by
  have hne : base.toList ≠ [] := mt String.toList_eq_nil_iff.mp hbase
  rw [join, h, Bool.false_or, if_neg (by simpa using hbase)]
  split
  next hlast =>
    obtain ⟨front, hfront⟩ := List.getLast?_eq_some_iff.mp hlast
    rw [components_eq, components_eq base, String.toList_append, hfront, List.append_assoc,
      List.singleton_append, parts_append, parts_append, parts_nil, List.append_nil,
      ← List.append_assoc]
    cases front with
    | nil => rfl
    | cons c r => rw [lead_append (List.cons_ne_nil c r), lead_append (List.cons_ne_nil c r)]
  next =>
    have hwhole : (base ++ "/" ++ path).toList = base.toList ++ '/' :: path.toList := by
      simp [String.toList_append]
    rw [components_eq, components_eq base, hwhole, lead_append hne, parts_append,
      List.append_assoc]

theorem components_join_congr {base base' : String} (h : components base = components base')
    (path : String) : components (join base path) = components (join base' path) := by
  cases habsolute : isAbsolute path with
  | true => rw [join_of_isAbsolute habsolute, join_of_isAbsolute habsolute]
  | false =>
    by_cases hempty : base = ""
    · have hempty' : base' = "" := by rwa [← components_eq_nil_iff, ← h, components_eq_nil_iff]
      rw [hempty, hempty']
    · have hempty' : base' ≠ "" := by
        rwa [Ne, ← components_eq_nil_iff, ← h, components_eq_nil_iff]
      rw [components_join hempty habsolute, components_join hempty' habsolute, h]

theorem join_of_isEmpty {base : String} (h : base.isEmpty = true) (path : String) :
    join base path = path := by
  rw [join, h, Bool.or_true, if_pos rfl]

theorem components_resolve {parent parent' : Option String}
    (h : parent.map components = parent'.map components) (reference : String) :
    components (resolve reference parent) = components (resolve reference parent') := by
  have hdirectory :
      (parent.bind parent?).map components = (parent'.bind parent?).map components := by
    cases parent with
    | none => cases parent' with
      | none => rfl
      | some => cases h
    | some path => cases parent' with
      | none => cases h
      | some path' => exact components_parent? (Option.some.inj h)
  have hjoin (directory rest : String) :
      (if directory.isEmpty then rest else join directory rest) = join directory rest :=
    ite_eq_right_iff.mpr fun hempty => (join_of_isEmpty hempty rest).symm
  unfold resolve
  split
  next => rfl
  next rest _ =>
    simp only [hjoin]
    cases hd : parent.bind parent? <;> cases hd' : parent'.bind parent? <;>
      rw [hd, hd'] at hdirectory
    · cases hdirectory
    · cases hdirectory
    · exact components_join_congr (Option.some.inj hdirectory) _

end Path
end Stencil
