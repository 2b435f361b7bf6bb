import Stencil.Proofs.Command.Output
import Stencil.Proofs.Render.Unheard

/-! What it changes to show diagnostics with their source text.
A run without messages is told by what is loaded, by whether the output file can be created, and by
the render; none of them depends on how diagnostics are shown. The main statement says that the
option that shows them with their source text changes the messages only, wherever it is added, and
that a run leaves everything as it was where something cannot be loaded or created. -/
namespace Stencil
namespace Command

/-! ### Command lines with the option -/

def Options.prettily (o : Options) : Options := { o with pretty := true }

namespace Said

def ofWord (word : String) (o : Options) : Said :=
  match word.toList with
  | '-' :: '-' :: long => ofLong long o
  | _ :: letters => ofLetters letters o
  | [] => .misuse

def prettily : Said → Said
  | options o => .options o.prettily
  | wants option o => .wants option o.prettily
  | other => other

/-- The word can be read, and diagnostics are not shown with their source text after it. -/
def Plain : Said → Prop
  | options o | wants _ o => o.pretty = false
  | _ => False

end Said

section Reading

variable {o o' : Options} {word value : String} {option : Valued}

theorem setTemplate_prettily (h : o.setTemplate word = some o') :
    o'.pretty = o.pretty ∧ o.prettily.setTemplate word = some o'.prettily := by
  obtain ⟨template, ht, rfl⟩ := Option.map_eq_some_iff.mp h
  exact ⟨rfl, Option.map_eq_some_iff.mpr ⟨template, ht, rfl⟩⟩

theorem set_prettily (h : o.set option value = some o') :
    o'.pretty = o.pretty ∧ o.prettily.set option value = some o'.prettily := by
  cases option with
  | limit =>
    unfold Options.set at h ⊢
    dsimp only at h ⊢
    obtain ⟨hnone, h⟩ := Option.ite_none_left_eq_some.mp h
    obtain ⟨n, hn, rfl⟩ := Option.map_eq_some_iff.mp h
    exact ⟨rfl, Option.ite_none_left_eq_some.mpr
      ⟨hnone, Option.map_eq_some_iff.mpr ⟨n, hn, rfl⟩⟩⟩
  | _ =>
    obtain ⟨file, hf, rfl⟩ := Option.map_eq_some_iff.mp h
    exact ⟨rfl, Option.map_eq_some_iff.mpr ⟨file, hf, rfl⟩⟩

theorem ofOptions?_set_prettily (h : (Said.ofOptions? (o.set option value)).Plain) :
    o.pretty = false ∧ Said.ofOptions? (o.prettily.set option value) =
      (Said.ofOptions? (o.set option value)).prettily := by
  cases hs : o.set option value with
  | none =>
    rw [hs] at h
    exact h.elim
  | some o' =>
    rw [hs] at h
    obtain ⟨hp, hset⟩ := set_prettily hs
    rw [hset]
    exact ⟨hp ▸ h, rfl⟩

theorem value_cases (option : Valued) (attached : List Char) :
    (∀ o, Said.value o option attached = .wants option o) ∨
      ∃ text, ∀ o, Said.value o option attached = Said.ofOptions? (o.set option text) := by
  unfold Said.value
  split
  · exact .inl fun _ => rfl
  · exact .inr ⟨_, fun _ => rfl⟩
  · exact .inr ⟨_, fun _ => rfl⟩

theorem value_prettily {attached : List Char} (h : (Said.value o option attached).Plain) :
    o.pretty = false ∧
      Said.value o.prettily option attached = (Said.value o option attached).prettily := by
  rcases value_cases option attached with hvalue | ⟨text, hvalue⟩
  · rw [hvalue] at h
    rw [hvalue, hvalue]
    exact ⟨h, rfl⟩
  · rw [hvalue] at h
    rw [hvalue, hvalue]
    exact ofOptions?_set_prettily h

theorem pretty_of_setPretty (h : o.setPretty = some o') : o'.pretty = true := by
  obtain ⟨-, h⟩ := Option.ite_none_left_eq_some.mp h
  cases h
  rfl

theorem ofLetters_prettily {letters : List Char} (h : (Said.ofLetters letters o).Plain) :
    o.pretty = false ∧
      Said.ofLetters letters o.prettily = (Said.ofLetters letters o).prettily := by
  fun_induction Said.ofLetters letters o with
  | case1 o => exact ⟨h, rfl⟩
  | case2 r o o' hset ih =>
    have hplain := (ih h).1
    rw [pretty_of_setPretty hset] at hplain
    cases hplain
  | case3 => exact h.elim
  | case4 r o => exact value_prettily h
  | case5 r o => exact value_prettily h
  | case6 r o => exact value_prettily h
  | case7 => exact h.elim
  | case8 => exact h.elim

theorem ofLong_prettily {letters : List Char} (h : (Said.ofLong letters o).Plain) :
    o.pretty = false ∧ Said.ofLong letters o.prettily = (Said.ofLong letters o).prettily := by
  unfold Said.ofLong at h ⊢
  dsimp only at h ⊢
  split at h
  · exact value_prettily h
  · split at h
    · exact h.elim
    · split at h
      · cases hset : o.setPretty with
        | none =>
          rw [hset] at h
          exact h.elim
        | some o' =>
          rw [hset] at h
          have hplain : o'.pretty = false := h
          rw [pretty_of_setPretty hset] at hplain
          cases hplain
      · split at h <;> exact h.elim

theorem ofWord_prettily (h : (Said.ofWord word o).Plain) :
    o.pretty = false ∧ Said.ofWord word o.prettily = (Said.ofWord word o).prettily := by
  unfold Said.ofWord at h ⊢
  split at h
  · exact ofLong_prettily h
  · exact ofLetters_prettily h
  · exact h.elim

end Reading

/-- Words are read one option after the other. Each takes the options and whether only files follow
to others. -/
inductive Reads : Options → Bool → List String → Options → Bool → Prop
  | nil (o : Options) (filesOnly : Bool) : Reads o filesOnly [] o filesOnly
  | file {o o₁ o' : Options} {filesOnly filesOnly' : Bool} {word : String} {words : List String}
      (hfile : (filesOnly || !isOption word) = true) (hset : o.setTemplate word = some o₁)
      (hr : Reads o₁ filesOnly words o' filesOnly') :
      Reads o filesOnly (word :: words) o' filesOnly'
  | separator {o o' : Options} {filesOnly' : Bool} {words : List String}
      (hr : Reads o true words o' filesOnly') : Reads o false ("--" :: words) o' filesOnly'
  | options {o o₁ o' : Options} {filesOnly' : Bool} {word : String} {words : List String}
      (hword : isOption word = true) (hne : word ≠ "--") (hsaid : Said.ofWord word o = .options o₁)
      (hr : Reads o₁ false words o' filesOnly') : Reads o false (word :: words) o' filesOnly'
  | valued {o o₁ o₂ o' : Options} {filesOnly' : Bool} {word value : String} {words : List String}
      {option : Valued} (hword : isOption word = true) (hne : word ≠ "--")
      (hsaid : Said.ofWord word o = .wants option o₁) (hvalue : isOption value = false)
      (hset : o₁.set option value = some o₂) (hr : Reads o₂ false words o' filesOnly') :
      Reads o false (word :: value :: words) o' filesOnly'

namespace Reads

variable {o o₁ o₂ o' : Options} {filesOnly filesOnly₁ filesOnly' : Bool} {word value : String}
  {words before after : List String} {option : Valued}

theorem of_read (h : Request.read o filesOnly words = .run o') :
    ∃ filesOnly', Reads o filesOnly words o' filesOnly' := by
  have hfalse {filesOnly : Bool} {word : String}
      (hn : ¬ (filesOnly || !isOption word) = true) : filesOnly = false ∧ isOption word = true := by
    simpa using hn
  fun_induction Request.read o filesOnly words with
  | case1 o filesOnly =>
    cases h
    exact ⟨filesOnly, .nil _ _⟩
  | case2 o filesOnly word words hfile o₁ hset ih =>
    obtain ⟨filesOnly', hr⟩ := ih h
    exact ⟨filesOnly', .file hfile hset hr⟩
  | case3 => cases h
  | case4 o filesOnly words hn ih =>
    obtain ⟨rfl, -⟩ := hfalse hn
    obtain ⟨filesOnly', hr⟩ := ih h
    exact ⟨filesOnly', .separator hr⟩
  | case5 => cases h
  | case6 => cases h
  | case7 o filesOnly word hn hne said o₁ words hsaid ih =>
    obtain ⟨rfl, hword⟩ := hfalse hn
    obtain ⟨filesOnly', hr⟩ := ih h
    exact ⟨filesOnly', .options hword hne hsaid hr⟩
  | case8 => cases h
  | case9 => cases h
  | case10 o filesOnly word hn hne said option o₁ value words hsaid hvalue o₂ hset ih =>
    obtain ⟨rfl, hword⟩ := hfalse hn
    obtain ⟨filesOnly', hr⟩ := ih h
    exact ⟨filesOnly', .valued hword hne hsaid (Bool.not_eq_true _ ▸ hvalue) hset hr⟩
  | case11 => cases h

theorem read_word (hword : isOption word = true) (hne : word ≠ "--") (words : List String) :
    Request.read o false (word :: words) =
      match Said.ofWord word o, words with
      | .misuse, _ => .misuse
      | .help, _ => .help
      | .options o, words => Request.read o false words
      | .wants _ _, [] => .misuse
      | .wants option o, value :: words =>
        if isOption value then .misuse
        else
          match o.set option value with
          | some o => Request.read o false words
          | none => .misuse := by
  rw [Request.read, if_neg (by simp [hword]), if_neg hne]
  rfl

theorem read_append (h : Reads o filesOnly before o₁ filesOnly₁) (after : List String) :
    Request.read o filesOnly (before ++ after) = Request.read o₁ filesOnly₁ after := by
  induction h with
  | nil => rfl
  | file hfile hset _ ih =>
    rw [List.cons_append, Request.read, if_pos hfile, hset]
    exact ih
  | separator _ ih =>
    rw [List.cons_append, Request.read, if_neg (by decide), if_pos rfl]
    exact ih
  | options hword hne hsaid _ ih =>
    rw [List.cons_append, read_word hword hne, hsaid]
    exact ih
  | valued hword hne hsaid hvalue hset _ ih =>
    rw [List.cons_append, List.cons_append, read_word hword hne, hsaid]
    dsimp only
    rw [if_neg (by simp [hvalue]), hset]
    exact ih

theorem read_eq (h : Reads o filesOnly words o' filesOnly') :
    Request.read o filesOnly words = .run o' := by
  rw [← words.append_nil, h.read_append, Request.read]

theorem filesOnly_eq (h : Reads o filesOnly words o' filesOnly') (hn : "--" ∉ words) :
    filesOnly' = filesOnly := by
  induction h with
  | nil => rfl
  | file _ _ _ ih => exact ih (List.not_mem_of_not_mem_cons hn)
  | separator => exact absurd List.mem_cons_self hn
  | options _ _ _ _ ih => exact ih (List.not_mem_of_not_mem_cons hn)
  | valued _ _ _ _ _ _ ih =>
    exact ih (List.not_mem_of_not_mem_cons (List.not_mem_of_not_mem_cons hn))

theorem prettily (h : Reads o filesOnly words o' filesOnly') (hplain : o'.pretty = false) :
    o.pretty = false ∧ Reads o.prettily filesOnly words o'.prettily filesOnly' := by
  induction h with
  | nil => exact ⟨hplain, .nil _ _⟩
  | file hfile hset _ ih =>
    obtain ⟨hp, hr⟩ := ih hplain
    obtain ⟨hkept, hset'⟩ := setTemplate_prettily hset
    exact ⟨hkept ▸ hp, .file hfile hset' hr⟩
  | separator _ ih =>
    obtain ⟨hp, hr⟩ := ih hplain
    exact ⟨hp, .separator hr⟩
  | options hword hne hsaid _ ih =>
    obtain ⟨hp, hr⟩ := ih hplain
    obtain ⟨hbefore, hsaid'⟩ := ofWord_prettily (by rw [hsaid]; exact hp)
    rw [hsaid] at hsaid'
    exact ⟨hbefore, .options hword hne hsaid' hr⟩
  | valued hword hne hsaid hvalue hset _ ih =>
    obtain ⟨hp, hr⟩ := ih hplain
    obtain ⟨hkept, hset'⟩ := set_prettily hset
    have hplain₁ : _ = false := hkept.symm.trans hp
    obtain ⟨hbefore, hsaid'⟩ := ofWord_prettily (by rw [hsaid]; exact hplain₁)
    rw [hsaid] at hsaid'
    exact ⟨hbefore, .valued hword hne hsaid' hvalue hset' hr⟩

end Reads

def prettyFlags : List String := ["--pretty", "-p"]

theorem ofWords_pretty {before after : List String} {o₁ o : Options} {flag : String}
    (hflag : flag ∈ prettyFlags) (hbefore : Request.ofWords before = .run o₁)
    (hfiles : "--" ∉ before) (hw : Request.ofWords (before ++ after) = .run o)
    (hplain : o.pretty = false) :
    Request.ofWords (before ++ flag :: after) = .run o.prettily := by
  obtain ⟨filesOnly, hr⟩ := Reads.of_read hbefore
  obtain rfl := hr.filesOnly_eq hfiles
  rw [Request.ofWords, hr.read_append] at hw
  obtain ⟨filesOnly', hafter⟩ := Reads.of_read hw
  obtain ⟨hp, hpretty⟩ := hafter.prettily hplain
  have hset : o₁.setPretty = some o₁.prettily := by
    rw [Options.setPretty, if_neg (by simp [hp])]
    rfl
  have hword : isOption flag = true ∧ flag ≠ "--" ∧ Said.ofWord flag o₁ = .options o₁.prettily := by
    rcases List.mem_pair.mp hflag with rfl | rfl
    · refine ⟨by decide, by decide, ?_⟩
      have hlong : Said.ofWord "--pretty" o₁ = Said.ofOptions? o₁.setPretty := rfl
      rw [hlong, hset]
      rfl
    · refine ⟨by decide, by decide, ?_⟩
      have hletters : Said.ofWord "-p" o₁ = Said.ofLetters ['p'] o₁ := rfl
      rw [hletters, Said.ofLetters, hset]
      rfl
  rw [Request.ofWords, hr.read_append]
  exact (Reads.options hword.1 hword.2.1 hword.2.2 hpretty).read_eq

/-! ### Room for the output -/

/-- Nothing is lost or moved on the way through the buffer. -/
theorem append_buffered (state : Bytes × Bytes) (piece : Bytes) :
    (buffered state piece).1 ++ (buffered state piece).2 = state.1 ++ state.2 ++ piece := by
  obtain ⟨landed, held⟩ := state
  unfold buffered
  dsimp only
  by_cases hkept : held.length + piece.length < bufferSize
  · rw [if_pos hkept, List.append_assoc]
  · rw [if_neg hkept]
    by_cases hlong : bufferSize ≤ piece.length
    · -- a piece that the buffer could not hold goes past it, and past an empty one only
      have hheld : bufferSize < held.length + piece.length ∨ held = [] := by
        rw [← List.length_eq_zero_iff]
        omega
      rcases hheld with hover | rfl
      · simp only [if_pos hover, if_pos hlong, List.append_nil]
      · simp only [if_pos hlong, List.append_nil, ite_self]
    · simp only [if_neg hlong]
      split <;> simp only [List.append_assoc, List.nil_append]

theorem refusal?_eq_none {room : Nat} {state : Bytes × Bytes} {pieces : List Bytes}
    (h : state.1.length + state.2.length + pieces.flatten.length ≤ room) :
    refusal? room state pieces = none := by
  induction pieces generalizing state with
  | nil => rfl
  | cons piece pieces ih =>
    have hlength := congrArg List.length (append_buffered state piece)
    simp only [List.length_append] at hlength
    rw [List.flatten_cons, List.length_append] at h
    have hlanded : ¬ room < (buffered state piece).1.length := by omega
    rw [refusal?, if_neg hlanded]
    exact ih (by omega)

/-- An output with room for all that is written refuses nothing of it. -/
theorem renderInto_of_fits {room : Nat} {render : Sink → Outcome}
    (h : (render {}).out.contents.length ≤ room) : renderInto (some room) render = render {} := by
  rw [Sink.contents] at h
  have hnone : refusal? room ([], []) (render {}).out.pieces.reverse = none :=
    refusal?_eq_none (by simpa only [List.length_nil, Nat.zero_add] using h)
  unfold renderInto
  dsimp only [Option.bind_some]
  rw [hnone]

/-! ### What a run leaves -/

/-- The code of a run, its output and the disk: everything but its messages. -/
def Exit.effect (e : Exit) : Nat × Bytes × Disk := (e.code, e.stdout, e.disk)

/-- What a run leaves when its output goes to this place, or to the standard output, and there is
room for so many bytes. -/
def effectOf (disk : Disk) (room : Option Nat) (output : Option Place) (render : Sink → Outcome) :
    Nat × Bytes × Disk :=
  let contents := (render {}).out.contents
  let written := ({ room } : Sink).taken contents
  let code := if written == contents then codeOf (renderInto room render).result else 1
  match output with
  | some place => (code, [], disk.write place written)
  | none => (code, written, disk)

/-- Something that the command needs cannot be loaded or created. -/
def Options.Lacks (o : Options) (input : Bytes) (disk : Disk) : Prop :=
  o.tags? disk = none ∨ o.scope? disk = none ∨ o.source? input = none ∨
    ∃ path e, o.output = some path ∧ disk.target path = .error e

/-- What a run with these options leaves if its diagnostics are taken by a sink. Everything is
loaded before the output file is created, and that before anything is rendered. -/
def Options.effect (o : Options) (err : Sink) (input : Bytes) (disk : Disk) (room : Option Nat) :
    Nat × Bytes × Disk :=
  match o.tags? disk, o.scope? disk, o.source? input with
  | some tags, some scope, some source =>
    let render (disk : Disk) (output : Option Place) (out : Sink) :=
      source.render (o.settings tags) (loaderDuring disk output) scope out err
    match o.output with
    | none => effectOf disk room none (render disk none)
    | some path =>
      match disk.target path with
      | .ok place =>
        let created := disk.write place []
        effectOf created room (some place) (render created (some place))
      | .error _ => (1, [], disk)
  | _, _, _ => (1, [], disk)

section Effect

variable {o : Options} {input stdout stderr : Bytes} {room : Option Nat} {disk : Disk}
  {output : Option Place}

theorem loadTags_fails (h : o.tags? disk = none) (next : TagSet → Plan) :
    ((loadTags o next).run input room disk output stdout stderr).effect = (1, stdout, disk) := by
  unfold Options.tags? at h
  unfold loadTags
  revert h
  cases o.tags with
  | none => rintro ⟨⟩
  | some path =>
    dsimp only
    rw [Plan.run]
    cases disk.readText path with
    | error e => exact fun _ => rfl
    | ok text =>
      dsimp only
      cases TagSet.ofToml text with
      | error e => cases e <;> exact fun _ => rfl
      | ok tags => rintro ⟨⟩

theorem loadData_fails (h : o.scope? disk = none) (next : Scope → Plan) :
    ((loadData o next).run input room disk output stdout stderr).effect = (1, stdout, disk) := by
  unfold Options.scope? at h
  unfold loadData
  revert h
  cases o.data with
  | none => exact nofun
  | some path =>
    dsimp only
    rw [Plan.run]
    cases disk.readText path with
    | error e => exact fun _ => rfl
    | ok text =>
      intro h
      dsimp only at h ⊢
      rw [h]
      rfl

theorem openSource_fails (h : o.source? input = none) (next : Source → Plan) :
    ((openSource o next).run input room disk output stdout stderr).effect = (1, stdout, disk) := by
  unfold Options.source? at h
  unfold openSource
  revert h
  cases o.template with
  | some path => exact nofun
  | none =>
    intro h
    dsimp only
    rw [Plan.run, Option.map_eq_none_iff.mp h]
    rfl

theorem effect_renderWith (tags : TagSet) (scope : Scope) (source : Source) :
    ((renderWith o tags scope source).run input room disk output [] stderr).effect =
      effectOf disk room output fun out =>
        source.render (o.settings tags) (loaderDuring disk output) scope out {} := by
  have hconclude (result : Except RenderError Unit) (flushed : Bool) (disk : Disk)
      (output : Option Place) (stdout stderr : Bytes) :
      ((conclude o.pretty result flushed).run input room disk output stdout stderr).effect =
        (if flushed then codeOf result else 1, stdout, disk) := by
    rcases result with (_ | _) | _ <;> cases flushed <;> rfl
  cases output with
  | none =>
    rw [renderWith, Plan.run]
    exact hconclude ..
  | some place =>
    rw [renderWith, Plan.run]
    exact hconclude ..

/-- What a run leaves is told by what is loaded and created, and by the render. -/
theorem effect_ofOptions (o : Options) (input : Bytes) (disk : Disk) (room : Option Nat) :
    ((Plan.ofOptions o).run input room disk none [] []).effect = o.effect {} input disk room := by
  unfold Plan.ofOptions Options.effect
  cases htags : o.tags? disk with
  | none => exact loadTags_fails htags _
  | some tags =>
    rw [run_loadTags htags]
    cases hscope : o.scope? disk with
    | none => exact loadData_fails hscope _
    | some scope =>
      rw [run_loadData hscope]
      cases hsource : o.source? input with
      | none => exact openSource_fails hsource _
      | some source =>
        rw [run_openSource hsource]
        unfold openOutput
        cases o.output with
        | none => exact effect_renderWith tags scope source
        | some path =>
          dsimp only
          rw [Plan.run]
          cases disk.target path with
          | ok place => exact effect_renderWith tags scope source
          | error e => rfl

theorem effectOf_of_code {render : Sink → Outcome}
    (h : (effectOf disk room output render).1 = 0) :
    effectOf disk room output render = effectOf disk none output render := by
  cases room with
  | none => rfl
  | some n =>
    have hcode : (if (render {}).out.contents.take n == (render {}).out.contents then
        codeOf (renderInto (some n) render).result else 1) = 0 := by
      cases output <;> exact h
    have hall : (render {}).out.contents.take n = (render {}).out.contents := by
      by_contra hcut
      rw [if_neg (by simpa using hcut)] at hcode
      cases hcode
    have hfits : (render {}).out.contents.length ≤ n := by
      rw [← hall]
      exact List.length_take_le ..
    unfold effectOf
    dsimp only [Sink.taken]
    rw [hall, renderInto_of_fits hfits]
    rfl

/-- A run that succeeds has had room for its output. -/
theorem effect_of_code {err : Sink} (h : (o.effect err input disk room).1 = 0) :
    o.effect err input disk room = o.effect err input disk none := by
  revert h
  unfold Options.effect
  dsimp only
  split
  · cases o.output with
    | none => exact effectOf_of_code
    | some path =>
      dsimp only
      cases disk.target path with
      | ok place => exact effectOf_of_code
      | error e => exact fun _ => rfl
  · exact fun _ => rfl

theorem result_renderInto {render render' : Sink → Outcome} {err err' : Sink}
    (h : ∀ out, (render out).ToldApart err err' (render' out)) (room : Option Nat) :
    (renderInto room render').result = (renderInto room render).result := by
  unfold renderInto
  dsimp only
  rw [(h {}).out]
  split
  · exact (h _).result
  · exact (h _).result

/-- It makes no difference where the diagnostics go, if all of them are taken. -/
theorem effect_of_room (o : Options) (input : Bytes) (disk : Disk) (room : Option Nat)
    {err : Sink} (h : err.room = none) :
    o.effect err input disk room = o.effect {} input disk room := by
  have hempty : ({} : Sink).room = none := rfl
  have heffect (settings : Settings) (loader : Loader) (scope : Scope) (source : Source)
      (disk : Disk) (output : Option Place) :
      effectOf disk room output (fun out => source.render settings loader scope out err) =
        effectOf disk room output fun out => source.render settings loader scope out {} := by
    have hsame (out : Sink) := Source.render_toldApart settings loader scope out source hempty h
    unfold effectOf
    rw [result_renderInto hsame, (hsame {}).out]
  unfold Options.effect
  dsimp only
  split
  · split
    · exact heffect ..
    · split
      · exact heffect ..
      · rfl
  · rfl

theorem effect_of_lacks (h : o.Lacks input disk) (err : Sink) (room : Option Nat) :
    o.effect err input disk room = (1, [], disk) := by
  unfold Options.effect
  split
  · rename_i tags scope source htags hscope hsource
    rcases h with h | h | h | ⟨path, e, hpath, htarget⟩
    · cases htags.symm.trans h
    · cases hscope.symm.trans h
    · cases hsource.symm.trans h
    · dsimp only
      rw [hpath]
      dsimp only
      rw [htarget]
  · rfl

end Effect

theorem effect_run {words : List String} {o : Options} (hw : Request.ofWords words = .run o)
    (input : Bytes) (disk : Disk) (room : Option Nat) :
    (run words input disk room).effect = o.effect {} input disk room := by
  rw [run, hw]
  exact effect_ofOptions o input disk room

/-- The option to show diagnostics with their source text changes messages only. Wherever it is
added to a command line that can be read, and neither has it nor asks for help, the run exits with
the same code, writes the same output, and leaves the same in every file, also where the output
refuses some of it. Neither depends on the sink that takes the diagnostics, as long as it takes all
of them. A run that exits with the code 0 has had room for its output, and leaves what it leaves
where there is no limit. If the tags, the data or the input cannot be loaded, or the output file
cannot be created, the code is 1, there is no output, and the files are as they were. -/
theorem pretty_changes_messages_only {before after : List String} {flag : String} {o o₁ : Options}
    (hflag : flag ∈ prettyFlags) (hbefore : Request.ofWords before = .run o₁)
    (hfiles : "--" ∉ before) (hw : Request.ofWords (before ++ after) = .run o)
    (hplain : o.pretty = false) (input : Bytes) (disk : Disk) (room : Option Nat) :
    let plain := run (before ++ after) input disk room
    let pretty := run (before ++ flag :: after) input disk room
    Request.ofWords (before ++ flag :: after) = .run { o with pretty := true } ∧
    (pretty.code = plain.code ∧ pretty.stdout = plain.stdout ∧ pretty.disk = plain.disk) ∧
    (∀ err : Sink, err.room = none → plain.effect = o.effect err input disk room) ∧
    (plain.code = 0 → plain.effect = (run (before ++ after) input disk).effect) ∧
    (o.Lacks input disk → plain.code = 1 ∧ plain.stdout = [] ∧ plain.disk = disk) := by
  intro plain pretty
  have hpretty := ofWords_pretty hflag hbefore hfiles hw hplain
  have heffect : plain.effect = o.effect {} input disk room := effect_run hw input disk room
  have hsame : pretty.effect = plain.effect := by
    rw [heffect, effect_run hpretty]
    rfl
  simp only [Exit.effect, Prod.mk.injEq] at hsame
  refine ⟨hpretty, hsame, fun err herr => ?_, fun hcode => ?_, fun hlacks => ?_⟩
  · rw [heffect, effect_of_room o input disk room herr]
  · rw [effect_run hw input disk none, heffect]
    exact effect_of_code ((congrArg Prod.fst heffect).symm.trans hcode)
  · rw [effect_of_lacks hlacks] at heffect
    simpa only [Exit.effect, Prod.mk.injEq] using heffect

/-- A page without the part that it includes, a page that includes nothing, and the file that they
are rendered to. -/
def lonePage : Disk where
  entries := [
    (["page".toList], .file (Text.encode "a\x7b\x7bINCLUDE part\x7d\x7d")),
    (["note".toList], .file (Text.encode "ab")),
    (["out".toList], .file (Text.encode "old"))]

/-- What is rendered before the part is missed is left in the file, whichever way that is told. A
page that does not fit into the file is cut. The file is left alone if there are no data. -/
theorem pretty_changes_messages_only_missing_part :
    let pretty := run ["page", "--pretty", "-o", "out"] [] lonePage
    let cut := run ["note", "--pretty", "-o", "out"] [] lonePage (some 1)
    let lacking := run ["page", "-d", "data", "-o", "out"] [] lonePage
    (pretty.code = 1 ∧ pretty.stdout = [] ∧
      pretty.disk.at? ["out".toList] = some (.file (Text.encode "a"))) ∧
    (cut.code = 1 ∧ cut.disk.at? ["out".toList] = some (.file (Text.encode "a"))) ∧
    lacking.code = 1 ∧ lacking.disk = lonePage := by
  intro pretty cut lacking
  let plain := run ["page", "-o", "out"] [] lonePage
  let plainCut := run ["note", "-o", "out"] [] lonePage (some 1)
  have hflag : "--pretty" ∈ prettyFlags := List.mem_cons_self
  have hpage : Request.ofWords ["page"] = .run { template := some "page" } := by decide +kernel
  have hnote : Request.ofWords ["note"] = .run { template := some "note" } := by decide +kernel
  have hw : Request.ofWords (["page"] ++ ["-o", "out"]) =
      .run { template := some "page", output := some "out" } := by decide +kernel
  have hcut : Request.ofWords (["note"] ++ ["-o", "out"]) =
      .run { template := some "note", output := some "out" } := by decide +kernel
  have hlacking : Request.ofWords (["page"] ++ ["-d", "data", "-o", "out"]) =
      .run { template := some "page", data := some "data", output := some "out" } := by
    decide +kernel
  obtain ⟨-, ⟨hcode, hstdout, hdisk⟩, -, -⟩ :=
    pretty_changes_messages_only hflag hpage (by decide) hw rfl [] lonePage none
  obtain ⟨-, ⟨hcutCode, -, hcutDisk⟩, -, -⟩ :=
    pretty_changes_messages_only hflag hnote (by decide) hcut rfl [] lonePage (some 1)
  obtain ⟨-, -, -, -, hlacks⟩ :=
    pretty_changes_messages_only hflag hpage (by decide) hlacking rfl [] lonePage none
  have hplain : plain.code = 1 ∧ plain.stdout = [] ∧
      plain.disk.at? ["out".toList] = some (.file (Text.encode "a")) := by decide +kernel
  have hplainCut : plainCut.code = 1 ∧
      plainCut.disk.at? ["out".toList] = some (.file (Text.encode "a")) := by decide +kernel
  obtain ⟨hone, -, hsame⟩ := hlacks (.inr (.inl rfl))
  have hleft : pretty.disk = plain.disk := hdisk
  have hcutLeft : cut.disk = plainCut.disk := hcutDisk
  refine ⟨⟨hcode.trans hplain.1, hstdout.trans hplain.2.1, ?_⟩,
    ⟨hcutCode.trans hplainCut.1, ?_⟩, hone, hsame⟩
  · rw [hleft]
    exact hplain.2.2
  · rw [hcutLeft]
    exact hplainCut.2

end Command
end Stencil
