import Stencil.Proofs.Sink.Pour
import Stencil.Proofs.Render.Depth

/-! Renders whose sinks have little room.
A render without limits makes writes in an order that does not depend on the room there is. The main
statement says that a render with limits makes the same writes up to the first that is not taken
whole, and ends there; if there is none, it comes to the same. -/
namespace Stencil

namespace Progress

def sinks (p : Progress) : Sinks
  | .out => p.out
  | .err => p.err

def onto (p : Progress) (s : Sinks) : Progress := { p with out := s .out, err := s .err }

/-- The progress with so much room in the sinks. -/
def within (p : Progress) (limits : Limits) : Progress := p.onto (p.sinks.within limits)

@[simp] theorem sinks_onto (p : Progress) (s : Sinks) : (p.onto s).sinks = s := by
  funext o
  cases o <;> rfl

@[simp] theorem onto_onto (p : Progress) (s t : Sinks) : (p.onto s).onto t = p.onto t := rfl

@[simp] theorem onto_sinks (p : Progress) : p.onto p.sinks = p := rfl

@[simp] theorem sinks_within (p : Progress) (limits : Limits) :
    (p.within limits).sinks = p.sinks.within limits := sinks_onto _ _

theorem onto_eq_within {p : Progress} {s : Sinks} (h : ∀ o, (s o).pieces = (p.sinks o).pieces) :
    p.onto s = p.within fun o => (s o).room := by
  have hs : s = p.sinks.within fun o => (s o).room := by
    funext o
    exact congrArg (Sink.mk (s o).room) (h o)
  unfold within
  rw [← hs]

theorem within_none {p : Progress} (h : p.sinks.Unlimited) : p.within (fun _ => none) = p := by
  have hs : p.sinks.within (fun _ => none) = p.sinks := by
    funext o
    exact congrArg (Sink.mk · (p.sinks o).pieces) (h o).symm
  unfold within
  rw [hs, onto_sinks]

end Progress

namespace Render

variable {α β : Type} {p : Progress} {log log' : List Writing}

def onto (r : EStateM.Result WriteError Progress α) (s : Sinks) :
    EStateM.Result WriteError Progress α :=
  match r with
  | .ok a p => .ok a (p.onto s)
  | .error e p => .error e (p.onto s)

/-- Begun at `p`, the walk makes the writes of the log, however much room there is: all of them, and
then it comes to what it comes to at `p`, or those up to the first that is not taken whole, and then
it stops. -/
def Logs (m : Walk α) (p : Progress) (log : List Writing) : Prop :=
  ∀ limits, match (p.sinks.within limits).pour log with
    | (s, none) => m (p.within limits) = onto (m p) s
    | (s, some _) => ∃ q, m (p.within limits) = .error .full q ∧ q.sinks = s

def IsLogged (m : Walk α) : Prop := ∀ p : Progress, p.sinks.Unlimited → ∃ log, Logs m p log

theorem Logs.eq_onto {m : Walk α} (h : Logs m p log) (hp : p.sinks.Unlimited) :
    m p = onto (m p) (p.sinks.pour log).1 := by
  have hw := h fun _ => none
  rw [← Progress.sinks_within, Progress.within_none hp, Sinks.pour_of_room hp] at hw
  exact hw

theorem Logs.sinks_of_ok {m : Walk α} {a : α} {p' : Progress} (h : Logs m p log)
    (hp : p.sinks.Unlimited) (he : m p = .ok a p') : p'.sinks = (p.sinks.pour log).1 := by
  have ho := h.eq_onto hp
  rw [he] at ho
  injection ho with _ hp'
  rw [hp', Progress.sinks_onto]

theorem Logs.unlimited_of_ok {m : Walk α} {a : α} {p' : Progress} (h : Logs m p log)
    (hp : p.sinks.Unlimited) (he : m p = .ok a p') : p'.sinks.Unlimited := by
  intro o
  rw [h.sinks_of_ok hp he]
  exact Sinks.room_of_pour hp o

theorem logs_nil {m : Walk α} (h : ∀ limits, m (p.within limits) = onto (m p)
    (p.sinks.within limits)) : Logs m p [] := h

theorem isLogged_pure (a : α) : IsLogged (pure a : Walk α) := fun _ _ => ⟨[], logs_nil fun _ => rfl⟩

theorem Logs.bind {m : Walk α} {f : α → Walk β} {a : α} {p' : Progress} (h : Logs m p log)
    (hp : p.sinks.Unlimited) (he : m p = .ok a p') (hf : Logs (f a) p' log') :
    Logs (m >>= f) p (log ++ log') := by
  intro limits
  have hm := h limits
  have hall : (m >>= f) p = f a p' := by simp only [Bind.bind, EStateM.bind, he]
  rw [Sinks.pour_append]
  cases hs : (p.sinks.within limits).pour log with
  | mk s stopped =>
    rw [hs] at hm
    cases stopped with
    | some o =>
      obtain ⟨q, hq, hsinks⟩ := hm
      exact ⟨q, by simp only [Bind.bind, EStateM.bind, hq], hsinks⟩
    | none =>
      -- what has been poured so far is the same with limits and without
      have hpieces (o : Outlet) : (s o).pieces = (p'.sinks o).pieces := by
        rw [h.sinks_of_ok hp he]
        exact Sinks.pieces_of_pour (Sinks.pour_of_room hp log) hs (fun _ => rfl) o
      have hpart : m (p.within limits) = .ok a (p'.within fun o => (s o).room) := by
        rw [← Progress.onto_eq_within hpieces]
        exact (he ▸ hm : m (p.within limits) = onto (.ok a p') s)
      have hrest := hf fun o => (s o).room
      have hstart : p'.sinks.within (fun o => (s o).room) = s := by
        rw [← Progress.sinks_within, ← Progress.onto_eq_within hpieces, Progress.sinks_onto]
      have hbind : (m >>= f) (p.within limits) = f a (p'.within fun o => (s o).room) := by
        simp only [Bind.bind, EStateM.bind, hpart]
      rw [hstart] at hrest
      rw [hall, hbind]
      exact hrest

theorem IsLogged.bind {m : Walk α} {f : α → Walk β} (h : IsLogged m)
    (hf : ∀ a, IsLogged (f a)) : IsLogged (m >>= f) := by
  intro p hp
  obtain ⟨log, hlog⟩ := h p hp
  cases he : m p with
  | ok a p' =>
    obtain ⟨log', hlog'⟩ := hf a p' (hlog.unlimited_of_ok hp he)
    exact ⟨log ++ log', hlog.bind hp he hlog'⟩
  | error e p' =>
    -- nothing comes after a walk that stops without limits too
    refine ⟨log, fun limits => ?_⟩
    have hm := hlog limits
    have hall : (m >>= f) p = .error e p' := by simp only [Bind.bind, EStateM.bind, he]
    rw [hall]
    split
    · rename_i s hs
      rw [hs, he] at hm
      have hlimited : m (p.within limits) = .error e (p'.onto s) := hm
      simp only [Bind.bind, EStateM.bind, hlimited, onto]
    · rename_i s o hs
      rw [hs] at hm
      obtain ⟨q, hq, hsinks⟩ := hm
      exact ⟨q, by simp only [Bind.bind, EStateM.bind, hq], hsinks⟩

theorem isLogged_get {f : Progress → Walk β} (hf : ∀ p limits, f (p.within limits) = f p)
    (h : ∀ p, IsLogged (f p)) : IsLogged (get >>= f) := by
  intro p hp
  obtain ⟨log, hlog⟩ := h p p hp
  refine ⟨log, fun limits => ?_⟩
  have hw := hlog limits
  rw [← hf p limits] at hw
  have hall : onto (f (p.within limits) p) = onto ((get >>= f : Walk β) p) := by
    rw [hf]
    rfl
  rw [hall] at hw
  exact hw

theorem isLogged_modify {f : Progress → Progress} (hf : ∀ (p : Progress) s,
    f (p.onto s) = (f p).onto s) : IsLogged (modify f : Walk Unit) := by
  intro p _
  refine ⟨[], logs_nil fun limits => ?_⟩
  exact congrArg (EStateM.Result.ok ()) (hf p _)

theorem isLogged_load (settings : Settings) (loader : Loader) (depth : Nat) (path : String) :
    IsLogged (load settings loader depth path) := fun _ _ => ⟨[], logs_nil fun _ => rfl⟩

theorem isLogged_emit (e : Emission) : IsLogged (emit e) := by
  intro p hp
  refine ⟨e.pieces.map fun piece => ⟨.out, piece⟩, fun limits => ?_⟩
  have hwhole : (p.out.writeAll e.pieces).2 = true := Sink.writeAll_of_room (hp .out) _
  have hsink : p.sinks.within limits .out = (p.within limits).out := rfl
  rw [Sinks.pour_map, hsink]
  cases hall : p.out.writeAll e.pieces with
  | mk out taken =>
    rw [hall] at hwhole
    subst hwhole
    cases hpart : (p.within limits).out.writeAll e.pieces with
    | mk out' taken' =>
      cases taken' with
      | true =>
        simp only [emit, Emission.writeTo, hall, hpart]
        cases e.failure <;> rfl
      | false =>
        simp only [emit, Emission.writeTo, hpart]
        refine ⟨_, rfl, ?_⟩
        funext o
        cases o <;> rfl

theorem isLogged_report (d : Diagnostic) : IsLogged (report d) := by
  intro p hp
  let w : Writing := ⟨.err, Text.encode (d.text ++ "\n")⟩
  refine ⟨[w], fun limits => ?_⟩
  have hall : p.err.write w.piece = _ := Sink.write_of_fits (Sink.fits_of_room (hp .err) _)
  by_cases hfits : (p.sinks.within limits w.outlet).Fits w.piece
  · have hpart := Sink.write_of_fits hfits
    rw [Sinks.pour_cons_of_fits hfits, hpart]
    have hpart : (p.within limits).err.write w.piece = _ := hpart
    simp only [Sinks.pour, report]
    rw [hall, hpart]
    rfl
  · obtain ⟨n, -, -, hpart⟩ := Sink.write_of_not_fits hfits
    rw [Sinks.pour_cons_of_not_fits hfits, hpart]
    have hpart : (p.within limits).err.write w.piece = _ := hpart
    simp only [report]
    rw [hpart]
    refine ⟨_, rfl, ?_⟩
    funext o
    cases o <;> rfl

theorem isLogged_reportAll (ds : List Diagnostic) : IsLogged (reportAll ds) := by
  induction ds with
  | nil => exact isLogged_pure ()
  | cons d ds ih => exact (isLogged_report d).bind fun _ => ih

theorem isLogged_halt (d : Diagnostic) : IsLogged (halt d) := by
  refine (isLogged_report d).bind fun _ => IsLogged.bind ?_ fun _ => isLogged_pure _
  exact isLogged_modify fun _ _ => rfl

theorem isLogged_fill (position : Position) (t : Template) : IsLogged (fill position t) :=
  isLogged_modify fun _ _ => rfl

theorem isLogged_resolve (settings : Settings) (loader : Loader) (v : Visit) (reference : String)
    (line : Nat) (span : Span) : IsLogged (resolve settings loader v reference line span) := by
  unfold resolve
  refine isLogged_get (fun _ _ => rfl) fun p => ?_
  have hrefuse (problem : Problem) : IsLogged (do
      let _ ← halt (v.template.diagnostic problem line span)
      pure none : Walk (Option Visit)) := (isLogged_halt _).bind fun _ => isLogged_pure _
  dsimp only
  split
  · exact isLogged_pure _
  · split
    · exact hrefuse _
    · refine (isLogged_load settings loader _ _).bind fun found => ?_
      cases found with
      | error problem => exact hrefuse problem
      | ok t =>
        exact (isLogged_reportAll _).bind fun _ => (isLogged_fill _ _).bind fun _ => isLogged_pure _

theorem isLogged_unless_halted {m m' : Walk α} (h : IsLogged m) (h' : IsLogged m') :
    IsLogged (do if (← get).halted then m else m') := by
  refine isLogged_get (fun _ _ => rfl) fun p => ?_
  split
  · exact h
  · exact h'

theorem isLogged_overRows {step : Context → Walk Flow} (hstep : ∀ c, IsLogged (step c))
    (inner : Context) (rows : List Scope) : IsLogged (overRows step inner rows) := by
  induction rows with
  | nil => exact isLogged_pure _
  | cons row rows ih =>
    refine (hstep _).bind fun flow => ?_
    have hgo : IsLogged
        (do if (← get).halted then pure .on else overRows step inner rows : Walk Flow) :=
      isLogged_unless_halted (isLogged_pure _) ih
    split
    · exact hgo
    · exact hgo
    · exact isLogged_pure _
    · exact isLogged_pure _
    · exact isLogged_pure _

section Lists

variable {enter : Inclusion}

mutual

theorem isLogged_walkNode
    (henter : ∀ v c reference line span, IsLogged (enter v c reference line span)) (v : Visit)
    (c : Context) (node : Node) : IsLogged (walkNode enter v c node) := by
  match node with
  | .text span =>
    rw [walkNode]
    exact (isLogged_emit _).bind fun _ => isLogged_pure _
  | .value name default formatter =>
    rw [walkNode]
    split
    · exact (isLogged_emit _).bind fun _ => isLogged_pure _
    · exact isLogged_pure _
  | .cond test yes no =>
    rw [walkNode]
    split
    · exact isLogged_walkList henter v c yes
    · exact isLogged_walkList henter v c no
  | .loop name body =>
    rw [walkNode]
    split
    · exact isLogged_overRows (fun c => isLogged_walkList henter v c body) _ _
    · exact isLogged_pure _
  | .leave level =>
    rw [walkNode]
    exact isLogged_pure _
  | .next level =>
    rw [walkNode]
    exact isLogged_pure _
  | .embed reference line span =>
    rw [walkNode]
    exact henter v c reference line span

theorem isLogged_walkList
    (henter : ∀ v c reference line span, IsLogged (enter v c reference line span)) (v : Visit)
    (c : Context) (nodes : List Node) : IsLogged (walkList enter v c nodes) := by
  match nodes with
  | [] =>
    rw [walkList]
    exact isLogged_pure _
  | node :: rest =>
    rw [walkList]
    refine isLogged_unless_halted (isLogged_pure _) ((isLogged_walkNode henter v c node).bind ?_)
    intro flow
    split
    · exact isLogged_walkList henter v c rest
    · exact isLogged_pure _

end

end Lists

theorem isLogged_enter {settings : Settings} {loader : Loader} {levels : Nat}
    (hinner : ∀ nested c, IsLogged (inner settings loader levels nested c)) (v : Visit)
    (c : Context) (reference : String) (line : Nat) (span : Span) :
    IsLogged (enter settings loader levels v c reference line span) := by
  refine (isLogged_resolve settings loader v reference line span).bind fun found => ?_
  cases found with
  | none => exact isLogged_pure _
  | some nested => exact hinner nested c

theorem isLogged_inner (settings : Settings) (loader : Loader) (levels : Nat) (nested : Visit)
    (c : Context) : IsLogged (inner settings loader levels nested c) := by
  induction levels generalizing nested c with
  | zero => exact isLogged_pure _
  | succ levels ih =>
    rw [inner, walk_eq]
    exact isLogged_walkList (isLogged_enter ih) nested c _

end Render

theorem Held.isLogged_start (settings : Settings) (loader : Loader) (h : Held) (scope : Scope) :
    Render.IsLogged (h.start settings loader scope) :=
  (Render.isLogged_reportAll _).bind fun _ =>
    (Render.isLogged_inner settings loader (h.levels settings + 1) _ _).bind fun _ =>
      Render.isLogged_pure ()

namespace Outcome

def sinks (o : Outcome) : Sinks
  | .out => o.out
  | .err => o.err

/-- What has been written since the sinks were like `start` fits the limits. -/
def Fits (whole : Outcome) (start : Sinks) (limits : Limits) : Prop :=
  ∀ o n, limits o = some n → (whole.sinks o).contents.length ≤ (start o).contents.length + n

end Outcome

/-- Limits only truncate what begins with the sinks `start`. Without limits it makes the writes of
the log and comes to `whole`. With limits the sinks hold what is in them when the same log is poured
into them. If all of it fits, nothing else differs; if it does not, then a write error is all that
comes of it, what the sinks hold is a prefix of what they hold without limits, and the one that a
write did not fit is full. -/
structure OnlyTruncates (start : Sinks) (whole : Outcome) (limited : Limits → Outcome)
    (log : List Writing) : Prop where
  pours : start.pour log = (whole.sinks, none)
  sinks : ∀ limits, (limited limits).sinks = ((start.within limits).pour log).1
  fits : ∀ limits, whole.Fits start limits → (limited limits).result = whole.result ∧
    (limited limits).loads = whole.loads ∧
    ∀ o, ((limited limits).sinks o).contents = (whole.sinks o).contents
  full : ∀ limits, ¬ whole.Fits start limits → (limited limits).result = .error (.write .full) ∧
    (∀ o, ((limited limits).sinks o).contents <+: (whole.sinks o).contents) ∧
    ∃ o n, ((start.within limits).pour log).2 = some o ∧ limits o = some n ∧
      ((limited limits).sinks o).contents.length = (start o).contents.length + n

section Pouring

variable {start : Sinks} {whole : Outcome} {log : List Writing} {limits : Limits}

theorem Outcome.fits_iff (h : start.pour log = (whole.sinks, none)) :
    whole.Fits start limits ↔ ((start.within limits).pour log).2 = none := by
  rw [Sinks.pour_snd_eq_none_iff]
  refine forall_congr' fun o => forall_congr' fun n => ?_
  have hlength : (whole.sinks o).contents.length =
      (start o).contents.length + (Writing.bytes log o).length := by
    rw [Sinks.contents_of_pour h, List.length_append]
  rw [hlength]
  exact imp_congr Iff.rfl (by omega)

/-- What comes of a walk with limits, where its result and the sinks are all that matters. -/
theorem Render.Logs.onlyTruncates {m : Walk Unit} {p : Progress} (h : Logs m p log)
    (hp : p.sinks.Unlimited) {g : Ending → Outcome} (hsinks : ∀ r, (g r).sinks = (Ending.progress r).sinks)
    (honto : ∀ r s, (g (onto r s)).result = (g r).result ∧ (g (onto r s)).loads = (g r).loads)
    (hfull : ∀ q, (g (.error .full q)).result = .error (.write .full)) :
    OnlyTruncates p.sinks (g (m p)) (fun limits => g (m (p.within limits))) log := by
  have hprogress (r : Ending) (s : Sinks) : (Ending.progress (onto r s)).sinks = s := by
    cases r <;> exact Progress.sinks_onto _ _
  have hwhole : p.sinks.pour log = ((g (m p)).sinks, none) := by
    have hs : (Ending.progress (m p)).sinks = (p.sinks.pour log).1 :=
      (congrArg (fun r => (Ending.progress r).sinks) (h.eq_onto hp)).trans (hprogress _ _)
    rw [hsinks, hs]
    exact Sinks.pour_of_room hp log
  have hsame (limits : Limits) :
      (g (m (p.within limits))).sinks = ((p.sinks.within limits).pour log).1 := by
    have hl := h limits
    split at hl
    · rename_i s hs
      rw [hl, hsinks, hprogress, hs]
    · rename_i s o hs
      obtain ⟨q, hq, hqs⟩ := hl
      rw [hq, hsinks, hs]
      exact hqs
  refine ⟨hwhole, hsame, fun limits hfits => ?_, fun limits hfits => ?_⟩
  · have hnone := (Outcome.fits_iff hwhole).mp hfits
    have hl := h limits
    rw [show (p.sinks.within limits).pour log = (_, none) from Prod.ext rfl hnone] at hl
    rw [hl]
    refine ⟨(honto _ _).1, (honto _ _).2, fun o => ?_⟩
    rw [hsinks, hprogress, Sinks.contents_of_pour (Prod.ext rfl hnone),
      Sinks.contents_of_pour hwhole]
    rfl
  · rw [Outcome.fits_iff hwhole] at hfits
    obtain ⟨o, ho⟩ := Option.ne_none_iff_exists'.mp hfits
    have hl := h limits
    rw [show (p.sinks.within limits).pour log = (_, some o) from Prod.ext rfl ho] at hl
    obtain ⟨q, hq, -⟩ := hl
    refine ⟨by rw [hq, hfull], fun o => ?_, ?_⟩
    · obtain ⟨part, hpart, hc⟩ := Sinks.exists_prefix_of_pour (p.sinks.within limits) log o
      rw [hsame, hc, Sinks.contents_of_pour hwhole]
      exact (List.prefix_append_right_inj _).mpr hpart
    · obtain ⟨n, hn, hlength⟩ := Sinks.length_of_pour (Prod.ext rfl ho)
      exact ⟨o, n, ho, hn, by rw [hsame]; exact hlength⟩

end Pouring

namespace Rendering

def sinks (x : Rendering) : Sinks := x.progress.sinks

def within (x : Rendering) (limits : Limits) : Rendering :=
  { x with
    out := { x.out with room := limits .out }
    err := { x.err with room := limits .err } }

theorem run_within (x : Rendering) (limits : Limits) : (x.within limits).run =
    x.leaves (x.held.start x.settings x.loader x.scope (x.progress.within limits)) :=
  (x.within limits).run_eq_leaves

theorem exists_onlyTruncates (x : Rendering) (hx : x.sinks.Unlimited) : ∃ log,
    OnlyTruncates x.sinks x.run.outcome (fun limits => (x.within limits).run.outcome) log ∧
    ∀ limits, x.run.outcome.Fits x.sinks limits → (x.within limits).run.held = x.run.held := by
  obtain ⟨log, hlog⟩ := x.held.isLogged_start x.settings x.loader x.scope x.progress hx
  have honly : OnlyTruncates x.sinks x.run.outcome
      (fun limits => (x.within limits).run.outcome) log := by
    rw [x.run_eq_leaves]
    simp only [x.run_within]
    refine hlog.onlyTruncates hx (g := fun r => (x.leaves r).outcome) ?_ ?_ fun _ => rfl
    · intro r
      cases r <;> rfl
    · intro r s
      cases r <;> exact ⟨rfl, rfl⟩
  refine ⟨log, honly, fun limits hfits => ?_⟩
  have hnone := (Outcome.fits_iff honly.pours).mp hfits
  have hl := hlog limits
  rw [show (x.progress.sinks.within limits).pour log = (_, none) from Prod.ext rfl hnone] at hl
  rw [x.run_within, hl, x.run_eq_leaves]
  cases x.held.start x.settings x.loader x.scope x.progress <;> rfl

end Rendering

namespace Source

variable {settings : Settings} {loader : Loader} {source : Source} {scope : Scope}

theorem rendering?_within (start : Sinks) (limits : Limits) :
    source.rendering? settings loader scope (start.within limits .out)
        (start.within limits .err) =
      (source.rendering? settings loader scope (start .out) (start .err)).map
        (·.within limits) := by
  cases source with
  | text content => rfl
  | path file =>
    unfold rendering?
    cases hl : Template.load settings loader { written := (start .out).pieces } 0 file <;>
      simp only [Sinks.within, hl] <;> rfl

theorem exists_onlyTruncates (settings : Settings) (loader : Loader) (source : Source)
    (scope : Scope) {start : Sinks} (hs : start.Unlimited) : ∃ log,
    OnlyTruncates start (source.render settings loader scope (start .out) (start .err))
      (fun limits => source.render settings loader scope (start.within limits .out)
        (start.within limits .err)) log := by
  cases hx : source.rendering? settings loader scope (start .out) (start .err) with
  | some x =>
    obtain ⟨hout, herr⟩ := sinks_of_rendering? hx
    have hstart : x.sinks = start := by
      funext o
      cases o
      · exact hout
      · exact herr
    have hlimited (limits : Limits) :
        source.render settings loader scope (start.within limits .out)
          (start.within limits .err) = (x.within limits).run.outcome :=
      render_of_rendering? ((rendering?_within start limits).trans (congrArg _ hx))
    obtain ⟨log, honly, -⟩ := x.exists_onlyTruncates (hstart ▸ hs)
    refine ⟨log, ?_⟩
    rw [render_of_rendering? hx]
    simp only [hlimited]
    exact hstart ▸ honly
  | none =>
    -- the report of the source is all that is written
    obtain ⟨d, loads, hunread⟩ := exists_render_eq_unread hx
    let p : Progress := { out := start .out, err := start .err, store := {} }
    have hstart : p.sinks = start := by
      funext o
      cases o <;> rfl
    obtain ⟨log, hlog⟩ := Render.isLogged_report d p (hstart ▸ hs)
    refine ⟨log, ?_⟩
    have honly := hlog.onlyTruncates (hstart ▸ hs) (g := unread loads)
      (fun r => by cases r <;> rfl) (fun r s => by cases r <;> exact ⟨rfl, rfl⟩) fun _ => rfl
    have hlimited (limits : Limits) :
        source.render settings loader scope (start.within limits .out)
          (start.within limits .err) = unread loads (Render.report d (p.within limits)) :=
      hunread _ _ rfl
    rw [hstart] at honly
    rw [hunread _ _ rfl]
    simp only [hlimited]
    exact honly

end Source

/-- Limits only truncate. A render, of a held template or of a source, makes the same writes whatever
room its sinks have, up to the first that is not taken whole. If the limits are wide enough for all
that it writes without them, then its result and what it leaves behind are the same. If not, then it
ends with a write error; no sink holds anything that it would not hold without limits, and the one
that a write did not fit holds as much as its limit says. -/
theorem limits_only_truncate :
    (∀ x : Rendering, x.sinks.Unlimited → ∃ log,
      OnlyTruncates x.sinks x.run.outcome (fun limits => (x.within limits).run.outcome) log ∧
      ∀ limits, x.run.outcome.Fits x.sinks limits →
        (x.within limits).run.held = x.run.held) ∧
    ∀ settings loader (source : Source) scope (start : Sinks), start.Unlimited → ∃ log,
      OnlyTruncates start (source.render settings loader scope (start .out) (start .err))
        (fun limits => source.render settings loader scope (start.within limits .out)
          (start.within limits .err)) log :=
  ⟨fun x hx => x.exists_onlyTruncates hx, fun settings loader source scope _ hs =>
    source.exists_onlyTruncates settings loader scope hs⟩

def escapedRender : Rendering where
  settings := {}
  loader := Library.loader {}
  held :=
    { template := Template.ofText {} "\x7b\x7bVAR x fmt=entity\x7d\x7d\x7b\x7bVAR \x7d\x7d." }
  scope := Scope.empty.withValue "x" "a&b"

theorem limits_only_truncate_escape :
    let narrow : Limits := fun | .out => some 3 | .err => none
    let wide : Limits := fun | .out => some 8 | .err => none
    escapedRender.sinks.Unlimited ∧ ¬ escapedRender.run.outcome.Fits escapedRender.sinks narrow ∧
    escapedRender.run.outcome.Fits escapedRender.sinks wide ∧
    (escapedRender.within narrow).run.result = .error (.write .full) ∧
    (escapedRender.within narrow).run.out.contents = Text.encode "a&a" ∧
    (escapedRender.within wide).run.result = escapedRender.run.result ∧
    (escapedRender.within wide).run.out.contents = Text.encode "a&amp;b." ∧
    ∃ log, OnlyTruncates escapedRender.sinks
      ((Source.text "\x7b\x7bVAR x fmt=entity\x7d\x7d\x7b\x7bVAR \x7d\x7d.").render {}
        (Library.loader {}) escapedRender.scope {} {})
      (fun limits => (Source.text "\x7b\x7bVAR x fmt=entity\x7d\x7d\x7b\x7bVAR \x7d\x7d.").render
        {} (Library.loader {}) escapedRender.scope (escapedRender.sinks.within limits .out)
        (escapedRender.sinks.within limits .err)) log := by
  intro narrow wide
  have hs : escapedRender.sinks.Unlimited := by
    intro o
    cases o <;> rfl
  have hwhole : escapedRender.run.out.contents = Text.encode "a&amp;b." := by decide +kernel
  have hnarrow : ¬ escapedRender.run.outcome.Fits escapedRender.sinks narrow := by
    intro h
    have hle : escapedRender.run.out.contents.length ≤ 0 + 3 := h .out 3 rfl
    rw [hwhole] at hle
    revert hle
    decide +kernel
  have hwide : escapedRender.run.outcome.Fits escapedRender.sinks wide := by
    intro o n hn
    cases o with
    | out =>
      cases hn
      show escapedRender.run.out.contents.length ≤ 0 + 8
      rw [hwhole]
      decide +kernel
    | err => cases hn
  obtain ⟨log, honly, -⟩ := limits_only_truncate.1 escapedRender hs
  obtain ⟨hresult, -, hcontents⟩ := honly.fits wide hwide
  exact ⟨hs, hnarrow, hwide, (honly.full narrow hnarrow).1, by decide +kernel, hresult,
    (hcontents .out).trans hwhole, limits_only_truncate.2 {} (Library.loader {}) _ _ _ hs⟩

end Stencil
