import Stencil.Proofs.Render.Levels

/-! Walking a tree and doing the tasks of an agenda are the same.
The walk of a list, of a node or of the rows of a loop is what the steps do until that task is off
the agenda, and a jump that the walk ends in is the tasks that the steps drop. The main statement
says that the walk of a template is what the steps do. -/
namespace Stencil

/-- What is left after a walk has ended: nothing once the render has halted. -/
def Agenda.onward (rest : Agenda) (flow : Flow) (p : Progress) : Agenda :=
  if p.halted then [] else rest.after flow

theorem Agenda.onward_of_halted {p : Progress} (h : p.halted = true) (rest : Agenda)
    (flow : Flow) : rest.onward flow p = [] := if_pos h

theorem Agenda.onward_of_not_halted {p : Progress} (h : p.halted = false) (rest : Agenda)
    (flow : Flow) : rest.onward flow p = rest.after flow := if_neg (by simp [h])

@[simp] theorem Agenda.onward_nil (flow : Flow) (p : Progress) :
    Agenda.onward [] flow p = [] := by
  unfold onward
  cases flow <;> simp [after, leave, next]

theorem Agenda.onward_congr {rest rest' : Agenda} {flow flow' : Flow}
    (h : rest.after flow = rest'.after flow') (p : Progress) :
    rest.onward flow p = rest'.onward flow' p := by
  rw [onward, onward, h]

namespace Render

variable {α : Type} {settings : Settings} {loader : Loader} {base reach : Nat}

open Stage (Step Reaches Yields)

/-- The steps from a stage do what a walk does, with `rest` left to do after it. -/
def Follows (settings : Settings) (loader : Loader) (m : Walk Flow) (s : Stage) (rest : Agenda) :
    Prop :=
  Meets m s.progress (fun flow p => Reaches settings loader s ⟨rest.onward flow p, p⟩)
    (fun e p => Yields settings loader s (.error e p))

variable {m : Walk Flow} {task : Task} {rest : Agenda} {p p' : Progress}

theorem Follows.trans {s s' : Stage} (h : Follows settings loader m s' rest)
    (hs : Reaches settings loader s s') :
    Meets m s'.progress (fun flow p => Reaches settings loader s ⟨rest.onward flow p, p⟩)
      (fun e p => Yields settings loader s (.error e p)) :=
  h.mono (fun _ _ hr => hs.trans hr) fun _ _ hy => hy.of_reaches hs

theorem follows_pure {flow : Flow} {rest' : Agenda} (hp : p.halted = false)
    (hs : Step settings loader ⟨task :: rest, p⟩ ⟨rest'.after flow, p⟩) :
    Follows settings loader (pure flow) ⟨task :: rest, p⟩ rest' := by
  rw [← Agenda.onward_of_not_halted hp] at hs
  exact .single hs

theorem meets_step {act : Walk α} {f : α → Agenda}
    (h : doTask settings loader rest task = act >>= fun a => pure (f a)) :
    Meets act p (fun a p' => Step settings loader ⟨task :: rest, p⟩ ⟨f a, p'⟩)
      (fun e p' => Yields settings loader ⟨task :: rest, p⟩ (.error e p')) := by
  have hm := meets_self (doTask settings loader rest task) p
  rw [h, meets_bind] at hm
  refine hm.mono (fun a p' ha => ?_) fun e p' he => ?_
  · rw [← h] at ha
    exact ha
  · rw [← h] at he
    exact ⟨_, .refl, e, p', he, rfl⟩

theorem follows_emit {e : Emission} {rest' : Agenda} (hp : p.halted = false)
    (h : doTask settings loader rest task = emit e >>= fun _ => pure rest') :
    Follows settings loader (do emit e; pure .on) ⟨task :: rest, p⟩ rest' := by
  rw [Follows, meets_bind]
  refine ((meets_step h).and (meets_emit_writes e)).mono ?_ fun _ _ hy => hy.1
  rintro _ p' ⟨hs, hw⟩
  rw [meets_pure, Agenda.onward_of_not_halted (hw.halted.trans hp)]
  exact .single hs

theorem follows_overRows {step : Context → Walk Flow} {v : Visit} {owner : Context}
    {body : List Node} (hR : Inherited settings loader (Template.StandsAt base reach))
    (hstep : ∀ row rest p,
      Stage.Fits base reach ⟨.nodes v (owner.push row) body :: rest, p⟩ → p.halted = false →
      Follows settings loader (step (owner.push row))
        ⟨.nodes v (owner.push row) body :: rest, p⟩ rest)
    (rows : List Scope) (rest : Agenda) (p : Progress)
    (hs : Stage.Fits base reach ⟨.rows v owner body rows :: rest, p⟩) (hp : p.halted = false) :
    Follows settings loader (overRows step owner rows)
      ⟨.rows v owner body rows :: rest, p⟩ rest := by
  induction rows generalizing p with
  | nil => exact follows_pure hp rfl
  | cons row rows ih =>
    have hrow : Step settings loader ⟨.rows v owner body (row :: rows) :: rest, p⟩
        ⟨.nodes v (owner.push row) body :: .rows v owner body rows :: rest, p⟩ := rfl
    have hbody := (hstep row _ p (hs.step hR hrow) hp).trans (.single hrow)
    rw [overRows, Follows, meets_bind]
    refine hbody.mono ?_ fun _ _ hy => hy
    intro flow p' hr
    -- the loop goes on if its body ends, or ends with a jump to the next row of this loop
    have hgo : Agenda.after flow (.rows v owner body rows :: rest) =
          .rows v owner body rows :: rest →
        Meets (do if (← get).halted then pure .on else overRows step owner rows : Walk Flow) p'
          (fun flow p' => Reaches settings loader ⟨.rows v owner body (row :: rows) :: rest, p⟩
            ⟨rest.onward flow p', p'⟩)
          (fun e p' => Yields settings loader ⟨.rows v owner body (row :: rows) :: rest, p⟩
            (.error e p')) := by
      intro ha
      rw [meets_bind, meets_get]
      split
      · rename_i hh
        rw [Agenda.onward_of_halted hh] at hr
        rwa [meets_pure, Agenda.onward_of_halted hh]
      · rename_i hh
        have hh : p'.halted = false := by simpa using hh
        rw [Agenda.onward_of_not_halted hh, ha] at hr
        exact (ih p' (hs.reaches hR hr) hh).trans hr
    split
    · exact hgo rfl
    · exact hgo rfl
    · have ha : Agenda.after (.leave 1) (.rows v owner body rows :: rest) = rest.after .on := rfl
      rwa [Agenda.onward_congr ha] at hr
    · rename_i level hne
      have ha : Agenda.after (.leave level) (.rows v owner body rows :: rest) =
          rest.after (.leave (level - 1)) := if_neg fun h => hne (by rw [h])
      rwa [Agenda.onward_congr ha] at hr
    · rename_i level hne
      have ha : Agenda.after (.next level) (.rows v owner body rows :: rest) =
          rest.after (.next (level - 1)) := if_neg fun h => hne (by rw [h])
      rwa [Agenda.onward_congr ha] at hr

theorem meets_walkList_of_halted {enter : Inclusion} {v : Visit} {c : Context}
    {nodes : List Node} {ok : Flow → Progress → Prop} {stop : WriteError → Progress → Prop}
    (hp : p.halted = true) : Meets (walkList enter v c nodes) p ok stop ↔ ok .on p := by
  rw [Meets, walkList_of_halted enter v c nodes hp]

section Lists

variable {enter : Inclusion} {v : Visit}

mutual

theorem follows_walkNode (hR : Inherited settings loader (Template.StandsAt base reach))
    (henter : ∀ c reference line span left rest p,
      Stage.Fits base reach ⟨.nodes v c (.embed reference line span :: left) :: rest, p⟩ →
      p.halted = false →
      Follows settings loader (enter v c reference line span)
        ⟨.nodes v c (.embed reference line span :: left) :: rest, p⟩ (.nodes v c left :: rest))
    (c : Context) (node : Node) (left : List Node) (rest : Agenda) (p : Progress)
    (hs : Stage.Fits base reach ⟨.nodes v c (node :: left) :: rest, p⟩) (hp : p.halted = false) :
    Follows settings loader (walkNode enter v c node) ⟨.nodes v c (node :: left) :: rest, p⟩
      (.nodes v c left :: rest) := by
  match node with
  | .text span =>
    rw [walkNode]
    exact follows_emit hp rfl
  | .value name default formatter =>
    rw [walkNode]
    cases hv : valueOf c name default with
    | some value => exact follows_emit hp (by simp only [doTask, doNode, hv])
    | none =>
      have hstep : Step settings loader
          ⟨.nodes v c (.value name default formatter :: left) :: rest, p⟩
          ⟨.nodes v c left :: rest, p⟩ := by simp only [Stage.Step, doTask, doNode, hv]; rfl
      exact follows_pure hp hstep
  | .cond test yes no =>
    have hstep : Step settings loader ⟨.nodes v c (.cond test yes no :: left) :: rest, p⟩
        ⟨.nodes v c (if test.holds c then yes else no) :: .nodes v c left :: rest, p⟩ := rfl
    have hfits := hs.step hR hstep
    rw [walkNode]
    split
    · rename_i ht
      rw [if_pos ht] at hstep hfits
      exact (follows_walkList hR henter c yes _ p hfits hp).trans (.single hstep)
    · rename_i ht
      rw [if_neg ht] at hstep hfits
      exact (follows_walkList hR henter c no _ p hfits hp).trans (.single hstep)
  | .loop name body =>
    rw [walkNode]
    cases he : c.enter? name with
    | some found =>
      obtain ⟨owner, rows⟩ := found
      have hstep : Step settings loader ⟨.nodes v c (.loop name body :: left) :: rest, p⟩
          ⟨.rows v owner body rows :: .nodes v c left :: rest, p⟩ := by
        simp only [Stage.Step, doTask, doNode, he]
        rfl
      refine (follows_overRows hR (fun row rest p => ?_) rows _ p (hs.step hR hstep) hp).trans
        (.single hstep)
      exact follows_walkList hR henter (owner.push row) body rest p
    | none =>
      have hstep : Step settings loader ⟨.nodes v c (.loop name body :: left) :: rest, p⟩
          ⟨.nodes v c left :: rest, p⟩ := by
        simp only [Stage.Step, doTask, doNode, he]
        rfl
      exact follows_pure hp hstep
  | .leave level =>
    rw [walkNode]
    exact follows_pure hp rfl
  | .next level =>
    rw [walkNode]
    exact follows_pure hp rfl
  | .embed reference line span =>
    rw [walkNode]
    exact henter c reference line span left rest p hs hp

theorem follows_walkList (hR : Inherited settings loader (Template.StandsAt base reach))
    (henter : ∀ c reference line span left rest p,
      Stage.Fits base reach ⟨.nodes v c (.embed reference line span :: left) :: rest, p⟩ →
      p.halted = false →
      Follows settings loader (enter v c reference line span)
        ⟨.nodes v c (.embed reference line span :: left) :: rest, p⟩ (.nodes v c left :: rest))
    (c : Context) (nodes : List Node) (rest : Agenda) (p : Progress)
    (hs : Stage.Fits base reach ⟨.nodes v c nodes :: rest, p⟩) (hp : p.halted = false) :
    Follows settings loader (walkList enter v c nodes) ⟨.nodes v c nodes :: rest, p⟩ rest := by
  match nodes with
  | [] =>
    rw [walkList]
    exact follows_pure hp rfl
  | node :: left =>
    have hnode := follows_walkNode hR henter c node left rest p hs hp
    rw [walkList, Follows, meets_bind, meets_get, if_neg (by simp [hp]), meets_bind]
    refine hnode.mono ?_ fun _ _ hy => hy
    intro flow p' hr
    cases flow with
    | on =>
      cases hh : p'.halted with
      | true =>
        rw [Agenda.onward_of_halted hh] at hr
        exact (meets_walkList_of_halted hh).mpr (by rwa [Agenda.onward_of_halted hh])
      | false =>
        rw [Agenda.onward_of_not_halted hh] at hr
        exact (follows_walkList hR henter c left rest p' (hs.reaches hR hr) hh).trans hr
    | leave level =>
      have ha : Agenda.after (.leave level) (.nodes v c left :: rest) = rest.after (.leave level) :=
        rfl
      rwa [Agenda.onward_congr ha] at hr
    | next level =>
      have ha : Agenda.after (.next level) (.nodes v c left :: rest) = rest.after (.next level) :=
        rfl
      rwa [Agenda.onward_congr ha] at hr

end

end Lists

theorem follows_enter (hR : Inherited settings loader (Template.StandsAt base reach)) (levels : Nat)
    (hinner : ∀ nested c rest p, nested.position.length + levels = reach + 1 →
      Stage.Fits base reach ⟨.nodes nested c nested.template.root :: rest, p⟩ →
      p.halted = false →
      Follows settings loader (inner settings loader levels nested c)
        ⟨.nodes nested c nested.template.root :: rest, p⟩ rest)
    (v : Visit) (hv : v.position.length + levels = reach) (c : Context) (reference : String)
    (line : Nat) (span : Span) (left : List Node) (rest : Agenda) (p : Progress)
    (hs : Stage.Fits base reach ⟨.nodes v c (.embed reference line span :: left) :: rest, p⟩)
    (hp : p.halted = false) :
    Follows settings loader (enter settings loader levels v c reference line span)
      ⟨.nodes v c (.embed reference line span :: left) :: rest, p⟩ (.nodes v c left :: rest) := by
  rw [enter, Follows, meets_bind]
  refine ((meets_step rfl).and meets_resolves).mono ?_ fun _ _ hy => hy.1
  rintro found p' ⟨hstep, hr⟩
  cases hr with
  | refused hl hq =>
    rw [meets_pure, Agenda.onward_of_halted rfl]
    exact .single hstep
  | @kept t hl =>
    have hlen : (v.inside span).length = v.position.length + 1 := rfl
    exact (hinner ⟨t, v.inside span⟩ c _ p (by simp only; omega) (hs.step hR hstep) hp).trans
      (.single hstep)
  | @read t q hl hq =>
    have hlen : (v.inside span).length = v.position.length + 1 := rfl
    have hhalted : (q.filling (v.inside span) t.quiet).halted = false := hq.halted.trans hp
    exact (hinner ⟨t.quiet, v.inside span⟩ c _ _ (by simp only; omega)
      (hs.step hR hstep) hhalted).trans (.single hstep)

/-- The levels of a walk never run out, for no position is longer than there are levels. -/
theorem follows_inner (hR : Inherited settings loader (Template.StandsAt base reach)) (levels : Nat)
    (nested : Visit) (c : Context) (rest : Agenda) (p : Progress)
    (hn : nested.position.length + levels = reach + 1)
    (hs : Stage.Fits base reach ⟨.nodes nested c nested.template.root :: rest, p⟩)
    (hp : p.halted = false) :
    Follows settings loader (inner settings loader levels nested c)
      ⟨.nodes nested c nested.template.root :: rest, p⟩ rest := by
  induction levels generalizing nested c rest p with
  | zero =>
    have hfits := (hs.agenda _ (List.mem_cons_self ..)).2
    simp only [Task.visit] at hfits
    omega
  | succ levels ih =>
    rw [inner, walk_eq]
    exact follows_walkList hR
      (fun c reference line span left rest p =>
        follows_enter hR levels ih nested (by omega) c reference line span left rest p)
      c nested.template.root rest p hs hp

theorem follows_walk (hR : Inherited settings loader (Template.StandsAt base reach))
    (v : Visit) (hv : v.position = []) (c : Context) (p : Progress)
    (hs : Stage.Fits base reach ⟨[.nodes v c v.template.root], p⟩) (hp : p.halted = false) :
    Follows settings loader (walk settings loader reach v c) ⟨[.nodes v c v.template.root], p⟩
      [] :=
  follows_inner hR (reach + 1) v c [] p (by simp [hv]) hs hp

end Render
end Stencil
