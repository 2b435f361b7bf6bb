import Stencil.Proofs.Render.Lockstep

/-! Two renders side by side.
They may keep different templates and ask for templates at different times, but show no difference
in either sink. The main statement says that two walks of a tree come to the same if they do at each
inclusion of the tree. -/
namespace Stencil

/-- Two renders have shown the same so far, and their stores are related. -/
structure Progress.Matches (S : Store → Store → Prop) (p q : Progress) : Prop where
  out : q.out = p.out
  err : q.err = p.err
  reported : q.reported = p.reported
  halted : q.halted = p.halted
  store : S p.store q.store

namespace Render

variable {α β γ δ : Type} {S : Store → Store → Prop} {p q : Progress}

/-- Two parts of renders end alike: both normally, as `ok` wants it, or both at the same write
error. -/
def Abreast (S : Store → Store → Prop) (m : Walk α) (m' : Walk β) (p q : Progress)
    (ok : α → β → Progress → Progress → Prop) : Prop :=
  match m p, m' q with
  | .ok a p', .ok b q' => ok a b p' q'
  | .error e p', .error e' q' => e' = e ∧ p'.Matches S q'
  | _, _ => False

def Same (S : Store → Store → Prop) (a b : α) (p q : Progress) : Prop := b = a ∧ p.Matches S q

theorem abreast_iff {m : Walk α} {m' : Walk β} {ok : α → β → Progress → Progress → Prop} :
    Abreast S m m' p q ok ↔ Lockstep (Progress.Matches S) m m' p q ok := Iff.rfl

theorem Abreast.ok_or_error {m : Walk α} {m' : Walk β}
    {ok : α → β → Progress → Progress → Prop} (h : Abreast S m m' p q ok) :
    (∃ a p' b q', m p = .ok a p' ∧ m' q = .ok b q' ∧ ok a b p' q') ∨
      ∃ e p' q', m p = .error e p' ∧ m' q = .error e q' ∧ p'.Matches S q' :=
  (abreast_iff.mp h).ok_or_error

theorem Abreast.bind {m : Walk α} {m' : Walk β} {f : α → Walk γ} {g : β → Walk δ}
    {mid : α → β → Progress → Progress → Prop} {ok : γ → δ → Progress → Progress → Prop}
    (h : Abreast S m m' p q mid)
    (hf : ∀ a b p' q', mid a b p' q' → Abreast S (f a) (g b) p' q' ok) :
    Abreast S (m >>= f) (m' >>= g) p q ok :=
  abreast_iff.mpr ((abreast_iff.mp h).bind hf)

theorem abreast_get_left {f : Progress → Walk α} {m : Walk β}
    {ok : α → β → Progress → Progress → Prop} :
    Abreast S (get >>= f) m p q ok ↔ Abreast S (f p) m p q ok := Iff.rfl

theorem abreast_get_right {m : Walk α} {f : Progress → Walk β}
    {ok : α → β → Progress → Progress → Prop} :
    Abreast S m (get >>= f) p q ok ↔ Abreast S m (f q) p q ok := Iff.rfl

theorem abreast_load_left {settings : Settings} {loader : Loader} {depth : Nat} {path : String}
    {f : Except Problem Template → Walk α} {m : Walk β}
    {ok : α → β → Progress → Progress → Prop} :
    Abreast S (load settings loader depth path >>= f) m p q ok ↔
      Abreast S (f (Template.load settings loader ⟨p.out.pieces, p.loads.length⟩ depth path)) m
        { p with loads := (path, depth) :: p.loads } q ok := Iff.rfl

theorem abreast_load_right {settings : Settings} {loader : Loader} {depth : Nat} {path : String}
    {m : Walk α} {f : Except Problem Template → Walk β}
    {ok : α → β → Progress → Progress → Prop} :
    Abreast S m (load settings loader depth path >>= f) p q ok ↔
      Abreast S m (f (Template.load settings loader ⟨q.out.pieces, q.loads.length⟩ depth path)) p
        { q with loads := (path, depth) :: q.loads } ok := Iff.rfl

theorem abreast_fill {position : Position} {t u : Template} (h : p.Matches S q)
    (hs : S (p.store.fill position t) (q.store.fill position u)) :
    Abreast S (fill position t) (fill position u) p q (Same S) :=
  ⟨rfl, h.out, h.err, h.reported, h.halted, hs⟩

theorem abreast_emit (e : Emission) (h : p.Matches S q) :
    Abreast S (emit e) (emit e) p q (Same S) := by
  unfold Abreast emit
  rw [h.out]
  cases e.writeTo p.out with
  | mk out result =>
    have hout : ({ p with out } : Progress).Matches S { q with out } :=
      ⟨rfl, h.err, h.reported, h.halted, h.store⟩
    cases result with
    | ok _ => exact ⟨rfl, hout⟩
    | error error => exact ⟨rfl, hout⟩

theorem abreast_report (d : Diagnostic) (h : p.Matches S q) :
    Abreast S (report d) (report d) p q (Same S) := by
  unfold Abreast report
  rw [h.err]
  cases p.err.write (Text.encode (d.text ++ "\n")) with
  | mk err taken =>
    cases taken with
    | false => exact ⟨rfl, h.out, rfl, h.reported, h.halted, h.store⟩
    | true =>
      have hreported : q.reported ++ [d] = p.reported ++ [d] := by rw [h.reported]
      exact ⟨rfl, h.out, rfl, hreported, h.halted, h.store⟩

theorem abreast_reportAll (ds : List Diagnostic) (h : p.Matches S q) :
    Abreast S (reportAll ds) (reportAll ds) p q (Same S) :=
  abreast_iff.mpr (inStep_reportAll_of_report
    (fun d _ _ h => abreast_iff.mp (abreast_report d h)) ds h)

theorem abreast_halt (d : Diagnostic) (h : p.Matches S q) :
    Abreast S (halt d) (halt d) p q (Same S) := by
  refine (abreast_report d h).bind fun _ _ p' q' hd => ?_
  exact ⟨rfl, hd.2.out, hd.2.err, hd.2.reported, rfl, hd.2.store⟩

theorem paced_matches : Paced (Progress.Matches S) :=
  ⟨fun h => h.halted, fun e _ _ h => abreast_iff.mp (abreast_emit e h)⟩

section Lists

variable {enter enter' : Inclusion} {v : Visit} {K : String → Nat → Span → Prop}

def Includes (K : String → Nat → Span → Prop) (_loops : Nat) (node : Node) : Prop :=
  ∀ reference line span, node = .embed reference line span → K reference line span

theorem abreast_walkList
    (henter : ∀ c reference line span p q, K reference line span → p.Matches S q →
      Abreast S (enter v c reference line span) (enter' v c reference line span) p q (Same S))
    (c : Context) (loops : Nat) (nodes : List Node) (hn : Node.AllLeaves (Includes K) loops nodes)
    {p q : Progress} (h : p.Matches S q) :
    Abreast S (walkList enter v c nodes) (walkList enter' v c nodes) p q (Same S) := by
  refine abreast_iff.mpr
    (inStep_walkList_of_text paced_matches (fun _ => rfl) ?_ c loops nodes hn h)
  intro c loops reference line span p q hi h
  exact abreast_iff.mp (henter c reference line span p q (hi reference line span rfl) h)

end Lists

end Render
end Stencil
