import Stencil.Proofs.Render.Meets
import Stencil.Proofs.Tree.Joined
import Stencil.Proofs.Tree.Leaves

/-! Two renders in lockstep.
Two renders may walk the same tree, or one of them the moved one, and do something else at its
inclusions. The main statement says that their walks come to related progress if those of each
inclusion do. -/
namespace Stencil

namespace Render

variable {α β γ δ : Type}

/-- Two parts of renders end alike: both normally, as `ok` wants it, or both at the same write error
and with their progress related. -/
def Lockstep (R : Progress → Progress → Prop) (m : Walk α) (m' : Walk β) (p q : Progress)
    (ok : α → β → Progress → Progress → Prop) : Prop :=
  match m p, m' q with
  | .ok a p', .ok b q' => ok a b p' q'
  | .error e p', .error e' q' => e' = e ∧ R p' q'
  | _, _ => False

abbrev InStep (R : Progress → Progress → Prop) (m m' : Walk α) (p q : Progress) : Prop :=
  Lockstep R m m' p q fun a b p' q' => b = a ∧ R p' q'

section Lockstep

variable {R : Progress → Progress → Prop} {p q : Progress}

theorem Lockstep.ok_or_error {m : Walk α} {m' : Walk β}
    {ok : α → β → Progress → Progress → Prop} (h : Lockstep R m m' p q ok) :
    (∃ a p' b q', m p = .ok a p' ∧ m' q = .ok b q' ∧ ok a b p' q') ∨
      ∃ e p' q', m p = .error e p' ∧ m' q = .error e q' ∧ R p' q' := by
  unfold Lockstep at h
  cases hm : m p with
  | ok a p' =>
    cases hm' : m' q with
    | ok b q' =>
      rw [hm, hm'] at h
      exact .inl ⟨a, p', b, q', rfl, rfl, h⟩
    | error e q' =>
      rw [hm, hm'] at h
      exact h.elim
  | error e p' =>
    cases hm' : m' q with
    | ok b q' =>
      rw [hm, hm'] at h
      exact h.elim
    | error e' q' =>
      rw [hm, hm'] at h
      exact .inr ⟨e, p', q', rfl, congrArg (EStateM.Result.error · q') h.1, h.2⟩

theorem Lockstep.of_ok {m : Walk α} {m' : Walk β} {ok : α → β → Progress → Progress → Prop}
    (h : Lockstep R m m' p q ok) {a : α} {p' : Progress} (hm : m p = .ok a p') :
    ∃ b q', m' q = .ok b q' ∧ ok a b p' q' := by
  rcases h.ok_or_error with ⟨a', p₁, b, q', hm₁, hm', hok⟩ | ⟨e, p₁, q', hm₁, -⟩
  · cases hm.symm.trans hm₁
    exact ⟨b, q', hm', hok⟩
  · cases hm.symm.trans hm₁

theorem Lockstep.bind {m : Walk α} {m' : Walk β} {f : α → Walk γ} {g : β → Walk δ}
    {mid : α → β → Progress → Progress → Prop} {ok : γ → δ → Progress → Progress → Prop}
    (h : Lockstep R m m' p q mid)
    (hf : ∀ a b p' q', mid a b p' q' → Lockstep R (f a) (g b) p' q' ok) :
    Lockstep R (m >>= f) (m' >>= g) p q ok := by
  unfold Lockstep
  simp only [Bind.bind, EStateM.bind]
  rcases h.ok_or_error with ⟨a, p', b, q', hm, hm', hmid⟩ | ⟨e, p', q', hm, hm', hr⟩
  · rw [hm, hm']
    exact hf a b p' q' hmid
  · rw [hm, hm']
    exact ⟨rfl, hr⟩

theorem lockstep_get {f : Progress → Walk α} {g : Progress → Walk β}
    {ok : α → β → Progress → Progress → Prop} :
    Lockstep R (get >>= f) (get >>= g) p q ok ↔ Lockstep R (f p) (g q) p q ok := Iff.rfl

theorem inStep_get {f g : Progress → Walk α} :
    InStep R (get >>= f) (get >>= g) p q ↔ InStep R (f p) (g q) p q := lockstep_get

theorem inStep_refl {m : Walk α} : InStep Eq m m p p := by
  unfold InStep Lockstep
  cases m p <;> exact ⟨rfl, rfl⟩

theorem inStep_reportAll_of_report
    (hreport : ∀ (d : Diagnostic) p q, R p q → InStep R (report d) (report d) p q)
    (ds : List Diagnostic) (h : R p q) : InStep R (reportAll ds) (reportAll ds) p q := by
  induction ds generalizing p q with
  | nil => exact ⟨rfl, h⟩
  | cons d r ih => exact (hreport d p q h).bind fun _ _ _ _ hd => ih hd.2

/-- Related renders have both halted or neither has, and they write in lockstep. -/
structure Paced (R : Progress → Progress → Prop) : Prop where
  halted : ∀ {p q : Progress}, R p q → q.halted = p.halted
  emit : ∀ (e : Emission) {p q : Progress}, R p q → InStep R (emit e) (emit e) p q

theorem inStep_overRows (hR : Paced R) {step step' : Context → Walk Flow} {inner : Context}
    {rows : List Scope} (hstep : ∀ c p q, R p q → InStep R (step c) (step' c) p q) (h : R p q) :
    InStep R (overRows step inner rows) (overRows step' inner rows) p q := by
  induction rows generalizing p q with
  | nil => exact ⟨rfl, h⟩
  | cons row rows ih =>
    refine (hstep _ p q h).bind ?_
    rintro flow _ p' q' ⟨rfl, hr⟩
    have hon : InStep R
        (do if (← get).halted then pure .on else overRows step inner rows : Walk Flow)
        (do if (← get).halted then pure .on else overRows step' inner rows : Walk Flow) p' q' := by
      rw [inStep_get, hR.halted hr]
      split
      · exact ⟨rfl, hr⟩
      · exact ih hr
    split
    · exact hon
    · exact hon
    · exact ⟨rfl, hr⟩
    · exact ⟨rfl, hr⟩
    · exact ⟨rfl, hr⟩

end Lockstep

section Lists

variable {R : Progress → Progress → Prop} {P : Nat → Node → Prop} {enter enter' : Inclusion}
  {v v' : Visit} {before : List Char}

mutual

theorem inStep_walkNode (hR : Paced R)
    (htext : ∀ loops span, P loops (.text span) →
      v'.template.text (span.behind before) = v.template.text span)
    (henter : ∀ c loops reference line span p q, P loops (.embed reference line span) → R p q →
      InStep R (enter v c reference line span)
        (enter' v' c reference (Text.lineFeeds before + line) (span.behind before)) p q)
    (c : Context) (loops : Nat) (node : Node) (hn : node.Leaves P loops) {p q : Progress}
    (h : R p q) :
    InStep R (walkNode enter v c node) (walkNode enter' v' c (node.behind before)) p q := by
  match node with
  | .text span =>
    rw [Node.behind, walkNode, walkNode, htext loops span hn]
    exact (hR.emit _ h).bind fun _ _ _ _ he => ⟨rfl, he.2⟩
  | .value name default formatter =>
    rw [Node.behind, walkNode, walkNode]
    split
    · exact (hR.emit _ h).bind fun _ _ _ _ he => ⟨rfl, he.2⟩
    · exact ⟨rfl, h⟩
  | .cond test yes no =>
    rw [Node.behind, walkNode, walkNode]
    split
    · exact inStep_walkList hR htext henter c loops yes hn.1 h
    · exact inStep_walkList hR htext henter c loops no hn.2 h
  | .loop name body =>
    rw [Node.behind, walkNode, walkNode]
    split
    · exact inStep_overRows hR
        (fun c p q h => inStep_walkList hR htext henter c (loops + 1) body hn h) h
    · exact ⟨rfl, h⟩
  | .leave level =>
    rw [Node.behind, walkNode, walkNode]
    exact ⟨rfl, h⟩
  | .next level =>
    rw [Node.behind, walkNode, walkNode]
    exact ⟨rfl, h⟩
  | .embed reference line span =>
    rw [Node.behind, walkNode, walkNode]
    exact henter c loops reference line span p q hn h

/-- Nodes and the moved ones are walked in lockstep if their texts are the same and their inclusions
are entered so. -/
theorem inStep_walkList (hR : Paced R)
    (htext : ∀ loops span, P loops (.text span) →
      v'.template.text (span.behind before) = v.template.text span)
    (henter : ∀ c loops reference line span p q, P loops (.embed reference line span) → R p q →
      InStep R (enter v c reference line span)
        (enter' v' c reference (Text.lineFeeds before + line) (span.behind before)) p q)
    (c : Context) (loops : Nat) (nodes : List Node) (hn : Node.AllLeaves P loops nodes)
    {p q : Progress} (h : R p q) :
    InStep R (walkList enter v c nodes)
      (walkList enter' v' c (Node.allBehind before nodes)) p q := by
  match nodes with
  | [] =>
    rw [Node.allBehind, walkList, walkList]
    exact ⟨rfl, h⟩
  | node :: rest =>
    rw [Node.allBehind, walkList, walkList, inStep_get, hR.halted h]
    split
    · exact ⟨rfl, h⟩
    · refine (inStep_walkNode hR htext henter c loops node hn.1 h).bind ?_
      rintro flow _ p' q' ⟨rfl, hr⟩
      split
      · exact inStep_walkList hR htext henter c loops rest hn.2 hr
      · exact ⟨rfl, hr⟩

end

theorem inStep_walkList_of_text (hR : Paced R)
    (htext : ∀ span, v'.template.text span = v.template.text span)
    (henter : ∀ c loops reference line span p q, P loops (.embed reference line span) → R p q →
      InStep R (enter v c reference line span) (enter' v' c reference line span) p q)
    (c : Context) (loops : Nat) (nodes : List Node) (hn : Node.AllLeaves P loops nodes)
    {p q : Progress} (h : R p q) :
    InStep R (walkList enter v c nodes) (walkList enter' v' c nodes) p q := by
  have hmoved (c : Context) (loops : Nat) (reference : String) (line : Nat) (span : Span)
      (p q : Progress) (hn : P loops (.embed reference line span)) (h : R p q) :
      InStep R (enter v c reference line span)
        (enter' v' c reference (Text.lineFeeds [] + line) (span.behind [])) p q := by
    rw [Text.lineFeeds_nil, Nat.zero_add, Span.behind_nil]
    exact henter c loops reference line span p q hn h
  have hwalk := inStep_walkList hR (fun _ span _ => (htext _).trans (congrArg _ span.behind_nil))
    hmoved c loops nodes hn h
  rwa [Node.allBehind_nil_left] at hwalk

end Lists

end Render
end Stencil
