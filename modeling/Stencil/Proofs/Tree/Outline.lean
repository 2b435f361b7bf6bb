import Stencil.Proofs.Tree.Stack

/-! What later items can tell of what is open.
Of a construct that is being read they can tell where and with what tag it began and which
terminators mean something to it, but not what is noted of its tags or what has been read of it. The
main statement says that two trees in which the same is open go on in step. -/
namespace Stencil

namespace Construct

/-- What later items can tell of the construct: its opening tag without the attributes, and the
terminators that mean something to it. -/
def outline (c : Construct) : TagKind × Nat × Span × List TagKind :=
  (c.opener.kind, c.opener.line, c.opener.span, c.accepted)

theorem accepted_of_outline {c c' : Construct} (h : c'.outline = c.outline) :
    c'.accepted = c.accepted := by
  simp only [outline, Prod.mk.injEq] at h
  exact h.2.2.2

theorem closing_of_outline {c c' : Construct} (h : c'.outline = c.outline) :
    c'.closing = c.closing := by
  have ha := accepted_of_outline h
  cases c <;> cases c' <;> simp_all [accepted, closing]

theorem finding_of_outline {c c' : Construct} (h : c'.outline = c.outline) (problem : Problem) :
    c'.opener.finding problem = c.opener.finding problem := by
  simp only [outline, Prod.mk.injEq] at h
  simp only [Tag.finding, h.2.1, h.2.2.1]

theorem unclosed_of_outline {c c' : Construct} (h : c'.outline = c.outline) (tags : TagSet) :
    c'.unclosed tags = c.unclosed tags := by
  have hk : c'.opener.kind = c.opener.kind := congrArg Prod.fst h
  rw [unclosed, unclosed, closing_of_outline h, hk, finding_of_outline h]

theorem exists_arms_of_accepted {c : Construct} (h : c.accepted ≠ [c.closing]) :
    ∃ opener done test, c = arms opener done test := by
  cases c with
  | arms opener done test => exact ⟨opener, done, test, rfl⟩
  | alternative => exact (h rfl).elim
  | loop => exact (h rfl).elim

theorem accepted_arms_ne (opener : Tag) (done : List Arm) (test : Option Test) :
    (arms opener done test).accepted ≠ [(arms opener done test).closing] := by
  simp [accepted, closing]

theorem exists_arms_of_outline {c : Construct} {opener : Tag} {done : List Arm}
    {test : Option Test} (h : c.outline = (arms opener done test).outline) :
    ∃ opener' done' test', c = arms opener' done' test' := by
  refine exists_arms_of_accepted ?_
  rw [accepted_of_outline h, closing_of_outline h]
  exact accepted_arms_ne opener done test

theorem close_of_outline {c c' : Construct} (h : c'.outline = c.outline) (tags : TagSet)
    (items : List Item) :
    Tree.close tags c'.opener c'.closing items = Tree.close tags c.opener c.closing items := by
  have hk : c'.opener.kind = c.opener.kind := congrArg Prod.fst h
  simp only [Tree.close, closing_of_outline h, hk, finding_of_outline h]

end Construct

namespace Frame

def outlines (frames : List Frame) : List (TagKind × Nat × Span × List TagKind) :=
  frames.map fun f => f.construct.outline

theorem awaited_of_outlines {frames frames' : List Frame} (h : outlines frames' = outlines frames) :
    awaited frames' = awaited frames := by
  have ha (l : List Frame) : awaited l = (outlines l).flatMap fun o => o.2.2.2 := by
    simp [awaited, outlines, List.flatMap_map, Construct.outline]
  rw [ha, ha, h]

theorem loops_of_outlines {frames frames' : List Frame} (h : outlines frames' = outlines frames) :
    loops frames' = loops frames := by
  induction frames generalizing frames' with
  | nil =>
    rw [List.map_eq_nil_iff.mp h]
  | cons f frames ih =>
    obtain ⟨f', rest, rfl, hf, hrest⟩ := List.map_eq_cons_iff.mp h
    have hc := Construct.closing_of_outline hf
    have hl := ih hrest
    simp only [loops, List.countP_cons, hc] at hl ⊢
    rw [hl]

end Frame

namespace OpenTree

variable {settings : Settings} {depth : Nat}

/-- What two trees have come to from `t` and `u`: the same is open, and the same has been found
since. -/
structure Alike (t u t' u' : OpenTree) : Prop where
  outlines : Frame.outlines u'.frames = Frame.outlines t'.frames
  findings : ∃ more, t'.findings = t.findings ++ more ∧ u'.findings = u.findings ++ more

theorem Alike.trans {t u t₁ u₁ t₂ u₂ : OpenTree} (h₁ : Alike t u t₁ u₁) (h₂ : Alike t₁ u₁ t₂ u₂) :
    Alike t u t₂ u₂ := by
  obtain ⟨more₁, ht₁, hu₁⟩ := h₁.findings
  obtain ⟨more₂, ht₂, hu₂⟩ := h₂.findings
  exact ⟨h₂.outlines, more₁ ++ more₂, by simp [ht₂, ht₁], by simp [hu₂, hu₁]⟩

theorem alike_add {t u : OpenTree} (h : Frame.outlines u.frames = Frame.outlines t.frames)
    (nodes : List Node) (findings : List Finding) :
    Alike t u (t.add nodes findings) (u.add nodes findings) := ⟨h, findings, rfl, rfl⟩

theorem alike_enter {t u : OpenTree} (h : Frame.outlines u.frames = Frame.outlines t.frames)
    (c : Construct) (findings : List Finding) :
    Alike t u (t.enter c findings) (u.enter c findings) :=
  ⟨congrArg (c.outline :: ·) h, findings, rfl, rfl⟩

theorem alike_unwind (tags : TagSet) (terminator : Option TagKind) {t u : OpenTree}
    (h : Frame.outlines u.frames = Frame.outlines t.frames) :
    Alike t u (unwind tags terminator t.frames t.nodes t.findings)
      (unwind tags terminator u.frames u.nodes u.findings) := by
  obtain ⟨frames, nodes, findings⟩ := t
  obtain ⟨frames', nodes', findings'⟩ := u
  induction frames generalizing frames' nodes nodes' findings findings' with
  | nil =>
    obtain rfl := List.map_eq_nil_iff.mp h
    exact ⟨rfl, [], by simp [unwind], by simp [unwind]⟩
  | cons f frames ih =>
    obtain ⟨f', frames', rfl, hf, hframes⟩ := List.map_eq_cons_iff.mp h
    simp only [unwind, Construct.accepted_of_outline hf]
    split
    · exact ⟨h, [], by simp, by simp⟩
    · have hclosed : Alike ⟨f :: frames, nodes, findings⟩ ⟨f' :: frames', nodes', findings'⟩
          ⟨frames, f.close nodes, findings ++ [f.construct.unclosed tags]⟩
          ⟨frames', f'.close nodes', findings' ++ [f'.construct.unclosed tags]⟩ :=
        ⟨hframes, [f.construct.unclosed tags], rfl, by rw [Construct.unclosed_of_outline hf]⟩
      exact hclosed.trans (ih _ _ _ _ _ hframes)

theorem terminate_of_accepted {tags : TagSet} {tag : Tag} {f : Frame} {frames : List Frame}
    {nodes : List Node} {findings : List Finding}
    (h : f.construct.accepted = [f.construct.closing]) :
    terminate tags tag ⟨f :: frames, nodes, findings⟩ = ⟨frames, f.close nodes, findings⟩ := by
  obtain ⟨c, before⟩ := f
  cases c with
  | arms opener done test => exact (Construct.accepted_arms_ne opener done test h).elim
  | alternative => rfl
  | loop => rfl

theorem alike_terminate (tags : TagSet) (tag : Tag) {t u : OpenTree}
    (h : Frame.outlines u.frames = Frame.outlines t.frames) :
    Alike t u (t.terminate tags tag) (u.terminate tags tag) := by
  obtain ⟨frames, nodes, findings⟩ := t
  obtain ⟨frames', nodes', findings'⟩ := u
  cases frames with
  | nil =>
    obtain rfl := List.map_eq_nil_iff.mp h
    exact ⟨rfl, [], by simp [terminate], by simp [terminate]⟩
  | cons f frames =>
    obtain ⟨f', frames', rfl, hf, hframes⟩ := List.map_eq_cons_iff.mp h
    obtain ⟨c, before⟩ := f
    obtain ⟨c', before'⟩ := f'
    have hcl : Alike ⟨⟨c, before⟩ :: frames, nodes, findings⟩
        ⟨⟨c', before'⟩ :: frames', nodes', findings'⟩
        ⟨frames, Frame.close ⟨c, before⟩ nodes, findings⟩
        ⟨frames', Frame.close ⟨c', before'⟩ nodes', findings'⟩ := ⟨hframes, [], by simp, by simp⟩
    by_cases hs : c.accepted = [c.closing]
    · have hs' : c'.accepted = [c'.closing] := by
        rw [Construct.accepted_of_outline hf, Construct.closing_of_outline hf, hs]
      rwa [terminate_of_accepted hs, terminate_of_accepted hs']
    · obtain ⟨opener, done, test, rfl⟩ := Construct.exists_arms_of_accepted hs
      obtain ⟨opener', done', test', rfl⟩ := Construct.exists_arms_of_outline hf
      have hnext (c c' : Construct) (hc : c'.outline = c.outline) (more : List Finding) :
          Alike ⟨⟨.arms opener done test, before⟩ :: frames, nodes, findings⟩
            ⟨⟨.arms opener' done' test', before'⟩ :: frames', nodes', findings'⟩
            ⟨⟨c, before⟩ :: frames, [], findings ++ more⟩
            ⟨⟨c', before'⟩ :: frames', [], findings' ++ more⟩ :=
        ⟨by simpa [Frame.outlines, hc] using hframes, more, rfl, rfl⟩
      simp only [terminate]
      split
      · exact hnext (.arms opener (done ++ [(test, nodes)]) _)
          (.arms opener' (done' ++ [(test', nodes')]) _) hf _
      · have hf' : (Construct.alternative opener' (done' ++ [(test', nodes')])).outline =
            (Construct.alternative opener (done ++ [(test, nodes)])).outline := by
          simpa [Construct.outline, Construct.accepted, Construct.opener] using hf
        simpa using hnext _ _ hf' []
      · exact hcl

/-- What an item does to what is open, and what is found at it, depends on no more than the
outlines. -/
theorem alike_step (settings : Settings) (depth : Nat) {t u : OpenTree}
    (h : Frame.outlines u.frames = Frame.outlines t.frames) (item : Item) :
    Alike t u (step settings depth t item) (step settings depth u item) := by
  match item with
  | .text span => exact alike_add h ..
  | .finding f => exact alike_add h ..
  | .tag tag =>
    by_cases ht : tag.kind.isTerminator
    · simp only [step, ht, if_true, Frame.awaited_of_outlines h]
      split
      · have hu := alike_unwind settings.tags (some tag.kind) h
        exact hu.trans (alike_terminate settings.tags tag hu.outlines)
      · exact alike_add h ..
    · by_cases hc : tag.kind = .cond
      · rw [step_cond hc, step_cond hc]
        exact alike_enter h ..
      · by_cases hl : tag.kind = .loop
        · rw [step_loop hl, step_loop hl]
          exact alike_enter h ..
        · rw [step_leaf ht hc hl, step_leaf ht hc hl, Frame.loops_of_outlines h]
          exact alike_add h ..

theorem alike_steps (settings : Settings) (depth : Nat) {t u : OpenTree}
    (h : Frame.outlines u.frames = Frame.outlines t.frames) (items : List Item) :
    Alike t u (items.foldl (step settings depth) t) (items.foldl (step settings depth) u) := by
  induction items generalizing t u with
  | nil => exact ⟨h, [], by simp, by simp⟩
  | cons item items ih =>
    have hs := alike_step settings depth h item
    exact hs.trans (ih hs.outlines)

/-- The second of two trees that are being built has found one thing more, and that next after
`earlier`. The same is open in both. -/
structure AheadBy (f : Finding) (earlier : List Finding) (t u : OpenTree) : Prop where
  outlines : Frame.outlines u.frames = Frame.outlines t.frames
  findings : ∃ more, t.findings = earlier ++ more ∧ u.findings = earlier ++ f :: more

theorem AheadBy.steps {f : Finding} {earlier : List Finding} {t u : OpenTree}
    (h : AheadBy f earlier t u) (items : List Item) :
    AheadBy f earlier (items.foldl (step settings depth) t)
      (items.foldl (step settings depth) u) := by
  obtain ⟨more, ht, hu⟩ := h.findings
  obtain ⟨hout, since, ht', hu'⟩ := alike_steps settings depth h.outlines items
  exact ⟨hout, more ++ since, by simp [ht', ht], by simp [hu', hu]⟩

end OpenTree
end Stencil
