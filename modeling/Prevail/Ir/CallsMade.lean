import Prevail.Ir.FirstPass

/-!
# The calls of the second pass

The second pass inlines the calls of the sequence one after the other, and `addCfgNodes` calls itself for
the calls in a copy. `CallMade` says that such a call is made, with the graph as it is then. Each call
changes its own frame and its own edge, and nothing else: the instructions of the sequence keep their
edges as long as they are not inlined themselves (`Outer`), and a copy keeps what it is made of (`Kept`).
-/

namespace Prevail

namespace CfgBuilder

variable {O C : Type} {b b' b₀ b₁ b₂ : CfgBuilder O C} {insts done begun : InstructionSeq O C}
  {c t x y : Label} {f : Frame}

/-- The label is a local call of the sequence. -/
def IsCall (insts : InstructionSeq O C) (x : Label) : Prop := ∃ t f, (x, .callLocal t f) ∈ insts

theorem isCall_concat {e : Label × Instruction O C} :
    IsCall (done ++ [e]) x ↔ IsCall done x ∨ ∃ t f, e = (x, .callLocal t f) := by
  unfold IsCall
  simp only [List.mem_append, List.mem_singleton, exists_or]
  refine or_congr_right ?_
  constructor
  · rintro ⟨t, f, h⟩
    exact ⟨t, f, h.symm⟩
  · rintro ⟨t, f, h⟩
    exact ⟨t, f, h.symm⟩

/-! ## The pass over the sequence -/

/-- The graph after the calls among the instructions `done` are inlined, seen from the graph `b₀`
of the first pass. -/
structure Outer (b₀ : CfgBuilder O C) (done : InstructionSeq O C) (b : CfgBuilder O C) : Prop where
  consistent : b.Consistent
  has : ∀ x, x.Plain → (b.Has x ↔ b₀.Has x)
  deep : ∀ x, b.Has x → ¬ x.Plain → ∃ c, IsCall done c ∧ Inside c x
  edge : ∀ x y, x.Plain → y.Plain → (b.Edge x y ↔ b₀.Edge x y ∧ ¬ IsCall done x)
  into : ∀ x y, x.Plain → ¬ y.Plain → b.Edge x y → IsCall done x
  back : ∀ x y, ¬ x.Plain → y.Plain → b.Edge x y → ∃ c, IsCall done c ∧ b₀.Edge c y
  instr : ∀ x, x.Plain → ¬ IsCall done x → b.instructions.find? x = b₀.instructions.find? x
  called : ∀ k t f, (k, .callLocal t f) ∈ done → ∀ y, b.Edge k y ↔ y = t.inFrame k.frame

theorem outer_start (hb : b.Consistent) (hplain : ∀ x, b.Has x → x.Plain) : Outer b [] b := by
  have hnone : ∀ x, ¬ IsCall ([] : InstructionSeq O C) x := by simp [IsCall]
  refine ⟨hb, fun _ _ => Iff.rfl, fun x hx hnp => absurd (hplain x hx) hnp,
    fun x y _ _ => by simp [hnone], fun x y _ hnp hxy => ?_, fun x y hnp _ hxy => ?_,
    fun _ _ _ => rfl, by simp⟩
  · exact absurd (hplain y (hb.target x y hxy)) hnp
  · exact absurd (hplain x hxy.source) hnp

theorem not_plain_of_inside (h : Inside c x) : ¬ x.Plain := fun hp => not_inside_of_plain hp h

/-- Frames of different calls of the sequence are apart. -/
theorem eq_of_inside_plain {c' : Label} (hc : c.Plain) (hc' : c'.Plain) (h : Inside c x)
    (h' : Inside c' x) : c = c' := by
  unfold Inside at h h'
  have hlen : c.frame.length = c'.frame.length := by simp [Label.frame, hc.1, hc'.1]
  have heq := (List.prefix_of_prefix_length_le h h' hlen.le).eq_of_length hlen
  unfold Label.frame at heq
  rw [hc.1, hc'.1] at heq
  have hlast := List.singleton_injective (List.append_cancel_left heq)
  rw [toLex_inj, Prod.mk.injEq] at hlast
  exact Label.ext (hc.1.trans hc'.1.symm) hlast.1 hlast.2 (hc.2.trans hc'.2.symm)

section

variable (hdist : Distinct insts) (hplain : ∀ e ∈ insts, e.1.Plain)
  (hpre : done ++ [(c, .callLocal t f)] <+: insts) (h : Outer b₀ done b)

include hdist hpre in
theorem not_isCall_last : ¬ IsCall done c := by
  have hlive : ∀ t f, Live (.callLocal t f : Instruction O C) := fun t f n hn => by cases hn
  rintro ⟨t', f', hmem⟩
  exact hdist.ne_last hpre _ hmem (hlive t' f') (hlive t f) rfl

include hplain hpre in
theorem plain_last : c.Plain :=
  hplain _ (hpre.subset (List.mem_append_right _ (List.mem_singleton_self _)))

include hplain hpre in
theorem plain_of_isCall (hx : IsCall done x) : x.Plain := by
  obtain ⟨t, f, hmem⟩ := hx
  exact hplain _ (hpre.subset (List.mem_append_left _ hmem))

include hdist hplain hpre h in
/-- Nothing is in the frame of a call that comes later. -/
theorem Outer.fresh : Fresh b c := by
  intro x hx hhas
  obtain ⟨c', hc', hx'⟩ := h.deep x hhas (not_plain_of_inside hx)
  have heq := eq_of_inside_plain (plain_last hplain hpre) (plain_of_isCall hplain hpre hc') hx hx'
  exact not_isCall_last hdist hpre (heq ▸ hc')

include hdist hplain hpre h in
theorem Outer.plain_return {r : Label} (hr : b.Edge c r) : r.Plain := by
  by_contra hnp
  exact not_isCall_last hdist hpre (h.into c r (plain_last hplain hpre) hnp hr)

include hdist hplain hpre h in
theorem Outer.step {r : Label} (hr : ∀ z, b.Edge c z ↔ z = r) (he : Expanded b c t r b') :
    Outer b₀ (done ++ [(c, .callLocal t f)]) b' := by
  have hc := plain_last hplain hpre
  have hrp := h.plain_return hdist hplain hpre ((hr r).mpr rfl)
  have hcall : ∀ x, IsCall (done ++ [(c, .callLocal t f)]) x ↔ IsCall done x ∨ x = c := by
    intro x
    rw [isCall_concat]
    refine or_congr_right ⟨?_, ?_⟩
    · rintro ⟨t', f', heq⟩
      exact (congrArg Prod.fst heq).symm
    · rintro rfl
      exact ⟨t, f, rfl⟩
  refine ⟨he.consistent, fun x hx => ?_, fun x hhas hnp => ?_, fun x y hx hy => ?_,
    fun x y hx hy hxy => ?_, fun x y hx hy hxy => ?_, fun x hx hnc => ?_, fun k t' f' hk => ?_⟩
  · rw [he.has x (not_inside_of_plain hx), h.has x hx]
  · by_cases hx : Inside c x
    · exact ⟨c, (hcall c).mpr (Or.inr rfl), hx⟩
    · obtain ⟨c', hc', hx'⟩ := h.deep x ((he.has x hx).mp hhas) hnp
      exact ⟨c', (hcall c').mpr (Or.inl hc'), hx'⟩
  · rw [he.outside x y (not_inside_of_plain hx) (not_inside_of_plain hy), h.edge x y hx hy, hcall,
      not_or, and_assoc]
    refine and_congr_right fun hxy => and_congr_right fun hnc => ⟨fun hne hxc => ?_, fun hne hxc => ?_⟩
    · subst hxc
      exact hne ⟨rfl, (hr y).mp ((h.edge x y hx hy).mpr ⟨hxy, hnc⟩)⟩
    · exact hne hxc.1
  · rw [hcall]
    by_cases hy' : Inside c y
    · exact Or.inr ((he.into x y (not_inside_of_plain hx) hy').mp hxy).1
    · exact Or.inl (h.into x y hx hy ((he.outside x y (not_inside_of_plain hx) hy').mp hxy).1)
  · have hyc : ¬ Inside c y := not_inside_of_plain hy
    by_cases hx' : Inside c x
    · obtain rfl := he.out x y hx' hyc hxy
      exact ⟨c, (hcall c).mpr (Or.inr rfl), ((h.edge c y hc hy).mp ((hr y).mpr rfl)).1⟩
    · obtain ⟨c', hc', hc'y⟩ := h.back x y hx hy ((he.outside x y hx' hyc).mp hxy).1
      exact ⟨c', (hcall c').mpr (Or.inl hc'), hc'y⟩
  · rw [hcall, not_or] at hnc
    rw [he.instr x (not_inside_of_plain hx) hnc.2, h.instr x hx hnc.1]
  · rcases List.mem_append.mp hk with hk | hk
    · have hkd : IsCall done k := ⟨t', f', hk⟩
      have hkc : k ≠ c := by
        rintro rfl
        exact not_isCall_last hdist hpre hkd
      intro y
      rw [he.edge_keep h.consistent (h.fresh hdist hplain hpre)
        (not_inside_of_plain (plain_of_isCall hplain hpre hkd)) hkc, h.called k t' f' hk]
    · obtain ⟨rfl, heq⟩ := Prod.mk.inj (List.mem_singleton.mp hk)
      obtain ⟨rfl, -⟩ := Instruction.callLocal.inj heq
      exact he.edge_caller hr

end

/-- Inlining a call inside a copy does not show in the labels of the sequence. -/
theorem Outer.nested (h : Outer b₀ done b) (hdone : ∀ k, IsCall done k → k.Plain) (hc : ¬ c.Plain)
    (hhas : b.Has c) (hfresh : Fresh b c) {r : Label} (hr : ∀ z, b.Edge c z ↔ z = r)
    (he : Expanded b c t r b') : Outer b₀ done b' := by
  have hne : ∀ {x : Label}, x.Plain → x ≠ c := fun hx hxc => hc (hxc ▸ hx)
  have hkeep : ∀ x, x.Plain → ∀ y, b'.Edge x y ↔ b.Edge x y := fun x hx =>
    he.edge_keep h.consistent hfresh (not_inside_of_plain hx) (hne hx)
  refine ⟨he.consistent, fun x hx => ?_, fun x hx hnp => ?_, fun x y hx hy => ?_,
    fun x y hx hy hxy => ?_, fun x y hx hy hxy => ?_, fun x hx hnc => ?_, fun k t' f' hk y => ?_⟩
  · rw [he.has x (not_inside_of_plain hx), h.has x hx]
  · by_cases hin : Inside c x
    · obtain ⟨k, hk, hkc⟩ := h.deep c hhas hc
      exact ⟨k, hk, hkc.trans ((List.prefix_append _ _).trans hin)⟩
    · exact h.deep x ((he.has x hin).mp hx) hnp
  · rw [hkeep x hx, h.edge x y hx hy]
  · exact h.into x y hx hy ((hkeep x hx y).mp hxy)
  · have hy' : ¬ Inside c y := not_inside_of_plain hy
    by_cases hin : Inside c x
    · obtain rfl := he.out x y hin hy' hxy
      exact h.back c y hc hy ((hr y).mpr rfl)
    · exact h.back x y hx hy ((he.outside x y hin hy').mp hxy).1
  · rw [he.instr x (not_inside_of_plain hx) (hne hx), h.instr x hx hnc]
  · rw [hkeep k (hdone k ⟨t', f', hk⟩), h.called k t' f' hk]

/-- One instruction of the second pass. -/
theorem Outer.expandCall {e : Label × Instruction O C} (h : Outer b₀ done b)
    (hdist : Distinct insts) (hplain : ∀ e ∈ insts, e.1.Plain) (hpre : done ++ [e] <+: insts)
    (he : b.expandCall e = .ok b') :
    Outer b₀ (done ++ [e]) b' ∧ (b' = b ∨ ∃ c t f r, e = (c, .callLocal t f) ∧ r.Plain ∧
      Fresh b c ∧ Expanded b c t r b') := by
  obtain ⟨c, i⟩ := e
  unfold CfgBuilder.expandCall at he
  dsimp only at he
  split at he
  · next t f =>
    have hfresh := h.fresh hdist hplain hpre
    obtain ⟨r, _, st, -, hcl, hexp, -⟩ := addCfgNodes_spec _ he h.consistent hfresh
    have hr := h.plain_return hdist hplain hpre ((hcl.child r).mpr rfl)
    exact ⟨h.step hdist hplain hpre hcl.child hexp, Or.inr ⟨c, t, f, r, rfl, hr, hfresh, hexp⟩⟩
  · next hcall =>
    obtain rfl := Except.ok.inj he
    have hsame : ∀ x, IsCall (done ++ [(c, i)]) x ↔ IsCall done x := by
      intro x
      rw [isCall_concat, or_iff_left]
      rintro ⟨t, f, heq⟩
      exact hcall t f (congrArg Prod.snd heq)
    refine ⟨⟨h.consistent, h.has, ?_, ?_, ?_, ?_, ?_, fun k t' f' hk => h.called k t' f' ?_⟩, Or.inl rfl⟩
    rotate_left 5
    · exact (List.mem_append.mp hk).resolve_right fun hc =>
        hcall t' f' (congrArg Prod.snd (List.mem_singleton.mp hc)).symm
    all_goals simp only [hsame]
    · exact h.deep
    · exact h.edge
    · exact h.into
    · exact h.back
    · exact h.instr

/-- What is in the frame of `c` is the same in both graphs. -/
structure Kept (c : Label) (b b' : CfgBuilder O C) : Prop where
  has : ∀ x, Inside c x → (b'.Has x ↔ b.Has x)
  edge : ∀ x y, Inside c x ∨ Inside c y ∨ x = c → (b'.Edge x y ↔ b.Edge x y)
  instr : ∀ x, Inside c x → b'.instructions.find? x = b.instructions.find? x

theorem Kept.refl (c : Label) (b : CfgBuilder O C) : Kept c b b :=
  ⟨fun _ _ => Iff.rfl, fun _ _ _ => Iff.rfl, fun _ _ => rfl⟩

theorem Kept.trans (h : Kept c b b₁) (h' : Kept c b₁ b₂) : Kept c b b₂ :=
  ⟨fun x hx => (h'.has x hx).trans (h.has x hx), fun x y hxy => (h'.edge x y hxy).trans (h.edge x y hxy),
    fun x hx => (h'.instr x hx).trans (h.instr x hx)⟩

/-- What is in the frame of a call is in the frames of the calls that lead to it. -/
theorem Kept.inner (h : Kept c b b') (l : Label) : Kept (l.inFrame c.frame) b b' := by
  refine ⟨fun x hx => h.has x hx.of_inFrame, fun x y hxy => h.edge x y ?_, fun x hx => h.instr x hx.of_inFrame⟩
  rcases hxy with hx | hy | rfl
  · exact Or.inl hx.of_inFrame
  · exact Or.inr (Or.inl hy.of_inFrame)
  · exact Or.inl (inside_inFrame c l)

/-- A call in another frame leaves the frame as it is. -/
theorem Kept.step {c' r : Label} (h : Kept c b b₁) (hb : b₁.Consistent) (hfresh : Fresh b₁ c')
    (hout : ∀ x, Inside c x ∨ x = c → ¬ Inside c' x ∧ x ≠ c') (hr : ¬ Inside c r)
    (he : Expanded b₁ c' t r b₂) : Kept c b b₂ := by
  refine ⟨fun x hx => ?_, fun x y hxy => ?_, fun x hx => ?_⟩
  · rw [he.has x (hout x (Or.inl hx)).1, h.has x hx]
  · rw [← h.edge x y hxy]
    rw [or_left_comm, or_comm] at hxy
    rcases hxy with hx | hy
    · obtain ⟨hx, hxc⟩ := hout x hx
      exact he.edge_keep hb hfresh hx hxc y
    · have hyc := (hout y (Or.inl hy)).1
      have hyr : y ≠ r := by
        rintro rfl
        exact hr hy
      by_cases hx : Inside c' x
      · exact iff_of_false (fun hxy => hyr (he.out x y hx hyc hxy)) fun hxy => hfresh x hx hxy.source
      · rw [he.outside x y hx hyc, and_iff_left fun hc => hyr hc.2]
  · obtain ⟨hin, hne⟩ := hout x (Or.inl hx)
    rw [he.instr x hin hne, h.instr x hx]

/-- The frames of calls of the sequence are apart. -/
theorem apart_of_plain {c' : Label} (hc : c.Plain) (hc' : c'.Plain) (hne : c ≠ c') :
    ∀ x, Inside c x ∨ x = c → ¬ Inside c' x ∧ x ≠ c' := by
  rintro x (hx | rfl)
  · refine ⟨fun hx' => hne (eq_of_inside_plain hc hc' hx hx'), ?_⟩
    rintro rfl
    exact not_inside_of_plain hc' hx
  · exact ⟨not_inside_of_plain hc, hne⟩

/-- The frames of calls in one copy are apart. -/
theorem apart_of_copy {l l' : Label} (hne : l.inFrame c.frame ≠ l'.inFrame c.frame) :
    ∀ x, Inside (l.inFrame c.frame) x ∨ x = l.inFrame c.frame →
      ¬ Inside (l'.inFrame c.frame) x ∧ x ≠ l'.inFrame c.frame := by
  rintro x (hx | rfl)
  · refine ⟨fun hx' => hne (eq_of_inside hx hx'), ?_⟩
    rintro rfl
    exact not_inside_of_prefix_eq rfl hx
  · exact ⟨not_inside_of_prefix_eq rfl, hne⟩

/-- The second pass up to some instruction. -/
theorem outer_fold (hF : FirstPass insts b₀) (hplain : ∀ e ∈ insts, e.1.Plain) (hpre : done <+: insts)
    (h : done.foldlM CfgBuilder.expandCall b₀ = .ok b) : Outer b₀ done b := by
  refine Except.foldlM_induction (Outer b₀) h (outer_start hF.consistent (hF.plain hplain)) ?_
  intro done' e b b' hpre' hdone hstep
  exact (hdone.expandCall hF.distinct hplain (hpre'.trans hpre) hstep).1

/-- The second pass around one call. -/
theorem secondPass_spec {before after : InstructionSeq O C} (hF : FirstPass insts b₀)
    (h : insts.foldlM CfgBuilder.expandCall b₀ = .ok b) (hplain : ∀ e ∈ insts, e.1.Plain)
    (hinsts : insts = before ++ (c, .callLocal t f) :: after)
    (hb₁ : before.foldlM CfgBuilder.expandCall b₀ = .ok b₁) :
    ∃ b₂, addCfgNodes maxCallStackFrames b₁ c t = .ok b₂ ∧ Kept c b₂ b := by
  have hpre : before ++ [(c, .callLocal t f)] <+: insts := ⟨after, by simp [hinsts]⟩
  have houter := outer_fold hF hplain ((List.prefix_append _ _).trans hpre) hb₁
  rw [hinsts, List.foldlM_append, hb₁] at h
  rw [show (Except.ok b₁ >>= fun b => ((c, .callLocal t f) :: after).foldlM CfgBuilder.expandCall b) =
    ((c, .callLocal t f) :: after).foldlM CfgBuilder.expandCall b₁ from rfl, List.foldlM_cons] at h
  obtain ⟨b₂, h₂, h⟩ := Except.bind_eq_ok.mp h
  refine ⟨b₂, h₂, ?_⟩
  have hkept : Outer b₀ (before ++ [(c, .callLocal t f)] ++ after) b ∧ Kept c b₂ b := by
    refine Except.foldlM_induction (fun done b => Outer b₀ (before ++ [(c, .callLocal t f)] ++ done) b ∧
      Kept c b₂ b) h ⟨?_, Kept.refl c b₂⟩ ?_
    · rw [List.append_nil]
      exact (houter.expandCall hF.distinct hplain hpre h₂).1
    · intro done e b b' hpre' ⟨hdone, hkept⟩ hstep
      have hpre' : before ++ [(c, .callLocal t f)] ++ done ++ [e] <+: insts := by
        obtain ⟨rest, hrest⟩ := hpre'
        exact ⟨rest, by simp [hinsts, ← hrest]⟩
      obtain ⟨hnext, hcase⟩ := hdone.expandCall hF.distinct hplain hpre' hstep
      rw [List.append_assoc] at hnext
      refine ⟨hnext, ?_⟩
      rcases hcase with rfl | ⟨c', t', f', r, rfl, hr, hfresh, hexp⟩
      · exact hkept
      · have hne : c ≠ c' := by
          rintro rfl
          exact not_isCall_last hF.distinct hpre' ⟨t, f, by simp⟩
        exact hkept.step hdone.consistent hfresh
          (apart_of_plain (plain_last hplain hpre) (plain_last hplain hpre') hne)
          (not_inside_of_plain hr) hexp
  exact hkept.2

/-! ## Calls inside calls -/

/-- `addCfgNodes` is called for the call `c` of `t`, in the graph `b`, after the calls of the sequence
among `begun` have been begun. -/
inductive CallMade (insts : InstructionSeq O C) (b₀ : CfgBuilder O C) :
    InstructionSeq O C → ℕ → CfgBuilder O C → Label → Label → Prop
  | outer {before after : InstructionSeq O C} {b : CfgBuilder O C} {c t : Label} {f : Frame}
      (hinsts : insts = before ++ (c, .callLocal t f) :: after)
      (hb : before.foldlM CfgBuilder.expandCall b₀ = .ok b) :
      CallMade insts b₀ (before ++ [(c, .callLocal t f)]) maxCallStackFrames b c t
  | nested {begun : InstructionSeq O C} {fuel : ℕ} {b b₁ : CfgBuilder O C} {c t l t' : Label}
      {f : Frame} {st : Walk O C} {looked : List Label} (h : CallMade insts b₀ begun (fuel + 1) b c t)
      (hst : b.cloneMacro c t = .ok st) (hpre : looked ++ [l] <+: st.seenLabels.keys)
      (hlooked : looked.foldlM (expandSeen fuel c) st.builder = .ok b₁)
      (hcall : b₁.instructions.find? (l.inFrame c.frame) = some (.callLocal t' f))
      (hlimit : ¬ maxCallStackFrames ≤ c.stackFramePrefix.length + 2) :
      CallMade insts b₀ begun fuel b₁ (l.inFrame c.frame) t'

/-- The graph in which a call is made. -/
structure CallState (insts : InstructionSeq O C) (b₀ : CfgBuilder O C) (begun : InstructionSeq O C)
    (b : CfgBuilder O C) (c t : Label) : Prop where
  begins : begun <+: insts
  consistent : b.Consistent
  fresh : Fresh b c
  caller : ∃ f, b.instructions.find? c = some (.callLocal t f)
  outer : (∃ before f, begun = before ++ [(c, .callLocal t f)] ∧ Outer b₀ before b) ∨
    ¬ c.Plain ∧ Outer b₀ begun b

section

variable (hF : FirstPass insts b₀) (hplain : ∀ e ∈ insts, e.1.Plain)

include hF hplain in
theorem CallState.expanded {r : Label} (h : CallState insts b₀ begun b c t)
    (hr : ∀ z, b.Edge c z ↔ z = r) (he : Expanded b c t r b') : Outer b₀ begun b' := by
  rcases h.outer with ⟨before, f, rfl, hout⟩ | ⟨hc, hout⟩
  · exact hout.step hF.distinct hplain h.begins hr he
  · refine hout.nested (fun k hk => ?_) hc ((hr r).mpr rfl).source h.fresh hr he
    obtain ⟨t', f', hmem⟩ := hk
    exact hplain _ (h.begins.subset hmem)

theorem copy_not_plain (l c : Label) : ¬ (l.inFrame c.frame).Plain := fun h => c.frame_ne_nil h.1

include hF hplain in
/-- What is known in the middle of a copy. -/
theorem CallState.fold {fuel : ℕ} {st : Walk O C} {looked : List Label}
    (h : CallState insts b₀ begun b c t) (hst : b.cloneMacro c t = .ok st)
    (hpre : looked <+: st.seenLabels.keys)
    (hlooked : looked.foldlM (expandSeen fuel c) st.builder = .ok b₁) :
    ∃ exitTo done, Cloned b c t exitTo done st ∧ Expanded b c t exitTo b₁ ∧ Nested c st looked b₁ ∧
      Outer b₀ begun b₁ := by
  obtain ⟨exitTo, done, hcl⟩ := cloneMacro_spec hst h.consistent h.fresh
  refine ⟨exitTo, done, hcl, ?_⟩
  refine expandSeen_fold (Outer b₀ begun) hcl hpre hlooked
    (h.expanded hF hplain hcl.child hcl.expanded) ?_
  intro b₁ b₂ l t' ret hout _ hhas hfresh hret he
  refine hout.nested (fun k hk => ?_) (copy_not_plain l c) hhas hfresh hret he
  obtain ⟨t', f', hmem⟩ := hk
  exact hplain _ (h.begins.subset hmem)

include hF hplain in
theorem CallMade.state {fuel : ℕ} (h : CallMade insts b₀ begun fuel b c t) :
    CallState insts b₀ begun b c t := by
  induction h with
  | @outer before after b c t f hinsts hb =>
    have hpre : before ++ [(c, .callLocal t f)] <+: insts := ⟨after, by simp [hinsts]⟩
    have hout := outer_fold hF hplain ((List.prefix_append _ _).trans hpre) hb
    refine ⟨hpre, hout.consistent, hout.fresh hF.distinct hplain hpre, ⟨f, ?_⟩,
      Or.inl ⟨before, f, rfl, hout⟩⟩
    rw [hout.instr c (plain_last hplain hpre) (not_isCall_last hF.distinct hpre)]
    exact hF.instr c _ (by simp [hinsts]) fun n hn => by cases hn
  | @nested begun fuel b b₁ c t l t' f st looked _ hst hpre hlooked hcall _ ih =>
    obtain ⟨exitTo, done, hcl, hexp, hnest, hout⟩ :=
      ih.fold hF hplain hst ((List.prefix_append _ _).trans hpre) hlooked
    exact ⟨ih.begins, hexp.consistent, hnest.fresh l (hcl.copy_ne hpre), ⟨f, hcall⟩,
      Or.inr ⟨copy_not_plain l c, hout⟩⟩

/-- The calls that come after a call in a copy leave its frame as it is. -/
theorem kept_rest {fuel : ℕ} {exitTo : Label} {st : Walk O C} {looked rest copied : List Label}
    {l : Label} (hcl : Cloned b c t exitTo copied st)
    (hkeys : st.seenLabels.keys = looked ++ l :: rest)
    (hnest : Nested c st (looked ++ [l]) b₁) (hexp : Expanded b c t exitTo b₁)
    (hleaves : ∀ l' y, st.seenLabels.contains l' → st.builder.Edge (l'.inFrame c.frame) y →
      y = exitTo ∨ y.stackFramePrefix = c.frame) (hapart : ¬ Inside c exitTo)
    (hrest : rest.foldlM (expandSeen fuel c) b₁ = .ok b₂) : Kept (l.inFrame c.frame) b₁ b₂ := by
  have hlast : Nested c st (looked ++ [l] ++ rest) b₂ ∧ Expanded b c t exitTo b₂ ∧
      Kept (l.inFrame c.frame) b₁ b₂ := by
    refine Except.foldlM_induction (fun rest' b₂ => Nested c st (looked ++ [l] ++ rest') b₂ ∧
      Expanded b c t exitTo b₂ ∧ Kept (l.inFrame c.frame) b₁ b₂) hrest
      ⟨by rwa [List.append_nil], hexp, Kept.refl _ _⟩ ?_
    rintro rest' l' b₁' b₂' hpre ⟨hnest', hexp', hkept⟩ hstep
    have hpre' : looked ++ [l] ++ rest' ++ [l'] <+: st.seenLabels.keys := by
      obtain ⟨rest'', hrest'⟩ := hpre
      exact ⟨rest'', by simp [hkeys, ← hrest']⟩
    have hne := hcl.copy_ne hpre'
    obtain ⟨hexp₂, hnest₂, hcase⟩ := hnest'.expandSeen (expands fuel) hexp' hne hstep
    rw [List.append_assoc] at hnest₂
    refine ⟨hnest₂, hexp₂, ?_⟩
    rcases hcase with rfl | ⟨t', ret, -, hfresh, hret, he⟩
    · exact hkept
    · refine hkept.step hexp'.consistent hfresh (apart_of_copy (hne l (by simp)).symm) ?_ he
      -- a call in the copy returns to the copy, or to where the copied call returns
      have hedge := (hnest'.edge _ ret rfl fun l'' hl'' heq => absurd heq (hne l'' hl'')).mp
        ((hret ret).mpr rfl)
      rcases hleaves l' ret (mem_set.mp (hpre'.subset (by simp))) hedge with rfl | hcopy
      · exact fun hin => hapart hin.of_inFrame
      · exact not_inside_of_prefix_eq hcopy
  exact hlast.2.2

include hF hplain in
/-- A call that is made in a construction that succeeds succeeds, and its frame stays. -/
theorem CallMade.result {fuel : ℕ} {bf : CfgBuilder O C} (h : CallMade insts b₀ begun fuel b c t)
    (hok : insts.foldlM CfgBuilder.expandCall b₀ = .ok bf) :
    ∃ b', addCfgNodes fuel b c t = .ok b' ∧ Kept c b' bf := by
  induction h with
  | outer hinsts hb => exact secondPass_spec hF hok hplain hinsts hb
  | @nested begun fuel b b₁ c t l t' f st looked hmade hst hpre hlooked hcall hlimit ih =>
    obtain ⟨b', hb', hkept⟩ := ih
    have hstate := hmade.state hF hplain
    obtain ⟨rest, hrest⟩ := hpre
    have hkeys : st.seenLabels.keys = looked ++ l :: rest := by rw [← hrest, List.append_assoc]; rfl
    have hpre : looked ++ [l] <+: st.seenLabels.keys := ⟨rest, hrest⟩
    rw [addCfgNodes_succ, hst] at hb'
    have hb' : (looked ++ l :: rest).foldlM (expandSeen fuel c) st.builder = .ok b' := hkeys ▸ hb'
    rw [List.foldlM_append] at hb'
    obtain ⟨b₁', hb₁', hb'⟩ := Except.bind_eq_ok.mp hb'
    obtain rfl := Except.ok.inj (hlooked.symm.trans hb₁')
    rw [List.foldlM_cons] at hb'
    obtain ⟨b₂, hb₂, hb'⟩ := Except.bind_eq_ok.mp hb'
    obtain ⟨exitTo, done, hcl, hexp, hnest, -⟩ :=
      hstate.fold hF hplain hst ((List.prefix_append _ _).trans hpre) hlooked
    obtain ⟨hexp₂, hnest₂, -⟩ := hnest.expandSeen (expands fuel) hexp (hcl.copy_ne hpre) hb₂
    obtain ⟨order, hcopy⟩ := cloneMacro_copyOf hst hstate.consistent hstate.fresh hcl.child
    refine ⟨b₂, ?_, ?_⟩
    · rcases expandSeen_cases hb₂ with ⟨t'', f'', ht, -, hadd⟩ | ⟨hnone, -⟩
      · obtain ⟨rfl, -⟩ := Instruction.callLocal.inj (Option.some.inj (hcall.symm.trans ht))
        exact hadd
      · exact absurd hcall (hnone t' f)
    · refine (kept_rest hcl hkeys hnest₂ hexp₂ (fun l' y hl' hy => ?_) ?_ hb').trans (hkept.inner l)
      · refine (hcopy.leaves l' (hcopy.seenWhy l' hl').1 y hy).imp_right ?_
        rintro ⟨n, -, rfl⟩
        rfl
      · exact fun hin => hstate.fresh exitTo hin
          (hstate.consistent.target _ _ ((hcl.child exitTo).mpr rfl))

end

/-! ## The functions that are called -/

/-- The calls of the graph are of functions in no frame. -/
def PlainTargets (b : CfgBuilder O C) : Prop :=
  ∀ x t f, b.instructions.find? x = some (.callLocal t f) → t.Plain

theorem cloneMacro_plainTargets {st : Walk O C} (h : b.cloneMacro c t = .ok st) (hb : b.Consistent)
    (hp : PlainTargets b) : PlainTargets st.builder := by
  obtain ⟨exitTo, b₁, fuel, st₁, b₂, -, hset, hwalk, hrem, rfl⟩ := cloneMacro_eq_ok h
  have hb₁ := consistent_setFrame hb hset
  have hp₁ : PlainTargets b₁ := by
    intro x t' f hx
    obtain ⟨f', hx⟩ := setFrame_call hset hx
    exact hp x t' f' hx
  have hwalked := walk_induction (fun _ st => st.builder.Consistent ∧ PlainTargets st.builder) hwalk
    ⟨hb₁, hp₁⟩ (fun _ _ h => h.1) ?_
  · obtain ⟨_, ⟨-, hdone⟩, -⟩ := hwalked
    intro x t' f hx
    exact hdone x t' f ((removeChild_relinks hrem).instr ▸ hx)
  · rintro _ st st' m ⟨hc, hp⟩ _ _ hs
    refine ⟨hs.adds.consistent hc, fun x t' f hx => ?_⟩
    rcases (hs.adds.has x).mp (((hs.adds.consistent hc).instr x).mpr ⟨_, hx⟩) with hhas | rfl
    · exact hp x t' f ((hs.adds.instr x hhas).symm.trans hx)
    · obtain ⟨i, hi, hcopy⟩ := hs.instr
      have heq := Option.some.inj (hcopy.symm.trans hx)
      cases i with
      | callLocal t'' f'' =>
        obtain ⟨rfl, -⟩ := Instruction.callLocal.inj heq
        exact hp m t'' f'' hi
      | _ => cases heq

/-- Inlining a call with the fuel makes no calls of other functions. -/
def KeepsTargets (O C : Type) (fuel : ℕ) : Prop :=
  ∀ (b : CfgBuilder O C) (c t : Label) (b' : CfgBuilder O C), addCfgNodes fuel b c t = .ok b' →
    b.Consistent → Fresh b c → PlainTargets b → PlainTargets b'

theorem expandSeen_plainTargets {fuel : ℕ} {st : Walk O C} {looked : List Label}
    (hkeeps : KeepsTargets O C fuel) (hst : b.cloneMacro c t = .ok st) (hb : b.Consistent)
    (hfresh : Fresh b c) (hp : PlainTargets b) (hpre : looked <+: st.seenLabels.keys)
    (hlooked : looked.foldlM (expandSeen fuel c) st.builder = .ok b₁) : PlainTargets b₁ := by
  obtain ⟨exitTo, done, hcl⟩ := cloneMacro_spec hst hb hfresh
  have key := Except.foldlM_induction (fun looked b₁ => Expanded b c t exitTo b₁ ∧
    Nested c st looked b₁ ∧ PlainTargets b₁) hlooked
    ⟨hcl.expanded, hcl.nested, cloneMacro_plainTargets hst hb hp⟩ ?_
  · exact key.2.2
  · rintro looked' l b₁ b₂ hpre' ⟨hexp, hnest, hp⟩ h
    have hne := hcl.copy_ne (hpre'.trans hpre)
    obtain ⟨hexp', hnest', -⟩ := hnest.expandSeen (expands fuel) hexp hne h
    refine ⟨hexp', hnest', ?_⟩
    rcases expandSeen_cases h with ⟨t', f, -, -, hadd⟩ | ⟨-, rfl⟩
    · exact hkeeps _ _ _ _ hadd hexp.consistent (hnest.fresh l hne) hp
    · exact hp

theorem keepsTargets (fuel : ℕ) : KeepsTargets O C fuel := by
  induction fuel with
  | zero =>
    intro b c t b' h
    cases h
  | succ fuel ih =>
    intro b c t b' h hb hfresh hp
    rw [addCfgNodes_succ] at h
    obtain ⟨st, hst, h⟩ := Except.bind_eq_ok.mp h
    exact expandSeen_plainTargets ih hst hb hfresh hp List.prefix_rfl h

section

variable (hF : FirstPass insts b₀) (hplain : ∀ e ∈ insts, e.1.Plain)
  (htargets : ∀ l t f, (l, .callLocal t f) ∈ insts → t.Plain)

include hF hplain htargets in
theorem CallMade.plainTargets {fuel : ℕ} (h : CallMade insts b₀ begun fuel b c t) :
    PlainTargets b := by
  induction h with
  | @outer before after b c t f hinsts hb =>
    have hstart : PlainTargets b₀ := by
      intro x t f hx
      rcases hF.origin x _ hx with hmem | hc | ⟨_, _, hc⟩
      · exact htargets x t f hmem
      · cases hc
      · cases hc
    have hpre : before <+: insts := ⟨_, hinsts.symm⟩
    have key := Except.foldlM_induction (fun done b => Outer b₀ done b ∧ PlainTargets b) hb
      ⟨outer_start hF.consistent (hF.plain hplain), hstart⟩ ?_
    · exact key.2
    · rintro done e b b' hpre' ⟨hout, hp⟩ hstep
      have hpre' := hpre'.trans hpre
      refine ⟨(hout.expandCall hF.distinct hplain hpre' hstep).1, ?_⟩
      obtain ⟨k, i⟩ := e
      unfold CfgBuilder.expandCall at hstep
      dsimp only at hstep
      split at hstep
      · exact keepsTargets _ _ _ _ _ hstep hout.consistent (hout.fresh hF.distinct hplain hpre') hp
      · exact Except.ok.inj hstep ▸ hp
  | nested hmade hst hpre hlooked _ _ ih =>
    have hstate := hmade.state hF hplain
    exact expandSeen_plainTargets (keepsTargets _) hst hstate.consistent hstate.fresh ih
      ((List.prefix_append _ _).trans hpre) hlooked

include hF hplain htargets in
theorem CallMade.plain_target {fuel : ℕ} (h : CallMade insts b₀ begun fuel b c t) : t.Plain := by
  obtain ⟨f, hf⟩ := (h.state hF hplain).caller
  exact h.plainTargets hF hplain htargets c t f hf

end

end CfgBuilder

end Prevail
