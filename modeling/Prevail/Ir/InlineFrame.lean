import Prevail.Ir.InlineWalk

/-!
# Inlining a call changes only its own frame

A call that is inlined makes labels in its frame and in frames below it. Outside these, the only
change is that the call now leads to the copy of the function it calls and no longer to its return
label (`Expanded`). Calls inside the copy are inlined in turn, each in its own frame, so that the
copy itself keeps its edges except for those of the calls in it (`Nested`).
-/

namespace Prevail

namespace CfgBuilder

variable {O C : Type} {b b' b₁ b₂ : CfgBuilder O C} {caller entry exitTo l x y : Label}
  {st : Walk O C}

/-- The label is in the frame of the call or in one below. -/
def Inside (caller x : Label) : Prop := caller.frame <+: x.stackFramePrefix

theorem inside_inFrame (caller l : Label) : Inside caller (l.inFrame caller.frame) :=
  List.prefix_rfl

theorem Inside.of_inFrame (h : Inside (l.inFrame caller.frame) x) : Inside caller x :=
  (List.prefix_append _ _).trans h

theorem not_inside_self (caller : Label) : ¬ Inside caller caller := by
  intro h
  have hlen := h.length_le
  rw [Label.frame, List.length_append, List.length_singleton] at hlen
  omega

theorem inside_of_prefix_eq (h : x.stackFramePrefix = caller.frame) : Inside caller x := by
  show caller.frame <+: x.stackFramePrefix
  exact h ▸ List.prefix_rfl

theorem not_inside_of_prefix_eq (h : x.stackFramePrefix = caller.frame) :
    ¬ Inside (l.inFrame caller.frame) x := by
  intro hx
  have hlen := hx.length_le
  rw [h] at hlen
  simp [Label.frame] at hlen

/-- Frames of different calls of one function are apart. -/
theorem eq_of_inside {l₁ l₂ : Label} (h₁ : Inside (l₁.inFrame caller.frame) x)
    (h₂ : Inside (l₂.inFrame caller.frame) x) :
    l₁.inFrame caller.frame = l₂.inFrame caller.frame := by
  have hlen : (l₁.inFrame caller.frame).frame.length = (l₂.inFrame caller.frame).frame.length := by
    simp [Label.frame]
  have heq := (List.prefix_of_prefix_length_le h₁ h₂ hlen.le).eq_of_length hlen
  have hlast := List.singleton_injective (List.append_cancel_left heq)
  rw [toLex_inj, Prod.mk.injEq] at hlast
  exact Label.ext rfl hlast.1 hlast.2 rfl

/-- Nothing is in the frame of the call yet. -/
def Fresh (b : CfgBuilder O C) (caller : Label) : Prop := ∀ x, Inside caller x → ¬ b.Has x

/-- `b'` is `b` with the call inlined, seen from outside its frame. -/
structure Expanded (b : CfgBuilder O C) (caller entry exitTo : Label) (b' : CfgBuilder O C) :
    Prop where
  consistent : b'.Consistent
  has : ∀ x, ¬ Inside caller x → (b'.Has x ↔ b.Has x)
  outside : ∀ x y, ¬ Inside caller x → ¬ Inside caller y →
    (b'.Edge x y ↔ b.Edge x y ∧ ¬ (x = caller ∧ y = exitTo))
  into : ∀ x y, ¬ Inside caller x → Inside caller y →
    (b'.Edge x y ↔ x = caller ∧ y = entry.inFrame caller.frame)
  out : ∀ x y, Inside caller x → ¬ Inside caller y → b'.Edge x y → y = exitTo
  instr : ∀ x, ¬ Inside caller x → x ≠ caller →
    b'.instructions.find? x = b.instructions.find? x

/-- Inlining a call inside the copy does not show from outside. -/
theorem Expanded.nested {t ret : Label} (h : Expanded b caller entry exitTo b₁)
    (hret : b₁.Edge (l.inFrame caller.frame) ret)
    (h' : Expanded b₁ (l.inFrame caller.frame) t ret b₂) :
    Expanded b caller entry exitTo b₂ := by
  have hin : ∀ x, ¬ Inside caller x → ¬ Inside (l.inFrame caller.frame) x ∧
      x ≠ l.inFrame caller.frame := by
    intro x hx
    refine ⟨fun hx' => hx hx'.of_inFrame, ?_⟩
    rintro rfl
    exact hx (inside_inFrame caller l)
  refine ⟨h'.consistent, fun x hx => ?_, fun x y hx hy => ?_, fun x y hx hy => ?_,
    fun x y hx hy hxy => ?_, fun x hx hxc => ?_⟩
  · rw [h'.has x (hin x hx).1, h.has x hx]
  · rw [h'.outside x y (hin x hx).1 (hin y hy).1, h.outside x y hx hy,
      and_iff_left fun hc => (hin x hx).2 hc.1]
  · by_cases hy' : Inside (l.inFrame caller.frame) y
    · rw [h'.into x y (hin x hx).1 hy']
      constructor
      · rintro ⟨rfl, -⟩
        exact absurd rfl (hin _ hx).2
      · rintro ⟨-, rfl⟩
        exact absurd hy' (not_inside_of_prefix_eq rfl)
    · rw [h'.outside x y (hin x hx).1 hy', h.into x y hx hy,
        and_iff_left fun hc => (hin x hx).2 hc.1]
  · by_cases hx' : Inside (l.inFrame caller.frame) x
    · obtain rfl := h'.out x y hx' (hin y hy).1 hxy
      exact h.out _ _ (inside_inFrame caller l) hy hret
    · exact h.out x y hx hy ((h'.outside x y hx' (hin y hy).1).mp hxy).1
  · rw [h'.instr x (hin x hx).1 (hin x hx).2, h.instr x hx hxc]

/-! ## The copy of one function -/

/-- What `cloneMacro` has done. -/
structure Cloned (b : CfgBuilder O C) (caller entry exitTo : Label) (done : List Label)
    (st : Walk O C) : Prop where
  child : ∀ z, b.Edge caller z ↔ z = exitTo
  expanded : Expanded b caller entry exitTo st.builder
  nodup : (done.map (·.inFrame caller.frame)).Nodup
  seen : ∀ x, st.seenLabels.contains x → x ∈ done
  has : ∀ x, Inside caller x → (st.builder.Has x ↔ ∃ m ∈ done, x = m.inFrame caller.frame)

theorem Copied.cloned {done : List Label} (hb : b.Consistent)
    (hfresh : Fresh b caller) (hchild : ∀ z, b.Edge caller z ↔ z = exitTo)
    (hset : b.setFrame caller = .ok b₁) (h : Copied b₁ caller entry exitTo done st)
    (hdone : done ≠ []) (hrem : st.builder.removeChild caller exitTo = .ok b₂) :
    Cloned b caller entry exitTo done { st with builder := b₂ } := by
  obtain ⟨hcfg, hinstr, -, -⟩ := setFrame_spec hset
  obtain ⟨hhas, hedge, hcons, hsame⟩ := removeChild_spec hrem h.consistent
  have hHas : ∀ x, b₁.Has x ↔ b.Has x := fun x => by unfold Has; rw [hcfg]
  have hEdge : ∀ x y, b₁.Edge x y ↔ b.Edge x y := fun x y => by unfold Edge; rw [hcfg]
  have hout : ∀ x, b.Has x → ¬ Inside caller x := fun x hx hin => hfresh x hin hx
  have hcaller : ¬ Inside caller caller := hout _ ((hchild exitTo).mpr rfl).source
  have hexit : ¬ Inside caller exitTo := hout _ (hb.target _ _ ((hchild exitTo).mpr rfl))
  refine ⟨hchild, ⟨hcons, fun x hx => ?_, fun x y hx hy => ?_, fun x y hx hy => ?_,
    fun x y hx hy hxy => ?_, fun x hx hxc => ?_⟩, h.nodup, fun x hx => ?_, fun x hx => ?_⟩
  · rw [hhas, h.has, hHas, or_iff_left]
    rintro ⟨m, -, rfl⟩
    exact hx (inside_inFrame caller m)
  · rw [hedge]
    refine and_congr_left fun _ => ⟨fun hxy => ?_, fun hxy => h.edgeOld x y ((hEdge x y).mpr hxy)⟩
    rcases h.edgeNew x y hxy with hxy | ⟨-, rfl⟩ | ⟨hp, -⟩
    · exact (hEdge x y).mp hxy
    · exact absurd (inside_inFrame caller entry) hy
    · exact absurd (inside_of_prefix_eq hp) hx
  · rw [hedge]
    constructor
    · rintro ⟨hxy, -⟩
      rcases h.edgeNew x y hxy with hxy | hxy | ⟨hp, -⟩
      · exact absurd hy (hout _ (hb.target _ _ ((hEdge x y).mp hxy)))
      · exact hxy
      · exact absurd (inside_of_prefix_eq hp) hx
    · rintro ⟨rfl, rfl⟩
      refine ⟨h.call hdone, fun hc => ?_⟩
      rw [← hc.2] at hexit
      exact hexit (inside_inFrame _ entry)
  · rcases h.edgeNew x y ((hedge x y).mp hxy).1 with hxy | ⟨rfl, -⟩ | ⟨-, hp | rfl⟩
    · exact absurd hx (hout _ ((hEdge x y).mp hxy).source)
    · exact absurd hx hcaller
    · exact absurd (inside_of_prefix_eq hp) hy
    · rfl
  · show b₂.instructions.find? x = _
    rw [hsame]
    by_cases hxb : b.Has x
    · rw [h.instr x ((hHas x).mpr hxb), hinstr x hxc]
    · have hx₂ : ¬ st.builder.Has x := by
        rw [h.has, hHas, not_or]
        refine ⟨hxb, ?_⟩
        rintro ⟨m, -, rfl⟩
        exact hx (inside_inFrame caller m)
      have hnone : ∀ (b : CfgBuilder O C), b.Consistent → ¬ b.Has x →
          b.instructions.find? x = none := by
        intro b hb hx
        rw [Option.eq_none_iff_forall_ne_some]
        exact fun i hi => hx ((hb.instr x).mpr ⟨i, hi⟩)
      rw [hnone _ h.consistent hx₂, hnone _ hb hxb]
  · rcases h.seen x hx with hx | rfl
    · exact hx
    · exact h.entryDone hdone
  · show b₂.Has x ↔ _
    rw [hhas, h.has, hHas, or_iff_right (hfresh x hx)]

theorem consistent_setFrame (hb : b.Consistent) (h : b.setFrame caller = .ok b') :
    b'.Consistent := by
  obtain ⟨hcfg, hinstr, hcaller, hcaller'⟩ := setFrame_spec h
  refine ⟨fun x y => ?_, fun x y hxy => ?_, fun x => ?_⟩
  · unfold Parent Edge
    rw [hcfg]
    exact hb.parent x y
  · unfold Has
    rw [hcfg]
    unfold Edge at hxy
    rw [hcfg] at hxy
    exact hb.target x y hxy
  · have hhas : b'.Has x ↔ b.Has x := by unfold Has; rw [hcfg]
    rw [hhas]
    by_cases hx : x = caller
    · subst hx
      exact ⟨fun _ => hcaller', fun _ => (hb.instr x).mpr hcaller⟩
    · rw [hinstr x hx, hb.instr]

/-- The walk starts with nothing but the first label of the function. -/
def Walk.start (b : CfgBuilder O C) (entry : Label) : Walk O C :=
  ⟨b, (∅ : LabelSet).insert entry (), (∅ : LabelSet).insert entry (), true⟩

theorem mem_start : ((∅ : LabelSet).insert entry ()).contains x ↔ x = entry := by
  rw [contains_insert, or_iff_left]
  intro hx
  cases hx

theorem cloneMacro_eq_ok (h : b.cloneMacro caller entry = .ok st) :
    ∃ exitTo b₁ fuel st₁ b₂, (∀ z, b.Edge caller z ↔ z = exitTo) ∧ b.setFrame caller = .ok b₁ ∧
      walk caller exitTo fuel (Walk.start b₁ entry) = .ok st₁ ∧
      st₁.builder.removeChild caller exitTo = .ok b₂ ∧ st = { st₁ with builder := b₂ } := by
  unfold cloneMacro at h
  obtain ⟨exitTo, hexit, h⟩ := Except.bind_eq_ok.mp h
  obtain ⟨b₁, hset, h⟩ := Except.bind_eq_ok.mp h
  obtain ⟨st₁, hwalk, h⟩ := Except.bind_eq_ok.mp h
  obtain ⟨b₂, hrem, h⟩ := Except.bind_eq_ok.mp h
  exact ⟨exitTo, b₁, _, st₁, b₂, getChild_eq_ok hexit, hset, hwalk, hrem, (Except.ok.inj h).symm⟩

theorem copied_start (hb : b.Consistent) :
    Copied b caller entry exitTo [] (Walk.start b entry) :=
  ⟨hb, by simp, fun _ _ => mem_start, by simp [Walk.start], by simp,
    fun _ hx => Or.inr (mem_start.mp hx), by simp [Walk.start], fun _ _ => id, fun _ _ => Or.inl,
    by simp, fun _ _ => rfl⟩

theorem cloneMacro_spec (h : b.cloneMacro caller entry = .ok st) (hb : b.Consistent)
    (hfresh : Fresh b caller) :
    ∃ exitTo done, Cloned b caller entry exitTo done st := by
  obtain ⟨exitTo, b₁, fuel, st₁, b₂, hexit, hset, hwalk, hrem, rfl⟩ := cloneMacro_eq_ok h
  have hb₁ := consistent_setFrame hb hset
  obtain ⟨done, hcopied, hend⟩ := walk_induction (Copied b₁ caller entry exitTo) hwalk
    (copied_start hb₁) (fun _ _ h => h.consistent) fun done st st' m h hm _ hs => h.step hm hs
  have hdone : done ≠ [] := fun hd => hend entry ((hcopied.start hd entry).mpr rfl)
  exact ⟨exitTo, done, hcopied.cloned hb hfresh hexit hset hdone hrem⟩

/-! ## The calls inside the copy -/

/-- The label of the copy is a call of `t`. -/
def Calls (st : Walk O C) (x t : Label) : Prop :=
  ∃ f, st.builder.instructions.find? x = some (.callLocal t f)

/-- The copy after the calls among the labels `looked` have been inlined. -/
structure Nested (caller : Label) (st : Walk O C) (looked : List Label) (b' : CfgBuilder O C) :
    Prop where
  edge : ∀ x y, x.stackFramePrefix = caller.frame →
    (∀ l ∈ looked, x = l.inFrame caller.frame → ∀ t, ¬ Calls st x t) →
    (b'.Edge x y ↔ st.builder.Edge x y)
  called : ∀ l ∈ looked, ∀ t, Calls st (l.inFrame caller.frame) t →
    ∀ z, b'.Edge (l.inFrame caller.frame) z ↔ z = t.inFrame (l.inFrame caller.frame).frame
  instr : ∀ x, x.stackFramePrefix = caller.frame →
    (∀ l ∈ looked, x = l.inFrame caller.frame → ∀ t, ¬ Calls st x t) →
    b'.instructions.find? x = st.builder.instructions.find? x
  has : ∀ x, x.stackFramePrefix = caller.frame → (b'.Has x ↔ st.builder.Has x)
  fresh : ∀ l : Label, (∀ l' ∈ looked, l.inFrame caller.frame ≠ l'.inFrame caller.frame) →
    Fresh b' (l.inFrame caller.frame)
  deep : ∀ x, Inside caller x → b'.Has x → x.stackFramePrefix = caller.frame ∨
    ∃ l ∈ looked, (∃ t, Calls st (l.inFrame caller.frame) t) ∧ Inside (l.inFrame caller.frame) x
  back : ∀ l ∈ looked, ∀ x y, Inside (l.inFrame caller.frame) x →
    y.stackFramePrefix = caller.frame → b'.Edge x y → st.builder.Edge (l.inFrame caller.frame) y
  single : ∀ l ∈ looked, ∀ t, Calls st (l.inFrame caller.frame) t →
    ∃ ret, ∀ z, st.builder.Edge (l.inFrame caller.frame) z ↔ z = ret

theorem Cloned.nested {done : List Label} (h : Cloned b caller entry exitTo done st) :
    Nested caller st [] st.builder := by
  refine ⟨fun _ _ _ _ => Iff.rfl, by simp, fun _ _ _ => rfl, fun _ _ => Iff.rfl,
    fun l _ x hx hhas => ?_, fun x hx hhas => ?_, by simp, by simp⟩
  · obtain ⟨m, -, rfl⟩ := (h.has x hx.of_inFrame).mp hhas
    exact not_inside_of_prefix_eq rfl hx
  · obtain ⟨m, -, rfl⟩ := (h.has x hx).mp hhas
    exact Or.inl rfl

/-- The call at one more label is inlined. -/
theorem Nested.call {looked : List Label} {t ret : Label} (h : Nested caller st looked b₁)
    (hb : b₁.Consistent) (hl : ∀ l' ∈ looked, l.inFrame caller.frame ≠ l'.inFrame caller.frame)
    (ht : Calls st (l.inFrame caller.frame) t)
    (hret : ∀ z, b₁.Edge (l.inFrame caller.frame) z ↔ z = ret)
    (h' : Expanded b₁ (l.inFrame caller.frame) t ret b₂) :
    Nested caller st (looked ++ [l]) b₂ := by
  have hfresh := h.fresh l hl
  -- what is inside the new frame has no edges from the copy
  have hnone : ∀ x y, Inside (l.inFrame caller.frame) y → ¬ b₁.Edge x y :=
    fun x y hy hxy => hfresh y hy (hb.target x y hxy)
  have hkeep : ∀ x y, x.stackFramePrefix = caller.frame → x ≠ l.inFrame caller.frame →
      (b₂.Edge x y ↔ b₁.Edge x y) := by
    intro x y hx hne
    by_cases hy : Inside (l.inFrame caller.frame) y
    · rw [h'.into x y (not_inside_of_prefix_eq hx) hy, iff_false_right (hnone x y hy)]
      exact fun hc => hne hc.1
    · rw [h'.outside x y (not_inside_of_prefix_eq hx) hy, and_iff_left fun hc => hne hc.1]
  have hstay : ∀ x, Inside (l.inFrame caller.frame) x → ∀ l' ∈ looked,
      ¬ Inside (l'.inFrame caller.frame) x := fun x hx l' hl' hx' => hl l' hl' (eq_of_inside hx hx')
  have hold : ∀ z, b₁.Edge (l.inFrame caller.frame) z ↔ st.builder.Edge (l.inFrame caller.frame) z :=
    fun z => h.edge _ z rfl fun l' hl' heq => absurd heq (hl l' hl')
  refine ⟨fun x y hx hcall => ?_, fun l' hl' t' ht' z => ?_, fun x hx hcall => ?_, fun x hx => ?_,
    fun l' hl' x hx hhas => ?_, fun x hx hhas => ?_, fun l' hl' x y hx hy hxy => ?_,
    fun l' hl' t' ht' => ?_⟩
  · rw [hkeep x y hx, h.edge x y hx fun l' hl' => hcall l' (List.mem_append_left _ hl')]
    rintro rfl
    exact hcall l (by simp) rfl t ht
  · rcases List.mem_append.mp hl' with hl' | hl'
    · rw [hkeep _ z rfl (Ne.symm (hl l' hl')), h.called l' hl' t' ht']
    · obtain rfl := List.mem_singleton.mp hl'
      obtain ⟨f, hf⟩ := ht
      obtain ⟨f', hf'⟩ := ht'
      obtain ⟨rfl, -⟩ := Instruction.callLocal.inj (Option.some.inj (hf.symm.trans hf'))
      by_cases hz : Inside (l'.inFrame caller.frame) z
      · rw [h'.into _ z (not_inside_of_prefix_eq rfl) hz, and_iff_right rfl]
      · rw [h'.outside _ z (not_inside_of_prefix_eq rfl) hz, hret]
        constructor
        · rintro ⟨rfl, hc⟩
          exact absurd ⟨rfl, rfl⟩ hc
        · rintro rfl
          exact absurd (inside_inFrame _ t) hz
  · rw [h'.instr x (not_inside_of_prefix_eq hx),
      h.instr x hx fun l' hl' => hcall l' (List.mem_append_left _ hl')]
    rintro rfl
    exact hcall l (by simp) rfl t ht
  · rw [h'.has x (not_inside_of_prefix_eq hx), h.has x hx]
  · have hx' : ¬ Inside (l.inFrame caller.frame) x := fun hin =>
      hl' l (by simp) (eq_of_inside hx hin)
    exact h.fresh l' (fun l'' hl'' => hl' l'' (List.mem_append_left _ hl'')) x hx
      ((h'.has x hx').mp hhas)
  · by_cases hx' : Inside (l.inFrame caller.frame) x
    · exact Or.inr ⟨l, by simp, ⟨t, ht⟩, hx'⟩
    · refine (h.deep x hx ((h'.has x hx').mp hhas)).imp_right ?_
      rintro ⟨l', hl', hcall⟩
      exact ⟨l', List.mem_append_left _ hl', hcall⟩
  · rcases List.mem_append.mp hl' with hl' | hl'
    · have hx' : ¬ Inside (l.inFrame caller.frame) x := fun hin => hstay x hin l' hl' hx
      rw [h'.outside x y hx' (not_inside_of_prefix_eq hy)] at hxy
      exact h.back l' hl' x y hx hy hxy.1
    · obtain rfl := List.mem_singleton.mp hl'
      obtain rfl := h'.out x y hx (not_inside_of_prefix_eq hy) hxy
      exact (hold y).mp ((hret y).mpr rfl)
  · rcases List.mem_append.mp hl' with hl' | hl'
    · exact h.single l' hl' t' ht'
    · obtain rfl := List.mem_singleton.mp hl'
      exact ⟨ret, fun z => (hold z).symm.trans (hret z)⟩

/-- A label that is no call stays as it is. -/
theorem Nested.skip {looked : List Label} (h : Nested caller st looked b₁)
    (hl : ∀ l' ∈ looked, l.inFrame caller.frame ≠ l'.inFrame caller.frame)
    (hcall : ∀ t, ¬ Calls st (l.inFrame caller.frame) t) :
    Nested caller st (looked ++ [l]) b₁ := by
  have hmem : ∀ l', l' ∈ looked ++ [l] ↔ l' ∈ looked ∨ l' = l := by simp
  refine ⟨fun x y hx hcall => h.edge x y hx fun l' hl' => hcall l' ((hmem l').mpr (Or.inl hl')),
    fun l' hl' t ht z => ?_,
    fun x hx hcall => h.instr x hx fun l' hl' => hcall l' ((hmem l').mpr (Or.inl hl')), h.has,
    fun l' hl' => h.fresh l' fun l'' hl'' => hl' l'' ((hmem l'').mpr (Or.inl hl'')),
    fun x hx hhas => ?_, fun l' hl' x y hx hy hxy => ?_, fun l' hl' t ht => ?_⟩
  · rcases (hmem l').mp hl' with hl' | rfl
    · exact h.called l' hl' t ht z
    · exact absurd ht (hcall t)
  · refine (h.deep x hx hhas).imp_right ?_
    rintro ⟨l', hl', hin⟩
    exact ⟨l', (hmem l').mpr (Or.inl hl'), hin⟩
  · rcases (hmem l').mp hl' with hl' | rfl
    · exact h.back l' hl' x y hx hy hxy
    · exact absurd hxy.source (h.fresh l' hl x hx)
  · rcases (hmem l').mp hl' with hl' | rfl
    · exact h.single l' hl' t ht
    · exact absurd ht (hcall t)

/-- Look at one label that was seen. -/
def expandSeen (fuel : ℕ) (caller : Label) (b : CfgBuilder O C) (l : Label) :
    Except BuildError (CfgBuilder O C) := do
  match ← b.instructionAt (l.inFrame caller.frame) with
  | .callLocal target _ =>
    if maxCallStackFrames ≤ caller.stackFramePrefix.length + 2 then
      .error .tooManyCallStackFrames
    else addCfgNodes fuel b (l.inFrame caller.frame) target
  | _ => .ok b

theorem addCfgNodes_succ (fuel : ℕ) (b : CfgBuilder O C) (caller entry : Label) :
    addCfgNodes (fuel + 1) b caller entry = b.cloneMacro caller entry >>= fun st =>
      st.seenLabels.keys.foldlM (expandSeen fuel caller) st.builder := rfl

theorem expandSeen_cases {fuel : ℕ} (h : expandSeen fuel caller b₁ l = .ok b₂) :
    (∃ t f, b₁.instructions.find? (l.inFrame caller.frame) = some (.callLocal t f) ∧
      ¬ maxCallStackFrames ≤ caller.stackFramePrefix.length + 2 ∧
      addCfgNodes fuel b₁ (l.inFrame caller.frame) t = .ok b₂) ∨
    (∀ t f, b₁.instructions.find? (l.inFrame caller.frame) ≠ some (.callLocal t f)) ∧ b₂ = b₁ := by
  unfold expandSeen at h
  obtain ⟨i, hi, h⟩ := Except.bind_eq_ok.mp h
  rw [instructionAt_eq_ok] at hi
  split at h
  · next t f =>
    split_ifs at h with hlimit
    exact Or.inl ⟨t, f, hi, hlimit, h⟩
  · next hcall =>
    exact Or.inr ⟨fun t f ht => hcall t f (Option.some.inj (hi.symm.trans ht)), (Except.ok.inj h).symm⟩

/-- The labels that were looked at are copied to other labels. -/
theorem Cloned.copy_ne {done looked : List Label} (h : Cloned b caller entry exitTo done st)
    (hpre : looked ++ [l] <+: st.seenLabels.keys) :
    ∀ l' ∈ looked, l.inFrame caller.frame ≠ l'.inFrame caller.frame := by
  have hseen : ∀ l' ∈ looked ++ [l], l' ∈ done := fun l' hl' => h.seen l' (mem_set.mp (hpre.subset hl'))
  have hnodup := hpre.sublist.nodup st.seenLabels.nodup_keys
  intro l' hl' heq
  obtain rfl := List.inj_on_of_nodup_map h.nodup (hseen l (by simp))
    (hseen l' (List.mem_append_left _ hl')) heq
  exact (List.nodup_append.mp hnodup).2.2 l hl' l (by simp) rfl

/-- What `addCfgNodes` with the fuel does to graphs. -/
def Expands (O C : Type) (fuel : ℕ) : Prop :=
  ∀ (b : CfgBuilder O C) (caller entry : Label) (b' : CfgBuilder O C),
    addCfgNodes fuel b caller entry = .ok b' → b.Consistent → Fresh b caller →
      ∃ exitTo, (∀ z, b.Edge caller z ↔ z = exitTo) ∧ Expanded b caller entry exitTo b'

/-- One label that was seen: nothing changes, or the call at its copy is inlined. -/
theorem Nested.expandSeen {fuel : ℕ} {looked : List Label} (hspec : Expands O C fuel)
    (hexp : Expanded b caller entry exitTo b₁) (hnest : Nested caller st looked b₁)
    (hne : ∀ l' ∈ looked, l.inFrame caller.frame ≠ l'.inFrame caller.frame)
    (h : CfgBuilder.expandSeen fuel caller b₁ l = .ok b₂) :
    Expanded b caller entry exitTo b₂ ∧ Nested caller st (looked ++ [l]) b₂ ∧
      (b₂ = b₁ ∨ ∃ t ret, b₁.Has (l.inFrame caller.frame) ∧ Fresh b₁ (l.inFrame caller.frame) ∧
        (∀ z, b₁.Edge (l.inFrame caller.frame) z ↔ z = ret) ∧
        Expanded b₁ (l.inFrame caller.frame) t ret b₂) := by
  have hfind := hnest.instr _ rfl fun l' hl' heq => absurd heq (hne l' hl')
  have hfresh := hnest.fresh l hne
  rcases expandSeen_cases h with ⟨t, f, ht, -, hadd⟩ | ⟨hnone, rfl⟩
  · obtain ⟨ret, hret, hexp'⟩ := hspec _ _ _ _ hadd hexp.consistent hfresh
    refine ⟨hexp.nested ((hret ret).mpr rfl) hexp', ?_, Or.inr ⟨t, ret, ?_, hfresh, hret, hexp'⟩⟩
    · exact hnest.call hexp.consistent hne ⟨f, hfind.symm.trans ht⟩ hret hexp'
    · exact (hexp.consistent.instr _).mpr ⟨_, ht⟩
  · refine ⟨hexp, hnest.skip hne ?_, Or.inl rfl⟩
    rintro t ⟨f, hf⟩
    exact hnone t f (hfind.trans hf)

theorem addCfgNodes_spec (fuel : ℕ) (h : addCfgNodes fuel b caller entry = .ok b')
    (hb : b.Consistent) (hfresh : Fresh b caller) :
    ∃ exitTo done st, b.cloneMacro caller entry = .ok st ∧ Cloned b caller entry exitTo done st ∧
      Expanded b caller entry exitTo b' ∧ Nested caller st st.seenLabels.keys b' := by
  induction fuel generalizing b caller entry b' with
  | zero => cases h
  | succ fuel ih =>
    rw [addCfgNodes_succ] at h
    obtain ⟨st, hst, h⟩ := Except.bind_eq_ok.mp h
    obtain ⟨exitTo, done, hcl⟩ := cloneMacro_spec hst hb hfresh
    have hspec : Expands O C fuel := fun b caller entry b' h hb hfresh => by
      obtain ⟨exitTo, _, _, -, hcl, hexp, -⟩ := ih h hb hfresh
      exact ⟨exitTo, hcl.child, hexp⟩
    refine ⟨exitTo, done, st, hst, hcl, ?_⟩
    refine Except.foldlM_induction (fun looked b' => Expanded b caller entry exitTo b' ∧
      Nested caller st looked b') h ⟨hcl.expanded, hcl.nested⟩ ?_
    intro looked l b₁ b₂ hpre ⟨hexp, hnest⟩ hstep
    obtain ⟨hexp', hnest', -⟩ := hnest.expandSeen hspec hexp (hcl.copy_ne hpre) hstep
    exact ⟨hexp', hnest'⟩

theorem expands (fuel : ℕ) : Expands O C fuel := by
  intro b caller entry b' h hb hfresh
  obtain ⟨exitTo, _, _, -, hcl, hexp, -⟩ := addCfgNodes_spec fuel h hb hfresh
  exact ⟨exitTo, hcl.child, hexp⟩

/-- Inlining a call leaves the edges of all labels outside. -/
theorem Expanded.edge_keep (h : Expanded b caller entry exitTo b') (hb : b.Consistent)
    (hfresh : Fresh b caller) (hx : ¬ Inside caller x) (hne : x ≠ caller) (y : Label) :
    b'.Edge x y ↔ b.Edge x y := by
  by_cases hy : Inside caller y
  · rw [h.into x y hx hy]
    exact iff_of_false (fun hc => hne hc.1) fun hxy => hfresh y hy (hb.target x y hxy)
  · rw [h.outside x y hx hy, and_iff_left fun hc => hne hc.1]

/-- A call that is inlined leads to the copy. -/
theorem Expanded.edge_caller (h : Expanded b caller entry exitTo b')
    (hret : ∀ z, b.Edge caller z ↔ z = exitTo) (y : Label) :
    b'.Edge caller y ↔ y = entry.inFrame caller.frame := by
  have hself := not_inside_self caller
  by_cases hy : Inside caller y
  · rw [h.into caller y hself hy, and_iff_right rfl]
  · rw [h.outside caller y hself hy, hret]
    refine iff_of_false (fun hc => hc.2 ⟨rfl, hc.1⟩) ?_
    rintro rfl
    exact hy (inside_inFrame caller entry)

/-- What the labels that were looked at have changed. -/
theorem expandSeen_fold {fuel : ℕ} {done looked : List Label} (P : CfgBuilder O C → Prop)
    (hcl : Cloned b caller entry exitTo done st) (hpre : looked <+: st.seenLabels.keys)
    (hfold : looked.foldlM (expandSeen fuel caller) st.builder = .ok b₁) (h0 : P st.builder)
    (hstep : ∀ (b₁ b₂ : CfgBuilder O C) (l t ret : Label), P b₁ → b₁.Consistent →
      b₁.Has (l.inFrame caller.frame) → Fresh b₁ (l.inFrame caller.frame) →
      (∀ z, b₁.Edge (l.inFrame caller.frame) z ↔ z = ret) →
      Expanded b₁ (l.inFrame caller.frame) t ret b₂ → P b₂) :
    Expanded b caller entry exitTo b₁ ∧ Nested caller st looked b₁ ∧ P b₁ := by
  refine Except.foldlM_induction (fun looked b' => Expanded b caller entry exitTo b' ∧
    Nested caller st looked b' ∧ P b') hfold ⟨hcl.expanded, hcl.nested, h0⟩ ?_
  rintro looked' l b₁ b₂ hpre' ⟨hexp, hnest, hP⟩ h
  obtain ⟨hexp', hnest', hcase⟩ :=
    hnest.expandSeen (expands fuel) hexp (hcl.copy_ne (hpre'.trans hpre)) h
  refine ⟨hexp', hnest', ?_⟩
  rcases hcase with rfl | ⟨t, ret, hhas, hfresh, hret, hcall⟩
  · exact hP
  · exact hstep b₁ b₂ l t ret hP hexp.consistent hhas hfresh hret hcall

end CfgBuilder

end Prevail
