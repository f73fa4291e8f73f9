import Prevail.Ir.Duplicate
import Prevail.Ir.Inlined

/-!
# Every call gets its own copy of its function

The walk over a function puts a label into `seenLabels` only when it finds one of the label's
successors unseen. A label that is left out is copied again when a later label leads to it, which
fails with a duplicate label, and a call that is left out is not expanded. `WalksOnce` says when
neither happens, of the graph in which a call is made.

1. A walk that is in order meets no label twice (`cloneMacro_unique`) and sees every call.
2. So the calls in the copy are expanded, and those in their copies in turn (`addCfgNodes_calls`).
3. A construction that succeeds and expands every call has walked in order each time
   (`CallMade.walksOnce`).
-/

namespace Prevail

namespace CfgBuilder

variable {O C : Type} {b b' b₀ b₁ b₂ : CfgBuilder O C} {caller entry exitTo m t x y : Label}
  {st st' : Walk O C} {done order : List Label} {f : Frame} {insts begun : InstructionSeq O C}

/-- The walk over the function at `t` for the call `c` comes to no label twice and sees the calls. A
label other than the first is seen when one of its successors comes after it; a label that leads to
itself is seen in time only when that successor is smaller. -/
structure WalksOnce (b : CfgBuilder O C) (c t : Label) (order : List Label) : Prop where
  search : SearchOrder b.Step t order
  nodup : (order.map (·.inFrame c.frame)).Nodup
  notCaller : c ∉ order
  back : ∀ p ∈ order, ∀ n ∈ order, b.Step p n → order.idxOf n ≤ order.idxOf p → n = t ∨
    ∃ y, b.Step n y ∧ order.idxOf n < order.idxOf y ∧ (n = p → y < n)
  call : ∀ m ∈ order, ∀ t', CallAt b m t' → m = t ∨ ∃ y, b.Step m y ∧ order.idxOf m < order.idxOf y

/-- The walk reads the edges, and which labels are calls. -/
theorem WalksOnce.congr {c : Label} (h : WalksOnce b c t order) (hedge : b.Edge = b'.Edge)
    (hinstr : ∀ p ∈ order, b.instructions.find? p = b'.instructions.find? p) :
    WalksOnce b' c t order := by
  have hstep : b.Step = b'.Step := by
    funext x y
    unfold Step
    rw [hedge]
  refine ⟨hstep ▸ h.search, h.nodup, h.notCaller, hstep ▸ h.back, fun m hm t' hcall => ?_⟩
  unfold CallAt at hcall
  rw [← hinstr m hm] at hcall
  exact hstep ▸ h.call m hm t' hcall

/-! ## One walk -/

section

variable (h : Ordered b caller entry exitTo done st) (hm : st.macroLabels.contains m)
  (hs : WalkLabel caller exitTo { st with macroLabels := st.macroLabels.erase m } m st')
  (hmin : ∀ x, st.macroLabels.contains x → m ≤ x) (hwalk : WalksOnce b caller entry order)

include h hm hs hmin hwalk in
theorem Ordered.step_prefix : done ++ [m] <+: order :=
  (h.step_visits hm hs hmin).prefix_searchOrder hwalk.search

include h hm hs hmin hwalk in
/-- What is queued is not copied yet. -/
theorem Ordered.step_queue_new (hnew : ∀ x, st.macroLabels.contains x → x ∉ done) :
    ∀ x, st'.macroLabels.contains x → x ∉ done ++ [m] := by
  obtain ⟨rest, hrest⟩ := h.step_prefix hm hs hmin hwalk
  have hin : ∀ p ∈ done ++ [m], p ∈ order := fun p hp => hrest ▸ List.mem_append_left rest hp
  have hc : m ≠ caller := fun hmc => hwalk.notCaller (hmc ▸ hin m (by simp))
  have hlast : m ∉ done := hnew m hm
  have hfrom := h.edge_from hs.frame hc
  intro x hx hmem
  rcases hs.macroSub x hx with hq | ⟨hedge | ⟨-, hmc, -⟩, hexit, hseen⟩
  · obtain ⟨hne, hq⟩ := contains_erase.mp hq
    rcases List.mem_append.mp hmem with hd | hd
    · exact hnew x hq hd
    · exact hne (List.mem_singleton.mp hd)
  · have hmx : b.Step m x := ⟨(hfrom x).mp hedge, hexit⟩
    have hidx : ∀ p ∈ done ++ [m], order.idxOf p = (done ++ [m]).idxOf p := fun p hp => by
      rw [← hrest, List.idxOf_append_of_mem hp]
    have hle : order.idxOf x ≤ order.idxOf m := by
      rw [hidx x hmem, hidx m (by simp), List.idxOf_concat_self hlast]
      have hlt := List.idxOf_lt_length_of_mem hmem
      rw [List.length_append, List.length_singleton] at hlt
      omega
    rcases hwalk.back m (hin m (by simp)) x (hin x hmem) hmx hle with rfl | ⟨y, hxy, hlt, hself⟩
    · exact hseen h.seenEntry
    rcases List.mem_append.mp hmem with hd | hd
    · -- `x` was copied before, when its successor `y` was not
      refine hseen (h.seenOn x hd y hxy ?_)
      by_cases hy : y ∈ done
      · rw [hidx x hmem, hidx y (List.mem_append_left _ hy), List.idxOf_concat_lt_iff hd] at hlt
        exact hlt.le
      · rw [List.idxOf_of_notMem hy]
        exact List.idxOf_le_length
    · -- `m` leads to itself, and to the smaller `y`, which is not seen yet
      obtain rfl := List.mem_singleton.mp hd
      have hy : y ∉ done ++ [x] := by
        intro hy
        rw [hidx x hmem, hidx y hy] at hlt
        exact (List.idxOf_concat_self_lt_iff hlast).mp hlt hy
      rcases (hs.macroSelf hc hexit hedge hseen).mp hx with hq | hall
      · exact (contains_erase.mp hq).1 rfl
      · exact h.not_seen hm hy (hall y ((hfrom y).mpr hxy.1) (hself rfl) hxy.2)
  · exact hwalk.notCaller (hmc ▸ hin m (by simp))

end

/-- A walk in order meets no label twice. -/
theorem cloneMacro_unique (hb : b.Consistent) (hfresh : Fresh b caller)
    (hwalk : WalksOnce b caller entry order) : Unique (b.cloneMacro caller entry) := by
  unfold cloneMacro
  refine Cfg.getChild_unique.bind fun exitTo hexit => ?_
  refine setFrame_unique.bind fun b₁ hset => ?_
  refine Except.FailsOnly.bind ?_ fun st _ => removeChild_unique.bind fun _ _ => by simp
  have hEdge := setFrame_edge hset
  have hb₁ := consistent_setFrame hb hset
  have hfresh₁ := hfresh.setFrame hset
  have hret₁ : b₁.Edge caller exitTo := by
    rw [hEdge]
    exact (getChild_eq_ok hexit exitTo).mpr rfl
  have hwalk₁ : WalksOnce b₁ caller entry order := by
    refine hwalk.congr hEdge.symm fun p hp => ((setFrame_spec hset).2.1 p ?_).symm
    rintro rfl
    exact hwalk.notCaller hp
  refine walk_unique (fun done st => Ordered b₁ caller entry exitTo done st ∧
    ∀ x, st.macroLabels.contains x → x ∉ done) ⟨ordered_start hb₁, by simp⟩
    (fun _ _ h => h.1.consistent) ?_ ?_
  · rintro done st st' m ⟨h, hnew⟩ hm hmin hs
    obtain ⟨rest, hrest⟩ := h.step_prefix hm hs hmin hwalk₁
    have hc : m ≠ caller := by
      rintro rfl
      exact hwalk₁.notCaller (hrest ▸ by simp)
    exact ⟨h.step hret₁ hfresh₁ hb₁ hc hm hs hmin, h.step_queue_new hm hs hmin hwalk₁ hnew⟩
  · rintro done st m ⟨h, hnew⟩ hm hhas
    obtain ⟨q, hq, heq⟩ := (h.toCopied.has_copy hfresh₁ rfl).mp hhas
    have hd := List.ne_nil_of_mem hq
    have hpre := (h.visits hd).prefix_searchOrder hwalk₁.search
    obtain ⟨p, hp, hpm⟩ := (h.frontier hd m (hnew m hm)).mp hm
    have hmem := hwalk₁.search.closed p (hpre.subset hp) m hpm
    obtain rfl := List.inj_on_of_nodup_map hwalk₁.nodup hmem (hpre.subset hq) heq
    exact hnew m hm hq

/-! ## Calls in calls -/

/-- The call at `x` of the function at `t` leads to its own copy only, and notes the copy's frame. -/
def WellCalled (b : CfgBuilder O C) (x t : Label) (f : Frame) : Prop :=
  f = x.frame ∧ ∀ y, b.Edge x y ↔ y = t.inFrame x.frame

/-- Every call in the frame of `c`, and `c` itself, is well called. -/
def WellCalledIn (b : CfgBuilder O C) (c : Label) : Prop :=
  ∀ x, Inside c x ∨ x = c → ∀ t f, b.instructions.find? x = some (.callLocal t f) →
    WellCalled b x t f

/-- Expanding a call leaves the calls in other frames. -/
theorem WellCalledIn.expanded {c : Label} (h : WellCalledIn b c) (hb : b.Consistent)
    (hfresh : Fresh b caller) (he : Expanded b caller entry exitTo b')
    (hout : ∀ x, Inside c x ∨ x = c → ¬ Inside caller x ∧ x ≠ caller) : WellCalledIn b' c := by
  intro x hx t f hcall
  obtain ⟨hin, hne⟩ := hout x hx
  rw [he.instr x hin hne] at hcall
  obtain ⟨hf, hedge⟩ := h x hx t f hcall
  exact ⟨hf, fun y => (he.edge_keep hb hfresh hin hne y).trans (hedge y)⟩

/-- The copy of a call notes its own frame in the call. -/
theorem cloneMacro_caller (h : b.cloneMacro caller entry = .ok st) (hb : b.Consistent)
    (hcall : b.instructions.find? caller = some (.callLocal t f)) :
    st.builder.instructions.find? caller = some (.callLocal t caller.frame) := by
  obtain ⟨exitTo, b₁, fuel, st₁, b₂, -, hset, hwalk, hrem, rfl⟩ := cloneMacro_eq_ok h
  have hb₁ := consistent_setFrame hb hset
  obtain ⟨_, hcopied, -⟩ := walk_induction (Copied b₁ caller entry exitTo) hwalk
    (copied_start hb₁) (fun _ _ h => h.consistent) fun done st st' m h hm _ hs => h.step hm hs
  have hfind : b₁.instructions.find? caller = some (.callLocal t caller.frame) := by
    unfold setFrame at hset
    rw [instructionAt_eq_ok.mpr hcall] at hset
    obtain rfl := Except.ok.inj hset
    exact OrdMap.find?_insert_self _ _ _
  have hsame := (removeChild_relinks hrem).instr
  show b₂.instructions.find? caller = _
  rw [hsame, hcopied.instr caller ((hb₁.instr caller).mpr ⟨_, hfind⟩), hfind]

/-- The calls at the labels `looked` of the copy are expanded. -/
structure CallsDone (caller : Label) (st : Walk O C) (looked : List Label) (b' : CfgBuilder O C) :
    Prop where
  called : ∀ l ∈ looked, (∃ t, Calls st (l.inFrame caller.frame) t) →
    WellCalledIn b' (l.inFrame caller.frame)
  keep : b'.instructions.find? caller = st.builder.instructions.find? caller

/-- One more call in the copy is expanded. -/
theorem CallsDone.call {looked : List Label} {l ret : Label} (h : CallsDone caller st looked b₁)
    (hb : b₁.Consistent) (hfresh : Fresh b₁ (l.inFrame caller.frame))
    (hne : ∀ l' ∈ looked, l.inFrame caller.frame ≠ l'.inFrame caller.frame)
    (hexp : Expanded b₁ (l.inFrame caller.frame) t ret b₂)
    (hwell : WellCalledIn b₂ (l.inFrame caller.frame)) : CallsDone caller st (looked ++ [l]) b₂ := by
  refine ⟨fun l' hl' hcall => ?_, ?_⟩
  · rcases List.mem_append.mp hl' with hl' | hl'
    · exact (h.called l' hl' hcall).expanded hb hfresh hexp (apart_of_copy (hne l' hl').symm)
    · rw [List.mem_singleton.mp hl']
      exact hwell
  · rw [hexp.instr caller (fun hin => not_inside_self caller hin.of_inFrame)
      (copy_ne_caller l).symm, h.keep]

/-- A label that is no call stays. -/
theorem CallsDone.skip {looked : List Label} {l : Label} (h : CallsDone caller st looked b₁)
    (hcall : ∀ t, ¬ Calls st (l.inFrame caller.frame) t) : CallsDone caller st (looked ++ [l]) b₁ := by
  refine ⟨fun l' hl' hc => ?_, h.keep⟩
  rcases List.mem_append.mp hl' with hl' | hl'
  · exact h.called l' hl' hc
  · rw [List.mem_singleton.mp hl'] at hc
    obtain ⟨t, ht⟩ := hc
    exact absurd ht (hcall t)

/-- When all calls that were seen are expanded, all calls of the copy are. -/
theorem CallsDone.wellCalledIn (h : CallsDone caller st st.seenLabels.keys b')
    (hexp : Expanded b caller entry exitTo b') (hnest : Nested caller st st.seenLabels.keys b')
    (hcopy : CopyOf b caller entry exitTo order st) (hwalk : WalksOnce b caller entry order)
    (hchild : ∀ z, b.Edge caller z ↔ z = exitTo)
    (hcaller : st.builder.instructions.find? caller = some (.callLocal entry caller.frame)) :
    WellCalledIn b' caller := by
  rintro x (hx | rfl) t f hcall
  · have hhas : b'.Has x := (hexp.consistent.instr x).mpr ⟨_, hcall⟩
    rcases hnest.deep x hx hhas with hframe | ⟨l, hl, hlc, hx⟩
    · -- a call of the copy itself: it was seen
      obtain ⟨m, hm, rfl⟩ := (hcopy.has x hframe).mp ((hnest.has x hframe).mp hhas)
      have hseen : ∀ t', CallAt b m t' → st.seenLabels.contains m := by
        intro t' ht'
        rcases hwalk.call m hm t' ht' with rfl | ⟨y, hmy, hlt⟩
        · exact hcopy.seenEntry
        · exact hcopy.seenOn m hm y hmy hlt.le
      by_cases hc : ∃ t', CallAt b m t'
      · obtain ⟨t', ht'⟩ := hc
        exact h.called m (mem_set.mpr (hseen t' ht')) ⟨t', (calls_iff hcopy hm).mpr ht'⟩ _
          (Or.inr rfl) t f hcall
      · have hnone : ∀ t', ¬ Calls st (m.inFrame caller.frame) t' := fun t' ht' =>
          hc ⟨t', (calls_iff hcopy hm).mp ht'⟩
        rw [hnest.instr _ rfl fun _ _ _ => hnone] at hcall
        exact absurd ⟨f, hcall⟩ (hnone t)
    · exact h.called l hl hlc x (Or.inl hx) t f hcall
  · rw [h.keep, hcaller] at hcall
    obtain ⟨rfl, rfl⟩ := Instruction.callLocal.inj (Option.some.inj hcall)
    exact ⟨rfl, hexp.edge_caller hchild⟩

section

variable (hF : FirstPass insts b₀) (hplain : ∀ e ∈ insts, e.1.Plain)
  (hwalks : ∀ begun fuel b c t, CallMade insts b₀ begun fuel b c t → ∃ order, WalksOnce b c t order)

/-- Expanding a call with the fuel meets no label twice and expands every call in the copy. -/
def ExpandsCalls (insts : InstructionSeq O C) (b₀ : CfgBuilder O C) (fuel : ℕ) : Prop :=
  ∀ begun b c t, CallMade insts b₀ begun fuel b c t → Unique (addCfgNodes fuel b c t) ∧
    ∀ b', addCfgNodes fuel b c t = .ok b' → WellCalledIn b' c

include hF hplain in
/-- One label of the copy that was seen. -/
theorem CallMade.expandSeen {fuel : ℕ} {c l : Label} {looked : List Label}
    (ih : ExpandsCalls insts b₀ fuel) (hmade : CallMade insts b₀ begun (fuel + 1) b c t)
    (hst : b.cloneMacro c t = .ok st) (hpre : looked ++ [l] <+: st.seenLabels.keys)
    (hlooked : looked.foldlM (CfgBuilder.expandSeen fuel c) st.builder = .ok b₁)
    (h : CallsDone c st looked b₁) :
    Unique (CfgBuilder.expandSeen fuel c b₁ l) ∧
      ∀ b₂, CfgBuilder.expandSeen fuel c b₁ l = .ok b₂ → CallsDone c st (looked ++ [l]) b₂ := by
  obtain ⟨exitTo, done, hcl, hexp, hnest, -⟩ :=
    (hmade.state hF hplain).fold hF hplain hst ((List.prefix_append _ _).trans hpre) hlooked
  have hne := hcl.copy_ne hpre
  have hfresh := hnest.fresh l hne
  have hfind := hnest.instr (l.inFrame c.frame) rfl fun l' hl' heq => absurd heq (hne l' hl')
  have hcalls : ∀ t' f, b₁.instructions.find? (l.inFrame c.frame) = some (.callLocal t' f) →
      ¬ maxCallStackFrames ≤ c.stackFramePrefix.length + 2 →
      Unique (addCfgNodes fuel b₁ (l.inFrame c.frame) t') ∧
        ∀ b₂, addCfgNodes fuel b₁ (l.inFrame c.frame) t' = .ok b₂ →
          WellCalledIn b₂ (l.inFrame c.frame) := fun t' f ht' hlimit =>
    ih begun b₁ _ t' (hmade.nested hst hpre hlooked ht' hlimit)
  refine ⟨?_, fun b₂ hok => ?_⟩
  · unfold CfgBuilder.expandSeen
    refine instructionAt_unique.bind fun i hi => ?_
    rw [instructionAt_eq_ok] at hi
    split
    · next t' f =>
      split_ifs with hlimit
      · simp [BuildError.IsDuplicate]
      · exact (hcalls t' f hi hlimit).1
    · exact Except.failsOnly_ok
  · rcases expandSeen_cases hok with ⟨t', f, ht', hlimit, hadd⟩ | ⟨hnone, rfl⟩
    · obtain ⟨ret, -, hexp'⟩ := expands fuel _ _ _ _ hadd hexp.consistent hfresh
      exact h.call hexp.consistent hfresh hne hexp' ((hcalls t' f ht' hlimit).2 b₂ hadd)
    · refine h.skip ?_
      rintro t' ⟨f, hf⟩
      exact hnone t' f (hfind.trans hf)

include hF hplain hwalks in
theorem addCfgNodes_calls (fuel : ℕ) : ExpandsCalls insts b₀ fuel := by
  induction fuel with
  | zero =>
    intro begun b c t _
    refine ⟨by simp [addCfgNodes, BuildError.IsDuplicate], fun b' h => ?_⟩
    cases h
  | succ fuel ih =>
    intro begun b c t hmade
    obtain ⟨order, hwalk⟩ := hwalks _ _ _ _ _ hmade
    have hstate := hmade.state hF hplain
    -- what is known after some of the labels
    have hstep : ∀ st, b.cloneMacro c t = .ok st → ∀ looked l b₁,
        looked ++ [l] <+: st.seenLabels.keys →
        looked.foldlM (CfgBuilder.expandSeen fuel c) st.builder = .ok b₁ ∧ CallsDone c st looked b₁ →
        Unique (CfgBuilder.expandSeen fuel c b₁ l) ∧
        ∀ b₂, CfgBuilder.expandSeen fuel c b₁ l = .ok b₂ →
          (looked ++ [l]).foldlM (CfgBuilder.expandSeen fuel c) st.builder = .ok b₂ ∧
          CallsDone c st (looked ++ [l]) b₂ := by
      rintro st hst looked l b₁ hpre ⟨hlooked, hdone⟩
      obtain ⟨hun, hok⟩ := hmade.expandSeen hF hplain ih hst hpre hlooked hdone
      exact ⟨hun, fun b₂ hb₂ => ⟨Except.foldlM_concat hlooked hb₂, hok b₂ hb₂⟩⟩
    have hstart : ∀ st : Walk O C,
        ([] : List Label).foldlM (CfgBuilder.expandSeen fuel c) st.builder = .ok st.builder ∧
        CallsDone c st [] st.builder := fun st => ⟨rfl, by simp, rfl⟩
    constructor
    · rw [addCfgNodes_succ]
      refine (cloneMacro_unique hstate.consistent hstate.fresh hwalk).bind fun st hst => ?_
      exact Except.FailsOnly.foldlM
        (fun looked b₁ => looked.foldlM (CfgBuilder.expandSeen fuel c) st.builder = .ok b₁ ∧
          CallsDone c st looked b₁) (hstart st)
        (fun looked l b₁ b₂ hpre h hb₂ => (hstep st hst looked l b₁ hpre h).2 b₂ hb₂)
        fun looked l b₁ hpre h => (hstep st hst looked l b₁ hpre h).1
    · intro b' h
      obtain ⟨f, hcall⟩ := hstate.caller
      obtain ⟨exitTo, _, st, hst, hcl, hexp, hnest⟩ :=
        addCfgNodes_spec _ h hstate.consistent hstate.fresh
      rw [addCfgNodes_succ, hst] at h
      have h : st.seenLabels.keys.foldlM (CfgBuilder.expandSeen fuel c) st.builder = .ok b' := h
      obtain ⟨order', hcopy⟩ := cloneMacro_copyOf hst hstate.consistent hstate.fresh hcl.child
      obtain rfl := hcopy.search.unique hwalk.search
      have hdone := Except.foldlM_induction
        (fun looked b₁ => looked.foldlM (CfgBuilder.expandSeen fuel c) st.builder = .ok b₁ ∧
          CallsDone c st looked b₁) h (hstart st)
        fun looked l b₁ b₂ hpre h hb₂ => (hstep st hst looked l b₁ hpre h).2 b₂ hb₂
      exact hdone.2.wellCalledIn hexp hnest hcopy hwalk hcl.child
        (cloneMacro_caller hst hstate.consistent hcall)

end

/-! ## The whole construction -/

/-- Calls that can be reached are well called, and no label is met twice. -/
def CallsExpanded (insts : InstructionSeq O C) (mustHaveExit : Bool) : Prop :=
  Unique (instructionSeqToCfg insts mustHaveExit) ∧
    ∀ b, instructionSeqToCfg insts mustHaveExit = .ok b →
      ∀ x, Relation.ReflTransGen b.Edge .entry x →
        ∀ t f, b.instructions.find? x = some (.callLocal t f) → WellCalled b x t f

/-- Each function that is copied is walked in order, in the graph as it is then. -/
def WalksInOrder (insts : InstructionSeq O C) (b₀ : CfgBuilder O C) : Prop :=
  ∀ begun fuel b c t, CallMade insts b₀ begun fuel b c t → ∃ order, WalksOnce b c t order

/-- One instruction of the second pass. -/
theorem expandCall_calls {done : InstructionSeq O C} {e : Label × Instruction O C}
    (hF : FirstPass insts b₀) (hplain : ∀ e ∈ insts, e.1.Plain) (hwalks : WalksInOrder insts b₀)
    (hpre : done ++ [e] <+: insts) (hdone : done.foldlM CfgBuilder.expandCall b₀ = .ok b)
    (h : ∀ c, IsCall done c → WellCalledIn b c) :
    Unique (b.expandCall e) ∧
      ∀ b', b.expandCall e = .ok b' → ∀ c, IsCall (done ++ [e]) c → WellCalledIn b' c := by
  obtain ⟨c, i⟩ := e
  by_cases hi : ∃ t f, i = .callLocal t f
  · obtain ⟨t, f, rfl⟩ := hi
    obtain ⟨after, hinsts⟩ := hpre
    have hmade : CallMade insts b₀ (done ++ [(c, .callLocal t f)]) maxCallStackFrames b c t :=
      CallMade.outer (by rw [← hinsts, List.append_assoc]; rfl) hdone
    have hpre : done ++ [(c, .callLocal t f)] <+: insts := ⟨after, hinsts⟩
    obtain ⟨hun, hok⟩ := addCfgNodes_calls hF hplain hwalks _ _ _ _ _ hmade
    refine ⟨hun, fun b' hb' c' hc' => ?_⟩
    have hstate := hmade.state hF hplain
    obtain ⟨r, -, hexp⟩ := expands _ _ _ _ _ hb' hstate.consistent hstate.fresh
    rcases isCall_concat.mp hc' with hold | ⟨_, _, heq⟩
    · refine (h c' hold).expanded hstate.consistent hstate.fresh hexp
        (apart_of_plain (plain_of_isCall hplain hpre hold) (plain_last hplain hpre) ?_)
      rintro rfl
      exact not_isCall_last hF.distinct hpre hold
    · obtain rfl : c = c' := congrArg Prod.fst heq
      exact hok b' hb'
  · have hsame : b.expandCall (c, i) = .ok b := by
      unfold CfgBuilder.expandCall
      split
      · next t f heq => exact absurd ⟨t, f, heq⟩ hi
      · rfl
    rw [hsame]
    refine ⟨Except.failsOnly_ok, fun b' hb' c' hc' => ?_⟩
    obtain rfl := Except.ok.inj hb'
    refine h c' ((isCall_concat.mp hc').resolve_right ?_)
    rintro ⟨t, f, heq⟩
    exact hi ⟨t, f, congrArg Prod.snd heq⟩

/-- The calls of the graph are those of the sequence and those in their copies. -/
theorem Outer.wellCalled (hF : FirstPass insts b₀) (hout : Outer b₀ insts b)
    (h : ∀ c, IsCall insts c → WellCalledIn b c) :
    ∀ x t f, b.instructions.find? x = some (.callLocal t f) → WellCalled b x t f := by
  intro x t f hcall
  by_cases hx : x.Plain
  · by_cases hc : IsCall insts x
    · exact h x hc x (Or.inr rfl) t f hcall
    · rw [hout.instr x hx hc] at hcall
      rcases hF.origin x _ hcall with hmem | hc' | ⟨_, _, hc'⟩
      · exact absurd ⟨t, f, hmem⟩ hc
      · cases hc'
      · cases hc'
  · obtain ⟨c, hc, hin⟩ := hout.deep x ((hout.consistent.instr x).mpr ⟨_, hcall⟩) hx
    exact h c hc x (Or.inl hin) t f hcall

/-- When every function is walked in order, no label is met twice and every call is expanded. -/
theorem secondPass_calls (hF : FirstPass insts b₀) (hplain : ∀ e ∈ insts, e.1.Plain)
    (hwalks : WalksInOrder insts b₀) : Unique (insts.foldlM CfgBuilder.expandCall b₀) ∧
      ∀ b, insts.foldlM CfgBuilder.expandCall b₀ = .ok b →
        ∀ x t f, b.instructions.find? x = some (.callLocal t f) → WellCalled b x t f := by
  have hstep : ∀ done e b, done ++ [e] <+: insts →
      done.foldlM CfgBuilder.expandCall b₀ = .ok b ∧ (∀ c, IsCall done c → WellCalledIn b c) →
      Unique (b.expandCall e) ∧ ∀ b', b.expandCall e = .ok b' →
        (done ++ [e]).foldlM CfgBuilder.expandCall b₀ = .ok b' ∧
        ∀ c, IsCall (done ++ [e]) c → WellCalledIn b' c := by
    rintro done e b hpre ⟨hdone, h⟩
    obtain ⟨hun, hok⟩ := expandCall_calls hF hplain hwalks hpre hdone h
    exact ⟨hun, fun b' hb' => ⟨Except.foldlM_concat hdone hb', hok b' hb'⟩⟩
  have hstart : ([] : InstructionSeq O C).foldlM CfgBuilder.expandCall b₀ = .ok b₀ ∧
      ∀ c, IsCall ([] : InstructionSeq O C) c → WellCalledIn b₀ c := by
    refine ⟨rfl, ?_⟩
    rintro c ⟨t, f, hmem⟩
    cases hmem
  refine ⟨?_, fun b hb => ?_⟩
  · exact Except.FailsOnly.foldlM
      (fun done b => done.foldlM CfgBuilder.expandCall b₀ = .ok b ∧
        ∀ c, IsCall done c → WellCalledIn b c) hstart
      (fun done e b b' hpre h hb' => (hstep done e b hpre h).2 b' hb')
      fun done e b hpre h => (hstep done e b hpre h).1
  · have hdone := Except.foldlM_induction
      (fun done b => done.foldlM CfgBuilder.expandCall b₀ = .ok b ∧
        ∀ c, IsCall done c → WellCalledIn b c) hb hstart
      fun done e b b' hpre h hb' => (hstep done e b hpre h).2 b' hb'
    exact (outer_fold hF hplain List.prefix_rfl hb).wellCalled hF hdone.2

/-- A function whose copy ends up with all its calls expanded was walked in order. -/
theorem CallMade.walksOnce {fuel : ℕ} {c : Label} (hF : FirstPass insts b₀)
    (hplain : ∀ e ∈ insts, e.1.Plain) (hmade : CallMade insts b₀ begun fuel b c t)
    (hok : insts.foldlM CfgBuilder.expandCall b₀ = .ok b')
    (hwell : ∀ x t f, b'.instructions.find? x = some (.callLocal t f) → WellCalled b' x t f) :
    ∃ order, WalksOnce b c t order := by
  obtain ⟨exitTo, order, st, h⟩ := hmade.inlinedCopy hF hplain hok
  refine ⟨order, h.search, h.nodup, h.notCaller, h.again, fun m hm t' hcall => ?_⟩
  have hseen : st.seenLabels.contains m := by
    by_contra hs
    obtain ⟨f, hf⟩ := (calls_iff h.toCopyOf hm).mpr hcall
    rw [← (h.keep m hm fun _ _ => hs).2] at hf
    exact hs (h.seen_of_called hm (((hwell _ t' f hf).2 _).mpr rfl))
  exact (h.seenWhy m hseen).2

/-- When each function is walked in order in the graph as it is when it is copied, every call leads to
its own copy only, and the construction meets no label twice. A construction that succeeds expands all
its calls only then. -/
theorem calls_expanded {mustHaveExit : Bool} (hnum : Numbered insts) :
    ((∀ b₀, firstPass insts mustHaveExit = .ok b₀ → WalksInOrder insts b₀) →
      CallsExpanded insts mustHaveExit) ∧
    ∀ b₀ b, firstPass insts mustHaveExit = .ok b₀ →
      instructionSeqToCfg insts mustHaveExit = .ok b → (WalksInOrder insts b₀ ↔
        ∀ x t f, b.instructions.find? x = some (.callLocal t f) → WellCalled b x t f) := by
  refine ⟨fun hwalks => ⟨?_, fun b h x _ => ?_⟩, fun b₀ b hfirst h => ?_⟩
  · unfold instructionSeqToCfg
    refine (firstPass_unique hnum).bind fun b₀ hfirst => ?_
    exact (secondPass_calls (firstPass_spec hfirst) hnum.plain (hwalks b₀ hfirst)).1
  · unfold instructionSeqToCfg at h
    obtain ⟨b₀, hfirst, h⟩ := Except.bind_eq_ok.mp h
    exact (secondPass_calls (firstPass_spec hfirst) hnum.plain (hwalks b₀ hfirst)).2 b h x
  · have hF := firstPass_spec hfirst
    have hok := foldlM_of_instructionSeqToCfg hfirst h
    refine ⟨fun hwalks => (secondPass_calls hF hnum.plain hwalks).2 b hok, ?_⟩
    exact fun hwell begun fuel b₁ c t hmade => hmade.walksOnce hF hnum.plain hok hwell

/-! ## Two sequences -/

theorem numbered_nestedSeq : Numbered nestedSeq where
  index := by
    intro e he
    refine ⟨e.1.src.toNat, ?_⟩
    revert e
    decide
  nodup := by decide
  target l c t h := by simp [nestedSeq] at h
  callee l t f h := by
    simp only [nestedSeq, List.mem_cons, Prod.mk.injEq, Instruction.callLocal.injEq, reduceCtorEq,
      and_false, List.not_mem_nil, or_false, false_or] at h
    rcases h with ⟨-, rfl, -⟩ | ⟨-, rfl, -⟩
    · exact ⟨2, rfl⟩
    · exact ⟨4, rfl⟩

/-- The check of one entry of the instruction table for `WellCalled`. -/
def checkCall (b : CfgBuilder O C) : Label × Instruction O C → Bool
  | (x, .callLocal t f) => f = x.frame ∧ b.succs x = [t.inFrame x.frame]
  | _ => true

theorem wellCalled_of_checkCall (h : b.instructions.entries.all b.checkCall) :
    ∀ x t f, b.instructions.find? x = some (.callLocal t f) → WellCalled b x t f := by
  intro x t f hx
  have hcheck := of_decide_eq_true (List.all_eq_true.mp h _ (OrdMap.mem_entries.mpr hx))
  refine ⟨hcheck.1, fun y => ?_⟩
  rw [← mem_succs, hcheck.2, List.mem_singleton]

theorem calls_expanded_nestedSeq : CallsExpanded nestedSeq true := by
  refine (calls_expanded numbered_nestedSeq).1 fun b₀ hfirst => ?_
  obtain ⟨b, hb, hcalls⟩ := Except.exists_of_okWith (x := instructionSeqToCfg nestedSeq true)
    (p := fun b => b.instructions.entries.all b.checkCall) (by decide)
  exact ((calls_expanded numbered_nestedSeq).2 b₀ b hfirst hb).mpr (wellCalled_of_checkCall hcalls)

/-- A function whose two branches meet at an exit before the second branch. -/
def sharedExitSeq : InstructionSeq Unit Unit :=
  [(.ofIndex 0, .callLocal (.ofIndex 2) []), (.ofIndex 1, .exit []),
    (.ofIndex 2, .jmp (some ⟨.eq, 0, .inr 0, true⟩) (.ofIndex 5)), (.ofIndex 3, .other ()),
    (.ofIndex 4, .exit []), (.ofIndex 5, .jmp none (.ofIndex 4))]

theorem sharedExitSeq_fails : Numbered sharedExitSeq ∧ ¬ CallsExpanded sharedExitSeq true := by
  refine ⟨⟨?_, by decide, ?_, ?_⟩, fun h => ?_⟩
  · intro e he
    refine ⟨e.1.src.toNat, ?_⟩
    revert e
    decide
  · intro l c t h
    simp only [sharedExitSeq, List.mem_cons, Prod.mk.injEq, Instruction.jmp.injEq, reduceCtorEq,
      and_false, List.not_mem_nil, or_false, false_or] at h
    rcases h with ⟨-, -, rfl⟩ | ⟨-, -, rfl⟩
    · exact ⟨5, rfl⟩
    · exact ⟨4, rfl⟩
  · intro l t f h
    simp only [sharedExitSeq, List.mem_cons, Prod.mk.injEq, Instruction.callLocal.injEq, reduceCtorEq,
      and_false, List.not_mem_nil, or_false] at h
    obtain ⟨-, rfl, -⟩ := h
    exact ⟨2, rfl⟩
  · obtain ⟨e, he, hdup⟩ := Except.exists_of_failsWith
      (x := instructionSeqToCfg sharedExitSeq true)
      (p := fun e => e = .alreadyExists ((Label.ofIndex 4).inFrame (Label.ofIndex 0).frame))
      (by decide)
    refine h.1 e he ?_
    rw [of_decide_eq_true hdup]
    trivial

end CfgBuilder

end Prevail
