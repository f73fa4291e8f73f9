import Prevail.Analysis.FwdFrame
import Prevail.Lib.Flow

/-!
# Soundness of the forward fixpoint iterator

An abstract value describes states (`γ`). The states that arrive at the labels of a part of the
order, when the posts of the labels outside are given, are described by the tables after a visit of
the part (`visit_sound`). For a cycle the increasing loop ends with a value that describes the states
at the head (`increase_sound`), and every round of the decreasing loop keeps this
(`decrease_sound`).
-/

namespace Prevail

/-- What the iterator relies on. -/
structure FwdDomain.Sound {O C A E D S : Type} (dom : FwdDomain O C A E D) (γ : D → S → Prop)
    (step : Instruction O C → S → S → Prop) (holds : A → S → Prop)
    (initCounter : S → Label → S) : Prop where
  join_left : ∀ {a b σ}, γ a σ → γ (dom.join a b) σ
  join_right : ∀ {a b σ}, γ b σ → γ (dom.join a b) σ
  meet : ∀ {a b σ}, γ a σ → γ b σ → γ (dom.meet a b) σ
  narrow : ∀ {a b σ}, γ a σ → γ b σ → γ (dom.narrow a b) σ
  le : ∀ {a b σ}, dom.le a b = true → γ a σ → γ b σ
  isBottom : ∀ {a σ}, dom.isBottom a = true → ¬ γ a σ
  transform : ∀ {a i σ σ'}, γ a σ → step i σ σ' → γ (dom.transform a i) σ'
  check : ∀ {d a l σ}, dom.check d a l = none → γ d σ → holds a σ
  initializeLoopCounter : ∀ {d l σ}, γ d σ → γ (dom.initializeLoopCounter d l) (initCounter σ l)

/-- The graph has an entry, its edges lead to labels, and parents and children agree. -/
structure Cfg.Linked (g : Cfg) : Prop extends g.Closed where
  parent : ∀ x, ∀ y ∈ g.succs x, ∃ ls, g.parentsOf y = .ok ls ∧ x ∈ ls

namespace FwdAnalyzer

variable {O C A E D S : Type} {dom : FwdDomain O C A E D} {prog : Program O C A}
  {γ : D → S → Prop} {step : Instruction O C → S → S → Prop} {holds : A → S → Prop}
  {initCounter : S → Label → S} {s s' s₁ s₂ : FwdAnalyzer E D} {l u head : Label} {d : D} {σ σ' : S}

/-- The step of the program at a label. -/
def StepAt (prog : Program O C A) (step : Instruction O C → S → S → Prop) (u : Label)
    (σ σ' : S) : Prop := ∃ ins, prog.instructionAt u = .ok ins ∧ step ins σ σ'

/-- The state is described after the label. -/
def PostAt (γ : D → S → Prop) (s : FwdAnalyzer E D) (u : Label) (σ : S) : Prop :=
  ∃ i, s.find? u = some i ∧ γ i.post σ

/-- The assertions at the label hold, unless they are those of a loop counter. -/
def Checked (prog : Program O C A) (holds : A → S → Prop) (l : Label) (σ : S) : Prop :=
  ∃ ins, prog.instructionAt l = .ok ins ∧ (ins.isIncrementLoopCounter = false →
    ∀ as, prog.assertionsAt l = .ok as → ∀ a ∈ as, holds a σ)

/-- The tables are right about a state that arrives at the label. -/
structure SoundAt (prog : Program O C A) (γ : D → S → Prop)
    (step : Instruction O C → S → S → Prop) (holds : A → S → Prop) (s : FwdAnalyzer E D)
    (l : Label) (σ : S) : Prop where
  pre : ∃ i, s.find? l = some i ∧ γ i.pre σ
  post : ∀ σ', StepAt prog step l σ σ' → PostAt γ s l σ'
  checked : Checked prog holds l σ

/-- The states that come from the posts of labels outside the region. -/
def Inflow (prog : Program O C A) (γ : D → S → Prop) (s : FwdAnalyzer E D)
    (region : Label → Prop) (l : Label) (σ : S) : Prop :=
  ∃ u, ¬ region u ∧ l ∈ prog.cfg.succs u ∧ PostAt γ s u σ

/-- The states that arrive in a region. -/
abbrev Arrives (prog : Program O C A) (γ : D → S → Prop) (step : Instruction O C → S → S → Prop)
    (s : FwdAnalyzer E D) (region : Label → Prop) : Label → S → Prop :=
  RegionFlow (fun u l => l ∈ prog.cfg.succs u) (StepAt prog step) region (Inflow prog γ s region)

theorem PostAt.congr (h : PostAt γ s u σ) (hf : s'.find? u = s.find? u) : PostAt γ s' u σ := by
  obtain ⟨i, hi, hσ⟩ := h
  exact ⟨i, hf.trans hi, hσ⟩

theorem SoundAt.congr (h : SoundAt prog γ step holds s l σ) (hf : s'.find? l = s.find? l) :
    SoundAt prog γ step holds s' l σ := by
  obtain ⟨⟨i, hi, hσ⟩, hpost, hcheck⟩ := h
  exact ⟨⟨i, hf.trans hi, hσ⟩, fun σ' hstep => (hpost σ' hstep).congr hf, hcheck⟩

/-! ## One label -/

/-- A transformation without a failure. -/
theorem transformToPost_sound (hd : dom.Sound γ step holds initCounter) (hc : Clean s)
    (h : s.transformToPost dom prog l d = .ok s') (hok : s'.result.failed = false) (hσ : γ d σ) :
    (∀ σ', StepAt prog step l σ σ' → PostAt γ s' l σ') ∧ Checked prog holds l σ := by
  have hpost : ∀ {ins}, prog.instructionAt l = .ok ins →
      s.setPost l (dom.transform d ins) = .ok s' →
      ∀ σ', StepAt prog step l σ σ' → PostAt γ s' l σ' := by
    rintro ins hins h σ' ⟨ins', hins', hstep⟩
    obtain rfl := Except.ok.inj (hins.symm.trans hins')
    obtain ⟨i, -, hi⟩ := (setPost_changes h).self
    exact ⟨_, hi, hd.transform hσ hstep⟩
  obtain ⟨ins, hins, h⟩ := Except.bind_eq_ok.mp h
  split_ifs at h with hcounter
  · refine ⟨hpost hins h, ins, hins, fun hno => ?_⟩
    rw [hcounter] at hno
    cases hno
  · obtain ⟨b, hb, h⟩ := Except.bind_eq_ok.mp h
    cases b with
    | true =>
      obtain rfl := Except.ok.inj h
      obtain ⟨i, hi, herr⟩ := Except.map_eq_ok.mp hb
      have := hc l i (invariantAt_eq_ok.mp hi) herr
      rw [hok] at this
      cases this
    | false =>
      obtain ⟨as, has, h⟩ := Except.bind_eq_ok.mp h
      split at h
      · have hfail := (setError_spec h).1
        rw [hok] at hfail
        cases hfail
      · next hnone =>
        refine ⟨hpost hins h, ins, hins, fun _ as' has' a ha => ?_⟩
        obtain rfl := Except.ok.inj (has.symm.trans has')
        exact hd.check (List.findSome?_eq_none_iff.mp hnone a ha) hσ

theorem transformToPost_pre (h : s.transformToPost dom prog l d = .ok s') :
    ∀ i, s.find? l = some i → ∃ i', s'.find? l = some i' ∧ i'.pre = i.pre := by
  intro i hi
  obtain ⟨ins, -, h⟩ := Except.bind_eq_ok.mp h
  split_ifs at h
  · obtain ⟨j, hj, hj'⟩ := (setPost_changes h).self
    obtain rfl := Option.some.inj (hi.symm.trans hj)
    exact ⟨_, hj', rfl⟩
  · obtain ⟨b, -, h⟩ := Except.bind_eq_ok.mp h
    cases b with
    | true =>
      obtain rfl := Except.ok.inj h
      exact ⟨i, hi, rfl⟩
    | false =>
      obtain ⟨as, -, h⟩ := Except.bind_eq_ok.mp h
      split at h
      · obtain ⟨-, -, j, hj, hj'⟩ := setError_spec h
        obtain rfl := Option.some.inj (hi.symm.trans hj)
        exact ⟨_, hj', rfl⟩
      · obtain ⟨j, hj, hj'⟩ := (setPost_changes h).self
        obtain rfl := Option.some.inj (hi.symm.trans hj)
        exact ⟨_, hj', rfl⟩

theorem joinPosts_sound (hd : dom.Sound γ step holds initCounter) {ls : List Label}
    (h : s.joinPosts dom ls = .ok d) (hu : u ∈ ls) (hσ : PostAt γ s u σ) : γ d σ := by
  have key : ∀ u ∈ ls, PostAt γ s u σ → γ d σ := by
    refine Except.foldlM_induction (fun done d => ∀ u ∈ done, PostAt γ s u σ → γ d σ) h (by simp)
      fun done x b b' _ ih hb u hu hσ => ?_
    obtain ⟨p, hp, rfl⟩ := Except.map_eq_ok.mp hb
    rcases List.mem_append.mp hu with hu | hu
    · exact hd.join_left (ih u hu hσ)
    · obtain rfl := List.mem_singleton.mp hu
      obtain ⟨i, hi, rfl⟩ := getPost_eq_ok hp
      obtain ⟨j, hj, hσ⟩ := hσ
      obtain rfl := Option.some.inj (hi.symm.trans hj)
      exact hd.join_right hσ
  exact key u hu hσ

theorem joinAllPrevs_sound (hd : dom.Sound γ step holds initCounter) (hg : prog.cfg.Linked)
    (h : s.joinAllPrevs dom prog l = .ok d) (hl : l ≠ .entry) (hu : l ∈ prog.cfg.succs u)
    (hσ : PostAt γ s u σ) : γ d σ := by
  unfold joinAllPrevs at h
  rw [if_neg hl] at h
  obtain ⟨ls, hls, h⟩ := Except.bind_eq_ok.mp h
  obtain ⟨ls', hls', hmem⟩ := hg.parent u l hu
  unfold Program.parentsOf at hls
  rw [hls'] at hls
  obtain rfl := Except.ok.inj hls
  exact joinPosts_sound hd h hmem hσ

theorem setPre_find (h : s.setPre l d = .ok s') : ∃ i, s'.find? l = some i ∧ i.pre = d := by
  obtain ⟨i, -, hi⟩ := (setPre_changes h).self
  exact ⟨_, hi, rfl⟩

theorem visitLabel_sound (hd : dom.Sound γ step holds initCounter) (hg : prog.cfg.Linked)
    (hs : s.skip = false) (hc : Clean s) (h : s.visitLabel dom prog l = .ok s')
    (hok : s'.result.failed = false) (hl : l ≠ .entry) (hu : l ∈ prog.cfg.succs u)
    (hσ : PostAt γ s u σ) : SoundAt prog γ step holds s' l σ := by
  rw [visitLabel_eq hs] at h
  obtain ⟨pre, hpre, h⟩ := Except.bind_eq_ok.mp h
  obtain ⟨s₁, h₁, h⟩ := Except.bind_eq_ok.mp h
  have hσ' : γ pre σ := joinAllPrevs_sound hd hg hpre hl hu hσ
  obtain ⟨i, hi, hpre'⟩ := setPre_find h₁
  obtain ⟨i', hi', hpre''⟩ := transformToPost_pre h i hi
  obtain ⟨hpost, hcheck⟩ := transformToPost_sound hd ((setPre_keeps h₁).clean hc) h hok hσ'
  exact ⟨⟨i', hi', by rw [hpre'', hpre']; exact hσ'⟩, hpost, hcheck⟩

theorem Arrives.congr {R : Label → Prop} (h : Arrives prog γ step s R l σ)
    (hf : ∀ u, ¬ R u → s'.find? u = s.find? u) : Arrives prog γ step s' R l σ :=
  h.mono fun _ _ _ ⟨u, hu, hedge, hpost⟩ => ⟨u, hu, hedge, hpost.congr (hf u hu)⟩

/-! ## Cycles -/

section Cycle

/-- A visit of the labels `R` that is sound. -/
structure VisitsSoundly (dom : FwdDomain O C A E D) (prog : Program O C A) (γ : D → S → Prop)
    (step : Instruction O C → S → S → Prop) (holds : A → S → Prop)
    (visit : FwdAnalyzer E D → Except AnalysisError (FwdAnalyzer E D)) (R : Label → Prop) :
    Prop where
  keeps : ∀ s s', s.skip = false → visit s = .ok s' → Keeps R s s'
  sound : ∀ s s', s.skip = false → Clean s → visit s = .ok s' → s'.result.failed = false →
    ∀ l σ, Arrives prog γ step s R l σ → SoundAt prog γ step holds s' l σ

variable {visitBody : FwdAnalyzer E D → Except AnalysisError (FwdAnalyzer E D)}
  {R : Label → Prop} {fuel iteration : ℕ} {invariant newPre : D}

/-- The labels of a cycle. -/
abbrev CycleOf (head : Label) (R : Label → Prop) (l : Label) : Prop := l = head ∨ R l

variable (hd : dom.Sound γ step holds initCounter) (hg : prog.cfg.Linked)
  (hv : VisitsSoundly dom prog γ step holds visitBody R) (hhead : head ≠ .entry) (hR : ¬ R head)
include hd hg hv hhead hR

omit hg hv hhead hR in
/-- What arrives in the body comes from outside the cycle, or from the head. -/
theorem arrives_body (hc : Clean s) (h₁ : s.transformToPost dom prog head invariant = .ok s₁)
    (hok : s₁.result.failed = false)
    (hinv : ∀ σ, Arrives prog γ step s (CycleOf head R) head σ → γ invariant σ) (hl : R l)
    (hσ : Arrives prog γ step s (CycleOf head R) l σ) : Arrives prog γ step s₁ R l σ := by
  refine hσ.restrict hl ?_ ?_
  · rintro l σ - ⟨u, hu, hedge, hpost⟩
    refine ⟨u, fun hRu => hu (Or.inr hRu), hedge, hpost.congr ?_⟩
    exact (transformToPost_keeps h₁).find u fun huh => hu (Or.inl huh)
  · intro u l σ σ' hu hflow hstep he _
    obtain rfl := hflow.mem.resolve_right hu
    exact ⟨u, hu, he, (transformToPost_sound hd hc h₁ hok (hinv σ hflow)).1 σ' hstep⟩

/-- One round of a loop, when the invariant describes the states at the head. -/
theorem round_sound (hs : s.skip = false) (hc : Clean s)
    (h₁ : s.transformToPost dom prog head invariant = .ok s₁) (h₂ : visitBody s₁ = .ok s₂)
    (h₃ : s₂.joinAllPrevs dom prog head = .ok newPre) (hok : s₂.result.failed = false)
    (hinv : ∀ σ, Arrives prog γ step s (CycleOf head R) head σ → γ invariant σ) :
    (∀ l σ, R l → Arrives prog γ step s (CycleOf head R) l σ →
      SoundAt prog γ step holds s₂ l σ) ∧
    (∀ σ, Arrives prog γ step s (CycleOf head R) head σ →
      (∀ σ', StepAt prog step head σ σ' → PostAt γ s₂ head σ') ∧ Checked prog holds head σ) ∧
    ∀ σ, Arrives prog γ step s (CycleOf head R) head σ → γ newPre σ := by
  have hk₁ := transformToPost_keeps h₁
  have hk₂ := hv.keeps s₁ s₂ (hk₁.skip hs) h₂
  have hok₁ := hk₂.not_failed hok
  have hbody : ∀ l σ, R l → Arrives prog γ step s (CycleOf head R) l σ →
      SoundAt prog γ step holds s₂ l σ := fun l σ hl hσ =>
    hv.sound s₁ s₂ (hk₁.skip hs) (hk₁.clean hc) h₂ hok l σ
      (arrives_body hd hc h₁ hok₁ hinv hl hσ)
  have hself : ∀ σ, Arrives prog γ step s (CycleOf head R) head σ →
      (∀ σ', StepAt prog step head σ σ' → PostAt γ s₂ head σ') ∧ Checked prog holds head σ := by
    intro σ hσ
    obtain ⟨hpost, hcheck⟩ := transformToPost_sound hd hc h₁ hok₁ (hinv σ hσ)
    exact ⟨fun σ' hstep => (hpost σ' hstep).congr (hk₂.find head hR), hcheck⟩
  refine ⟨hbody, hself, fun σ hσ => ?_⟩
  cases hσ with
  | enter _ h =>
    obtain ⟨u, hu, hedge, hpost⟩ := h
    refine joinAllPrevs_sound hd hg h₃ hhead hedge (hpost.congr ?_)
    rw [hk₂.find u fun hRu => hu (Or.inr hRu), hk₁.find u fun huh => hu (Or.inl huh)]
  | @step u _ σ₀ _ hflow hstep hedge _ =>
    rcases hflow.mem with rfl | hu
    · exact joinAllPrevs_sound hd hg h₃ hhead hedge ((hself σ₀ hflow).1 σ hstep)
    · exact joinAllPrevs_sound hd hg h₃ hhead hedge ((hbody u σ₀ hu hflow).post σ hstep)

/-- The increasing loop ends with a value that describes the states at the head, whatever the
    widening returns. -/
theorem increase_sound {r : D × FwdAnalyzer E D} (hs : s.skip = false) (hc : Clean s)
    (h : increase dom prog visitBody head fuel iteration invariant s = .ok r)
    (hok : r.2.result.failed = false) :
    (∃ i, r.2.find? head = some i ∧ i.pre = r.1) ∧
      ∀ σ, Arrives prog γ step s (CycleOf head R) head σ → γ r.1 σ := by
  induction fuel generalizing iteration invariant s with
  | zero => cases h
  | succ fuel ih =>
    obtain ⟨s₀, h₀, h⟩ := Except.bind_eq_ok.mp h
    obtain ⟨s₁, h₁, h⟩ := Except.bind_eq_ok.mp h
    obtain ⟨s₂, h₂, h⟩ := Except.bind_eq_ok.mp h
    obtain ⟨newPre, h₃, h⟩ := Except.bind_eq_ok.mp h
    have hk₀ := setPre_keeps h₀
    have hk₁ := transformToPost_keeps h₁
    have hk₀₁ := hk₀.trans hk₁
    have hk₂ := hv.keeps s₁ s₂ (hk₀₁.skip hs) h₂
    have hk : Keeps (CycleOf head R) s s₂ :=
      (hk₀₁.mono fun _ => Or.inl).trans (hk₂.mono fun _ => Or.inr)
    split_ifs at h with hle
    · obtain ⟨s₃, h₄, h⟩ := Except.bind_eq_ok.mp h
      obtain rfl := Except.ok.inj h
      have hk₃ := setPre_keeps h₄
      have hok₂ := hk₃.not_failed hok
      have hok₁ := hk₂.not_failed hok₂
      have hpost : ∀ σ, γ newPre σ → ∀ σ', StepAt prog step head σ σ' → PostAt γ s₁ head σ' :=
        fun σ hσ => (transformToPost_sound hd (hk₀.clean hc) h₁ hok₁ (hd.le hle hσ)).1
      refine ⟨setPre_find h₄, fun σ hσ => ?_⟩
      -- the posts of this round are closed under the steps of the cycle
      have hcover : ∀ l σ, Arrives prog γ step s (CycleOf head R) l σ →
          (l = head → γ newPre σ) ∧ (R l → Arrives prog γ step s₁ R l σ) := by
        refine fun l σ hσ => RegionFlow.cover (P := fun l σ => (l = head → γ newPre σ) ∧
          (R l → Arrives prog γ step s₁ R l σ)) ?_ ?_ hσ
        · rintro l σ - ⟨u, hu, hedge, hu'⟩
          refine ⟨fun hl => ?_, fun hl => .enter hl ?_⟩
          · subst hl
            exact joinAllPrevs_sound hd hg h₃ hhead hedge (hu'.congr (hk.find u hu))
          · exact ⟨u, fun hRu => hu (Or.inr hRu), hedge,
              hu'.congr (hk₀₁.find u fun huh => hu (Or.inl huh))⟩
        · rintro u l σ σ' hu ⟨hself, hbody⟩ hstep hedge -
          rcases hu with rfl | hu
          · have hσ' := hpost σ (hself rfl) σ' hstep
            refine ⟨fun hl => ?_, fun hl => .enter hl ⟨u, hR, hedge, hσ'⟩⟩
            subst hl
            exact joinAllPrevs_sound hd hg h₃ hhead hedge (hσ'.congr (hk₂.find _ hR))
          · have hflow := hbody hu
            refine ⟨fun hl => ?_, fun hl => .step hflow hstep hedge hl⟩
            subst hl
            have hsound := hv.sound s₁ s₂ (hk₀₁.skip hs) (hk₀₁.clean hc) h₂ hok₂ u σ hflow
            exact joinAllPrevs_sound hd hg h₃ hhead hedge (hsound.post σ' hstep)
      exact (hcover head σ hσ).1 rfl
    · obtain ⟨hpre, hsound⟩ := ih (hk.skip hs) (hk.clean hc) h
      exact ⟨hpre, fun σ hσ => hsound σ (Arrives.congr hσ hk.find)⟩

/-- Every round of the decreasing loop keeps a sound invariant at the head, and the last one leaves
    sound tables. -/
theorem decrease_sound (hs : s.skip = false) (hc : Clean s)
    (h : decrease dom prog visitBody head fuel iteration invariant s = .ok s')
    (hok : s'.result.failed = false)
    (hinv : ∀ σ, Arrives prog γ step s (CycleOf head R) head σ → γ invariant σ)
    (hpre : ∃ i, s.find? head = some i ∧
      ∀ σ, Arrives prog γ step s (CycleOf head R) head σ → γ i.pre σ) :
    ∀ l σ, Arrives prog γ step s (CycleOf head R) l σ → SoundAt prog γ step holds s' l σ := by
  induction fuel generalizing iteration invariant s with
  | zero => cases h
  | succ fuel ih =>
    obtain ⟨s₁, h₁, h⟩ := Except.bind_eq_ok.mp h
    obtain ⟨s₂, h₂, h⟩ := Except.bind_eq_ok.mp h
    obtain ⟨newPre, h₃, h⟩ := Except.bind_eq_ok.mp h
    have hk₁ := transformToPost_keeps h₁
    have hk₂ := hv.keeps s₁ s₂ (hk₁.skip hs) h₂
    have hk : Keeps (CycleOf head R) s s₂ :=
      (hk₁.mono fun _ => Or.inl).trans (hk₂.mono fun _ => Or.inr)
    have hstop : s₂.result.failed = false → ∀ l σ,
        Arrives prog γ step s (CycleOf head R) l σ → SoundAt prog γ step holds s₂ l σ := by
      intro hok l σ hσ
      obtain ⟨hbody, hself, -⟩ := round_sound hd hg hv hhead hR hs hc h₁ h₂ h₃ hok hinv
      rcases hσ.mem with rfl | hl
      · obtain ⟨i, hi, hiσ⟩ := hpre
        obtain ⟨i', hi', hpre'⟩ := transformToPost_pre h₁ i hi
        refine ⟨⟨i', (hk₂.find _ hR).trans hi', ?_⟩, (hself σ hσ).1, (hself σ hσ).2⟩
        rw [hpre']
        exact hiσ σ hσ
      · exact hbody l σ hl hσ
    split_ifs at h
    · obtain rfl := Except.ok.inj h
      exact hstop hok
    · obtain rfl := Except.ok.inj h
      exact hstop hok
    · obtain ⟨s₃, h₄, h⟩ := Except.bind_eq_ok.mp h
      have hk₃ := hk.trans ((setPre_keeps h₄).mono fun _ => Or.inl)
      have hrest := decrease_keeps hv.keeps (hk₃.skip hs) h
      have hok₂ : s₂.result.failed = false := (setPre_keeps h₄).not_failed (hrest.not_failed hok)
      obtain ⟨-, -, hnew⟩ := round_sound hd hg hv hhead hR hs hc h₁ h₂ h₃ hok₂ hinv
      have hrefine : ∀ σ, Arrives prog γ step s (CycleOf head R) head σ →
          γ (refine dom invariant newPre iteration) σ := by
        intro σ hσ
        unfold refine
        split_ifs
        · exact hd.meet (hinv σ hσ) (hnew σ hσ)
        · exact hd.narrow (hinv σ hσ) (hnew σ hσ)
      have hback : ∀ {l σ}, Arrives prog γ step s₃ (CycleOf head R) l σ →
          Arrives prog γ step s (CycleOf head R) l σ := by
        intro l σ hσ
        exact Arrives.congr hσ fun u hu => (hk₃.find u hu).symm
      intro l σ hσ
      refine ih (hk₃.skip hs) (hk₃.clean hc) h (fun σ hσ => hrefine σ (hback hσ)) ?_ l σ
        (Arrives.congr hσ hk₃.find)
      obtain ⟨i, hi, hipre⟩ := setPre_find h₄
      refine ⟨i, hi, fun σ hσ => ?_⟩
      rw [hipre]
      exact hrefine σ (hback hσ)

/-- The two loops of a cycle, as seen from the state before its visit. -/
theorem cycle_sound {r : D × FwdAnalyzer E D} {fuel' iteration' : ℕ} (hs : s.skip = false) (hc : Clean s)
    (hinc : increase dom prog visitBody head fuel iteration invariant s = .ok r)
    (hdec : decrease dom prog visitBody head fuel' iteration' r.1 r.2 = .ok s')
    (hok : s'.result.failed = false) (hσ : Arrives prog γ step s (CycleOf head R) l σ) :
    SoundAt prog γ step holds s' l σ := by
  have hkr := increase_keeps hv.keeps hs hinc
  have hkd := decrease_keeps hv.keeps (hkr.skip hs) hdec
  obtain ⟨⟨i, hi, hpre⟩, hinv⟩ := increase_sound hd hg hv hhead hR hs hc hinc (hkd.not_failed hok)
  have hback : ∀ {l σ}, Arrives prog γ step r.2 (CycleOf head R) l σ →
      Arrives prog γ step s (CycleOf head R) l σ := fun hσ =>
    Arrives.congr hσ fun u hu => (hkr.find u hu).symm
  refine decrease_sound hd hg hv hhead hR (hkr.skip hs) (hkr.clean hc) hdec hok
    (fun σ hσ => hinv σ (hback hσ)) ⟨i, hi, fun σ hσ => ?_⟩ l σ (Arrives.congr hσ hkr.find)
  rw [hpre]
  exact hinv σ (hback hσ)

end Cycle

/-! ## The order -/

section Parts

variable {Q R : Label → Prop}

/-- What arrives in a part that no step of the other part leads to. -/
theorem arrives_first (hback : ∀ u l, R u → Q l → l ∉ prog.cfg.succs u) (hl : Q l)
    (hσ : Arrives prog γ step s (fun l => Q l ∨ R l) l σ) : Arrives prog γ step s Q l σ := by
  refine hσ.restrict hl ?_ ?_
  · rintro l σ - ⟨u, hu, hedge, hpost⟩
    exact ⟨u, fun h => hu (Or.inl h), hedge, hpost⟩
  · intro u l σ σ' hu hflow _ hedge hl
    exact absurd hedge (hback u l (hflow.mem.resolve_left hu) hl)

/-- Two parts that are visited one after the other. -/
theorem sound_of_parts (hapart : ∀ l, Q l → ¬ R l) (hk₁ : Keeps Q s s₁) (hk : Keeps R s₁ s')
    (hfirst : ∀ l σ, Q l → Arrives prog γ step s (fun l => Q l ∨ R l) l σ →
      SoundAt prog γ step holds s₁ l σ)
    (hrest : ∀ l σ, Arrives prog γ step s₁ R l σ → SoundAt prog γ step holds s' l σ)
    (hσ : Arrives prog γ step s (fun l => Q l ∨ R l) l σ) : SoundAt prog γ step holds s' l σ := by
  rcases hσ.mem with hl | hl
  · exact (hfirst l σ hl hσ).congr (hk.find l (hapart l hl))
  · refine hrest l σ (hσ.restrict hl ?_ ?_)
    · rintro l σ - ⟨u, hu, hedge, hpost⟩
      exact ⟨u, fun h => hu (Or.inr h), hedge, hpost.congr (hk₁.find u fun h => hu (Or.inl h))⟩
    · intro u l σ σ' hu hflow hstep hedge _
      exact ⟨u, hu, hedge, (hfirst u σ (hflow.mem.resolve_right hu) hflow).post σ' hstep⟩

end Parts

variable {wto : Wto} {fuel : ℕ} {P : WtoPartition}

/-- A visit of a part of the order is sound. -/
theorem visit_sound (hd : dom.Sound γ step holds initCounter) (hg : prog.cfg.Linked)
    (hP : P.Ordered fun u l => l ∈ prog.cfg.succs u) (hn : P.vertices.Nodup)
    (he : Label.entry ∉ P.vertices) :
    VisitsSoundly dom prog γ step holds (visit dom prog wto fuel P none) (· ∈ P.vertices) := by
  refine ⟨fun s s' hs hv => visit_keeps hP hn hs hv, ?_⟩
  induction hP with
  | nil =>
    intro s s' _ _ _ _ l σ hσ
    cases hσ.mem
  | @vertex a rest ha hrest ih =>
    intro s s' hs hc hv hok l σ hσ
    obtain ⟨hnot, hnr⟩ := List.nodup_cons.mp hn
    have her : Label.entry ∉ rest.vertices := fun h => he (List.mem_cons_of_mem _ h)
    have hae : a ≠ .entry := fun h => he (h ▸ List.mem_cons_self)
    rw [visit_vertex] at hv
    obtain ⟨s₁, h₁, hv⟩ := Except.bind_eq_ok.mp hv
    have hk₁ := visitLabel_keeps hs h₁
    have hk := visit_keeps hrest hnr (hk₁.skip hs) hv
    have hregion : (· ∈ a :: rest.vertices) = fun l => l = a ∨ l ∈ rest.vertices := by
      funext l
      exact propext List.mem_cons
    have hσ : Arrives prog γ step s (· ∈ a :: rest.vertices) l σ := hσ
    rw [hregion] at hσ
    refine sound_of_parts (fun l hl => hl ▸ hnot) hk₁ hk ?_
      (ih hnr her s₁ s' (hk₁.skip hs) (hk₁.clean hc) hv hok) hσ
    rintro l σ rfl hσ
    cases hσ with
    | enter _ h =>
      obtain ⟨u, -, hedge, hpost⟩ := h
      exact visitLabel_sound hd hg hs hc h₁ (hk.not_failed hok) hae hedge hpost
    | @step u _ _ _ hflow _ hedge _ => exact absurd hedge (ha u (List.mem_cons.mpr hflow.mem))
  | @component k body rest hc hbody hrest ihb ih =>
    intro s s' hs hclean hv hok l σ hσ
    rw [WeakOrder.vertices_component] at hn he
    obtain ⟨hkb, hnb⟩ := List.nodup_cons.mp hn.of_append_left
    have hnr := hn.of_append_right
    have her : Label.entry ∉ rest.vertices := fun h => he (List.mem_append_right _ h)
    have heb : Label.entry ∉ body.vertices := fun h =>
      he (List.mem_append_left _ (List.mem_cons_of_mem _ h))
    have hke : k ≠ .entry := fun h => he (h ▸ List.mem_cons_self)
    have hvb : VisitsSoundly dom prog γ step holds (visit dom prog wto fuel body none)
        (· ∈ body.vertices) :=
      ⟨fun s s' hs hv => visit_keeps hbody hnb hs hv, ihb hnb heb⟩
    obtain ⟨invariant, r, s₁, hr, hdec, hv⟩ := visit_component_eq_ok hs hkb hv
    have hkr := increase_keeps hvb.keeps hs hr
    have hk₁ := hkr.trans (decrease_keeps hvb.keeps (hkr.skip hs) hdec)
    have hk := visit_keeps hrest hnr (hk₁.skip hs) hv
    have hregion : (· ∈ (k :: body.vertices) ++ rest.vertices) =
        fun l => CycleOf k (· ∈ body.vertices) l ∨ l ∈ rest.vertices := by
      funext l
      exact propext (List.mem_append.trans (or_congr List.mem_cons Iff.rfl))
    have hσ : Arrives prog γ step s (· ∈ (k :: body.vertices) ++ rest.vertices) l σ := hσ
    rw [hregion] at hσ
    refine sound_of_parts (fun l hl hlr => ?_) hk₁ hk (fun l σ hl hσ => ?_)
      (ih hnr her s₁ s' (hk₁.skip hs) (hk₁.clean hclean) hv hok) hσ
    · exact List.disjoint_of_nodup_append hn (List.mem_cons.mpr hl) hlr
    · -- no step leads back into the cycle
      exact cycle_sound hd hg hvb hke hkb hs hclean hr hdec (hk.not_failed hok)
        (arrives_first (fun u l hu hl => hc u hu l (List.mem_cons.mpr hl)) hl hσ)

end FwdAnalyzer

end Prevail
