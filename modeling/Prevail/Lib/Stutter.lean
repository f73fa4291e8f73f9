import Mathlib.Data.Sum.Basic

/-!
# Machines that run in step

A machine takes a state to the next one, or to the outcome that it stops with. Two machines have the
same runs along a relation (`SameRuns`) when each reaches from related states just what the other
reaches, as far as the relation sees it. It is enough to look at one step of the second machine and
at one or two of the first one; the state between the two is related to none (`SameRuns.of_steps`).
-/

variable {σ τ ρ : Type*}

/-- What the machine comes to from a state: a state that it reaches, or the outcome. -/
inductive Runs (step : σ → σ ⊕ ρ) : σ → σ ⊕ ρ → Prop
  | refl (s : σ) : Runs step s (.inl s)
  | stop {s : σ} {r : ρ} (h : step s = .inr r) : Runs step s (.inr r)
  | step {s s' : σ} {x : σ ⊕ ρ} (h : step s = .inl s') (hrun : Runs step s' x) : Runs step s x

/-- The second machine comes to what the first one comes to, and to nothing else. The first one may
come to states that the relation does not see. -/
def SameRuns (f : σ → σ ⊕ ρ) (g : τ → τ ⊕ ρ) (R : σ → τ → Prop) : Prop :=
  ∀ s t, R s t → (∀ y, Runs g t y → ∃ x, Sum.LiftRel R Eq x y ∧ Runs f s x) ∧
    ∀ x y, Sum.LiftRel R Eq x y → Runs f s x → Runs g t y

/-- One step of the second machine is one of the first machine, or two. -/
def Steps (f : σ → σ ⊕ ρ) (g : τ → τ ⊕ ρ) (R : σ → τ → Prop) (s : σ) (t : τ) : Prop :=
  Sum.LiftRel R Eq (f s) (g t) ∨
    ∃ m, f s = .inl m ∧ (∀ t', ¬ R m t') ∧ Sum.LiftRel R Eq (f m) (g t)

variable {f : σ → σ ⊕ ρ} {g : τ → τ ⊕ ρ} {R : σ → τ → Prop}

theorem Runs.eq_of_stop {s : σ} {r : ρ} {x : σ ⊕ ρ} (h : f s = .inr r) (hrun : Runs f s x) :
    x = .inl s ∨ x = .inr r := by
  cases hrun with
  | refl => exact Or.inl rfl
  | stop h' => exact Or.inr (congrArg _ (Sum.inr.inj (h'.symm.trans h)))
  | step h' => cases h'.symm.trans h

/-- What a step of the second machine leads to, the first machine comes to. -/
theorem Steps.runs_left {s : σ} {t : τ} (h : Steps f g R s t) : ∃ x, Sum.LiftRel R Eq x (g t) ∧
    ∀ y, (∀ s', x = .inl s' → Runs f s' y) → (∀ r, x = .inr r → y = .inr r) → Runs f s y := by
  obtain hlift | ⟨m, hm, -, hlift⟩ := h
  · refine ⟨f s, hlift, fun y hl hr => ?_⟩
    cases hf : f s with
    | inl s' => exact .step hf (hl s' hf)
    | inr r =>
      rw [hr r hf]
      exact .stop hf
  · refine ⟨f m, hlift, fun y hl hr => .step hm ?_⟩
    cases hf : f m with
    | inl s' => exact .step hf (hl s' hf)
    | inr r =>
      rw [hr r hf]
      exact .stop hf

theorem runs_left (h : ∀ s t, R s t → Steps f g R s t) {s : σ} {t : τ} {y : τ ⊕ ρ} (hst : R s t)
    (hrun : Runs g t y) : ∃ x, Sum.LiftRel R Eq x y ∧ Runs f s x := by
  induction hrun generalizing s with
  | refl t => exact ⟨_, .inl hst, .refl s⟩
  | @stop t r hg =>
    obtain ⟨x, hlift, hx⟩ := (h s t hst).runs_left
    rw [hg] at hlift
    cases hlift with
    | inr hr =>
      subst hr
      exact ⟨_, .inr rfl, hx _ (fun _ h => by cases h) fun _ h => h⟩
  | @step t t' y hg _ ih =>
    obtain ⟨x, hlift, hx⟩ := (h s t hst).runs_left
    rw [hg] at hlift
    cases hlift with
    | @inl s' _ hs' =>
      obtain ⟨x', hlift', hrun'⟩ := ih hs'
      refine ⟨x', hlift', hx _ (fun s'' h => ?_) fun _ h => by cases h⟩
      cases h
      exact hrun'

/-- The induction on the run of the first machine also follows it from the state between two steps,
which is related to none. -/
theorem runs_right (hR : ∀ s t t', R s t → R s t' → t = t') (h : ∀ s t, R s t → Steps f g R s t)
    {s : σ} {x : σ ⊕ ρ} {y : τ ⊕ ρ} (hlift : Sum.LiftRel R Eq x y) (hrun : Runs f s x) :
    (∀ t, R s t → Runs g t y) ∧
      ∀ t, (∀ t', ¬ R s t') → Sum.LiftRel R Eq (f s) (g t) → Runs g t y := by
  induction hrun with
  | refl s =>
    cases hlift with
    | @inl _ t' hst' =>
      refine ⟨fun t hst => ?_, fun t hno => absurd hst' (hno t')⟩
      rw [hR s t t' hst hst']
      exact .refl t'
  | @stop s r hf =>
    cases hlift with
    | inr hr =>
      subst hr
      have hstop : ∀ t, Sum.LiftRel R Eq (f s) (g t) → Runs g t (.inr r) := by
        intro t hl
        rw [hf] at hl
        cases hg : g t with
        | inl t' =>
          rw [hg] at hl
          cases hl
        | inr r' =>
          rw [hg] at hl
          cases hl with
          | inr hr =>
            subst hr
            exact .stop hg
      refine ⟨fun t hst => ?_, fun t _ => hstop t⟩
      obtain hl | ⟨m, hm, -⟩ := h s t hst
      · exact hstop t hl
      · cases hf.symm.trans hm
  | @step s s' x hf _ ih =>
    have hnext : ∀ t, Sum.LiftRel R Eq (f s) (g t) → Runs g t y := by
      intro t hl
      rw [hf] at hl
      cases hg : g t with
      | inl t' =>
        rw [hg] at hl
        cases hl with
        | inl hst' => exact .step hg ((ih hlift).1 t' hst')
      | inr r =>
        rw [hg] at hl
        cases hl
    refine ⟨fun t hst => ?_, fun t _ => hnext t⟩
    obtain hl | ⟨m, hm, hno, hl⟩ := h s t hst
    · exact hnext t hl
    · cases hf.symm.trans hm
      exact (ih hlift).2 t hno hl

/-- Machines whose steps from related states match have the same runs. -/
theorem SameRuns.of_steps (hR : ∀ s t t', R s t → R s t' → t = t')
    (h : ∀ s t, R s t → Steps f g R s t) : SameRuns f g R := by
  intro s t hst
  refine ⟨fun y hrun => runs_left h hst hrun, fun x y hlift hrun => ?_⟩
  exact (runs_right hR h hlift hrun).1 t hst
