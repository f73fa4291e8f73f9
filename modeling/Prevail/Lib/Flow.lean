import Mathlib.Logic.Relation

/-!
# The states that arrive at the labels of a region

States enter a region from outside (`inflow`) and move inside it along edges. `RegionFlow` collects
the states that arrive at each label of the region; a family of sets that has the inflow and is
closed under the steps covers it (`RegionFlow.cover`), and the flow into a smaller region is the part
of it that enters over the edges from the rest (`RegionFlow.restrict`).
-/

variable {L S : Type*}

/-- The states that arrive at the labels of `region`. -/
inductive RegionFlow (edge : L → L → Prop) (step : L → S → S → Prop) (region : L → Prop)
    (inflow : L → S → Prop) : L → S → Prop
  | enter {l : L} {σ : S} (hl : region l) (h : inflow l σ) : RegionFlow edge step region inflow l σ
  | step {u l : L} {σ σ' : S} (h : RegionFlow edge step region inflow u σ) (hstep : step u σ σ')
      (hedge : edge u l) (hl : region l) : RegionFlow edge step region inflow l σ'

namespace RegionFlow

variable {edge : L → L → Prop} {step : L → S → S → Prop} {region region' : L → Prop}
  {inflow inflow' : L → S → Prop} {l : L} {σ : S}

theorem mem (h : RegionFlow edge step region inflow l σ) : region l := by
  cases h with
  | enter hl => exact hl
  | step _ _ _ hl => exact hl

/-- A family that has the inflow and is closed under the steps covers the flow. -/
theorem cover {P : L → S → Prop} (henter : ∀ l σ, region l → inflow l σ → P l σ)
    (hstep : ∀ u l σ σ', region u → P u σ → step u σ σ' → edge u l → region l → P l σ')
    (h : RegionFlow edge step region inflow l σ) : P l σ := by
  induction h with
  | enter hl h => exact henter _ _ hl h
  | step h hs he hl ih => exact hstep _ _ _ _ h.mem ih hs he hl

/-- The flow into a part of the region. -/
theorem restrict (hl : region' l) (henter : ∀ l σ, region' l → inflow l σ → inflow' l σ)
    (hcross : ∀ u l σ σ', ¬ region' u → RegionFlow edge step region inflow u σ → step u σ σ' →
      edge u l → region' l → inflow' l σ')
    (h : RegionFlow edge step region inflow l σ) : RegionFlow edge step region' inflow' l σ := by
  induction h with
  | enter _ h => exact .enter hl (henter _ _ hl h)
  | @step u _ _ _ h hs he _ ih =>
    by_cases hu : region' u
    · exact .step (ih hu) hs he hl
    · exact .enter hl (hcross _ _ _ _ hu h hs he hl)

theorem mono (h : RegionFlow edge step region inflow l σ)
    (henter : ∀ l σ, region l → inflow l σ → inflow' l σ) :
    RegionFlow edge step region inflow' l σ :=
  h.restrict h.mem henter fun _ _ _ _ hu hflow => absurd hflow.mem hu

end RegionFlow
