import Prevail.Crab.JoinExact
import Prevail.Crab.WidenKept

/-!
# Forgetting a variable of a state in normal form

In split normal form nothing is lost with the edges of a forgotten variable: what they say about
the others is kept by other edges. So `havoc` forgets the variable and nothing else.
-/

namespace Prevail

open DiffSys

namespace SplitDbm

variable {V : Type*} [LinearOrder V] {d : SplitDbm V} {σ : V → ℤ} {v : V} {n : ℕ}
  {x y : Option V} {w : ℤ}

/-- Normalisation adds and sharpens derived edges only. -/
theorem NormalForm.normalize (h : d.NormalForm) : d.normalize.NormalForm where
  sat := h.sat.imp fun _ hν => sat_normalize.mpr hν
  closed := by
    obtain ⟨ν, hν⟩ := h.sat
    refine h.closed.sharpen (fun s t c hc => atMost_normalize ⟨c, le_rfl, hc⟩) fun s t c hc => ?_
    refine derives_of_implies (AdaptGraph.finite_edge d.g) hν fun ν' hν' => ?_
    exact sat_normalize.mpr hν' s t c hc

/-- The constraints without those of a dropped variable. -/
theorem csts_dropVert_iff (hd : d.WF) (hv : d.vertMap.find? v = some n) :
    (d.dropVert v n).csts x y w ↔ d.csts.without (some v) x y w := by
  have hne : ∀ {u : Option V} {m : ℕ}, d.vertOf u = some m → (m ≠ n ↔ u ≠ some v) := by
    intro u m hu
    constructor
    · rintro hmn rfl
      exact hmn (Option.some.inj (hu.symm.trans hv))
    · rintro huv rfl
      exact huv (vertOf_inj hd hu hv)
  constructor
  · rintro ⟨s, t, hs, ht, hw⟩
    obtain ⟨hw, hsn, htn⟩ := edge_dropVert hd hv hw
    have hs := (vertOf_dropVert hv hsn).mp hs
    have ht := (vertOf_dropVert hv htn).mp ht
    exact ⟨⟨s, t, hs, ht, hw⟩, (hne hs).mp hsn, (hne ht).mp htn⟩
  · rintro ⟨⟨s, t, hs, ht, hw⟩, hx, hy⟩
    have hsn := (hne hs).mpr hx
    have htn := (hne ht).mpr hy
    refine ⟨s, t, (vertOf_dropVert hv hsn).mpr hs, (vertOf_dropVert hv htn).mpr ht, ?_⟩
    show (d.g.forget n).lookup s t = some w
    rw [AdaptGraph.lookup_forget_of_not_free (hd.vert v n hv).2.2, if_pos ⟨hsn, htn⟩]
    exact hw

theorem NormalForm.dropVert (h : d.NormalForm) (hd : d.WF) (hv : d.vertMap.find? v = some n) :
    (d.dropVert v n).NormalForm := by
  obtain ⟨ν, hν⟩ := h.models
  refine normalForm_of_csts (wf_dropVert hd hv) ?_ ?_
  · obtain ⟨μ, hμ⟩ := hν
    exact ⟨_, μ, val_dropVert hd hv hμ 0⟩
  · have heq : (d.dropVert v n).csts = d.csts.without (some v) := by
      funext x y w
      exact propext (csts_dropVert_iff hd hv)
    rw [heq]
    exact (h.splitClosed_csts hd).without (by simp)

theorem NormalForm.havoc (h : d.NormalForm) (hd : d.WF) (v : V) : (d.havoc v).NormalForm := by
  cases hv : d.vertMap.find? v with
  | none => rwa [havoc_of_none hv]
  | some n =>
    rw [havoc_of_some hv]
    exact (h.dropVert hd hv).normalize

/-- The edges between the other variables and zero say all that the state says about them. -/
def KeptWithout (d : SplitDbm V) (v : V) : Prop :=
  ∀ φ : Option V → ℤ, Sat (d.csts.without (some v)) φ →
    ∃ ψ, Sat d.csts ψ ∧ ∀ u, u ≠ some v → ψ u = φ u

theorem NormalForm.keptWithout (h : d.NormalForm) (hd : d.WF) (v : V) : d.KeptWithout v := by
  intro φ hφ
  obtain ⟨ρ, hρ⟩ := h.models
  exact (h.splitClosed_csts hd).exists_sat_of_without (by simp) (finite_csts hd)
    ((models_iff hd).mp hρ) hφ

/-- A solution of the constraints without those of `v` is a valuation of the state up to `v`. -/
theorem KeptWithout.models (h : d.KeptWithout v) (hd : d.WF)
    (hσ : Sat (d.csts.without (some v)) (ext σ)) : ∃ k, d.Models (Function.update σ v k) := by
  obtain ⟨ψ, hψ, heq⟩ := h _ hσ
  refine ⟨ψ (some v), (models_iff hd).mpr ?_⟩
  have hext : ext (Function.update σ v (ψ (some v))) = ψ := by
    funext u
    cases u with
    | none => exact (heq none (by simp)).symm
    | some u =>
      by_cases huv : u = v
      · subst huv
        exact Function.update_self _ _ _
      · refine (Function.update_of_ne huv _ _).trans (heq (some u) ?_).symm
        exact fun h => huv (Option.some.inj h)
  rw [hext]
  exact hψ

/-- The valuations of the state without `v` are those of the state, up to the value of `v`. -/
theorem models_of_havoc (hd : d.WF) (h : d.NormalForm) (hσ : (d.havoc v).Models σ) :
    ∃ k, d.Models (Function.update σ v k) := by
  cases hv : d.vertMap.find? v with
  | none =>
    rw [havoc_of_none hv] at hσ
    exact ⟨σ v, by rwa [Function.update_eq_self]⟩
  | some n =>
    rw [havoc_of_some hv, models_normalize, models_iff (wf_dropVert hd hv)] at hσ
    exact (h.keptWithout hd v).models hd fun x y w hw => hσ x y w ((csts_dropVert_iff hd hv).mpr hw)

end SplitDbm

end Prevail
