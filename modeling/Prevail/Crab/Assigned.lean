import Prevail.Crab.Keeps

/-!
# What assignments establish

After a variable is assigned another variable, the zone has the two edges that make them equal, whatever
it had before. So the valuations of the result agree on both (`eq_of_models_assign`).
-/

namespace Prevail

open DiffSys GraphOps

namespace SplitDbm

variable {V : Type*} [LinearOrder V] {d : SplitDbm V} {u v : V} {σ : V → ℤ}

/-- The constraints of an assignment of a variable. -/
theorem diffcstsOfAssign_var (d : SplitDbm V) (u : V) (upper : Bool) :
    d.diffcstsOfAssign (.var u) upper = [(u, 0)] := by
  have hterms : (LinearExpression.var u).variableTerms.entries = [(u, 1)] := rfl
  have hconst : (LinearExpression.var u).constantTerm = 0 := rfl
  unfold diffcstsOfAssign
  rw [hterms, hconst]
  unfold assignTerm
  cases hb : (if upper then d.getUb (d.vertMap.find? u) else d.getLb (d.vertMap.find? u)).number with
  | none => simp [hb]
  | some b => simp [hb]

/-- Edges both ways make the variables equal. -/
theorem eq_of_atMost (hd : d.WF) {m n : ℕ} (hm : d.vertMap.find? u = some m)
    (hn : d.vertMap.find? v = some n) (hmn : AtMost m n 0 d.g) (hnm : AtMost n m 0 d.g)
    (hσ : d.Models σ) : σ v = σ u := by
  have hsat := (models_iff hd).mp hσ
  obtain ⟨w, hw, hcst⟩ := exists_csts_of_atMost (x := some u) (y := some v) hm hn hmn
  obtain ⟨w', hw', hcst'⟩ := exists_csts_of_atMost (x := some v) (y := some u) hn hm hnm
  have h1 : σ v ≤ σ u + w := hsat _ _ _ hcst
  have h2 : σ u ≤ σ v + w' := hsat _ _ _ hcst'
  omega

/-- An interval with one value. -/
theorem eq_const_of_isSingleton {i : Interval} {k : ℤ} (h : i.isSingleton = true) (hk : k ∈ i) :
    i = .const k := by
  obtain ⟨n, hn⟩ := Option.isSome_iff_exists.mp ((Interval.isSome_singleton hk).trans h)
  obtain rfl := Interval.eq_of_singleton hn hk
  rcases i with ⟨lb, ub⟩
  unfold Interval.singleton at hn
  split_ifs at hn with heq
  obtain rfl : lb = ub := heq
  cases lb with
  | negInf => cases hn
  | posInf => cases hn
  | fin n => rw [Option.some.inj hn]; rfl

theorem eq_of_models_assignDiffs (hd : d.WF) (huv : u ≠ v) (value : Interval) (eVal : ℤ)
    (hσ : (d.assignDiffs v value eVal [(u, 0)] [(u, 0)]).Models σ) : σ v = σ u := by
  have hf := fresh_newVertex hd
  have hwf := hf.wf_extra hd v (pot d.potential 0 + eVal)
  set vert := d.g.newVertex.1
  set d₀ := setVert { d with g := d.g.newVertex.2 } vert v (pot d.potential 0 + eVal)
  have hg := getVert_spec hwf u
  set y := (d₀.getVert u).1
  have hacc : d₀.assignDelta vert [(u, 0)] [(u, 0)] = ([(vert, y, 0), (y, vert, 0)], (d₀.getVert u).2) := by
    unfold assignDelta
    simp only [List.foldl_cons, List.foldl_nil, neg_zero, List.nil_append]
    rw [getVert_of_some hg.self]
    rfl
  obtain ⟨hwf₁, -⟩ := assignGraph_spec hd v value eVal [(u, 0)] [(u, 0)]
  set d₁ := d.assignGraph v value eVal [(u, 0)] [(u, 0)]
  have hmap : d₁.vertMap = (d₀.getVert u).2.vertMap :=
    congrArg (fun acc : EdgeVector × SplitDbm V => acc.2.vertMap) hacc
  have hu : d₁.vertMap.find? u = some y := by rw [hmap, hg.self]
  have hv : d₁.vertMap.find? v ≠ some vert := fun h => hwf₁.extraFresh v vert (Or.inr rfl) h
  have hvy : d₁.vertMap.find? v ≠ some y := fun h => huv (hwf₁.inj u v y hu h)
  have hyv : y ≠ vert := fun h => hwf₁.extraFresh u y (Or.inr h) hu
  have hedge : ∀ {s t : ℕ}, (s, t, (0 : ℤ)) ∈ [(vert, y, (0 : ℤ)), (y, vert, 0)] →
      AtMost s t 0 (applyDelta (d₀.getVert u).2.g [(vert, y, 0), (y, vert, 0)]) := by
    intro s t hst
    refine atMost_applyDelta ⟨0, hst⟩ fun x hx => ?_
    simp only [List.mem_cons, Prod.mk.injEq, List.not_mem_nil, or_false] at hx
    omega
  have hnew : AtMost vert y 0 d₁.g := atMost_assignGraph hd hacc value (hedge (by simp))
  have hold : AtMost y vert 0 d₁.g := atMost_assignGraph hd hacc value (hedge (by simp))
  have hnew' := atMost_havoc hwf₁ hv hvy hnew
  have hold' := atMost_havoc hwf₁ hvy hv hold
  have hnone : (d₁.havoc v).vertMap.find? v = none := by rw [find?_havoc hwf₁, if_pos rfl]
  have hhavoc : (d₁.havoc v).vertMap.find? u = some y := by rw [find?_havoc hwf₁, if_neg huv, hu]
  rw [assignDiffs_eq, models_normalize] at hσ
  refine eq_of_atMost (wf_adopt (wf_havoc hwf₁ v) hnone) (m := y) (n := vert) ?_ ?_ hold' hnew' hσ
  · simp only [OrdMap.find?_emplace]
    rw [if_neg huv, hhavoc]
  · simp only [OrdMap.find?_emplace, hnone, Option.getD_none, if_true]
    rfl

/-- The valuations of the result agree on the variable and on what it is assigned. -/
theorem eq_of_models_assign (hd : d.WF) (huv : u ≠ v) (hσ : (d.assign v (.var u)).Models σ) :
    σ v = σ u := by
  have hmem : σ u ∈ d.evalInterval (.var u) := mem_evalInterval_var.mpr
    ((keeps_assign hd v (.var u)).mem_getInterval (fun h => huv (Option.some.inj h)) (fun h => by cases h)
      (mem_getInterval hσ u))
  unfold assign at hσ
  simp only [diffcstsOfAssign_var] at hσ
  split_ifs at hσ with hsingle hempty
  · rw [eq_const_of_isSingleton hsingle hmem, models_normalize] at hσ
    exact eq_of_mem_getInterval_set hd (mem_getInterval hσ v)
  · simp at hempty
  · exact eq_of_models_assignDiffs hd huv _ _ hσ

end SplitDbm

namespace AddBottom

variable {V : Type*} [LinearOrder V] {x : AddBottom V} {u v : V} {σ : V → ℤ}

theorem eq_of_models_assign (hx : x.WF) (huv : u ≠ v) (hσ : (x.assign v (.var u)).Models σ) :
    σ v = σ u := by
  obtain ⟨b, hb, hσ⟩ := hσ
  obtain ⟨a, rfl, rfl⟩ := Option.map_eq_some_iff.mp hb
  exact SplitDbm.eq_of_models_assign (hx a rfl) huv hσ

theorem eq_of_models_assignInt (hx : x.WF) {c : ℤ} (hσ : (x.assignInt v c).Models σ) : σ v = c := by
  have hmem := mem_evalInterval hσ (.var v)
  rw [LinearExpression.eval_var] at hmem
  exact eq_of_mem_assignInt hx hmem

end AddBottom

end Prevail
