import Prevail.Crab.Keeps

/-!
# Variables without relations

A variable is unlinked when its vertex has edges only to and from zero. Forgetting or setting a variable
unlinks it, and forgetting or setting another one leaves it unlinked, also when the closure is restored
afterwards: the edges that are found start and end at vertices with edges.

An unlinked variable may take every value of its interval, whatever the others are.
-/

namespace Prevail

open DiffSys GraphOps

/-- The vertex has edges only to and from zero. -/
def AdaptGraph.Bare (g : AdaptGraph) (n : ℕ) : Prop :=
  ∀ t w, t ≠ 0 → ¬ g.Edge n t w ∧ ¬ g.Edge t n w

namespace SplitDbm

variable {V : Type*} [LinearOrder V]

/-- No constraint relates the variable to another one. -/
def Unlinked (d : SplitDbm V) (v : V) : Prop := ∀ n, d.vertMap.find? v = some n → d.g.Bare n

variable {d : SplitDbm V} {P : ℕ → Prop} {σ : V → ℤ} {v u : V} {n : ℕ} {i : Interval} {g : AdaptGraph}

/-! ## The closure -/

theorem bare_applyDelta {delta : EdgeVector} (h : g.Bare n)
    (hdelta : ∀ t w, t ≠ 0 → (n, t, w) ∉ delta ∧ (t, n, w) ∉ delta) : (applyDelta g delta).Bare n :=
  fun t w ht => ⟨fun he => (lookup_applyDelta he).elim (h t w ht).1 (hdelta t w ht).1,
    fun he => (lookup_applyDelta he).elim (h t w ht).2 (hdelta t w ht).2⟩

/-- Nothing bounds a vertex by one other than zero, since all others can be lowered together. -/
theorem not_implies_of_bare {ν : ℕ → ℤ} (h : g.Bare n) (hν : g.Edge.Sat ν) {t : ℕ} (ht : t ≠ 0)
    (htn : t ≠ n) (w : ℤ) : ¬ (g.view.subGraph 0).Edge.Implies t n w := by
  intro himp
  set K := max 0 (ν t + w - ν n + 1)
  set τ : ℕ → ℤ := fun u => if u = 0 ∨ u = n then ν u else ν u - K with hτ
  have hsat : (g.view.subGraph 0).Edge.Sat τ := by
    intro s e c he
    obtain ⟨hedge, he0⟩ := edge_subGraph.mp he
    have hle := hν s e c hedge
    rcases eq_or_ne e n with rfl | hen
    · obtain rfl : s = 0 := by_contra fun hs => (h s c hs).2 hedge
      simp only [hτ, true_or, or_true, if_true]
      exact hle
    · have hsn : s ≠ n := fun hs => (h e c he0).1 (hs ▸ hedge)
      simp only [hτ, he0, hen, hsn, or_self, or_false, if_false]
      split_ifs <;> omega
  have hbound := himp τ hsat
  simp only [hτ, ht, htn, or_self, or_true, if_true, if_false] at hbound
  omega

/-- Restoring the closure links no bare vertex. -/
theorem bare_normalize {ν : ℕ → ℤ} (hn : n ≠ 0) (h : d.g.Bare n) (hν : d.g.Edge.Sat ν) :
    d.normalize.g.Bare n := by
  cases hd : d.unstable.isEmpty with
  | true => rwa [graph_normalize_of_stable hd]
  | false =>
    rw [graph_normalize hd]
    refine bare_applyDelta (bare_applyDelta h fun t w ht => ?_) fun t w ht => ?_
    · have hno : ∀ e ∈ closeAfterWiden (d.g.view.subGraph 0) (pot d.potential) (d.unstable.contains ·),
          e.1 ≠ n := by
        rintro e he rfl
        obtain ⟨t', w', hedge⟩ := (improves_of_mem_closeAfterWiden he).2.source
        obtain ⟨hedge, ht'⟩ := edge_subGraph.mp hedge
        exact (h t' w' ht').1 hedge
      refine ⟨fun he => hno _ he rfl, fun he => ?_⟩
      exact not_implies_of_bare h hν ht (hno _ he) w (improves_of_mem_closeAfterWiden he).2.implied
    · have hzero : ∀ e ∈ closeAfterAssign d.recovered.view (pot d.potential) 0, e.1 = 0 ∨ e.2.1 = 0 := by
        intro e he
        rcases List.mem_append.mp he with he | he
        · obtain ⟨a, -, rfl⟩ := List.mem_map.mp he
          exact Or.inl rfl
        · obtain ⟨a, -, rfl⟩ := List.mem_map.mp he
          exact Or.inr rfl
      exact ⟨fun he => (hzero _ he).elim hn ht, fun he => (hzero _ he).elim ht hn⟩

/-! ## The operations -/

theorem Unlinked.normalize (hd : d.WFWith P) (h : d.Unlinked v) (hsat : ∃ ν, d.g.Edge.Sat ν) :
    d.normalize.Unlinked v := by
  obtain ⟨ν, hν⟩ := hsat
  intro n hn
  rw [vertMap_normalize] at hn
  exact bare_normalize (hd.vert v n hn).1.ne' (h n hn) hν

theorem Unlinked.havoc (hd : d.WF) (h : d.Unlinked v) (hsat : ∃ σ, d.Models σ) (u : V) :
    (d.havoc u).Unlinked v := by
  obtain ⟨σ, ν, hν⟩ := hsat
  cases hu : d.vertMap.find? u with
  | none => rwa [havoc_of_none hu]
  | some y =>
    rw [havoc_of_some hu]
    refine Unlinked.normalize (wf_dropVert hd hu) (fun n hn t w ht => ?_)
      ⟨ν, (val_dropVert hd hu hν 0).sat⟩
    have hbare := h n (find?_dropVert hn).2 t w ht
    exact ⟨fun he => hbare.1 (edge_dropVert hd hu he).1, fun he => hbare.2 (edge_dropVert hd hu he).1⟩

theorem unlinked_havoc_self (hd : d.WF) (v : V) : (d.havoc v).Unlinked v := by
  intro n hn
  rw [find?_havoc hd, if_pos rfl] at hn
  cases hn

theorem bare_withEdge {s t : ℕ} (hst : s = 0 ∨ t = 0) (w : ℤ) (p : List ℤ) (hn : n ≠ 0)
    (h : d.g.Bare n) : (d.withEdge s w t p).g.Bare n := by
  intro t' w' ht'
  have hedge : ∀ {a b}, a ≠ 0 → b ≠ 0 → (d.withEdge s w t p).g.Edge a b w' → d.g.Edge a b w' := by
    intro a b ha hb he
    change (d.g.setEdge s w t).lookup a b = some w' at he
    rwa [AdaptGraph.lookup_setEdge, if_neg] at he
    rintro ⟨rfl, rfl⟩
    exact hst.elim ha hb
  exact ⟨fun he => (h t' w' ht').1 (hedge hn ht' he), fun he => (h t' w' ht').2 (hedge ht' hn he)⟩

@[simp] theorem vertMap_setLb (d : SplitDbm V) (m : ℕ) (lb : Bound) : (d.setLb m lb).vertMap = d.vertMap := by
  unfold setLb
  cases lb.number <;> rfl

theorem bare_setUb (hn : n ≠ 0) (h : d.g.Bare n) (m : ℕ) (ub : Bound) : (d.setUb m ub).g.Bare n := by
  unfold setUb
  cases ub.number with
  | some u => exact bare_withEdge (Or.inl rfl) _ _ hn h
  | none => exact h

theorem bare_setLb (hn : n ≠ 0) (h : d.g.Bare n) (m : ℕ) (lb : Bound) : (d.setLb m lb).g.Bare n := by
  unfold setLb
  cases lb.number with
  | some l => exact bare_withEdge (Or.inr rfl) _ _ hn h
  | none => exact h

/-- A new vertex has no edges. -/
theorem bare_getVert_self (hd : d.WFWith P) (hv : d.vertMap.find? v = none) :
    (d.getVert v).2.g.Bare (d.getVert v).1 := by
  have hnew : (d.getVert v).1 = d.g.newVertex.1 := by
    unfold getVert
    rw [hv]
  have hfresh := fresh_newVertex hd
  intro t w _
  rw [(getVert_spec hd v).edge, (getVert_spec hd v).edge, hnew]
  exact ⟨fun he => hfresh.notLive (hd.ends _ _ _ he).1, fun he => hfresh.notLive (hd.ends _ _ _ he).2⟩

theorem unlinked_set_self (hd : d.WF) (hsat : ∃ σ, (d.set v i).Models σ) : (d.set v i).Unlinked v := by
  obtain ⟨σ, ν, hν⟩ := hsat
  have hh := wf_havoc hd v
  have hg := getVert_spec hh v
  rw [set_eq] at hν ⊢
  split_ifs at hν ⊢
  · exact unlinked_havoc_self hd v
  · have hself := hg.self
    intro m hm
    have hnone : (d.havoc v).vertMap.find? v = none := by rw [find?_havoc hd, if_pos rfl]
    have hn := (hg.wf.vert v _ hself).1.ne'
    have hlive : ((d.havoc v).getVert v).2.Live (fun _ => False) ((d.havoc v).getVert v).1 :=
      Or.inr (Or.inl ⟨v, hself⟩)
    obtain ⟨hu, hmap, -⟩ := setUb_spec hg.wf hlive i.ub
    rw [vertMap_normalize, vertMap_setLb, hmap, hself] at hm
    obtain rfl := Option.some.inj hm
    exact bare_normalize hn (bare_setLb hn (bare_setUb hn (bare_getVert_self hh hnone) _ _) _ _)
      (sat_normalize.mp hν.sat)

theorem Unlinked.set (hd : d.WF) (h : d.Unlinked v) (hsat : ∃ σ, d.Models σ) (huv : u ≠ v)
    (hsat' : ∃ σ, (d.set u i).Models σ) : (d.set u i).Unlinked v := by
  obtain ⟨σ, ν, hν⟩ := hsat'
  have hh := wf_havoc hd u
  have hg := getVert_spec hh u
  have hhavoc := h.havoc hd hsat u
  rw [set_eq] at hν ⊢
  split_ifs at hν ⊢
  · exact hhavoc
  · intro m hm
    have hself := hg.self
    have hlive : ((d.havoc u).getVert u).2.Live (fun _ => False) ((d.havoc u).getVert u).1 :=
      Or.inr (Or.inl ⟨u, hself⟩)
    obtain ⟨-, hmap, -⟩ := setUb_spec hg.wf hlive i.ub
    rw [vertMap_normalize, vertMap_setLb, hmap] at hm
    have hn := (hg.wf.vert v m hm).1.ne'
    rw [hg.find?, if_neg huv.symm] at hm
    refine bare_normalize hn (bare_setLb hn (bare_setUb hn (fun t w ht => ?_) _ _) _ _)
      (sat_normalize.mp hν.sat)
    rw [hg.edge, hg.edge]
    exact hhavoc m hm t w ht

/-- An unlinked variable may take every value of its interval. -/
theorem Unlinked.models_update (hd : d.WF) (h : d.Unlinked v) (hσ : d.Models σ) {k : ℤ}
    (hk : k ∈ d.getInterval v) : d.Models (Function.update σ v k) := by
  obtain ⟨ν, hν⟩ := hσ
  cases hv : d.vertMap.find? v with
  | none =>
    refine ⟨ν, hν.zero, fun u m hu => ?_, hν.sat⟩
    rw [Function.update_of_ne]
    · exact hν.agree u m hu
    · rintro rfl
      rw [hv] at hu
      cases hu
  | some n =>
    have hn := (hd.vert v n hv).1.ne'
    obtain ⟨hub, hlb⟩ := mem_getInterval_iff.mp hk
    refine ⟨Function.update ν n k, ?_, fun u m hu => ?_, fun s t w hw => ?_⟩
    · rw [Function.update_of_ne hn.symm, hν.zero]
    · rcases eq_or_ne u v with rfl | huv
      · obtain rfl := Option.some.inj (hv.symm.trans hu)
        rw [Function.update_self, Function.update_self]
      · rw [Function.update_of_ne huv, Function.update_of_ne, hν.agree u m hu]
        rintro rfl
        exact huv (hd.inj u v m hu hv)
    · rcases eq_or_ne s n with rfl | hs
      · obtain rfl : t = 0 := by_contra fun ht => (h s hv t w ht).1 hw
        rw [Function.update_of_ne hn.symm, Function.update_self, hν.zero]
        have := hlb w ⟨s, 0, hv, rfl, hw⟩
        omega
      · rcases eq_or_ne t n with rfl | ht
        · obtain rfl : s = 0 := by_contra fun hs => (h t hv s w hs).2 hw
          rw [Function.update_self, Function.update_of_ne hs, hν.zero, zero_add]
          exact hub w ⟨0, t, rfl, hv, hw⟩
        · rw [Function.update_of_ne hs, Function.update_of_ne ht]
          exact hν.sat s t w hw

end SplitDbm

end Prevail
