import Mathlib.Algebra.Order.BigOperators.Group.List
import Prevail.Crab.RepairPotential
import Prevail.Crab.SplitDbmSound

/-!
# Adding a constraint

A linear constraint becomes difference constraints and bounds, each of which sets an edge, repairs
the potential and restores closure. `Narrows Q d r` is what every part of this does with the state
`d` and a constraint `Q`: it gives up only when no model of `d` satisfies `Q`, and a state that it
returns still has the models that do. It keeps the representation invariant, and it keeps the
potential valid when it was valid before.

Losing no model does not rest on the potential being valid. The potential only orders the searches.
-/

namespace Prevail

open GraphOps DiffSys

namespace SplitDbm

variable {V : Type*} [LinearOrder V] {d d' : SplitDbm V} {Q R : (V → ℤ) → Prop}
  {r : Option (SplitDbm V)}

/-- All edges respect the potential. -/
def Potent (d : SplitDbm V) : Prop := d.g.Edge.Sat (pot d.potential)

/-- The vertices of variables are kept. -/
def Extends (d d' : SplitDbm V) : Prop :=
  ∀ v n, d.vertMap.find? v = some n → d'.vertMap.find? v = some n

/-- The state `d` becomes `r` under the constraint `Q`. -/
structure Narrows (Q : (V → ℤ) → Prop) (d : SplitDbm V) (r : Option (SplitDbm V)) : Prop where
  wf : ∀ d', r = some d' → d'.WF
  extend : ∀ d', r = some d' → Extends d d'
  potent : ∀ d', r = some d' → d.Potent → d'.Potent
  models : ∀ d', r = some d' → ∀ σ, d.Models σ → Q σ → d'.Models σ
  empty : r = none → ∀ σ, d.Models σ → ¬ Q σ

namespace Narrows

theorem some_iff : Narrows Q d (some d') ↔ d'.WF ∧ Extends d d' ∧ (d.Potent → d'.Potent) ∧
    ∀ σ, d.Models σ → Q σ → d'.Models σ := by
  constructor
  · intro h
    exact ⟨h.wf d' rfl, h.extend d' rfl, h.potent d' rfl, h.models d' rfl⟩
  · rintro ⟨hwf, hext, hpot, hmod⟩
    refine ⟨?_, ?_, ?_, ?_, fun h => by cases h⟩
    all_goals
      rintro d₁ hd₁
      obtain rfl := Option.some.inj hd₁
    · exact hwf
    · exact hext
    · exact hpot
    · exact hmod

theorem refl (hd : d.WF) : Narrows Q d (some d) :=
  some_iff.mpr ⟨hd, fun _ _ h => h, id, fun _ h _ => h⟩

theorem mono (h : Narrows R d r) (hQR : ∀ σ, d.Models σ → Q σ → R σ) : Narrows Q d r where
  wf := h.wf
  extend := h.extend
  potent := h.potent
  models d' hd' σ hσ hQ := h.models d' hd' σ hσ (hQR σ hσ hQ)
  empty hr σ hσ hQ := h.empty hr σ hσ (hQR σ hσ hQ)

/-- Doing one thing after the other. -/
theorem bind {f : SplitDbm V → Option (SplitDbm V)} (h : Narrows Q d r)
    (hf : ∀ d', r = some d' → d'.WF → Narrows Q d' (f d')) : Narrows Q d (r.bind f) := by
  cases r with
  | none =>
    refine ⟨?_, ?_, ?_, ?_, fun _ => h.empty rfl⟩
    all_goals
      intro d' hd'
      cases hd'
  | some d₁ =>
    obtain ⟨hwf, hext, hpot, hmod⟩ := some_iff.mp h
    have h' := hf d₁ rfl hwf
    refine ⟨h'.wf, fun d' hd' v n hv => h'.extend d' hd' v n (hext v n hv),
      fun d' hd' hp => h'.potent d' hd' (hpot hp), fun d' hd' σ hσ hQ => ?_, fun hr σ hσ hQ => ?_⟩
    · exact h'.models d' hd' σ (hmod σ hσ hQ) hQ
    · exact h'.empty hr σ (hmod σ hσ hQ) hQ

theorem foldlM {α : Type*} {f : SplitDbm V → α → Option (SplitDbm V)} {l : List α} (hd : d.WF)
    (h : ∀ x ∈ l, ∀ d', d'.WF → Extends d d' → Narrows Q d' (f d' x)) :
    Narrows Q d (l.foldlM f d) := by
  induction l generalizing d with
  | nil => exact refl hd
  | cons x l ih =>
    rw [List.foldlM_cons]
    have hx := h x List.mem_cons_self d hd fun _ _ hv => hv
    refine hx.bind fun d' hd' hwf => ih hwf fun y hy d'' hwf'' hext => ?_
    exact h y (List.mem_cons_of_mem _ hy) d'' hwf'' fun v n hv =>
      hext v n (hx.extend d' hd' v n hv)

end Narrows

/-! ## Closure -/

/-- Implied edges keep the potential valid. -/
theorem Entails.potent {P : ℕ → Prop} (h : Entails P d d') (hp : d'.potential = d.potential)
    (hd : d.Potent) : d'.Potent := by
  unfold Potent
  rw [hp]
  exact hd.of_implies h.edges.implied

theorem Narrows.entails {d₁ d₂ : SplitDbm V} (h : Narrows Q d (some d₁))
    (he : Entails (fun _ => False) d₁ d₂) (hp : d₂.potential = d₁.potential) :
    Narrows Q d (some d₂) := by
  obtain ⟨hwf, hext, hpot, hmod⟩ := some_iff.mp h
  refine some_iff.mpr ⟨he.wf hwf, fun v n hv => ?_, fun hd => he.potent hp (hpot hd),
    fun σ hσ hσQ => ?_⟩
  · rw [he.vertMap]
    exact hext v n hv
  · obtain ⟨ν, hν⟩ := hmod σ hσ hσQ
    exact ⟨ν, he.val hν⟩

theorem Narrows.map {f : SplitDbm V → SplitDbm V} (h : Narrows Q d r)
    (hf : ∀ d', r = some d' → d'.WF →
      Entails (fun _ => False) d' (f d') ∧ (f d').potential = d'.potential) :
    Narrows Q d (r.map f) := by
  cases r with
  | none => exact h
  | some d₁ =>
    obtain ⟨he, hp⟩ := hf d₁ rfl (h.wf d₁ rfl)
    exact h.entails he hp

@[simp] theorem potential_normalize (d : SplitDbm V) : d.normalize.potential = d.potential := by
  unfold normalize
  split_ifs <;> rfl

theorem Narrows.normalize (h : Narrows Q d r) : Narrows Q d (r.map SplitDbm.normalize) :=
  h.map fun d' _ hwf => ⟨entails_normalize hwf, potential_normalize d'⟩

theorem entails_closeOverEdge {P : ℕ → Prop} (hd : d.WFWith P) {s t : ℕ}
    (he : d.g.Edge s t (d.g.edgeVal s t)) :
    Entails P d { d with g := closeOverEdge d.g s t } where
  vertMap := rfl
  revMap := rfl
  size := (shape_closeOverEdge d.g s t).1
  freeId := (shape_closeOverEdge d.g s t).2
  potLen := rfl
  edges := EdgesIn.closeOverEdge ⟨fun _ _ _ hw => .of_edge hw, hd.ends⟩ he

/-! ## One edge -/

/-- Setting the edge of a constraint that `Q` implies. -/
theorem narrows_setEdge (hd : d.WF) {s t : ℕ} {w : ℤ} (hs : d.Live (fun _ => False) s)
    (ht : d.Live (fun _ => False) t) (hQ : ∀ σ ν, d.Val σ ν → Q σ → ν t ≤ ν s + w) :
    Narrows Q d (repairPotential { d with g := d.g.setEdge s w t } s t) := by
  have hends := ends_setEdge hd w hs ht
  have hlen : ∀ a b c, (d.g.setEdge s w t).view.Edge a b c → b < d.potential.length := by
    intro a b c hc
    rw [hd.potLen]
    exact hd.live_lt (hends a b c (edge_view.mp hc)).2
  have hlook : (d.g.setEdge s w t).lookup s t = some w := by simp [AdaptGraph.lookup_setEdge]
  have hval : (d.g.setEdge s w t).view.edgeVal s t = w := by
    show ((d.g.setEdge s w t).lookup s t).getD 0 = w
    rw [hlook, Option.getD_some]
  unfold repairPotential
  simp only
  refine ⟨fun d' hd' => ?_, fun d' hd' => ?_, fun d' hd' hp => ?_, fun d' hd' σ hσ hσQ => ?_,
    fun hr σ hσ hσQ => ?_⟩
  · obtain ⟨p', hp', rfl⟩ := Option.map_eq_some_iff.mp hd'
    exact hd.withGraph d.unstable rfl rfl (length_repairPotential hp') hends
  · obtain ⟨p', -, rfl⟩ := Option.map_eq_some_iff.mp hd'
    exact fun _ _ hv => hv
  · obtain ⟨p', hp', rfl⟩ := Option.map_eq_some_iff.mp hd'
    have hsat := (sat_of_repairPotential (g := (d.g.setEdge s w t).view) (fun a b c hc hab => ?_)
      (fun a b c hc => hd.live_lt (hends a b c (edge_view.mp hc)).2) hd.potLen.ge (hd.live_lt ht)
      (fun w' hw' => ?_) hp').2
    · intro a b c hc
      exact hsat a b c (edge_view.mpr hc)
    · have hc' := edge_view.mp hc
      unfold AdaptGraph.Edge at hc'
      rw [AdaptGraph.lookup_setEdge, if_neg hab] at hc'
      exact hp a b c hc'
    · rw [hval]
      exact Option.some.inj ((edge_view.mp hw').symm.trans hlook)
  · obtain ⟨p', -, rfl⟩ := Option.map_eq_some_iff.mp hd'
    obtain ⟨ν, hν⟩ := hσ
    exact ⟨ν, hν.zero, hν.agree, sat_setEdge hν.sat (hQ σ ν hν hσQ)⟩
  · obtain ⟨ν, hν⟩ := hσ
    refine not_sat_of_repairPotential_eq_none (σ := ν) hlen ?_ (Option.map_eq_none_iff.mp hr) ?_
    · rw [hval]
      exact edge_view.mpr hlook
    · intro a b c hc
      exact sat_setEdge hν.sat (hQ σ ν hν hσQ) a b c (edge_view.mp hc)

theorem narrows_updateEdge (hd : d.WF) {s t : ℕ} {w : ℤ} (hs : d.Live (fun _ => False) s)
    (ht : d.Live (fun _ => False) t) (hQ : ∀ σ ν, d.Val σ ν → Q σ → ν t ≤ ν s + w) :
    Narrows Q d (repairPotential { d with g := d.g.updateEdge s w t } s t) := by
  unfold AdaptGraph.updateEdge
  split
  · next w' hw' =>
    refine narrows_setEdge hd hs ht fun σ ν hν hσ => ?_
    rcases min_choice w' w with hm | hm <;> rw [hm]
    · exact hν.sat s t w' hw'
    · exact hQ σ ν hν hσ
  · exact narrows_setEdge hd hs ht hQ

/-! ## New vertices -/

/-- A vertex in use keeps its potential when others are added. -/
theorem Fresh.pot_setVert {P : ℕ → Prop} {n : ℕ} {g : AdaptGraph} (h : Fresh P d n g)
    (hd : d.WFWith P) (m : OrdMap V ℕ) (v : V) (p : ℤ) (k : ℕ) :
    pot (setVert { d with g := g, vertMap := m } n v p).potential k =
      if k = n then p else pot d.potential k := by
  have hr := hd.revLen
  have hp := hd.potLen
  have hsize := h.size
  unfold setVert pot
  simp only
  split_ifs with hlt hk hk
  · rw [hk, getD_set (by omega), if_pos rfl]
  · rw [getD_set (by omega), if_neg hk]
  · rw [hk, List.getD_append_right _ _ _ _ (by omega)]
    rw [show n - d.potential.length = 0 by omega]
    rfl
  · rcases Nat.lt_or_ge k d.potential.length with hkl | hkl
    · rw [List.getD_append _ _ _ _ hkl]
    · rw [List.getD_append_right _ _ _ _ hkl, List.getD_eq_default _ _ hkl,
        List.getD_eq_default _ _ (by simp only [List.length_singleton]; omega)]

theorem potent_getVert {P : ℕ → Prop} (hd : d.WFWith P) (v : V) (hp : d.Potent) :
    (d.getVert v).2.Potent := by
  unfold getVert
  cases hv : d.vertMap.find? v with
  | some y => exact hp
  | none =>
    have hf := fresh_newVertex hd
    intro s t w hw
    rw [Fresh.setVert_g, hf.edge_iff] at hw
    obtain ⟨hs, ht⟩ := hd.ends s t w hw
    rw [hf.pot_setVert hd, hf.pot_setVert hd, if_neg (hf.ne_of_live hs),
      if_neg (hf.ne_of_live ht)]
    exact hp s t w hw

theorem getVert_of_some {v : V} {n : ℕ} (h : d.vertMap.find? v = some n) :
    d.getVert v = (n, d) := by
  unfold getVert
  rw [h]

theorem find?_getVert_of_some (hd : d.WF) (v : V) {u : V} {n : ℕ}
    (h : d.vertMap.find? u = some n) : (d.getVert v).2.vertMap.find? u = some n := by
  rw [(getVert_spec hd v).find?]
  split_ifs with heq
  · rw [← heq, getVert_of_some h]
  · exact h

theorem Narrows.of_getVert (hd : d.WF) (v : V) (h : Narrows Q (d.getVert v).2 r) :
    Narrows Q d r := by
  have hg := getVert_spec hd v
  have hmod : ∀ σ, d.Models σ → (d.getVert v).2.Models σ := by
    rintro σ ⟨ν, hν⟩
    obtain ⟨ν', hν', -⟩ := hg.val σ ν hν
    exact ⟨ν', hν'⟩
  exact ⟨h.wf, fun d' hd' u n hu => h.extend d' hd' u n (find?_getVert_of_some hd v hu),
    fun d' hd' hp => h.potent d' hd' (potent_getVert hd v hp),
    fun d' hd' σ hσ => h.models d' hd' σ (hmod σ hσ), fun hr σ hσ => h.empty hr σ (hmod σ hσ)⟩

theorem live_of_find? {P : ℕ → Prop} {v : V} {n : ℕ} (h : d.vertMap.find? v = some n) :
    d.Live P n := Or.inr (Or.inl ⟨v, h⟩)

/-! ## Bounds and differences -/

theorem narrows_addLb (hd : d.WF) (c : V × ℤ) (hQ : ∀ σ, Q σ → c.2 ≤ σ c.1) :
    Narrows Q d (d.addLb c) := by
  have hg := getVert_spec hd c.1
  have hedge : Narrows Q (d.getVert c.1).2 (repairPotential { (d.getVert c.1).2 with
      g := (d.getVert c.1).2.g.setEdge (d.getVert c.1).1 (-c.2) 0 } (d.getVert c.1).1 0) := by
    refine narrows_setEdge hg.wf (live_of_find? hg.self) (Or.inl rfl) fun σ ν hν hσ => ?_
    rw [hν.zero, hν.agree _ _ hg.self]
    have := hQ σ hσ
    omega
  unfold addLb
  apply Narrows.of_getVert hd c.1
  simp only
  split
  · split_ifs
    · exact .refl hg.wf
    · exact hedge
  · exact hedge

theorem narrows_addUb (hd : d.WF) (c : V × ℤ) (hQ : ∀ σ, Q σ → σ c.1 ≤ c.2) :
    Narrows Q d (d.addUb c) := by
  have hg := getVert_spec hd c.1
  have hedge : Narrows Q (d.getVert c.1).2 (repairPotential { (d.getVert c.1).2 with
      g := (d.getVert c.1).2.g.setEdge 0 c.2 (d.getVert c.1).1 } 0 (d.getVert c.1).1) := by
    refine narrows_setEdge hg.wf (Or.inl rfl) (live_of_find? hg.self) fun σ ν hν hσ => ?_
    rw [hν.zero, hν.agree _ _ hg.self, zero_add]
    exact hQ σ hσ
  unfold addUb
  apply Narrows.of_getVert hd c.1
  simp only
  split
  · split_ifs
    · exact .refl hg.wf
    · exact hedge
  · exact hedge

theorem narrows_addDiff (hd : d.WF) (c : (V × V) × ℤ) (hQ : ∀ σ, Q σ → σ c.1.1 ≤ σ c.1.2 + c.2) :
    Narrows Q d (d.addDiff c) := by
  have hg := getVert_spec hd c.1.2
  have hg' := getVert_spec hg.wf c.1.1
  unfold addDiff
  apply Narrows.of_getVert hd c.1.2
  apply Narrows.of_getVert hg.wf c.1.1
  simp only
  set d₁ := ((d.getVert c.1.2).2.getVert c.1.1).2
  set s := (d.getVert c.1.2).1
  set t := ((d.getVert c.1.2).2.getVert c.1.1).1
  have hs : d₁.vertMap.find? c.1.2 = some s := find?_getVert_of_some hg.wf _ hg.self
  refine (narrows_updateEdge hg'.wf (live_of_find? hs) (live_of_find? hg'.self)
    fun σ ν hν hσ => ?_).map fun d' hd' hwf => ⟨entails_closeOverEdge hwf ?_, rfl⟩
  · rw [hν.agree _ _ hs, hν.agree _ _ hg'.self]
    exact hQ σ hσ
  · show d'.g.lookup s t = some ((d'.g.lookup s t).getD 0)
    obtain ⟨p', -, rfl⟩ := Option.map_eq_some_iff.mp hd'
    rw [AdaptGraph.lookup_updateEdge, if_pos ⟨rfl, rfl⟩, Option.getD_some]

/-! ## Decomposing a linear inequality -/

theorem le_tdiv_of_mul_le {a c x : ℤ} (hc : 1 ≤ c) (h : c * x ≤ a) : x ≤ a.tdiv c := by
  have hdiv := Int.mul_tdiv_add_tmod a c
  have hmod := Int.tmod_lt_of_pos a (by omega : 0 < c)
  by_contra hlt
  have hmul : c * (a.tdiv c + 1) ≤ c * x := mul_le_mul_of_nonneg_left (by omega) (by omega)
  linarith

theorem tdiv_le_of_le_mul {a c x : ℤ} (hc : 1 ≤ c) (h : a ≤ c * x) : a.tdiv c ≤ x := by
  have hneg : -x ≤ (-a).tdiv c := le_tdiv_of_mul_le hc (by linarith)
  rw [Int.neg_tdiv] at hneg
  omega

/-- How far the terms are from their bounds, each bound being subtracted from the value of the
side on which `sign` puts it. -/
def slack (σ : V → ℤ) (sign : ℤ) (l : List (ℤ × V × ℤ)) : ℤ :=
  (l.map fun t => t.1 * (sign * (σ t.2.1 - t.2.2))).sum

/-- All terms are on the right side of their bounds and have positive coefficients. -/
def Slacks (σ : V → ℤ) (sign : ℤ) (l : List (ℤ × V × ℤ)) : Prop :=
  ∀ t ∈ l, 1 ≤ t.1 ∧ 0 ≤ sign * (σ t.2.1 - t.2.2)

omit [LinearOrder V] in
theorem slack_snoc (σ : V → ℤ) (sign : ℤ) (l : List (ℤ × V × ℤ)) (t : ℤ × V × ℤ) :
    slack σ sign (l ++ [t]) = slack σ sign l + t.1 * (sign * (σ t.2.1 - t.2.2)) := by
  simp [slack]

omit [LinearOrder V] in
theorem Slacks.snoc {σ : V → ℤ} {sign : ℤ} {l : List (ℤ × V × ℤ)} {t : ℤ × V × ℤ}
    (h : Slacks σ sign l) (ht : 1 ≤ t.1 ∧ 0 ≤ sign * (σ t.2.1 - t.2.2)) :
    Slacks σ sign (l ++ [t]) := by
  intro u hu
  rcases List.mem_append.mp hu with hu | hu
  · exact h u hu
  · exact List.mem_singleton.mp hu ▸ ht

omit [LinearOrder V] in
/-- One term is at most the sum, also without its coefficient. -/
theorem Slacks.le {σ : V → ℤ} {sign : ℤ} {l : List (ℤ × V × ℤ)} (h : Slacks σ sign l) :
    0 ≤ slack σ sign l ∧ ∀ t ∈ l, t.1 * (sign * (σ t.2.1 - t.2.2)) ≤ slack σ sign l ∧
      sign * (σ t.2.1 - t.2.2) ≤ slack σ sign l := by
  have hnonneg : ∀ x ∈ l.map fun t => t.1 * (sign * (σ t.2.1 - t.2.2)), 0 ≤ x := by
    intro x hx
    obtain ⟨t, ht, rfl⟩ := List.mem_map.mp hx
    exact mul_nonneg (by have := (h t ht).1; omega) (h t ht).2
  refine ⟨List.sum_nonneg hnonneg, fun t ht => ?_⟩
  have hle := List.single_le_sum hnonneg _ (List.mem_map_of_mem ht)
  refine ⟨hle, le_trans ?_ hle⟩
  exact le_mul_of_one_le_left (h t ht).2 (h t ht).1

/-- The part of a term without a bound. -/
def unboundedPart (σ : V → ℤ) (t : Option (V × ℤ)) : ℤ := t.elim 0 fun t => t.2 * σ t.1

/-- Between two terms: what the terms read so far add up to, in a model. -/
structure LeqInv (σ : V → ℤ) (total : ℤ) (st : LeqTerms V) : Prop where
  pos : Slacks σ 1 st.posTerms
  neg : Slacks σ (-1) st.negTerms
  lb : ∀ t, st.unboundedLb = some t → 1 ≤ t.2
  ub : ∀ t, st.unboundedUb = some t → 1 ≤ t.2
  sum : unboundedPart σ st.unboundedLb - unboundedPart σ st.unboundedUb +
    slack σ 1 st.posTerms + slack σ (-1) st.negTerms = total + st.expUb

variable {σ : V → ℤ} {total : ℤ}

theorem LeqInv.step {st st' : LeqTerms V} {t : V × ℤ} (hd : d.Models σ) (ht : t.2 ≠ 0)
    (h : LeqInv σ total st) (hs : d.leqTerm st t = some st') :
    LeqInv σ (total + t.2 * σ t.1) st' := by
  have hsum := h.sum
  unfold leqTerm at hs
  by_cases hpos : 0 < t.2
  · rw [if_pos hpos] at hs
    split at hs
    · next hnum =>
      split_ifs at hs with hsome
      have hnone : st.unboundedLb = none := by simpa using hsome
      obtain rfl := Option.some.inj hs
      refine ⟨h.pos, h.neg, fun u hu => ?_, h.ub, ?_⟩
      · obtain rfl := Option.some.inj hu
        omega
      · rw [hnone] at hsum
        simp only [unboundedPart, Option.elim_none, Option.elim_some] at hsum ⊢
        linarith
    · next ymin hnum =>
      obtain rfl := Option.some.inj hs
      have hle : ymin ≤ σ t.1 := le_of_getLb_number hd hnum
      refine ⟨h.pos.snoc ⟨by simp only; omega, by simp only; omega⟩, h.neg, h.lb, h.ub, ?_⟩
      simp only [slack_snoc]
      linarith
  · rw [if_neg hpos] at hs
    split at hs
    · next hnum =>
      split_ifs at hs with hsome
      have hnone : st.unboundedUb = none := by simpa using hsome
      obtain rfl := Option.some.inj hs
      refine ⟨h.pos, h.neg, h.lb, fun u hu => ?_, ?_⟩
      · obtain rfl := Option.some.inj hu
        simp only
        omega
      · rw [hnone] at hsum
        simp only [unboundedPart, Option.elim_none, Option.elim_some] at hsum ⊢
        linarith
    · next ymax hnum =>
      obtain rfl := Option.some.inj hs
      have hle : σ t.1 ≤ ymax := by
        have hub := (mem_getInterval hd t.1).2
        cases hb : (d.getInterval t.1).ub with
        | fin n =>
          rw [hb] at hub hnum
          obtain rfl := Option.some.inj hnum
          exact hub
        | negInf => simp [hb, Bound.number] at hnum
        | posInf => simp [hb, Bound.number] at hnum
      refine ⟨h.pos, h.neg.snoc ⟨by simp only; omega, by simp only; omega⟩, h.lb, h.ub, ?_⟩
      simp only [slack_snoc]
      linarith

theorem LeqInv.run {l : List (V × ℤ)} {st st' : LeqTerms V} (hd : d.Models σ)
    (hl : ∀ t ∈ l, t.2 ≠ 0) (h : LeqInv σ total st) (hs : l.foldlM d.leqTerm st = some st') :
    LeqInv σ (total + LinearExpression.evalTerms σ l) st' := by
  induction l generalizing total st with
  | nil =>
    obtain rfl := Option.some.inj hs
    simpa [LinearExpression.evalTerms] using h
  | cons t l ih =>
    rw [List.foldlM_cons] at hs
    obtain ⟨st₁, hst₁, hs⟩ := Option.bind_eq_some_iff.mp hs
    have hrun := ih (fun u hu => hl u (List.mem_cons_of_mem _ hu))
      (h.step hd (hl t List.mem_cons_self) hst₁) hs
    rwa [LinearExpression.evalTerms, ← add_assoc]

/-- The valuation satisfies what a linear inequality gives. -/
structure LeqCsts.Holds (σ : V → ℤ) (c : LeqCsts V) : Prop where
  csts : ∀ t ∈ c.csts, σ t.1.1 ≤ σ t.1.2 + t.2
  lbs : ∀ t ∈ c.lbs, t.2 ≤ σ t.1
  ubs : ∀ t ∈ c.ubs, σ t.1 ≤ t.2

omit [LinearOrder V] in
/-- The sum being at most zero, each unbounded term is bounded by the others. -/
theorem LeqInv.holds {st : LeqTerms V} (h : LeqInv σ total st) (hle : total ≤ 0) :
    (leqCsts st).Holds σ := by
  obtain ⟨hpos, hpos'⟩ := h.pos.le
  obtain ⟨hneg, hneg'⟩ := h.neg.le
  have hsum := h.sum
  have hlb := h.lb
  have hub := h.ub
  unfold leqCsts
  split
  · next x cx y cy hx hy =>
    refine ⟨fun t ht => ?_, by simp, by simp⟩
    rw [hx, hy] at hsum
    simp only [unboundedPart, Option.elim_some] at hsum
    simp only at ht
    split_ifs at ht with hc
    · obtain rfl := List.mem_singleton.mp ht
      obtain ⟨rfl, rfl⟩ := hc
      show σ x ≤ σ y + st.expUb
      linarith
    · cases ht
  · next x cx hx hy =>
    rw [hx, hy] at hsum
    simp only [unboundedPart, Option.elim_some, Option.elim_none] at hsum
    refine ⟨fun t ht => ?_, by simp, fun t ht => ?_⟩
    · simp only at ht
      split_ifs at ht with hc
      · obtain ⟨n, hn, rfl⟩ := List.mem_map.mp ht
        have hn' := (hneg' n hn).2
        subst hc
        show σ x ≤ σ n.2.1 + (st.expUb - n.2.2)
        linarith
      · cases ht
    · obtain rfl := List.mem_singleton.mp ht
      exact le_tdiv_of_mul_le (hlb _ hx) (by linarith)
  · next y cy hx hy =>
    rw [hx, hy] at hsum
    simp only [unboundedPart, Option.elim_some, Option.elim_none] at hsum
    refine ⟨fun t ht => ?_, fun t ht => ?_, by simp⟩
    · simp only at ht
      split_ifs at ht with hc
      · obtain ⟨p, hp, rfl⟩ := List.mem_map.mp ht
        have hp' := (hpos' p hp).2
        subst hc
        show σ p.2.1 ≤ σ y + (st.expUb + p.2.2)
        linarith
      · cases ht
    · obtain rfl := List.mem_singleton.mp ht
      exact tdiv_le_of_le_mul (hub _ hy) (by linarith)
  · next hx hy =>
    rw [hx, hy] at hsum
    simp only [unboundedPart, Option.elim_none] at hsum
    refine ⟨fun t ht => ?_, fun t ht => ?_, fun t ht => ?_⟩
    · obtain ⟨n, hn, ht⟩ := List.mem_flatMap.mp ht
      obtain ⟨p, hp, rfl⟩ := List.mem_map.mp ht
      have hn' := (hneg' n hn).2
      have hp' := (hpos' p hp).2
      show σ p.2.1 ≤ σ n.2.1 + (st.expUb - n.2.2 + p.2.2)
      linarith
    · obtain ⟨n, hn, rfl⟩ := List.mem_map.mp ht
      have hn' := (hneg' n hn).1
      have hdiv : (-st.expUb).tdiv n.1 ≤ σ n.2.1 - n.2.2 :=
        tdiv_le_of_le_mul (h.neg n hn).1 (by linarith)
      show (-st.expUb).tdiv n.1 + n.2.2 ≤ σ n.2.1
      omega
    · obtain ⟨p, hp, rfl⟩ := List.mem_map.mp ht
      have hp' := (hpos' p hp).1
      have hdiv : σ p.2.1 - p.2.2 ≤ st.expUb.tdiv p.1 :=
        le_tdiv_of_mul_le (h.pos p hp).1 (by linarith)
      show σ p.2.1 ≤ st.expUb.tdiv p.1 + p.2.2
      omega

theorem diffcstsOfLinLeq_holds {e : LinearExpression V} (hd : d.Models σ) (he : e.eval σ ≤ 0) :
    (d.diffcstsOfLinLeq e).Holds σ := by
  unfold diffcstsOfLinLeq
  split
  · exact ⟨by simp, by simp, by simp⟩
  · next st hst =>
    have h0 : LeqInv σ e.constantTerm ⟨-e.constantTerm, none, none, [], []⟩ :=
      ⟨by simp [Slacks], by simp [Slacks], by simp, by simp, by simp [unboundedPart, slack]⟩
    exact (h0.run hd e.nonzero hst).holds he

theorem narrows_addLinearLeq (hd : d.WF) {e : LinearExpression V}
    (hQ : ∀ σ, Q σ → e.eval σ ≤ 0) : Narrows Q d (d.addLinearLeq e) := by
  apply Narrows.mono (R := fun σ => (d.diffcstsOfLinLeq e).Holds σ)
  swap
  · exact fun σ hσ hσQ => diffcstsOfLinLeq_holds hσ (hQ σ hσQ)
  have hlbs : Narrows (fun σ => (d.diffcstsOfLinLeq e).Holds σ) d
      ((d.diffcstsOfLinLeq e).lbs.foldlM addLb d) :=
    .foldlM hd fun t ht _ hwf _ => narrows_addLb hwf t fun σ h => h.lbs t ht
  refine hlbs.bind fun d₁ _ hwf₁ => ?_
  refine Narrows.bind (.foldlM hwf₁ fun t ht _ hwf _ =>
    narrows_addUb hwf t fun σ h => h.ubs t ht) fun d₂ _ hwf₂ => ?_
  refine Narrows.bind (.foldlM hwf₂ fun t ht _ hwf _ =>
    narrows_addDiff hwf t fun σ h => h.csts t ht) fun d₃ _ hwf₃ => ?_
  have hclose := entails_closeAssign hwf₃ (pot d₃.potential) 0
  exact ((Narrows.refl hwf₃).entails hclose rfl).normalize

/-! ## Disequations -/

/-- A vertex keeps its value when the state is extended. -/
theorem Val.eq_of_extends {ν ν' : ℕ → ℤ} {n : ℕ} (h : d.Val σ ν) (h' : d'.Val σ ν')
    (hext : Extends d d') (hn : d.Live (fun _ => False) n) : ν' n = ν n := by
  rcases hn with rfl | ⟨v, hv⟩ | hF
  · rw [h.zero, h'.zero]
  · rw [h.agree v n hv, h'.agree v n (hext v n hv)]
  · exact hF.elim

theorem Extends.live {n : ℕ} (h : Extends d d') (hn : d.Live (fun _ => False) n) :
    d'.Live (fun _ => False) n :=
  hn.imp id fun hn => hn.imp (fun ⟨v, hv⟩ => ⟨v, h v n hv⟩) id

theorem narrows_propagateLb (hd : d.WF) {x : V} {v : ℕ} {k : ℤ}
    (hv : d.vertMap.find? x = some v) (hQ : ∀ σ, Q σ → -k ≤ σ x) :
    Narrows Q d (d.propagateLb v k) := by
  apply Narrows.mono (R := fun σ => d.Models σ ∧ Q σ)
  swap
  · exact fun σ hσ hσQ => ⟨hσ, hσQ⟩
  refine .foldlM hd fun e he d' hwf hext => ?_
  split_ifs with h0
  · exact .refl hwf
  · have hedge : d.g.Edge e.1 v e.2 := AdaptGraph.mem_ePreds.mp he
    refine narrows_updateEdge hwf (hext.live (hd.ends _ _ _ hedge).1) (Or.inl rfl) ?_
    rintro σ ν hν ⟨⟨ν₀, hν₀⟩, hσQ⟩
    have hle := hν₀.sat _ _ _ hedge
    have hx := hQ σ hσQ
    rw [hν.zero, hν₀.eq_of_extends hν hext (hd.ends _ _ _ hedge).1]
    rw [hν₀.agree x v hv] at hle
    omega

theorem narrows_propagateUb (hd : d.WF) {x : V} {v : ℕ} {k : ℤ}
    (hv : d.vertMap.find? x = some v) (hQ : ∀ σ, Q σ → σ x ≤ k) :
    Narrows Q d (d.propagateUb v k) := by
  apply Narrows.mono (R := fun σ => d.Models σ ∧ Q σ)
  swap
  · exact fun σ hσ hσQ => ⟨hσ, hσQ⟩
  refine .foldlM hd fun e he d' hwf hext => ?_
  split_ifs with h0
  · exact .refl hwf
  · have hedge : d.g.Edge v e.1 e.2 := AdaptGraph.mem_eSuccs.mp he
    refine narrows_updateEdge hwf (Or.inl rfl) (hext.live (hd.ends _ _ _ hedge).2) ?_
    rintro σ ν hν ⟨⟨ν₀, hν₀⟩, hσQ⟩
    have hle := hν₀.sat _ _ _ hedge
    have hx := hQ σ hσQ
    rw [hν.zero, hν₀.eq_of_extends hν hext (hd.ends _ _ _ hedge).2]
    rw [hν₀.agree x v hv] at hle
    omega

theorem narrows_strengthenLb (hd : d.WF) {x : V} {v : ℕ} {lb : Bound}
    (hv : d.vertMap.find? x = some v) (hQ : ∀ σ, Q σ → lb ≤ .fin (σ x)) :
    Narrows Q d (d.strengthenLb v lb) := by
  unfold strengthenLb
  split
  · next l w hl hw =>
    obtain rfl : lb = .fin l := by
      cases lb <;> simp_all [Bound.number]
    split_ifs
    · refine Narrows.bind (narrows_setEdge hd (live_of_find? hv) (Or.inl rfl) fun σ ν hν hσ => ?_)
        fun d' hd' hwf => ?_
      · rw [hν.zero, hν.agree x v hv]
        have hle : l ≤ σ x := hQ σ hσ
        omega
      · obtain ⟨p', -, rfl⟩ := Option.map_eq_some_iff.mp hd'
        refine narrows_propagateLb hwf (x := x) hv fun σ hσ => ?_
        rw [neg_neg]
        exact hQ σ hσ
    · exact .refl hd
  · exact .refl hd

theorem narrows_strengthenUb (hd : d.WF) {x : V} {v : ℕ} {ub : Bound}
    (hv : d.vertMap.find? x = some v) (hQ : ∀ σ, Q σ → .fin (σ x) ≤ ub) :
    Narrows Q d (d.strengthenUb v ub) := by
  unfold strengthenUb
  split
  · next u w hu hw =>
    obtain rfl : ub = .fin u := by
      cases ub <;> simp_all [Bound.number]
    split_ifs
    · refine Narrows.bind (narrows_setEdge hd (Or.inl rfl) (live_of_find? hv) fun σ ν hν hσ => ?_)
        fun d' hd' hwf => ?_
      · rw [hν.zero, hν.agree x v hv, zero_add]
        exact hQ σ hσ
      · obtain ⟨p', -, rfl⟩ := Option.map_eq_some_iff.mp hd'
        exact narrows_propagateUb hwf (x := x) hv fun σ hσ => hQ σ hσ
    · exact .refl hd
  · exact .refl hd

theorem mem_trimInterval {i : Interval} {n k : ℤ} (hk : k ∈ i) (hne : k ≠ n)
    (htop : ¬ (i.isTop ∧ n = 0)) : k ∈ trimInterval i n := by
  unfold trimInterval
  split_ifs with hlb hub htop'
  · refine Interval.mem_ofBounds.mpr ⟨?_, hk.2⟩
    have hle := hk.1
    rw [hlb] at hle
    rw [Bound.fin_le_fin] at hle ⊢
    omega
  · refine Interval.mem_ofBounds.mpr ⟨hk.1, ?_⟩
    have hle := hk.2
    rw [hub] at hle
    rw [Bound.fin_le_fin] at hle ⊢
    omega
  · rw [Bool.and_eq_true, decide_eq_true_eq] at htop'
    exact absurd htop' htop
  · exact hk

/-- A variable without bounds has no edges with zero. -/
theorem not_edge_of_isTop (hd : d.WF) {x : V} (h : (d.getInterval x).isTop) {w : ℤ} :
    ¬ (d.getVert x).2.g.Edge (d.getVert x).1 0 w ∧ ¬ (d.getVert x).2.g.Edge 0 (d.getVert x).1 w := by
  have hg := getVert_spec hd x
  rw [hg.edge, hg.edge]
  cases hx : d.vertMap.find? x with
  | some v =>
    have hbounds : (d.getLb (some v)).isInfinite ∧ (d.getUb (some v)).isInfinite := by
      unfold getInterval Interval.ofBounds at h
      rw [hx] at h
      split_ifs at h
      · cases h
      · exact (Bool.and_eq_true _ _).mp h
    rw [getVert_of_some hx]
    constructor
    all_goals
      intro hw
      have hlook : d.g.lookup _ _ = some w := hw
      simp [getLb, getUb, hlook, Bound.isInfinite] at hbounds
  | none =>
    -- the vertex is new, and no edge of the old state touches it
    have hnew : ¬ d.Live (fun _ => False) (d.getVert x).1 := by
      rintro (h0 | ⟨u, hu⟩ | hF)
      · exact absurd (hg.wf.vert x _ hg.self).1 (by omega)
      · have hux : u = x := hg.wf.inj u x _ (find?_getVert_of_some hd x hu) hg.self
        rw [hux, hx] at hu
        cases hu
      · exact hF
    exact ⟨fun hw => hnew (hd.ends _ _ _ hw).1, fun hw => hnew (hd.ends _ _ _ hw).2⟩

/-- The case of a top interval and zero assumes a range of addresses, but there is no bound to
strengthen. -/
theorem narrows_addUnivarDisequation_of_isTop (hd : d.WF) {x : V} (h : (d.getInterval x).isTop) :
    Narrows Q d (d.addUnivarDisequation x 0) := by
  have hg := getVert_spec hd x
  have hinf : (d.getInterval x).lb.isInfinite ∧ (d.getInterval x).ub.isInfinite :=
    (Bool.and_eq_true _ _).mp h
  have htrim : trimInterval (d.getInterval x) 0 = .ofInts 1 (Number.maxUint 64) := by
    unfold trimInterval
    rw [if_neg, if_neg, if_pos (by simp [h])]
    · intro heq
      rw [heq] at hinf
      cases hinf.2
    · intro heq
      rw [heq] at hinf
      cases hinf.1
  have hlb : (d.getVert x).2.strengthenLb (d.getVert x).1 (.fin 1) = some (d.getVert x).2 := by
    have hnone := Option.eq_none_iff_forall_ne_some.mpr fun w => (not_edge_of_isTop hd h (w := w)).1
    simp only [strengthenLb, Bound.number, hnone]
  have hub : (d.getVert x).2.strengthenUb (d.getVert x).1 (.fin (Number.maxUint 64)) =
      some (d.getVert x).2 := by
    have hnone := Option.eq_none_iff_forall_ne_some.mpr fun w => (not_edge_of_isTop hd h (w := w)).2
    simp only [strengthenUb, Bound.number, hnone]
  unfold addUnivarDisequation
  simp only
  rw [htrim, Interval.ofInts_of_le (by decide)]
  split_ifs with hbot
  · cases hbot
  · exact .refl hd
  · apply Narrows.of_getVert hd x
    show Narrows Q _ (((d.getVert x).2.strengthenLb (d.getVert x).1 (.fin 1)).bind fun d' =>
      (d'.strengthenUb (d.getVert x).1 (.fin (Number.maxUint 64))).bind fun d' => some d'.normalize)
    rw [hlb, Option.bind_some, hub]
    exact (Narrows.refl hg.wf).normalize

theorem narrows_addUnivarDisequation (hd : d.WF) (x : V) (n : ℤ) :
    Narrows (fun σ => σ x ≠ n) d (d.addUnivarDisequation x n) := by
  by_cases htop : (d.getInterval x).isTop ∧ n = 0
  · rw [htop.2]
    exact narrows_addUnivarDisequation_of_isTop hd htop.1
  have hg := getVert_spec hd x
  apply Narrows.mono (R := fun σ => σ x ∈ trimInterval (d.getInterval x) n)
  swap
  · exact fun σ hσ hne => mem_trimInterval (mem_getInterval hσ x) hne htop
  unfold addUnivarDisequation
  simp only
  split_ifs with hbot hsame
  · refine ⟨fun _ h => (by cases h), fun _ h => (by cases h), fun _ h => (by cases h),
      fun _ h => (by cases h), fun _ σ _ hmem => ?_⟩
    rw [Interval.isBottom_eq_false_of_mem hmem] at hbot
    cases hbot
  · exact .refl hd
  · apply Narrows.of_getVert hd x
    have hlow : Narrows (fun σ => σ x ∈ trimInterval (d.getInterval x) n) (d.getVert x).2
        ((d.getVert x).2.strengthenLb (d.getVert x).1 (trimInterval (d.getInterval x) n).lb) :=
      narrows_strengthenLb hg.wf hg.self fun σ hσ => hσ.1
    refine hlow.bind fun d₁ hd₁ hwf => ?_
    have hup := narrows_strengthenUb hwf (hlow.extend d₁ hd₁ x _ hg.self)
      fun σ (hσ : σ x ∈ trimInterval (d.getInterval x) n) => hσ.2
    exact hup.bind fun d₂ _ hwf₂ => (Narrows.refl hwf₂).normalize

/-! ## The constraint -/

/-- The value that the other terms leave for the pivot term is in the residual. -/
theorem mem_computeResidual (hd : d.Models σ) (e : LinearExpression V) {t : V × ℤ}
    (ht : t ∈ e.variableTerms.entries) :
    t.2 * σ t.1 - e.eval σ ∈ d.computeResidual e t.1 := by
  have hfold : ∀ (l : List (V × ℤ)) (r : Interval) (a : ℤ), a ∈ r →
      a - LinearExpression.evalTerms σ (l.filter fun u => decide (u.1 ≠ t.1)) ∈ l.foldl
        (fun r u => if u.1 ≠ t.1 then r.sub ((Interval.const u.2).mul (d.getInterval u.1)) else r)
        r := by
    intro l
    induction l with
    | nil =>
      intro r a ha
      simpa [LinearExpression.evalTerms] using ha
    | cons u l ih =>
      intro r a ha
      rw [List.foldl_cons]
      by_cases hu : u.1 = t.1
      · rw [List.filter_cons_of_neg (by simpa using hu), if_neg (not_not.mpr hu)]
        exact ih r a ha
      · have hterm : u.2 * σ u.1 ∈ (Interval.const u.2).mul (d.getInterval u.1) :=
          Interval.mem_mul (Interval.mem_const.mpr rfl) (mem_getInterval hd u.1)
        have hrest := ih _ _ (Interval.mem_sub ha hterm)
        rw [List.filter_cons_of_pos (by simpa using hu), if_pos hu]
        rwa [LinearExpression.evalTerms, ← sub_sub]
  have hpivot : ∀ l : List (V × ℤ), l.Pairwise (fun a b => a.1 < b.1) → t ∈ l →
      LinearExpression.evalTerms σ l = t.2 * σ t.1 +
        LinearExpression.evalTerms σ (l.filter fun u => decide (u.1 ≠ t.1)) := by
    intro l hl
    induction l with
    | nil => simp
    | cons u l ih =>
      obtain ⟨hu, hl⟩ := List.pairwise_cons.mp hl
      intro htl
      rcases List.mem_cons.mp htl with rfl | htl
      · have hfilter : l.filter (fun u => decide (u.1 ≠ t.1)) = l :=
          List.filter_eq_self.mpr fun a ha => by simpa using (hu a ha).ne'
        rw [List.filter_cons_of_neg (by simp), hfilter, LinearExpression.evalTerms]
      · rw [List.filter_cons_of_pos (by simpa using (hu t htl).ne), LinearExpression.evalTerms,
          LinearExpression.evalTerms, ih hl htl]
        ring
  have hmem := hfold e.variableTerms.entries (.const (-e.constantTerm)) (-e.constantTerm)
    (Interval.mem_const.mpr rfl)
  have hsum := hpivot _ e.variableTerms.sorted ht
  rw [show t.2 * σ t.1 - e.eval σ = -e.constantTerm - LinearExpression.evalTerms σ
    (e.variableTerms.entries.filter fun u => decide (u.1 ≠ t.1)) by
      unfold LinearExpression.eval
      linarith]
  exact hmem

/-- Division by `1` or `-1` is exact. -/
theorem eq_of_singleton_divConst {i : Interval} {c k n : ℤ} (hc : c = 1 ∨ c = -1)
    (h : (i.divConst c).singleton = some k) (hn : n ∈ i) : n = c * k := by
  rw [Interval.divConst, Interval.isBottom_eq_false_of_mem hn] at h
  rcases hc with rfl | rfl
  · rw [one_mul]
    exact Interval.eq_of_singleton h hn
  · have h' : (Interval.ofBounds (i.ub.divNum (-1)) (i.lb.divNum (-1))).singleton = some k := h
    rcases i with ⟨lb, ub⟩
    obtain ⟨hlb, hub⟩ := hn
    -- an infinite bound leaves no number
    cases lb with
    | posInf => exact absurd hlb (Bound.not_posInf_le_fin n)
    | negInf => cases ub <;> simp [Bound.divNum, Interval.ofBounds, Interval.singleton,
        Interval.bottom, Bound.lt_iff, Bound.number] at h'
    | fin a =>
      cases ub with
      | negInf => exact absurd hub (Bound.not_fin_le_negInf n)
      | posInf => simp [Bound.divNum, Interval.ofBounds, Interval.singleton, Interval.bottom,
          Bound.lt_iff] at h'
      | fin b =>
        have hneg : -n ∈ Interval.ofBounds (.fin (b.tdiv (-1))) (.fin (a.tdiv (-1))) := by
          rw [Int.tdiv_neg, Int.tdiv_one, Int.tdiv_neg, Int.tdiv_one, Interval.mem_ofBounds]
          exact ⟨Int.neg_le_neg hub, Int.neg_le_neg hlb⟩
        have heq := Interval.eq_of_singleton h' hneg
        omega

theorem narrows_addDisequations (hd : d.WF) (e : LinearExpression V) :
    Narrows (fun σ => (∀ t ∈ e.variableTerms.entries, t.2 = 1 ∨ t.2 = -1) ∧ e.eval σ ≠ 0) d
      (d.addDisequations e) := by
  refine .foldlM hd fun t ht d' hwf _ => ?_
  split
  · next k hk =>
    refine (narrows_addUnivarDisequation hwf t.1 k).mono fun σ hσ ⟨he, hne⟩ heq => hne ?_
    have hres := eq_of_singleton_divConst (he t ht) hk (mem_computeResidual hσ e ht)
    rw [heq] at hres
    omega
  · exact .refl hwf

/-- What a constraint must be for `add_constraint`: a disequation has coefficients `1` and `-1`. -/
def UnitDisequation (c : LinearConstraint V) : Prop :=
  c.kind = .notZero → ∀ t ∈ c.expression.variableTerms.entries, t.2 = 1 ∨ t.2 = -1

theorem narrows_addConstraint (hd : d.WF) (c : LinearConstraint V) :
    Narrows (fun σ => UnitDisequation c ∧ c.Sat σ) d (d.addConstraint c) := by
  unfold addConstraint
  split_ifs with htaut hcontra
  · exact .refl hd
  · refine ⟨fun _ h => (by cases h), fun _ h => (by cases h), fun _ h => (by cases h),
      fun _ h => (by cases h), fun _ σ _ hσ => ?_⟩
    exact LinearConstraint.not_sat_of_isContradiction hcontra σ hσ.2
  · rcases c with ⟨e, kind⟩
    apply Narrows.normalize
    cases kind with
    | lessThanOrEqualsZero => exact narrows_addLinearLeq hd fun σ hσ => hσ.2
    | lessThanZero =>
      refine narrows_addLinearLeq hd fun σ hσ => ?_
      rw [LinearExpression.eval_plusConst]
      exact hσ.2
    | equalsZero =>
      refine Narrows.bind (narrows_addLinearLeq hd fun σ hσ => le_of_eq hσ.2) fun d' _ hwf => ?_
      refine narrows_addLinearLeq hwf fun σ hσ => ?_
      rw [LinearExpression.eval_negate, show e.eval σ = 0 from hσ.2]
      exact le_rfl
    | notZero => exact (narrows_addDisequations hd e).mono fun σ _ hσ => ⟨hσ.1 rfl, hσ.2⟩

/-! ## Queries -/

/-- The interval of the expression decides the constraint. -/
theorem sat_of_entailInterval {e : LinearExpression V} {kind : ConstraintKind} (hd : d.Models σ)
    (h : entailInterval (d.evalInterval e) kind) : (LinearConstraint.mk e kind).Sat σ := by
  have hmem := mem_evalInterval hd e
  show kind.Holds (e.eval σ)
  cases kind with
  | equalsZero => exact Interval.eq_of_singleton (of_decide_eq_true h) hmem
  | lessThanOrEqualsZero =>
    exact Bound.fin_le_fin.mp (Bound.le_trans hmem.2 (of_decide_eq_true h))
  | lessThanZero =>
    have hlt : ¬ Bound.fin 0 ≤ (d.evalInterval e).ub := of_decide_eq_true h
    show e.eval σ < 0
    by_contra hge
    exact hlt (Bound.le_trans (Bound.fin_le_fin.mpr (not_lt.mp hge)) hmem.2)
  | notZero =>
    intro heq
    rw [heq] at hmem
    unfold entailInterval at h
    rw [Bool.or_eq_true, decide_eq_true_eq, decide_eq_true_eq] at h
    exact h.elim (fun hlt => hlt hmem.2) fun hlt => hlt hmem.1

theorem unitDisequation_of_ne {c : LinearConstraint V} (h : c.kind ≠ .notZero) :
    UnitDisequation c := fun heq => absurd heq h

theorem sat_of_entailAux (hd : d.WF) {c : LinearConstraint V} (hc : UnitDisequation c.negate)
    (h : d.entailAux c) (hσ : d.Models σ) : c.Sat σ := by
  have hnone := (narrows_addConstraint hd c.negate).empty (Option.isNone_iff_eq_none.mp h) σ hσ
  by_contra hno
  exact hnone ⟨hc, LinearConstraint.sat_negate.mpr hno⟩

theorem sat_of_entail (hd : d.WF) {c : LinearConstraint V} (h : d.entail c) (hσ : d.Models σ) :
    c.Sat σ := by
  rcases c with ⟨e, kind⟩
  unfold entail at h
  split_ifs at h with htaut hcontra hint heq
  · exact LinearConstraint.sat_of_isTautology htaut σ
  · exact sat_of_entailInterval hσ hint
  · obtain rfl : kind = .equalsZero := heq
    obtain ⟨hle, hge⟩ := (Bool.and_eq_true _ _).mp h
    have hle' := sat_of_entailAux hd (unitDisequation_of_ne (by simp [LinearConstraint.negate]))
      hle hσ
    have hge' := sat_of_entailAux hd (unitDisequation_of_ne (by simp [LinearConstraint.negate]))
      hge hσ
    simp only [LinearConstraint.Sat, ConstraintKind.Holds, LinearExpression.eval_negate]
      at hle' hge' ⊢
    omega
  · refine sat_of_entailAux hd (unitDisequation_of_ne ?_) h hσ
    cases kind <;> simp_all [LinearConstraint.negate]

theorem not_sat_of_intersect (hd : d.WF) {c : LinearConstraint V} (hc : UnitDisequation c)
    (h : d.intersect c = false) (hσ : d.Models σ) : ¬ c.Sat σ := by
  unfold intersect at h
  split_ifs at h with hcontra
  · exact LinearConstraint.not_sat_of_isContradiction hcontra σ
  · have hnone : d.addConstraint c = none := by simpa using h
    exact fun hsat => (narrows_addConstraint hd c).empty hnone σ hσ ⟨hc, hsat⟩

end SplitDbm

end Prevail
