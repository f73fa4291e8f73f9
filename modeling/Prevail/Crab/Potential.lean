import Prevail.Crab.AddConstraint
import Prevail.Crab.SplitDbmMeet

/-!
# The potential is a model

A valid potential is nothing but a model of the state: the potentials of the variables relative to
that of zero (`potent_iff`). So an operation that keeps models keeps the potential valid, once it
is known which model the new potential is. An assignment gives the variable the value of the
expression in the old potential, and `set` gives it one of the bounds.
-/

namespace Prevail

open GraphOps DiffSys

namespace SplitDbm

variable {V : Type*} [LinearOrder V] {d d' : SplitDbm V} {P : ℕ → Prop} {σ φ : V → ℤ}

/-! ## Potentials and models -/

theorem relPot_of_some {v : V} {n : ℕ} (h : d.vertMap.find? v = some n) :
    d.relPot v = pot d.potential n - pot d.potential 0 := by
  unfold relPot potValue
  rw [h]

theorem relPot_of_none {v : V} (h : d.vertMap.find? v = none) :
    d.relPot v = -pot d.potential 0 := by
  unfold relPot potValue
  rw [h]
  exact zero_sub _

/-- Models only read the variables that have a vertex. -/
theorem Models.congr (h : d.Models σ) (hφ : ∀ v n, d.vertMap.find? v = some n → φ v = σ v) :
    d.Models φ := by
  obtain ⟨ν, hν⟩ := h
  exact ⟨ν, hν.zero, fun v n hv => (hν.agree v n hv).trans (hφ v n hv).symm, hν.sat⟩

theorem potent_iff (hd : d.WF) : d.Potent ↔ d.Models d.relPot := by
  constructor
  · intro h
    exact ⟨fun n => pot d.potential n - pot d.potential 0, sub_self _,
      fun v n hv => (relPot_of_some hv).symm, h.sub_const _⟩
  · rintro ⟨ν, hν⟩ s t w hw
    have hval : ∀ n, d.Live (fun _ => False) n →
        pot d.potential n = ν n + pot d.potential 0 := by
      rintro n (rfl | ⟨v, hv⟩ | hF)
      · rw [hν.zero, zero_add]
      · rw [hν.agree v n hv, relPot_of_some hv]
        omega
      · exact hF.elim
    obtain ⟨hs, ht⟩ := hd.ends s t w hw
    have hle := hν.sat s t w hw
    rw [hval s hs, hval t ht]
    omega

theorem Potent.models (h : d.Potent) (hd : d.WF) : d.Models d.relPot := (potent_iff hd).mp h

/-- The potential is valid when it is a known model. -/
theorem potent_of_models (hd : d.WF) (h : d.Models σ)
    (heq : ∀ v n, d.vertMap.find? v = some n → d.relPot v = σ v) : d.Potent :=
  (potent_iff hd).mpr (h.congr heq)

theorem potent_top : (top : SplitDbm V).Potent := by
  intro s t w hw
  cases hw

theorem evalExpression_eq (d : SplitDbm V) (e : LinearExpression V) :
    d.evalExpression e = e.eval d.relPot := by
  have hfold : ∀ (l : List (V × ℤ)) (a : ℤ),
      l.foldl (fun out t => out + (d.potValue t.1 - pot d.potential 0) * t.2) a =
        a + LinearExpression.evalTerms d.relPot l := by
    intro l
    induction l with
    | nil => simp [LinearExpression.evalTerms]
    | cons t l ih =>
      intro a
      rw [List.foldl_cons, ih, LinearExpression.evalTerms, relPot]
      ring
  exact hfold _ _

/-! ## Operations that keep the potential -/

theorem potent_normalize (hd : d.WF) (h : d.Potent) : d.normalize.Potent :=
  (entails_normalize hd).potent (potential_normalize d) h

theorem normalize_spec (hd' : d'.WF) (hp : d.Potent → d'.Potent) :
    d'.normalize.WF ∧ (d.Potent → d'.normalize.Potent) :=
  ⟨(entails_normalize hd').wf hd', fun h => potent_normalize hd' (hp h)⟩

@[simp] theorem relPot_normalize (d : SplitDbm V) : d.normalize.relPot = d.relPot := by
  have hmap : d.normalize.vertMap = d.vertMap := by
    unfold normalize
    split_ifs <;> rfl
  funext v
  unfold relPot potValue
  rw [hmap, potential_normalize]

@[simp] theorem potential_havoc (d : SplitDbm V) (v : V) : (d.havoc v).potential = d.potential := by
  unfold havoc
  split
  · exact potential_normalize _
  · rfl

theorem relPot_havoc (hd : d.WFWith P) {v u : V} (huv : u ≠ v) :
    (d.havoc v).relPot u = d.relPot u := by
  unfold relPot potValue
  rw [potential_havoc, find?_havoc hd, if_neg huv]

theorem potent_havoc (hd : d.WF) (v : V) (h : d.Potent) : (d.havoc v).Potent := by
  cases hv : d.vertMap.find? v with
  | none => rwa [havoc_of_none hv]
  | some y =>
    rw [havoc_of_some hv]
    refine potent_normalize (wf_dropVert hd hv) fun s t w hw => ?_
    exact h s t w (edge_dropVert hd hv hw).1

theorem havocs_spec (hd : d.WF) (vars : List V) :
    (vars.foldl (fun d v => if d.vertMap.contains v then d.havoc v else d) d).WF ∧
      (d.Potent → (vars.foldl (fun d v => if d.vertMap.contains v then d.havoc v else d)
        d).Potent) := by
  refine List.foldlRecOn (motive := fun d' : SplitDbm V => d'.WF ∧ (d.Potent → d'.Potent)) _ _
    ⟨hd, id⟩ ?_
  rintro d' ⟨hd', hp'⟩ v -
  split_ifs
  · exact ⟨wf_havoc hd' v, fun h => potent_havoc hd' v (hp' h)⟩
  · exact ⟨hd', hp'⟩

theorem forget_spec (hd : d.WF) (vars : List V) :
    (d.forget vars).WF ∧ (d.Potent → (d.forget vars).Potent) := by
  unfold forget
  split_ifs
  · exact ⟨hd, id⟩
  · obtain ⟨hwf, hp⟩ := havocs_spec hd vars
    exact normalize_spec hwf hp

/-! ## New vertices -/

/-- The vertices in use keep their potential. -/
theorem pot_getVert (hd : d.WFWith P) (v : V) {n : ℕ} (hn : d.Live P n) :
    pot (d.getVert v).2.potential n = pot d.potential n := by
  unfold getVert
  split
  · rfl
  · have hf := fresh_newVertex hd
    simp only
    rw [hf.pot_setVert hd, if_neg (hf.ne_of_live hn)]

/-- A variable without a vertex counts as zero, and zero is the potential of a new vertex. -/
theorem relPot_getVert (hd : d.WFWith P) (v u : V) :
    (d.getVert v).2.relPot u = d.relPot u := by
  cases hv : d.vertMap.find? v with
  | some y => rw [getVert_of_some hv]
  | none =>
    have hf := fresh_newVertex hd
    have hzero : pot (d.getVert v).2.potential 0 = pot d.potential 0 :=
      pot_getVert hd v (Or.inl rfl)
    have hfind := (getVert_spec hd v).find? u
    by_cases huv : u = v
    · rw [if_pos huv] at hfind
      have hnew : (d.getVert v).1 = d.g.newVertex.1 := by
        unfold getVert
        rw [hv]
      have hpot : pot (d.getVert v).2.potential (d.getVert v).1 = 0 := by
        rw [hnew]
        unfold getVert
        rw [hv]
        simp only
        rw [hf.pot_setVert hd, if_pos rfl]
      rw [relPot_of_some hfind, hpot, hzero, huv, relPot_of_none hv, zero_sub]
    · rw [if_neg huv] at hfind
      cases hu : d.vertMap.find? u with
      | none => rw [relPot_of_none (hfind.trans hu), relPot_of_none hu, hzero]
      | some n =>
        rw [relPot_of_some (hfind.trans hu), relPot_of_some hu, hzero,
          pot_getVert hd v (Or.inr (Or.inl ⟨u, hu⟩))]

/-! ## Setting a variable to an interval -/

/-- A new potential for the vertex of `x` is a new value for `x`. -/
theorem relPot_withEdge (hd : d.WFWith P) {x : V} {v : ℕ} (hv : d.vertMap.find? x = some v)
    (s : ℕ) (w : ℤ) (t : ℕ) (c : ℤ) :
    (d.withEdge s w t (d.potential.set v (pot d.potential 0 + c))).relPot =
      Function.update d.relPot x c := by
  have hlt : v < d.potential.length := hd.potLen ▸ (hd.vert x v hv).2.1
  have hpos := (hd.vert x v hv).1
  have hpot : ∀ n, pot (d.potential.set v (pot d.potential 0 + c)) n =
      if n = v then pot d.potential 0 + c else pot d.potential n := fun n => getD_set hlt _ _ n
  have hzero : pot (d.potential.set v (pot d.potential 0 + c)) 0 = pot d.potential 0 := by
    rw [hpot, if_neg hpos.ne]
  funext u
  by_cases hux : u = x
  · rw [hux, Function.update_self, relPot_of_some (d := d.withEdge s w t _) hv]
    show pot (d.potential.set v _) v - pot (d.potential.set v _) 0 = c
    rw [hzero, hpot, if_pos rfl]
    omega
  · rw [Function.update_of_ne hux]
    cases hu : d.vertMap.find? u with
    | none =>
      rw [relPot_of_none hu, relPot_of_none (d := d.withEdge s w t _) hu]
      exact congrArg _ hzero
    | some n =>
      have hne : n ≠ v := fun heq => hux (hd.inj u x v (heq ▸ hu) hv)
      rw [relPot_of_some hu, relPot_of_some (d := d.withEdge s w t _) hu]
      show pot (d.potential.set v _) n - pot (d.potential.set v _) 0 = _
      rw [hzero, hpot, if_neg hne]

/-- The last finite bound is the new value. -/
theorem exists_value_of_not_isTop {intv : Interval} (hbot : intv.isBottom = false)
    (htop : intv.isTop = false) :
    ∃ n ∈ intv, intv.lb = .fin n ∨ intv.lb = .negInf ∧ intv.ub = .fin n := by
  rcases intv with ⟨lb, ub⟩
  have hle : lb ≤ ub := not_not.mp (of_decide_eq_false hbot)
  cases lb with
  | fin l => exact ⟨l, ⟨Bound.le_refl _, hle⟩, Or.inl rfl⟩
  | negInf =>
    cases ub with
    | fin u => exact ⟨u, ⟨Bound.negInf_le _, Bound.le_refl _⟩, Or.inr ⟨rfl, rfl⟩⟩
    | negInf => cases htop
    | posInf => cases htop
  | posInf =>
    cases ub with
    | fin u => exact absurd hle (Bound.not_posInf_le_fin u)
    | negInf => exact absurd hle Bound.not_posInf_le_negInf
    | posInf => cases htop

theorem potent_set (hd : d.WF) (hp : d.Potent) (x : V) {intv : Interval}
    (hbot : intv.isBottom = false) : (d.set x intv).Potent := by
  cases htop : intv.isTop with
  | true =>
    rw [set_eq, if_pos htop]
    exact potent_havoc hd x hp
  | false =>
    obtain ⟨n, hn, hlast⟩ := exists_value_of_not_isTop hbot htop
    have hmodels := models_set hd (x := x) (hp.models hd) hn
    refine potent_of_models (wf_set hd x intv) hmodels fun u m hu => ?_
    rw [set_eq, if_neg (by simp [htop])] at hu ⊢
    have hh := wf_havoc hd x
    have hg := getVert_spec hh x
    set d₁ := ((d.havoc x).getVert x).2
    set v := ((d.havoc x).getVert x).1
    obtain ⟨hwf₂, hmap₂, -⟩ := setUb_spec hg.wf (live_of_find? hg.self) intv.ub
    have hself₂ : (d₁.setUb v intv.ub).vertMap.find? x = some v := hmap₂ ▸ hg.self
    have hval : ((d₁.setUb v intv.ub).setLb v intv.lb).relPot = Function.update d₁.relPot x n := by
      rcases hlast with hlb | ⟨hlb, hub⟩
      · rw [hlb]
        refine (relPot_withEdge hwf₂ hself₂ v (-n) 0 n).trans ?_
        unfold setUb
        cases intv.ub with
        | fin k =>
          refine (congrArg (Function.update · x n)
            (relPot_withEdge hg.wf hg.self 0 k v k)).trans ?_
          rw [Function.update_idem]
        | negInf => rfl
        | posInf => rfl
      · rw [hlb, hub]
        exact relPot_withEdge hg.wf hg.self 0 n v n
    rw [relPot_normalize, hval]
    by_cases hux : u = x
    · rw [hux, Function.update_self, Function.update_self]
    · rw [Function.update_of_ne hux, Function.update_of_ne hux, relPot_getVert hh,
        relPot_havoc hd hux]

/-! ## Assignment -/

/-- What adding the vertices of an assignment does to the potential. -/
structure DeltaPot (d : SplitDbm V) (vert : ℕ) (c : ℤ) (d' : SplitDbm V) : Prop where
  relPot : ∀ u, d'.relPot u = d.relPot u
  zero : pot d'.potential 0 = pot d.potential 0
  vert : pot d'.potential vert = c

theorem DeltaPot.getVert {d₀ : SplitDbm V} {vert : ℕ} {c : ℤ} (hP : P vert) (hd : d.WFWith P)
    (h : DeltaPot d₀ vert c d) (v : V) : DeltaPot d₀ vert c (d.getVert v).2 where
  relPot u := (relPot_getVert hd v u).trans (h.relPot u)
  zero := (pot_getVert hd v (Or.inl rfl)).trans h.zero
  vert := (pot_getVert hd v (Or.inr (Or.inr hP))).trans h.vert

theorem deltaPot_assignDelta {vert : ℕ} (hP : P vert) (hd : d.WFWith P)
    (diffsLb diffsUb : List (V × ℤ)) :
    DeltaPot d vert (pot d.potential vert) (d.assignDelta vert diffsLb diffsUb).2 := by
  let Q (acc : EdgeVector × SplitDbm V) : Prop :=
    acc.2.WFWith P ∧ DeltaPot d vert (pot d.potential vert) acc.2
  have hstep : ∀ (acc : EdgeVector × SplitDbm V) (v : V) (e : EdgeVector), Q acc →
      Q (e, (acc.2.getVert v).2) := fun acc v e hacc =>
    ⟨(getVert_spec hacc.1 v).wf, hacc.2.getVert hP hacc.1 v⟩
  have h0 : Q ([], d) := ⟨hd, fun _ => rfl, rfl, rfl⟩
  refine (List.foldlRecOn (motive := Q) _ _ (List.foldlRecOn (motive := Q) _ _ h0 ?_) ?_).2
  all_goals exact fun acc hacc t _ => hstep acc t.1 _ hacc

theorem relPot_setVert_extra (hd : d.WFWith P) (v : V) (p : ℤ) (u : V) :
    (setVert { d with g := d.g.newVertex.2 } d.g.newVertex.1 v p).relPot u = d.relPot u := by
  have hf := fresh_newVertex hd
  have hpot : ∀ n, d.Live P n →
      pot (setVert { d with g := d.g.newVertex.2 } d.g.newVertex.1 v p).potential n =
        pot d.potential n := by
    intro n hn
    refine (hf.pot_setVert hd d.vertMap v p n).trans ?_
    rw [if_neg (hf.ne_of_live hn)]
  have hmap : (setVert { d with g := d.g.newVertex.2 } d.g.newVertex.1 v p).vertMap = d.vertMap :=
    Fresh.setVert_vertMap _ _ _ _
  unfold relPot potValue
  rw [hmap, hpot 0 (Or.inl rfl)]
  cases hu : d.vertMap.find? u with
  | none => rfl
  | some n => exact congrArg (· - _) (hpot n (live_of_find? hu))

/-- The new vertex has the potential of the expression, and the other variables keep theirs. -/
theorem relPot_assignDiffs (hd : d.WF) (lhs : V) (value : Interval) (eVal : ℤ)
    (diffsLb diffsUb : List (V × ℤ)) :
    (d.assignDiffs lhs value eVal diffsLb diffsUb).relPot =
      Function.update d.relPot lhs eVal := by
  funext u
  have hf := fresh_newVertex hd
  have hwf := hf.wf_extra hd lhs (pot d.potential 0 + eVal)
  have hg := (assignGraph_spec hd lhs value eVal diffsLb diffsUb).1
  have hdelta := deltaPot_assignDelta (Or.inr rfl) hwf diffsLb diffsUb
  set d₀ := setVert { d with g := d.g.newVertex.2 } d.g.newVertex.1 lhs
    (pot d.potential 0 + eVal) with hd₀
  have hpot : ∀ k, pot d₀.potential k =
      if k = d.g.newVertex.1 then pot d.potential 0 + eVal else pot d.potential k :=
    hf.pot_setVert hd d.vertMap lhs _
  have hgraph : (d.assignGraph lhs value eVal diffsLb diffsUb).potential =
      (d₀.assignDelta d.g.newVertex.1 diffsLb diffsUb).2.potential := rfl
  have hzero : pot (d.assignGraph lhs value eVal diffsLb diffsUb).potential 0 =
      pot d.potential 0 := by
    rw [hgraph, hdelta.zero, hpot, if_neg hf.pos.ne]
  have hvert : pot (d.assignGraph lhs value eVal diffsLb diffsUb).potential d.g.newVertex.1 =
      pot d.potential 0 + eVal := by
    rw [hgraph, hdelta.vert, hpot, if_pos rfl]
  rw [assignDiffs_eq, relPot_normalize]
  set d₁ := (d.assignGraph lhs value eVal diffsLb diffsUb).havoc lhs with hd₁
  have hpot₁ : d₁.potential = (d.assignGraph lhs value eVal diffsLb diffsUb).potential :=
    potential_havoc _ _
  have hnone : d₁.vertMap.find? lhs = none := by
    rw [hd₁, find?_havoc hg, if_pos rfl]
  by_cases hul : u = lhs
  · have hself : (d₁.vertMap.emplace lhs d.g.newVertex.1).find? u = some d.g.newVertex.1 := by
      rw [OrdMap.find?_emplace, if_pos hul, hnone]
      rfl
    refine (relPot_of_some hself).trans ?_
    rw [hul, Function.update_self]
    show pot d₁.potential _ - pot d₁.potential 0 = eVal
    rw [hpot₁, hvert, hzero]
    omega
  · have hsame : (d₁.vertMap.emplace lhs d.g.newVertex.1).find? u = d₁.vertMap.find? u := by
      rw [OrdMap.find?_emplace, if_neg hul]
    have hrel : relPot { d₁ with vertMap := d₁.vertMap.emplace lhs d.g.newVertex.1 } u =
        d₁.relPot u := by
      unfold relPot potValue
      simp only [hsame]
    have hgr : (d.assignGraph lhs value eVal diffsLb diffsUb).relPot u =
        (d₀.assignDelta d.g.newVertex.1 diffsLb diffsUb).2.relPot u := rfl
    refine hrel.trans ?_
    rw [Function.update_of_ne hul, hd₁, relPot_havoc hg hul, hgr, hdelta.relPot, hd₀,
      relPot_setVert_extra hd]

theorem potent_assign (hd : d.WF) (hp : d.Potent) (lhs : V) (e : LinearExpression V) :
    (d.assign lhs e).Potent := by
  have hmem := mem_evalInterval (hp.models hd) e
  have hset : ((d.set lhs (d.evalInterval e)).normalize).Potent :=
    potent_normalize (wf_set hd lhs _)
      (potent_set hd hp lhs (Interval.isBottom_eq_false_of_mem hmem))
  have hwf := wf_assign hd lhs e
  have hmodels := models_assign hd lhs e (hp.models hd)
  unfold assign at hwf hmodels ⊢
  simp only at hwf hmodels ⊢
  split_ifs at hwf hmodels ⊢
  · exact hset
  · exact hset
  · refine potent_of_models hwf hmodels fun u n _ => ?_
    rw [← evalExpression_eq, relPot_assignDiffs hd]

theorem applyVar_spec (op : ArithBinOp) (hd : d.WF) (x y z : V) :
    (applyVar op d x y z).WF ∧ (d.Potent → (applyVar op d x y z).Potent) := by
  have hassign := fun e : LinearExpression V =>
    normalize_spec (wf_assign hd x e) fun hp => potent_assign hd hp x e
  cases op with
  | add => exact hassign _
  | sub => exact hassign _
  | mul =>
    refine normalize_spec (wf_set hd x _) fun hp => ?_
    have hm := hp.models hd
    exact potent_set hd hp x (Interval.isBottom_eq_false_of_mem
      (Interval.mem_mul (mem_getInterval hm y) (mem_getInterval hm z)))

theorem applyNum_spec (op : ArithBinOp) (hd : d.WF) (x y : V) (k : ℤ) :
    (applyNum op d x y k).WF ∧ (d.Potent → (applyNum op d x y k).Potent) := by
  have hassign := fun e : LinearExpression V =>
    normalize_spec (wf_assign hd x e) fun hp => potent_assign hd hp x e
  cases op <;> exact hassign _

end SplitDbm

end Prevail
