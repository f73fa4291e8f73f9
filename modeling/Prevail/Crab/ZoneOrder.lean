import Prevail.Crab.Keeps
import Prevail.Crab.LoopFree

/-!
# Upper bounds of zones

Inclusion compares zones by the edges of the right one. A state is below what has some of its own
constraints and variables (`le_of_csts`); in split normal form it is below every state that it
includes, if this one has no loops and no more variables (`le_of_included`). So the operands of a
join are below it, and the right operand of a widening.

The count of variables is that of all vertices, with an edge or not: what `havoc` and `set` leave is
said by `has_havoc_iff` and `has_set_iff`.
-/

namespace Prevail

open DiffSys GraphOps

namespace SplitDbm

variable {V : Type*} [LinearOrder V] {a b d : SplitDbm V} {σ : V → ℤ} {u v : V} {i : Interval}

/-- The state has a vertex for the variable. -/
def Has (d : SplitDbm V) (v : V) : Prop := ∃ n, d.vertMap.find? v = some n

/-- The zones whose implied constraints inclusion finds: in split normal form, without loops. -/
structure Closed (d : SplitDbm V) : Prop where
  normalForm : d.NormalForm
  loopFree : LoopFree d.g

/-- A state is below one that says no more about no more variables. -/
theorem le_of_included (ha : a.WF) (hb : b.WF) (hna : a.NormalForm) (hloop : LoopFree b.g)
    (hincl : ∀ σ, a.Models σ → b.Models σ)
    (hcount : b.vertMap.entries.length ≤ a.vertMap.entries.length) : a.le b = true :=
  (le_iff_comparable ha hb hna hincl).mpr (Or.inr ⟨hcount, fun n w hw => absurd hw (hloop n w)⟩)

theorem length_le_of_has (h : ∀ v, b.Has v → a.Has v) :
    b.vertMap.entries.length ≤ a.vertMap.entries.length := by
  have hsub : b.vertMap.keys ⊆ a.vertMap.keys := fun v hv =>
    OrdMap.mem_keys.mpr (h v (OrdMap.mem_keys.mp hv))
  have hle := (List.subperm_of_subset b.vertMap.nodup_keys hsub).length_le
  simpa [OrdMap.keys] using hle

/-- A state is below one with some of its constraints and variables, in normal form or not. -/
theorem le_of_csts (hb : b.WF) (hcsts : ∀ x y w, b.csts x y w → a.csts x y w)
    (hhas : ∀ v, b.Has v → a.Has v) : a.le b = true := by
  refine (le_iff hb).mpr (Or.inr ⟨length_le_of_has hhas, fun s t w hw => ?_⟩)
  obtain ⟨hs, ht⟩ := hb.ends s t w hw
  obtain ⟨x, hx⟩ := exists_vertOf hs
  obtain ⟨y, hy⟩ := exists_vertOf ht
  obtain ⟨m, n, hm, hn, he⟩ := hcsts x y w ⟨s, t, hx, hy, hw⟩
  exact ⟨m, n, (vertRenaming_iff hb).mpr ⟨x, hx, hm⟩, (vertRenaming_iff hb).mpr ⟨y, hy, hn⟩,
    edgeHolds_iff.mpr (Or.inl ⟨w, le_rfl, he⟩)⟩

theorem le_self (ha : a.WF) : a.le a = true := le_of_csts ha (fun _ _ _ h => h) fun _ h => h

/-- Without a pending normalisation, forgetting only drops constraints. -/
theorem csts_of_havoc (hd : d.WF) (hu : d.unstable = []) {x y : Option V} {w : ℤ}
    (h : (d.havoc v).csts x y w) : d.csts x y w := by
  cases hv : d.vertMap.find? v with
  | none => rwa [havoc_of_none hv] at h
  | some n =>
    have hstable : (d.dropVert v n).normalize = d.dropVert v n := by
      have hempty : (d.dropVert v n).unstable.isEmpty = true := by
        rw [show (d.dropVert v n).unstable = [] from hu]
        rfl
      unfold normalize
      rw [if_pos hempty]
    rw [havoc_of_some hv, hstable, csts_dropVert_iff hd hv] at h
    exact h.1

theorem unstable_havoc (hu : d.unstable = []) : (d.havoc v).unstable = [] := by
  cases hv : d.vertMap.find? v with
  | none => rwa [havoc_of_none hv]
  | some n =>
    rw [havoc_of_some hv]
    unfold normalize
    split_ifs
    · exact hu
    · rfl

theorem le_of_isTop (hb : b.isTop = true) : a.le b = true := by
  unfold le
  rw [if_pos hb]

/-! ## The variables of a result -/

theorem has_havoc_iff (hd : d.WF) : (d.havoc v).Has u ↔ u ≠ v ∧ d.Has u := by
  unfold Has
  rw [find?_havoc hd]
  split_ifs with huv
  · simp [huv]
  · simp [huv]

theorem has_set_iff (hd : d.WF) (hi : i.isTop = false) : (d.set v i).Has u ↔ u = v ∨ d.Has u := by
  have hh := wf_havoc hd v
  have hvert : ∀ (e : SplitDbm V) m ub lb, ((e.setUb m ub).setLb m lb).vertMap = e.vertMap := by
    intro e m ub lb
    unfold setLb setUb
    cases ub.number <;> cases lb.number <;> rfl
  have hhas : (d.set v i).Has u ↔ u = v ∨ (d.havoc v).Has u := by
    unfold Has
    rw [set_eq, hi]
    simp only [Bool.false_eq_true, if_false]
    rw [vertMap_normalize, hvert, (getVert_spec hh v).find?]
    split_ifs with huv
    · simp [huv]
    · simp [huv]
  rw [hhas, has_havoc_iff hd]
  exact ⟨fun h => h.imp_right And.right, fun h => or_iff_not_imp_left.mpr fun hne => ⟨hne, h.resolve_left hne⟩⟩

/-- The variables of a join, when no operand is without constraints, are those of both. -/
theorem Has.of_join (ha : a.WF) (hta : a.isTop = false) (htb : b.isTop = false)
    (h : (a.join b).Has u) : a.Has u ∧ b.Has u := by
  have hn := nodup_commonNames a b
  obtain ⟨-, hgraph⟩ := joinGraph_spec ha b
  have hwf := wf_numbered hn hgraph (p := 0 :: (commonNames a b).map a.relPot) (by simp) []
  have hmem : u ∈ commonNames a b := by
    rw [join_eq hta htb] at h
    revert h
    refine foldl_collect_induct (P := fun d => d.Has u → u ∈ commonNames a b)
      (fun d x m _ _ _ ih h => ih ?_) (List.nodup_range.filter _) hwf (revMap_joinGraph hgraph) ?_
    · obtain ⟨n, hn⟩ := h
      exact ⟨n, (find?_dropVert hn).2⟩
    · rintro ⟨n, hu⟩
      have hslot := List.mem_of_getElem? ((find?_alignVerts hn).mp hu)
      simpa [slots] using hslot
  obtain ⟨hx, hy⟩ := List.mem_filter.mp hmem
  exact ⟨OrdMap.mem_keys.mp hx, Option.isSome_iff_exists.mp hy⟩

theorem Has.of_widen (h : (a.widen b).Has u) : a.Has u ∧ b.Has u := by
  obtain ⟨n, hu⟩ := h
  rw [widen_eq_normalize, vertMap_normalize] at hu
  have hslot := List.mem_of_getElem? ((find?_alignVerts (nodup_commonNames a b)).mp hu)
  have hmem : u ∈ commonNames a b := by simpa [slots] using hslot
  obtain ⟨hx, hy⟩ := List.mem_filter.mp hmem
  exact ⟨OrdMap.mem_keys.mp hx, Option.isSome_iff_exists.mp hy⟩

/-! ## Upper bounds -/

theorem join_of_isTop_right (htb : b.isTop = true) : a.join b = b := by
  unfold join
  rw [if_pos htb]

theorem join_of_isTop_left (hta : a.isTop = true) (htb : b.isTop = false) : a.join b = a := by
  unfold join
  rw [if_neg (by simp [htb]), if_pos hta]

theorem Closed.loopFree_join (hca : a.Closed) (hcb : b.Closed) (ha : a.WF) (hb : b.WF) :
    LoopFree (a.join b).g := by
  obtain ⟨σ, hσ⟩ := hca.normalForm.models
  exact loopFree_join_of_models ha hb hca.loopFree hcb.loopFree hσ

theorem Closed.loopFree_widen (hca : a.Closed) (ha : a.WF) (hb : b.WF) :
    LoopFree (a.widen b).g := by
  obtain ⟨σ, hσ⟩ := hca.normalForm.models
  exact SplitDbm.loopFree_widen ha hb hca.loopFree hσ

/-- Both operands are below their join. -/
theorem le_join (ha : a.WF) (hb : b.WF) (hca : a.Closed) (hcb : b.Closed) :
    a.le (a.join b) = true ∧ b.le (a.join b) = true := by
  cases htb : b.isTop with
  | true =>
    rw [join_of_isTop_right htb]
    exact ⟨le_of_isTop htb, le_of_isTop htb⟩
  | false =>
    cases hta : a.isTop with
    | true =>
      rw [join_of_isTop_left hta htb]
      exact ⟨le_of_isTop hta, le_of_isTop hta⟩
    | false =>
      have hwf := (join_spec ha hb).1
      have hloop := hca.loopFree_join hcb ha hb
      exact ⟨le_of_included ha hwf hca.normalForm hloop (fun _ h => models_join ha hb (Or.inl h))
          (length_le_of_has fun _ h => (h.of_join ha hta htb).1),
        le_of_included hb hwf hcb.normalForm hloop (fun _ h => models_join ha hb (Or.inr h))
          (length_le_of_has fun _ h => (h.of_join ha hta htb).2)⟩

theorem le_widen_right (ha : a.WF) (hb : b.WF) (hca : a.Closed) (hcb : b.Closed) :
    b.le (a.widen b) = true :=
  le_of_included hb (widen_spec ha b).1 hcb.normalForm (hca.loopFree_widen ha hb)
    (fun _ h => models_widen_of_models ha hb (Or.inr h)) (length_le_of_has fun _ h => h.of_widen.2)

/-- A state that admits every valuation has no constraint, but for loops. -/
theorem isTop_of_forall_models (hd : d.WF) (hl : LoopFree d.g) (h : ∀ σ, d.Models σ) :
    d.isTop = true := by
  by_contra hne
  obtain ⟨s, t, w, hw⟩ := exists_edge_of_not_isTop (by simpa using hne)
  obtain ⟨hs, ht⟩ := hd.ends s t w hw
  obtain ⟨x, hx⟩ := exists_vertOf hs
  obtain ⟨y, hy⟩ := exists_vertOf ht
  have hle := fun σ => (models_iff hd).mp (h σ) x y w ⟨s, t, hx, hy, hw⟩
  have hxy : x ≠ y := by
    rintro rfl
    rw [Option.some.inj (hx.symm.trans hy)] at hw
    exact hl t w hw
  cases x with
  | none =>
    cases y with
    | none => exact hxy rfl
    | some v =>
      have hv : w + 1 ≤ 0 + w := hle fun _ => w + 1
      omega
  | some u =>
    have hu := hle (Function.update (fun _ : V => (0 : ℤ)) u (-w - 1))
    cases y with
    | none =>
      have hu : (0 : ℤ) ≤ Function.update (fun _ : V => (0 : ℤ)) u (-w - 1) u + w := hu
      rw [Function.update_self] at hu
      omega
    | some v =>
      have hvu : v ≠ u := fun heq => hxy (congrArg some heq.symm)
      have hu : Function.update (fun _ : V => (0 : ℤ)) u (-w - 1) v ≤
          Function.update (fun _ : V => (0 : ℤ)) u (-w - 1) u + w := hu
      rw [Function.update_self, Function.update_of_ne hvu] at hu
      omega

/-! ## Bounds -/

/-- The state bounds the variable from above or from below. -/
def HasBound (d : SplitDbm V) (v : V) : Prop :=
  ∃ w, d.csts none (some v) w ∨ d.csts (some v) none w

theorem HasBound.of_keeps {e : SplitDbm V} (h : d.HasBound v) (huv : u ≠ v)
    (hk : Keeps (Other u) d e) : e.HasBound v := by
  have hnone : Other u (none : Option V) := by simp [Other]
  have hv : Other u (some v) := fun heq => huv (Option.some.inj heq).symm
  obtain ⟨w, hw | hw⟩ := h
  · obtain ⟨c, -, hc⟩ := hk _ _ w hnone hv hw
    exact ⟨c, Or.inl hc⟩
  · obtain ⟨c, -, hc⟩ := hk _ _ w hv hnone hw
    exact ⟨c, Or.inr hc⟩

/-- An interval with a number that is not everything bounds the variable that is set to it. -/
theorem hasBound_set (hd : d.WF) {n : ℤ} (hn : n ∈ i) (hi : i.isTop = false) :
    (d.set v i).HasBound v := by
  have hh := wf_havoc hd v
  have hg := getVert_spec hh v
  have h0 : ∀ e : SplitDbm V, e.vertOf none = some 0 := fun _ => rfl
  set m := ((d.havoc v).getVert v).1
  have hne : m ≠ 0 := (hg.wf.vert v m hg.self).1.ne'
  have heq : d.set v i = ((((d.havoc v).getVert v).2.setUb m i.ub).setLb m i.lb).normalize := by
    rw [set_eq, hi]
    rfl
  have hvert : ((((d.havoc v).getVert v).2.setUb m i.ub).setLb m i.lb).vertMap =
      ((d.havoc v).getVert v).2.vertMap := by
    unfold setLb setUb
    cases i.ub.number <;> cases i.lb.number <;> rfl
  have hv : (d.set v i).vertOf (some v) = some m := by
    rw [heq]
    refine vertOf_normalize.trans ?_
    show OrdMap.find? _ v = some m
    rw [hvert]
    exact hg.self
  rcases i with ⟨lb, ub⟩
  cases lb with
  | fin l =>
    have hedge : ((((d.havoc v).getVert v).2.setUb m ub).setLb m (.fin l)).g.lookup m 0 = some (-l) := by
      show (AdaptGraph.setEdge _ m (-l) 0).lookup m 0 = _
      rw [AdaptGraph.lookup_setEdge, if_pos ⟨rfl, rfl⟩]
    obtain ⟨w, -, hw⟩ := exists_csts_of_atMost hv (h0 _)
      (heq ▸ atMost_normalize ⟨-l, le_rfl, hedge⟩)
    exact ⟨w, Or.inr hw⟩
  | negInf =>
    cases ub with
    | fin k =>
      have hedge : ((((d.havoc v).getVert v).2.setUb m (.fin k)).setLb m .negInf).g.lookup 0 m =
          some k := by
        show (AdaptGraph.setEdge _ 0 k m).lookup 0 m = _
        rw [AdaptGraph.lookup_setEdge, if_pos ⟨rfl, rfl⟩]
      obtain ⟨w, -, hw⟩ := exists_csts_of_atMost (h0 _) hv
        (heq ▸ atMost_normalize ⟨k, le_rfl, hedge⟩)
      exact ⟨w, Or.inl hw⟩
    | posInf => cases hi
    | negInf => exact absurd hn.2 (by simp)
  | posInf => exact absurd hn.1 (by simp)

theorem evalInterval_var_eq_top (h : d.getInterval v = .top) : d.evalInterval (.var v) = .top := by
  have hterms : (LinearExpression.var v).variableTerms.entries = [(v, 1)] := rfl
  unfold evalInterval
  rw [hterms, List.foldl_cons, List.foldl_nil, h]
  rfl

/-- Only a variable with a vertex has a bound. -/
theorem has_of_evalInterval (h : (d.evalInterval (.var v)).isTop = false) : d.Has v := by
  by_contra hno
  have hnone : d.vertMap.find? v = none := by
    rw [Option.eq_none_iff_forall_ne_some]
    exact fun n hn => hno ⟨n, hn⟩
  rw [evalInterval_var_eq_top (by unfold getInterval; rw [hnone]; rfl)] at h
  cases h

/-- A state without constraints has no bound. -/
theorem evalInterval_of_isTop (htop : d.isTop = true) (v : V) :
    d.evalInterval (.var v) = .top := by
  refine evalInterval_var_eq_top ?_
  unfold getInterval getLb getUb
  cases d.vertMap.find? v with
  | none => rfl
  | some n =>
    simp only [AdaptGraph.isEmpty_iff.mp htop]
    rfl

end SplitDbm

end Prevail
