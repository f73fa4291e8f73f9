import Prevail.Crab.Potential

/-!
# The steps of adding a constraint

Adding a constraint makes vertices, lowers edges between different vertices, closes over the edges of
differences, closes at the zero vertex and normalises. What all of these steps keep is kept by the whole
operation (`Kept.addConstraint`). The closure over the edge of a difference may ask for a condition on the
state before it, which `AddMeets` collects along the run of the operation.
-/

namespace Prevail

open DiffSys GraphOps

namespace SplitDbm

variable {V : Type*} [LinearOrder V] {d d' : SplitDbm V} {A : SplitDbm V → (V × V) × ℤ → Prop} {G : Prop}
  {Q : SplitDbm V → Prop}

/-- Every difference that is added meets `A` in the state before it. -/
def DiffsMeet (A : SplitDbm V → (V × V) × ℤ → Prop) : SplitDbm V → List ((V × V) × ℤ) → Prop
  | _, [] => True
  | d, c :: cs => A d c ∧ ∀ d', d.addDiff c = some d' → DiffsMeet A d' cs

/-- The differences of an inequality meet `A`, after the bounds are added. -/
def LeqMeets (A : SplitDbm V → (V × V) × ℤ → Prop) (d : SplitDbm V) (e : LinearExpression V) : Prop :=
  ∀ d₁ d₂, (d.diffcstsOfLinLeq e).lbs.foldlM addLb d = some d₁ →
    (d.diffcstsOfLinLeq e).ubs.foldlM addUb d₁ = some d₂ → DiffsMeet A d₂ (d.diffcstsOfLinLeq e).csts

/-- The differences of a constraint meet `A`. -/
def AddMeets (A : SplitDbm V → (V × V) × ℤ → Prop) (d : SplitDbm V) (cst : LinearConstraint V) : Prop :=
  match cst.kind with
  | .lessThanOrEqualsZero => LeqMeets A d cst.expression
  | .lessThanZero => LeqMeets A d (cst.expression.plusConst 1)
  | .equalsZero => LeqMeets A d cst.expression ∧
      ∀ d', d.addLinearLeq cst.expression = some d' → LeqMeets A d' cst.expression.negate
  | .notZero => True

theorem diffsMeet_true (d : SplitDbm V) (cs : List ((V × V) × ℤ)) : DiffsMeet (fun _ _ => True) d cs := by
  induction cs generalizing d with
  | nil => trivial
  | cons c cs ih => exact ⟨trivial, fun d' _ => ih d'⟩

theorem addMeets_true (d : SplitDbm V) (cst : LinearConstraint V) : AddMeets (fun _ _ => True) d cst := by
  have hleq : ∀ (d : SplitDbm V) e, LeqMeets (fun _ _ => True) d e := fun d e _ _ _ _ => diffsMeet_true _ _
  unfold AddMeets
  split
  · exact hleq _ _
  · exact hleq _ _
  · exact ⟨hleq _ _, fun _ _ => hleq _ _⟩
  · trivial

/-- `Q` is kept by the steps. With `G` the potential of the state is valid. -/
structure Kept (G : Prop) (Q : SplitDbm V → Prop) : Prop where
  getVert : ∀ {d} v, WF d → Q d → Q (d.getVert v).2
  setEdge : ∀ {d s t w p}, s ≠ t → Q d → Q { d with g := d.g.setEdge s w t, potential := p }
  close : ∀ {d p}, Q d → Q { d with g := applyDelta d.g (closeAfterAssign d.g.view p 0) }
  normalize : ∀ {d}, WF d → (G → d.Potent) → Q d → Q d.normalize

/-- A state of which `Q` holds. -/
structure Good (G : Prop) (Q : SplitDbm V → Prop) (d : SplitDbm V) : Prop where
  wf : d.WF
  potent : G → d.Potent
  holds : Q d

theorem Good.of_narrows {r : Option (SplitDbm V)} (h : Good G Q d) (hr : Narrows (fun _ => False) d r)
    (hd' : r = some d') (hQ : Q d') : Good G Q d' :=
  ⟨hr.wf d' hd', fun hG => hr.potent d' hd' (h.potent hG), hQ⟩

theorem foldlM_kept {α : Type*} {f : SplitDbm V → α → Option (SplitDbm V)} {l : List α} (h : Q d)
    (hf : ∀ x ∈ l, ∀ d d', Q d → f d x = some d' → Q d') (hr : l.foldlM f d = some d') : Q d' := by
  induction l generalizing d with
  | nil => exact Option.some.inj hr ▸ h
  | cons x l ih =>
    obtain ⟨d₁, h₁, hr⟩ := Option.bind_eq_some_iff.mp hr
    exact ih (hf x List.mem_cons_self d d₁ h h₁) (fun y hy => hf y (List.mem_cons_of_mem _ hy)) hr

namespace Kept

theorem repairPotential_setEdge (hQ : Kept G Q) {s t : ℕ} {w : ℤ} (hst : s ≠ t) (h : Q d)
    (hr : repairPotential { d with g := d.g.setEdge s w t } s t = some d') : Q d' := by
  obtain ⟨p, -, rfl⟩ := Option.map_eq_some_iff.mp hr
  exact hQ.setEdge hst h

theorem repairPotential_updateEdge (hQ : Kept G Q) {s t : ℕ} {w : ℤ} (hst : s ≠ t) (h : Q d)
    (hr : repairPotential { d with g := d.g.updateEdge s w t } s t = some d') : Q d' := by
  unfold AdaptGraph.updateEdge at hr
  split at hr
  · exact hQ.repairPotential_setEdge hst h hr
  · exact hQ.repairPotential_setEdge hst h hr

theorem addLb (hQ : Kept G Q) (h : Good G Q d) {c : V × ℤ} (hr : d.addLb c = some d') : Good G Q d' := by
  refine h.of_narrows (narrows_addLb h.wf c fun _ hF => hF.elim) hr ?_
  have hg := getVert_spec h.wf c.1
  have hpos := (hg.wf.vert _ _ hg.self).1
  have hvert := hQ.getVert c.1 h.wf h.holds
  unfold SplitDbm.addLb at hr
  simp only at hr
  split at hr
  · split_ifs at hr
    · exact Option.some.inj hr ▸ hvert
    · exact hQ.repairPotential_setEdge hpos.ne' hvert hr
  · exact hQ.repairPotential_setEdge hpos.ne' hvert hr

theorem addUb (hQ : Kept G Q) (h : Good G Q d) {c : V × ℤ} (hr : d.addUb c = some d') : Good G Q d' := by
  refine h.of_narrows (narrows_addUb h.wf c fun _ hF => hF.elim) hr ?_
  have hg := getVert_spec h.wf c.1
  have hpos := (hg.wf.vert _ _ hg.self).1
  have hvert := hQ.getVert c.1 h.wf h.holds
  unfold SplitDbm.addUb at hr
  simp only at hr
  split at hr
  · split_ifs at hr
    · exact Option.some.inj hr ▸ hvert
    · exact hQ.repairPotential_setEdge hpos.ne hvert hr
  · exact hQ.repairPotential_setEdge hpos.ne hvert hr

theorem propagateLb (hQ : Kept G Q) {v : ℕ} {k : ℤ} (h : Q d) (hr : d.propagateLb v k = some d') :
    Q d' := by
  refine foldlM_kept h (fun e _ d d₁ h h₁ => ?_) hr
  split_ifs at h₁ with h0
  · exact Option.some.inj h₁ ▸ h
  · exact hQ.repairPotential_updateEdge h0 h h₁

theorem propagateUb (hQ : Kept G Q) {v : ℕ} {k : ℤ} (h : Q d) (hr : d.propagateUb v k = some d') :
    Q d' := by
  refine foldlM_kept h (fun e _ d d₁ h h₁ => ?_) hr
  split_ifs at h₁ with h0
  · exact Option.some.inj h₁ ▸ h
  · exact hQ.repairPotential_updateEdge (Ne.symm h0) h h₁

theorem strengthenLb (hQ : Kept G Q) {v : ℕ} (hv : v ≠ 0) {lb : Bound} (h : Q d)
    (hr : d.strengthenLb v lb = some d') : Q d' := by
  unfold SplitDbm.strengthenLb at hr
  split at hr
  · split_ifs at hr
    · obtain ⟨d₁, h₁, hr⟩ := Option.bind_eq_some_iff.mp hr
      exact hQ.propagateLb (hQ.repairPotential_setEdge hv h h₁) hr
    · exact Option.some.inj hr ▸ h
  · exact Option.some.inj hr ▸ h

theorem strengthenUb (hQ : Kept G Q) {v : ℕ} (hv : v ≠ 0) {ub : Bound} (h : Q d)
    (hr : d.strengthenUb v ub = some d') : Q d' := by
  unfold SplitDbm.strengthenUb at hr
  split at hr
  · split_ifs at hr
    · obtain ⟨d₁, h₁, hr⟩ := Option.bind_eq_some_iff.mp hr
      exact hQ.propagateUb (hQ.repairPotential_setEdge hv.symm h h₁) hr
    · exact Option.some.inj hr ▸ h
  · exact Option.some.inj hr ▸ h

theorem addUnivarDisequation (hQ : Kept G Q) {x : V} {n : ℤ} (h : Good G Q d)
    (hr : d.addUnivarDisequation x n = some d') : Good G Q d' := by
  have hg := getVert_spec h.wf x
  have hpos := (hg.wf.vert _ _ hg.self).1
  unfold SplitDbm.addUnivarDisequation at hr
  simp only at hr
  split_ifs at hr
  · exact Option.some.inj hr ▸ h
  · obtain ⟨d₁, h₁, hr⟩ := Option.bind_eq_some_iff.mp hr
    obtain ⟨d₂, h₂, hr⟩ := Option.bind_eq_some_iff.mp hr
    obtain rfl := Option.some.inj hr
    have hvert : Good G Q (d.getVert x).2 :=
      ⟨hg.wf, fun hG => potent_getVert h.wf x (h.potent hG), hQ.getVert x h.wf h.holds⟩
    have hlow : Narrows (fun _ => False) (d.getVert x).2 ((d.getVert x).2.strengthenLb
        (d.getVert x).1 (trimInterval (d.getInterval x) n).lb) :=
      narrows_strengthenLb hg.wf hg.self fun _ hF => hF.elim
    have hgood₁ := hvert.of_narrows hlow h₁ (hQ.strengthenLb hpos.ne' hvert.holds h₁)
    have hup : Narrows (fun _ => False) d₁ (d₁.strengthenUb (d.getVert x).1
        (trimInterval (d.getInterval x) n).ub) :=
      narrows_strengthenUb hgood₁.wf (hlow.extend d₁ h₁ x _ hg.self) fun _ hF => hF.elim
    have hgood₂ := hgood₁.of_narrows hup h₂ (hQ.strengthenUb hpos.ne' hgood₁.holds h₂)
    obtain ⟨hwf, hpot⟩ := normalize_spec (d := d₂) hgood₂.wf id
    exact ⟨hwf, fun hG => hpot (hgood₂.potent hG), hQ.normalize hgood₂.wf hgood₂.potent hgood₂.holds⟩

end Kept

/-! ## The differences of an inequality -/

/-- The variables of the terms that are read have a coefficient of the sign of the list that they are in. -/
structure LeqSigns (ts : List (V × ℤ)) (st : LeqTerms V) : Prop where
  lb : ∀ t, st.unboundedLb = some t → ∃ c, 0 < c ∧ (t.1, c) ∈ ts
  ub : ∀ t, st.unboundedUb = some t → ∃ c ≤ 0, (t.1, c) ∈ ts
  pos : ∀ t ∈ st.posTerms, ∃ c, 0 < c ∧ (t.2.1, c) ∈ ts
  neg : ∀ t ∈ st.negTerms, ∃ c ≤ 0, (t.2.1, c) ∈ ts

theorem LeqSigns.step {ts : List (V × ℤ)} {st st' : LeqTerms V} {t : V × ℤ} (h : LeqSigns ts st)
    (ht : t ∈ ts) (hs : d.leqTerm st t = some st') : LeqSigns ts st' := by
  unfold leqTerm at hs
  by_cases hpos : 0 < t.2
  · rw [if_pos hpos] at hs
    split at hs
    · split_ifs at hs
      obtain rfl := Option.some.inj hs
      exact ⟨fun u hu => Option.some.inj hu ▸ ⟨t.2, hpos, ht⟩, h.ub, h.pos, h.neg⟩
    · obtain rfl := Option.some.inj hs
      refine ⟨h.lb, h.ub, fun u hu => ?_, h.neg⟩
      rcases List.mem_append.mp hu with hu | hu
      · exact h.pos u hu
      · exact List.mem_singleton.mp hu ▸ ⟨t.2, hpos, ht⟩
  · rw [if_neg hpos] at hs
    have hle := not_lt.mp hpos
    split at hs
    · split_ifs at hs
      obtain rfl := Option.some.inj hs
      exact ⟨h.lb, fun u hu => Option.some.inj hu ▸ ⟨t.2, hle, ht⟩, h.pos, h.neg⟩
    · obtain rfl := Option.some.inj hs
      refine ⟨h.lb, h.ub, h.pos, fun u hu => ?_⟩
      rcases List.mem_append.mp hu with hu | hu
      · exact h.neg u hu
      · exact List.mem_singleton.mp hu ▸ ⟨t.2, hle, ht⟩

theorem LeqSigns.run {ts l : List (V × ℤ)} {st st' : LeqTerms V} (h : LeqSigns ts st)
    (hl : ∀ t ∈ l, t ∈ ts) (hs : l.foldlM d.leqTerm st = some st') : LeqSigns ts st' := by
  induction l generalizing st with
  | nil => exact Option.some.inj hs ▸ h
  | cons t l ih =>
    obtain ⟨st₁, h₁, hs⟩ := Option.bind_eq_some_iff.mp hs
    exact ih (h.step (hl t List.mem_cons_self) h₁) (fun u hu => hl u (List.mem_cons_of_mem _ hu)) hs

/-- A difference is one of two different variables. -/
theorem ne_of_mem_csts {e : LinearExpression V} {t : (V × V) × ℤ}
    (ht : t ∈ (d.diffcstsOfLinLeq e).csts) : t.1.1 ≠ t.1.2 := by
  have hne : ∀ {x y c c'}, 0 < c → c' ≤ 0 → (x, c) ∈ e.variableTerms.entries →
      (y, c') ∈ e.variableTerms.entries → x ≠ y := by
    rintro x y c c' hc hc' hx hy rfl
    have heq := Option.some.inj ((OrdMap.mem_entries.mp hx).symm.trans (OrdMap.mem_entries.mp hy))
    omega
  unfold diffcstsOfLinLeq at ht
  split at ht
  · cases ht
  · next st hst =>
    have hsigns : LeqSigns e.variableTerms.entries st :=
      LeqSigns.run ⟨by simp, by simp, by simp, by simp⟩ (fun _ h => h) hst
    unfold leqCsts at ht
    split at ht
    · next x cx y cy hlb hub =>
      obtain ⟨c, hc, hx⟩ := hsigns.lb _ hlb
      obtain ⟨c', hc', hy⟩ := hsigns.ub _ hub
      simp only at ht
      split_ifs at ht
      · exact List.mem_singleton.mp ht ▸ hne hc hc' hx hy
      · cases ht
    · next x cx hlb hub =>
      obtain ⟨c, hc, hx⟩ := hsigns.lb _ hlb
      simp only at ht
      split_ifs at ht
      · obtain ⟨u, hu, rfl⟩ := List.mem_map.mp ht
        obtain ⟨c', hc', hy⟩ := hsigns.neg u hu
        exact hne hc hc' hx hy
      · cases ht
    · next y cy hlb hub =>
      obtain ⟨c', hc', hy⟩ := hsigns.ub _ hub
      simp only at ht
      split_ifs at ht
      · obtain ⟨u, hu, rfl⟩ := List.mem_map.mp ht
        obtain ⟨c, hc, hx⟩ := hsigns.pos u hu
        exact hne hc hc' hx hy
      · cases ht
    · obtain ⟨n, hn, ht⟩ := List.mem_flatMap.mp ht
      obtain ⟨u, hu, rfl⟩ := List.mem_map.mp ht
      obtain ⟨c', hc', hy⟩ := hsigns.neg n hn
      obtain ⟨c, hc, hx⟩ := hsigns.pos u hu
      exact hne hc hc' hx hy

/-! ## The constraint -/

namespace Kept

theorem addLinearLeq (hQ : Kept G Q) {e : LinearExpression V} (h : Good G Q d)
    (hdiff : ∀ {d d' c}, Good G Q d → c.1.1 ≠ c.1.2 → A d c → d.addDiff c = some d' → Q d')
    (hA : LeqMeets A d e) (hr : d.addLinearLeq e = some d') : Good G Q d' := by
  obtain ⟨d₁, h₁, hr⟩ := Option.bind_eq_some_iff.mp hr
  obtain ⟨d₂, h₂, hr⟩ := Option.bind_eq_some_iff.mp hr
  obtain ⟨d₃, h₃, hr⟩ := Option.bind_eq_some_iff.mp hr
  obtain rfl := Option.some.inj hr
  have hgood₁ := foldlM_kept h (fun c _ d d' h hr => hQ.addLb h hr) h₁
  have hgood₂ := foldlM_kept hgood₁ (fun c _ d d' h hr => hQ.addUb h hr) h₂
  have hdiffs : ∀ (l : List ((V × V) × ℤ)) (d : SplitDbm V), (∀ c ∈ l, c.1.1 ≠ c.1.2) → Good G Q d →
      DiffsMeet A d l → l.foldlM addDiff d = some d₃ → Good G Q d₃ := by
    intro l
    induction l with
    | nil => exact fun d _ h _ hr => Option.some.inj hr ▸ h
    | cons c l ih =>
      intro d hl h hA hr
      obtain ⟨d', h', hr⟩ := Option.bind_eq_some_iff.mp hr
      refine ih d' (fun x hx => hl x (List.mem_cons_of_mem _ hx)) ?_ (hA.2 d' h') hr
      exact h.of_narrows (narrows_addDiff h.wf c fun _ hF => hF.elim) h'
        (hdiff h (hl c List.mem_cons_self) hA.1 h')
  have hgood₃ := hdiffs _ d₂ (fun c hc => ne_of_mem_csts hc) hgood₂ (hA d₁ d₂ h₁ h₂) h₃
  have hclose := entails_closeAssign hgood₃.wf (pot d₃.potential) 0
  have hwf := hclose.wf hgood₃.wf
  have hpot : G → Potent { d₃ with
      g := applyDelta d₃.g (closeAfterAssign d₃.g.view (pot d₃.potential) 0) } :=
    fun hG => hclose.potent rfl (hgood₃.potent hG)
  obtain ⟨hwf', hpot'⟩ := normalize_spec hwf id
  exact ⟨hwf', fun hG => hpot' (hpot hG), hQ.normalize hwf hpot (hQ.close hgood₃.holds)⟩

/-- What the steps keep is kept by adding a constraint. -/
theorem addConstraint (hQ : Kept G Q) {cst : LinearConstraint V} (h : Good G Q d)
    (hdiff : ∀ {d d' c}, Good G Q d → c.1.1 ≠ c.1.2 → A d c → d.addDiff c = some d' → Q d')
    (hA : AddMeets A d cst) (hr : d.addConstraint cst = some d') : Q d' := by
  unfold SplitDbm.addConstraint at hr
  split_ifs at hr
  · exact Option.some.inj hr ▸ h.holds
  · obtain ⟨d₁, h₁, rfl⟩ := Option.map_eq_some_iff.mp hr
    suffices hgood : Good G Q d₁ from hQ.normalize hgood.wf hgood.potent hgood.holds
    rcases cst with ⟨e, kind⟩
    cases kind with
    | lessThanOrEqualsZero => exact hQ.addLinearLeq h hdiff hA h₁
    | lessThanZero => exact hQ.addLinearLeq h hdiff hA h₁
    | equalsZero =>
      obtain ⟨d₂, h₂, h₁⟩ := Option.bind_eq_some_iff.mp h₁
      exact hQ.addLinearLeq (hQ.addLinearLeq h hdiff hA.1 h₂) hdiff (hA.2 d₂ h₂) h₁
    | notZero =>
      refine foldlM_kept h (fun t _ d d' h hr => ?_) h₁
      split at hr
      · exact hQ.addUnivarDisequation h hr
      · exact Option.some.inj hr ▸ h

end Kept

end SplitDbm

end Prevail
