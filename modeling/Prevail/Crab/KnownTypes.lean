import Prevail.Crab.TypeSplit

/-!
# Known types

A location whose interval of types is one type is known to have it. All questions that the analysis asks
about such a location have the answer that the type gives: expressions over known variables have known
intervals, so that the constraints on them which hold are found to be entailed.
-/

namespace Prevail

open LinearExpression

namespace Interval

variable {i : Interval} {n : ℤ}

theorem const_add (m n : ℤ) : (const m).add (const n) = const (m + n) := by
  simp [add, const, isBottom, ofBounds, Bound.add, Bound.fin_lt_fin]

theorem const_mul (m n : ℤ) : (const m).mul (const n) = const (m * n) := by
  simp [mul, const, isBottom, ofBounds, Bound.fin_mul_fin, Bound.fin_lt_fin, min4, max4, Bound.min_fin,
    Bound.max_fin]

/-- An interval with one number is that number. -/
theorem eq_const (hn : n ∈ i) (h : ∀ k ∈ i, k = n) : i = const n := by
  obtain ⟨lb, ub⟩ := i
  obtain ⟨hl, hu⟩ := hn
  have hlb : lb = .fin n := by
    cases lb with
    | negInf =>
      have hpred := h (n - 1) ⟨Bound.negInf_le _, Bound.le_trans (Bound.fin_le_fin.mpr (by omega)) hu⟩
      omega
    | fin a => rw [h a ⟨Bound.le_refl _, Bound.le_trans hl hu⟩]
    | posInf => exact absurd hl (Bound.not_posInf_le_fin n)
  have hub : ub = .fin n := by
    cases ub with
    | negInf => exact absurd hu (Bound.not_fin_le_negInf n)
    | fin b => rw [h b ⟨Bound.le_trans hl hu, Bound.le_refl _⟩]
    | posInf =>
      have hsucc := h (n + 1) ⟨Bound.le_trans hl (Bound.fin_le_fin.mpr (by omega)), Bound.le_posInf _⟩
      omega
  rw [hlb, hub]
  rfl

end Interval

/-! ## Expressions over known variables -/

namespace SplitDbm

variable {V : Type} [LinearOrder V] {d : SplitDbm V} {σ : V → ℤ}

theorem evalInterval_of_known {e : LinearExpression V}
    (h : ∀ t ∈ e.variableTerms.entries, d.getInterval t.1 = .const (σ t.1)) :
    d.evalInterval e = .const (e.eval σ) := by
  have hfold : ∀ (l : List (V × ℤ)) (n : ℤ), (∀ t ∈ l, d.getInterval t.1 = .const (σ t.1)) →
      l.foldl (fun (r : Interval) t => r.add ((Interval.const t.2).mul (d.getInterval t.1))) (.const n) =
        .const (n + evalTerms σ l) := by
    intro l
    induction l with
    | nil => exact fun n _ => congrArg Interval.const (add_zero n).symm
    | cons t l ih =>
      intro n h
      rw [List.foldl_cons, h t List.mem_cons_self, Interval.const_mul, Interval.const_add,
        ih _ fun u hu => h u (List.mem_cons_of_mem _ hu), add_assoc]
      rfl
  exact hfold _ _ h

theorem entailInterval_const {n : ℤ} {kind : ConstraintKind} (h : kind.Holds n) :
    entailInterval (.const n) kind = true := by
  cases kind with
  | equalsZero =>
    obtain rfl : n = 0 := h
    rfl
  | lessThanOrEqualsZero => exact decide_eq_true (Bound.fin_le_fin.mpr h)
  | lessThanZero => exact decide_eq_true (Bound.fin_lt_fin.mpr h)
  | notZero =>
    refine Bool.or_eq_true_iff.mpr ?_
    refine (lt_or_gt_of_ne (h : n ≠ 0)).imp ?_ ?_
    · exact fun h => decide_eq_true (Bound.fin_lt_fin.mpr h)
    · exact fun h => decide_eq_true (Bound.fin_lt_fin.mpr h)

/-- A constraint on known variables is entailed when it holds. -/
theorem entail_of_known {c : LinearConstraint V}
    (h : ∀ t ∈ c.expression.variableTerms.entries, d.getInterval t.1 = .const (σ t.1)) (hsat : c.Sat σ) :
    d.entail c = true := by
  have hnot : c.isContradiction = false := by
    cases hcontra : c.isContradiction with
    | true => exact absurd hsat (LinearConstraint.not_sat_of_isContradiction hcontra _)
    | false => rfl
  have hdecides : entailInterval (d.evalInterval c.expression) c.kind = true := by
    rw [evalInterval_of_known h]
    exact entailInterval_const hsat
  unfold entail
  rw [hnot, hdecides, if_neg Bool.false_ne_true, if_pos rfl, ite_self]

/-- A variable that is assigned what is known to be a number has no other value. -/
theorem eq_of_mem_assign_known (hd : d.WF) {v : V} {e : LinearExpression V} {c k : ℤ}
    (he : d.evalInterval e = .const c) (h : k ∈ (d.assign v e).getInterval v) : k = c := by
  have heq : d.assign v e = d.assign v (.const c) := by
    have hval : d.evalInterval (.const c) = .const c := rfl
    unfold assign
    simp only [he, hval]
    rw [if_pos (by simp [Interval.isSingleton, Interval.const]), if_pos (by simp [Interval.isSingleton, Interval.const])]
  exact eq_of_mem_getInterval_assign hd (heq ▸ h)

end SplitDbm

/-- The variables of a difference. -/
theorem mem_entries_eq_vars {V : Type} [LinearOrder V] {a b : V} {t : V × ℤ}
    (h : t ∈ (eq (.var a) (.var b)).expression.variableTerms.entries) : t.1 = a ∨ t.1 = b := by
  obtain ⟨v, c⟩ := t
  have hterms : (eq (.var a) (.var b)).expression.variableTerms =
      ((var a).variableTerms.insert b ((var a).coefficientOf b - 1)).filterVals (· ≠ 0) := rfl
  rw [hterms] at h
  obtain ⟨hmem, -⟩ := List.mem_filter.mp h
  rw [OrdMap.mem_entries, OrdMap.find?_insert] at hmem
  split_ifs at hmem with hb
  · exact Or.inr hb
  · have hentry := OrdMap.mem_entries.mpr hmem
    exact Or.inl (congrArg Prod.fst (List.mem_singleton.mp hentry))

/-! ## What the analysis finds -/

namespace TypeDomain

variable {V : Type} [LinearOrder V] {t : TypeDomain V} {τ : V → TypeEncoding} {v a b : V}
  {type type' : TypeEncoding}

/-- The location is known to have the type. -/
def Knows (t : TypeDomain V) (v : V) (type : TypeEncoding) : Prop :=
  ∀ k ∈ t.inv.evalInterval (.var v), k = type.toInt

theorem Knows.evalInterval (h : t.Knows v type) (hτ : t.Models τ) :
    t.inv.evalInterval (.var v) = .const type.toInt := by
  have hmem := AddBottom.mem_evalInterval hτ (.var v)
  exact Interval.eq_const (h _ hmem ▸ hmem) h

theorem Knows.eq_type (h : t.Knows v type) (hτ : t.Models τ) : τ v = type := by
  have hmem := AddBottom.mem_evalInterval hτ (.var v)
  rw [eval_var] at hmem
  exact TypeEncoding.toInt_inj (h _ hmem)

theorem Knows.mayHaveType (h : t.Knows v type) (hne : type' ≠ type) : t.mayHaveType v type' = false := by
  rw [← Bool.not_eq_true]
  exact fun hmay => hne (TypeEncoding.toInt_inj (h _ (Interval.contains_iff.mp hmay)))

theorem Knows.isInitialized (h : t.Knows v type) (hτ : t.Models τ) (hne : type ≠ .uninit) :
    t.isInitialized v = true := isInitialized_of_mayHaveType (h.mayHaveType hne.symm) hτ

/-- A constraint on the types of known locations is entailed when it holds. -/
theorem entail_of_known {c : LinearConstraint V} (hτ : t.Models τ)
    (h : ∀ e ∈ c.expression.variableTerms.entries, ∃ type, t.Knows e.1 type)
    (hsat : c.Sat fun v => (τ v).toInt) : t.inv.entail c = true := by
  obtain ⟨d, hd, hmodels⟩ := id hτ
  have hinv : t.inv = some d := hd
  have hinterval : ∀ e ∈ c.expression.variableTerms.entries, d.getInterval e.1 = .const (τ e.1).toInt := by
    intro e he
    obtain ⟨type, hknown⟩ := h e he
    have hmem : (τ e.1).toInt ∈ d.getInterval e.1 := by
      have hvar := SplitDbm.mem_evalInterval hmodels (.var e.1)
      rw [eval_var] at hvar
      exact SplitDbm.mem_evalInterval_var.mp hvar
    refine Interval.eq_const hmem fun k hk => ?_
    rw [hknown.eq_type hτ]
    refine hknown k ?_
    rw [hinv]
    exact SplitDbm.mem_evalInterval_var.mpr hk
  rw [hinv]
  exact SplitDbm.entail_of_known hinterval hsat

theorem Knows.isInGroup_number (h : t.Knows v .num) (hτ : t.Models τ) : t.isInGroup v .number = true := by
  have hterms : (typeIs v .num).expression.variableTerms.entries = [(v, 1)] := rfl
  refine entail_of_known hτ (fun e he => ⟨.num, ?_⟩) ?_
  · rw [hterms] at he
    rwa [congrArg Prod.fst (List.mem_singleton.mp he)]
  · rw [typeIs, sat_eq, eval_var, eval_const, h.eq_type hτ]

theorem Knows.sameType (ha : t.Knows a type) (hb : t.Knows b type) (hτ : t.Models τ) :
    t.sameType a b = true := by
  refine entail_of_known hτ (fun e he => ⟨type, ?_⟩) ?_
  · rcases mem_entries_eq_vars he with h | h
    · rwa [h]
    · rwa [h]
  · rw [sat_eq, eval_var, eval_var, ha.eq_type hτ, hb.eq_type hτ]

theorem Knows.iterateTypes (h : t.Knows v type) (hτ : t.Models τ) (hne : type ≠ .uninit) :
    t.iterateTypes v = some [type] := by
  unfold TypeDomain.iterateTypes
  rw [h.evalInterval hτ]
  revert hne
  cases type <;> decide

theorem Knows.getType (h : t.Knows v type) (hτ : t.Models τ) : t.getType v = some type.toInt := by
  unfold TypeDomain.getType
  rw [h.evalInterval hτ]
  cases type <;> decide

/-! ## Assignments of types -/

theorem models_assignType_var (ht : t.inv.WF) (hτ : t.Models τ) (u v : V) :
    (t.assignType v (.var u)).Models (Function.update τ v (τ u)) := by
  have hm := AddBottom.models_assign ht hτ (v := v) (.var u)
  rw [eval_var] at hm
  show (t.inv.assign v _).Models _
  convert hm using 1
  funext w
  by_cases hw : w = v
  · rw [hw, Function.update_self, Function.update_self]
  · rw [Function.update_of_ne hw, Function.update_of_ne hw]

theorem Knows.assign (h : t.Knows v type) (ht : t.inv.WF) (hτ : t.Models τ) :
    (t.assignType a (.var v)).Knows a type := by
  obtain ⟨d, hd, -⟩ := id hτ
  have hinv : t.inv = some d := hd
  have hval := h.evalInterval hτ
  rw [hinv] at hval
  intro k hk
  have hassign : (t.assignType a (.var v)).inv = some (d.assign a (.var v)) := congrArg (·.assign a (.var v)) hinv
  rw [hassign] at hk
  exact SplitDbm.eq_of_mem_assign_known (ht d hd) hval (SplitDbm.mem_evalInterval_var.mp hk)

theorem Knows.assign_of_ne (h : t.Knows v type) (ht : t.inv.WF) (hne : v ≠ a) (e : LinearExpression V) :
    (t.assignType a e).Knows v type := by
  intro k hk
  cases hinv : t.inv with
  | none =>
    have hassign : (t.assignType a e).inv = none := congrArg (·.assign a e) hinv
    refine h k ?_
    rw [hassign] at hk
    rw [hinv]
    exact hk
  | some d =>
    have hassign : (t.assignType a e).inv = some (d.assign a e) := congrArg (·.assign a e) hinv
    rw [hassign] at hk
    have hkeeps := SplitDbm.keeps_assign (ht d hinv) a e
    refine h k ?_
    rw [hinv]
    exact SplitDbm.mem_evalInterval_var.mpr (hkeeps.mem_getInterval
      (fun heq => hne (Option.some.inj heq)) (Option.some_ne_none a).symm (SplitDbm.mem_evalInterval_var.mp hk))

end TypeDomain

end Prevail
