import Prevail.Crab.Keeps
import Prevail.Crab.TypeToNum

/-!
# What typed states admit

A concrete state gives each location a type and each numeric variable a value. The kind variables
of types that a location does not have are ignored (`Meaningless`): a state admits `τ` and `σ` when
its types admit `τ` and its values admit some valuation that agrees with `σ` on the other variables.

Join and widening put back the intervals of the kind variables that only one operand knows about.
This is right when the saved intervals are not empty: the values in the operand that does not know
about a variable can be chosen inside the interval. `operator|=` returns early on an empty operand,
`widen` does not, and there the intervals saved from the empty operand are empty. Inclusion forgets
variables of the right operand; in a zone that is not closed this loses constraints on the others
(`Forgettable`, `latticeSound_iff`).
-/

namespace Prevail

open DiffSys

namespace TypeDomain

variable {V : Type*} [LinearOrder V] {t u : TypeDomain V} {τ : V → TypeEncoding}

/-- The zone admits the encodings of the types. -/
def Models (t : TypeDomain V) (τ : V → TypeEncoding) : Prop :=
  t.inv.Models fun v => (τ v).toInt

theorem Models.mayHaveType (h : t.Models τ) (v : V) : t.mayHaveType v (τ v) = true := by
  have hmem := AddBottom.mem_evalInterval h (.var v)
  rw [LinearExpression.eval_var] at hmem
  exact Interval.contains_iff.mpr hmem

end TypeDomain

namespace TypeToNumDomain

variable {V : Type*} [LinearOrder V] {R : VariableRegistry V} {a b d : TypeToNumDomain V}
  {τ : V → TypeEncoding} {σ σ' : V → ℤ} {x y : AddBottom V} {v : V} {i : Interval}

/-- A kind variable of a type that its location does not have. -/
def Meaningless (R : VariableRegistry V) (τ : V → TypeEncoding) (x : V) : Prop :=
  ∃ v ∈ R.typeVariables, ∃ e ∈ typeToKinds, τ v ≠ e.1 ∧ ∃ kind ∈ e.2, x = R.kindVar kind v

/-- The valuations agree on the variables with a meaning. -/
def Agree (R : VariableRegistry V) (τ : V → TypeEncoding) (σ σ' : V → ℤ) : Prop :=
  ∀ x, ¬ Meaningless R τ x → σ x = σ' x

/-- The concrete states of an abstract one. -/
def Models (R : VariableRegistry V) (d : TypeToNumDomain V) (τ : V → TypeEncoding)
    (σ : V → ℤ) : Prop :=
  d.types.Models τ ∧ ∃ σ', Agree R τ σ σ' ∧ d.values.Models σ'

structure WF (d : TypeToNumDomain V) : Prop where
  types : d.types.inv.WF
  values : d.values.WF

omit [LinearOrder V] in
theorem Agree.trans {σ'' : V → ℤ} (h : Agree R τ σ σ') (h' : Agree R τ σ' σ'') :
    Agree R τ σ σ'' := fun x hx => (h x hx).trans (h' x hx)

theorem isBottom_of_models (h : d.Models R τ σ) : d.isBottom = false := by
  obtain ⟨-, σ', -, hσ'⟩ := h
  exact hσ'.isBottom

/-! ## Kind variables that do not exist -/

/-- A kind variable of a type that the types rule out at its location. -/
def RuledOut (R : VariableRegistry V) (t : TypeDomain V) (u : V) : Prop :=
  ∃ v ∈ R.typeVariables, ∃ e ∈ typeToKinds, t.mayHaveType v e.1 = false ∧
    ∃ kind ∈ e.2, u = R.kindVar kind v

theorem mem_getNonexistentKindVariables :
    v ∈ d.getNonexistentKindVariables R ↔ RuledOut R d.types v := by
  unfold getNonexistentKindVariables RuledOut
  simp only [List.mem_flatMap]
  refine exists_congr fun u => and_congr Iff.rfl (exists_congr fun e => and_congr Iff.rfl ?_)
  cases d.types.mayHaveType u e.1 <;> simp [eq_comm]

/-- What the types rule out is meaningless under every type assignment that they admit. -/
theorem meaningless_of_ruledOut {t : TypeDomain V} (hτ : t.Models τ) (h : RuledOut R t v) :
    Meaningless R τ v := by
  obtain ⟨u, hu, e, he, hmay, kind, hkind, rfl⟩ := h
  refine ⟨u, hu, e, he, fun heq => ?_, kind, hkind, rfl⟩
  rw [← heq, hτ.mayHaveType] at hmay
  cases hmay

/-! ## Inclusion -/

/-- Zero and the variables with a meaning. -/
def meaningful (R : VariableRegistry V) (τ : V → TypeEncoding) : Set (Option V) :=
  {u | ∀ v, u = some v → ¬ Meaningless R τ v}

omit [LinearOrder V] in
theorem none_mem_meaningful : none ∈ meaningful R τ := fun _ h => by cases h

omit [LinearOrder V] in
theorem agree_iff {ψ : Option V → ℤ} (hψ : ψ none = 0) :
    Agree R τ σ (fun v => ψ (some v)) ↔ ∀ u ∈ meaningful R τ, ψ u = SplitDbm.ext σ u := by
  constructor
  · intro h u hu
    cases u with
    | none => exact hψ
    | some v => exact (h v (hu v rfl)).symm
  · intro h v hv
    refine (h (some v) fun v' hv' => ?_).symm
    rwa [← Option.some.inj hv']

omit [LinearOrder V] in
theorem ext_of_base {ψ : Option V → ℤ} (hψ : ψ none = 0) :
    SplitDbm.ext (fun v => ψ (some v)) = ψ := by
  funext u
  cases u with
  | none => exact hψ.symm
  | some v => rfl

/-- The vertices of the kind variables that the types rule out. -/
def ruledOut (R : VariableRegistry V) (t : TypeDomain V) : Set (Option V) :=
  {u | ∃ v, RuledOut R t v ∧ u = some v}

/-- Whatever the types, what the right values say about the variables with a meaning is said by
their constraints on variables that are not forgotten and by those of the left values. -/
def Forgettable (R : VariableRegistry V) (a b : TypeToNumDomain V) : Prop :=
  ∀ τ, a.types.Models τ → ∀ x ∈ a.values, ∀ y ∈ b.values,
    Kept y.csts (x.csts.and (y.csts.off (ruledOut R a.types))) (meaningful R τ)

/-- Right values in normal form lose nothing. -/
theorem forgettable_of_normalForm (hb : b.WF) (hn : b.values.NormalForm) : Forgettable R a b := by
  intro τ hτ x _ y hy
  have hnone : none ∉ ruledOut R a.types := by
    rintro ⟨v, -, hv⟩
    cases hv
  have hwf := hb.values y hy
  obtain ⟨σ, hσ⟩ := (hn y hy).models
  have hkept := ((hn y hy).splitClosed_csts hwf).kept_off (M := meaningful R τ) hnone
    ((SplitDbm.models_iff hwf).mp hσ) fun u hu => by
      rintro ⟨v, hv, rfl⟩
      exact hu v rfl (meaningless_of_ruledOut hτ hv)
  exact hkept.mono fun _ _ _ hc => .of_edge (Or.inr hc)

/-- A zone without some variables keeps its constraints on the others. -/
theorem sat_off_of_havocs {vars : List V} {y : SplitDbm V} (hy : y.WF)
    (h : (vars.foldl AddBottom.havoc (some y)).Models σ) :
    Sat (y.csts.off {u | ∃ v ∈ vars, u = some v}) (SplitDbm.ext σ) := by
  induction vars generalizing y with
  | nil => exact fun s d w hw => (SplitDbm.models_iff hy).mp (AddBottom.models_some.mp h) s d w hw.1
  | cons v vars ih =>
    have hrest := ih (SplitDbm.wf_havoc hy v) h
    rintro s d w ⟨hw, hs, hd⟩
    have hv : some v ∈ {u | ∃ v' ∈ v :: vars, u = some v'} := ⟨v, List.mem_cons_self, rfl⟩
    obtain ⟨c, hc, hcw⟩ :=
      SplitDbm.keeps_havoc hy v s d w (fun h => hs (h ▸ hv)) (fun h => hd (h ▸ hv)) hw
    have hsub : ∀ u, u ∉ {u | ∃ v' ∈ v :: vars, u = some v'} → u ∉ {u | ∃ v' ∈ vars, u = some v'} :=
      fun u hu ⟨v', hv', heq⟩ => hu ⟨v', List.mem_cons_of_mem _ hv', heq⟩
    have hle := hrest s d c ⟨hcw, hsub s hs, hsub d hd⟩
    omega

theorem types_le_of_le (h : a.le R b = true) (hna : a.isBottom = false) :
    a.types.le b.types = true := by
  unfold le at h
  rw [hna] at h
  simp only [Bool.false_eq_true, if_false] at h
  split_ifs at h with _ htypes
  simpa using htypes

theorem models_of_le (ha : a.WF) (hb : b.WF) (hforget : Forgettable R a b) (h : a.le R b = true)
    (hτσ : a.Models R τ σ) : b.Models R τ σ := by
  have hbot := isBottom_of_models hτσ
  have htypes := types_le_of_le h hbot
  obtain ⟨hτ, σ', hagree, x, hx, hσ'⟩ := hτσ
  unfold le at h
  rw [hbot, htypes] at h
  simp only [Bool.not_true, Bool.false_eq_true, if_false] at h
  split_ifs at h with hbbot
  have hnb : b.isBottom = false := by simpa using hbbot
  obtain ⟨y, hy⟩ := Option.isSome_iff_exists.mp (Option.isNone_eq_false_iff.mp hnb)
  refine ⟨AddBottom.models_of_le ha.types hb.types htypes hτ, ?_⟩
  have hwf : ∀ (vars : List V) (x : AddBottom V), x.WF → (vars.foldl AddBottom.havoc x).WF := by
    intro vars
    induction vars with
    | nil => exact fun x hx => hx
    | cons v vars ih => exact fun x hx => ih _ (hx.havoc v)
  have hforgotten := AddBottom.models_of_le ha.values (hwf _ _ hb.values) h ⟨x, hx, hσ'⟩
  rw [hy] at hforgotten
  have hoff := sat_off_of_havocs (hb.values y hy) hforgotten
  have hmem : ∀ u, u ∉ ruledOut R a.types →
      u ∉ {u | ∃ v ∈ a.getNonexistentKindVariables R, u = some v} := by
    rintro u hu ⟨v, hv, rfl⟩
    exact hu ⟨v, mem_getNonexistentKindVariables.mp hv, rfl⟩
  have hsat : Sat (x.csts.and (y.csts.off (ruledOut R a.types))) (SplitDbm.ext σ') :=
    sat_and.mpr ⟨(SplitDbm.models_iff (ha.values x hx)).mp hσ',
      fun s d w hw => hoff s d w ⟨hw.1, hmem s hw.2.1, hmem d hw.2.2⟩⟩
  -- what the forgotten variables said is still there
  obtain ⟨ψ, hψ, heq⟩ :=
    (hforget τ hτ x hx y hy).exists_sat (SplitDbm.finite_csts (hb.values y hy)) hsat
  have hbase : ψ none = 0 := heq none none_mem_meaningful
  refine ⟨_, hagree.trans ((agree_iff hbase).mpr heq), y, hy, ?_⟩
  rw [SplitDbm.models_iff (hb.values y hy), ext_of_base hbase]
  exact hψ

/-- Inclusion is right about values only when nothing is lost with the forgotten variables. -/
theorem forgettable_of_models (ha : a.WF) (hb : b.WF)
    (h : ∀ τ σ, a.Models R τ σ → b.Models R τ σ) : Forgettable R a b := by
  intro τ hτ x hx y hy
  have hfin : {c : Option V × Option V × ℤ |
      (x.csts.and (y.csts.off (ruledOut R a.types))) c.1 c.2.1 c.2.2}.Finite :=
    ((SplitDbm.finite_csts (ha.values x hx)).union (SplitDbm.finite_csts (hb.values y hy))).subset
      fun c hc => hc.imp_right And.left
  refine kept_of_exists_sat hfin fun φ hφ => ?_
  have hbase : (fun u => φ u - φ none) none = 0 := sub_self _
  have hσ : x.Models fun v => φ (some v) - φ none := by
    rw [SplitDbm.models_iff (ha.values x hx), ext_of_base (ψ := fun u => φ u - φ none) hbase]
    exact (sat_and.mp hφ).1.sub_const _
  obtain ⟨-, σ', hagree, y', hy', hσ'⟩ := h τ _ ⟨hτ, _, fun _ _ => rfl, x, hx, hσ⟩
  obtain rfl := Option.some.inj (hy.symm.trans hy')
  refine ⟨_, ((SplitDbm.models_iff (hb.values y hy)).mp hσ').sub_const (-φ none), fun u hu => ?_⟩
  have heq := (agree_iff (ψ := SplitDbm.ext σ') rfl).mp hagree u hu
  have hext := congrFun (ext_of_base (ψ := fun u => φ u - φ none) hbase) u
  rw [heq, hext]
  omega

/-! ## Saved intervals -/

/-- The interval that is saved for a variable, if there is one. -/
def Saved (R : VariableRegistry V) (a b : TypeToNumDomain V) (v : V) (i : Interval) : Prop :=
  ∃ u ∈ R.typeVariables, ∃ e ∈ typeToKinds,
    a.types.mayHaveType u e.1 ≠ b.types.mayHaveType u e.1 ∧ ∃ kind ∈ e.2, v = R.kindVar kind u ∧
      i = (if a.types.mayHaveType u e.1 then a.values else b.values).evalInterval (.var v) ∧
      i.isTop = false

theorem mem_collectTypeDependentConstraints :
    (v, i) ∈ a.collectTypeDependentConstraints R b ↔ Saved R a b v i := by
  unfold collectTypeDependentConstraints Saved
  simp only [List.mem_flatMap]
  refine exists_congr fun u => and_congr Iff.rfl (exists_congr fun e => and_congr Iff.rfl ?_)
  by_cases hmay : a.types.mayHaveType u e.1 = b.types.mayHaveType u e.1
  · rw [if_pos hmay]
    exact ⟨fun h => absurd h List.not_mem_nil, fun h => absurd hmay h.1⟩
  · rw [if_neg hmay]
    simp only [List.mem_filterMap, ne_eq, hmay, not_false_eq_true, true_and]
    refine exists_congr fun kind => and_congr Iff.rfl ?_
    generalize (if a.types.mayHaveType u e.1 = true then a.values else b.values) = source
    split_ifs with htop
    · constructor
      · exact fun h => absurd h (by simp)
      · rintro ⟨rfl, rfl, h⟩
        rw [htop] at h
        cases h
    · constructor
      · intro h
        obtain ⟨rfl, rfl⟩ := Prod.mk.inj (Option.some.inj h)
        exact ⟨rfl, rfl, by simpa using htop⟩
      · rintro ⟨rfl, rfl, -⟩
        rfl

theorem Saved.unique {j : Interval} (h : Saved R a b v i) (h' : Saved R a b v j) : i = j := by
  obtain ⟨u, hu, e, he, -, kind, hkind, rfl, rfl, -⟩ := h
  obtain ⟨u', hu', e', he', -, kind', hkind', heq, rfl, -⟩ := h'
  obtain ⟨rfl, rfl⟩ := R.kindVar_inj u hu u' hu' kind kind' heq
  rw [typeToKinds_unique e he e' he' kind hkind hkind']

/-- A model of the left operand has its value in a saved interval, unless its types rule the
variable out. -/
theorem Saved.mem_left (h : Saved R a b v i) (hσ : a.values.Models σ) :
    σ v ∈ i ∨ RuledOut R a.types v := by
  obtain ⟨u, hu, e, he, -, kind, hkind, rfl, rfl, -⟩ := h
  cases hmay : a.types.mayHaveType u e.1 with
  | true =>
    have hmem := AddBottom.mem_evalInterval hσ (.var (R.kindVar kind u))
    rw [LinearExpression.eval_var] at hmem
    exact Or.inl hmem
  | false => exact Or.inr ⟨u, hu, e, he, hmay, kind, hkind, rfl⟩

theorem Saved.mem_right (h : Saved R a b v i) (hσ : b.values.Models σ) :
    σ v ∈ i ∨ RuledOut R b.types v := by
  obtain ⟨u, hu, e, he, hne, kind, hkind, rfl, rfl, -⟩ := h
  cases hmay : b.types.mayHaveType u e.1 with
  | true =>
    have hmem := AddBottom.mem_evalInterval hσ (.var (R.kindVar kind u))
    rw [LinearExpression.eval_var] at hmem
    rw [if_neg (fun h => hne (h.trans hmay.symm))]
    exact Or.inl hmem
  | false => exact Or.inr ⟨u, hu, e, he, hmay, kind, hkind, rfl⟩

/-- Setting variables to intervals admits new values inside the intervals. -/
theorem models_setAll {l : List (V × Interval)} {c : V → ℤ} (hx : x.WF) (hσ : x.Models σ)
    (hc : ∀ e ∈ l, c e.1 ∈ e.2) (heq : ∀ u, u ∉ l.map Prod.fst → c u = σ u) :
    (setAll x l).Models c := by
  induction l generalizing x σ with
  | nil =>
    have hcσ : c = σ := funext fun u => heq u (by simp)
    rwa [hcσ]
  | cons e l ih =>
    have hset := AddBottom.models_set (v := e.1) hx hσ (hc e List.mem_cons_self)
    refine ih (hx.set e.1 e.2) hset (fun e' he' => hc e' (List.mem_cons_of_mem _ he')) ?_
    intro u hu
    by_cases hue : u = e.1
    · rw [hue, Function.update_self]
    · rw [Function.update_of_ne hue]
      refine heq u ?_
      rw [List.map_cons, List.mem_cons, not_or]
      exact ⟨hue, hu⟩

theorem setAll_none (l : List (V × Interval)) : setAll (none : AddBottom V) l = none := by
  induction l with
  | nil => rfl
  | cons e l ih =>
    have hset : AddBottom.set (none : AddBottom V) e.1 e.2 = none := by
      unfold AddBottom.set
      split_ifs <;> rfl
    show setAll (AddBottom.set none e.1 e.2) l = none
    rw [hset, ih]

/-- An empty interval empties the state. -/
theorem setAll_of_isBottom {l : List (V × Interval)} (h : ∃ e ∈ l, e.2.isBottom = true) :
    setAll x l = none := by
  induction l generalizing x with
  | nil => simp at h
  | cons e l ih =>
    show setAll (x.set e.1 e.2) l = none
    cases hbot : e.2.isBottom with
    | true =>
      have hset : x.set e.1 e.2 = none := by
        unfold AddBottom.set
        rw [if_pos hbot]
      rw [hset, setAll_none]
    | false =>
      obtain ⟨e', he', hbot'⟩ := h
      rcases List.mem_cons.mp he' with rfl | he'
      · rw [hbot] at hbot'
        cases hbot'
      · exact ih ⟨e', he', hbot'⟩

/-- No saved interval is empty. -/
def SavesValues (R : VariableRegistry V) (a b : TypeToNumDomain V) : Prop :=
  ∀ e ∈ a.collectTypeDependentConstraints R b, e.2.isBottom = false

/-- The saved intervals admit the values, but for variables that may have any value. -/
theorem exists_models_setAll {Q : V → Prop} (hx : x.WF) (hσ : x.Models σ)
    (hsaves : SavesValues R a b) (h : ∀ v i, Saved R a b v i → σ v ∈ i ∨ Q v) :
    ∃ c, (∀ u, ¬ Q u → σ u = c u) ∧
      (setAll x (a.collectTypeDependentConstraints R b)).Models c := by
  have hchoice : ∀ v, ∃ n, (∀ i, Saved R a b v i → n ∈ i) ∧ (¬ Q v → n = σ v) ∧
      ((∀ i, ¬ Saved R a b v i) → n = σ v) := by
    intro v
    by_cases hv : ∃ i, Saved R a b v i ∧ σ v ∉ i
    · obtain ⟨i, hi, hσi⟩ := hv
      have htop : i.isTop = false := by
        obtain ⟨_, _, _, _, _, _, _, _, _, htop⟩ := hi
        exact htop
      obtain ⟨n, hn, -⟩ := SplitDbm.exists_value_of_not_isTop
        (hsaves _ (mem_collectTypeDependentConstraints.mpr hi)) htop
      refine ⟨n, fun j hj => hi.unique hj ▸ hn, fun hmean => ?_, fun hno => absurd hi (hno i)⟩
      exact absurd ((h v i hi).resolve_left hσi) hmean
    · exact ⟨σ v, fun i hi => not_not.mp fun hσi => hv ⟨i, hi, hσi⟩, fun _ => rfl, fun _ => rfl⟩
  choose c hc hmean hno using hchoice
  refine ⟨c, fun u hu => (hmean u hu).symm, models_setAll hx hσ ?_ fun u hu => hno u fun i hi => ?_⟩
  · exact fun e he => hc e.1 e.2 (mem_collectTypeDependentConstraints.mp he)
  · exact hu (List.mem_map_of_mem (f := Prod.fst) (mem_collectTypeDependentConstraints.mpr hi))

/-! ## Join and widening -/

theorem models_widen (ha : a.WF) (hb : b.WF) (hsaves : SavesValues R a b)
    (h : a.Models R τ σ ∨ b.Models R τ σ) : (a.widen R b).Models R τ σ := by
  have hwf := ha.values.widen hb.values
  rcases h with ⟨hτ, σ', hagree, hσ'⟩ | ⟨hτ, σ', hagree, hσ'⟩
  · obtain ⟨c, hc, hmodels⟩ := exists_models_setAll hwf
      (AddBottom.models_widen ha.values hb.values (Or.inl hσ')) hsaves
      fun v i hs => (hs.mem_left hσ').imp_right (meaningless_of_ruledOut hτ)
    exact ⟨AddBottom.models_widen ha.types hb.types (Or.inl hτ), c, hagree.trans hc, hmodels⟩
  · obtain ⟨c, hc, hmodels⟩ := exists_models_setAll hwf
      (AddBottom.models_widen ha.values hb.values (Or.inr hσ')) hsaves
      fun v i hs => (hs.mem_right hσ').imp_right (meaningless_of_ruledOut hτ)
    exact ⟨AddBottom.models_widen ha.types hb.types (Or.inr hτ), c, hagree.trans hc, hmodels⟩

/-- The join of two states that are not bottom. -/
def joined (R : VariableRegistry V) (a b : TypeToNumDomain V) : TypeToNumDomain V :=
  ⟨a.types.join b.types,
    setAll (a.values.join b.values) (a.collectTypeDependentConstraints R b)⟩

theorem models_joined (ha : a.WF) (hb : b.WF) (hsaves : SavesValues R a b)
    (h : a.Models R τ σ ∨ b.Models R τ σ) : (joined R a b).Models R τ σ := by
  have hwf := ha.values.join hb.values
  rcases h with ⟨hτ, σ', hagree, hσ'⟩ | ⟨hτ, σ', hagree, hσ'⟩
  · obtain ⟨c, hc, hmodels⟩ := exists_models_setAll hwf
      (AddBottom.models_join ha.values hb.values (Or.inl hσ')) hsaves
      fun v i hs => (hs.mem_left hσ').imp_right (meaningless_of_ruledOut hτ)
    exact ⟨AddBottom.models_join ha.types hb.types (Or.inl hτ), c, hagree.trans hc, hmodels⟩
  · obtain ⟨c, hc, hmodels⟩ := exists_models_setAll hwf
      (AddBottom.models_join ha.values hb.values (Or.inr hσ')) hsaves
      fun v i hs => (hs.mem_right hσ').imp_right (meaningless_of_ruledOut hτ)
    exact ⟨AddBottom.models_join ha.types hb.types (Or.inr hτ), c, hagree.trans hc, hmodels⟩

theorem join_eq (R : VariableRegistry V) (a b : TypeToNumDomain V) : a.join R b =
    if b.isBottom then if a.isBottom then b else a
    else joined R (if a.isBottom then b else a) b := by
  unfold join
  cases hb : b.isBottom with
  | true => rfl
  | false =>
    simp only [Bool.false_eq_true, if_false]
    have hleft : (if a.isBottom then b else a).isBottom = false := by
      split_ifs with ha
      · exact hb
      · simpa using ha
    unfold joinSelective joined
    rw [hleft, hb]
    rfl

/-- A state has the types of itself. -/
theorem savesValues_self (R : VariableRegistry V) (a : TypeToNumDomain V) : SavesValues R a a := by
  rintro ⟨v, i⟩ he
  obtain ⟨_, _, _, _, hne, _⟩ := mem_collectTypeDependentConstraints.mp he
  exact absurd rfl hne

theorem models_join (ha : a.WF) (hb : b.WF) (hsaves : SavesValues R a b)
    (h : a.Models R τ σ ∨ b.Models R τ σ) : (a.join R b).Models R τ σ := by
  rw [join_eq]
  have hempty : ∀ {d : TypeToNumDomain V}, d.isBottom = true → ¬ d.Models R τ σ := by
    intro d hbot hd
    rw [isBottom_of_models hd] at hbot
    cases hbot
  split_ifs with hbbot habot habot
  · exact h.resolve_left (hempty habot)
  · exact h.resolve_right (hempty hbbot)
  · exact models_joined hb hb (savesValues_self R b) (Or.inr (h.resolve_left (hempty habot)))
  · exact models_joined ha hb hsaves h

/-- The operators are sound on two states. -/
structure LatticeSound (R : VariableRegistry V) (a b : TypeToNumDomain V) : Prop where
  join_left : ∀ τ σ, a.Models R τ σ → (a.join R b).Models R τ σ
  join_right : ∀ τ σ, b.Models R τ σ → (a.join R b).Models R τ σ
  widen_left : ∀ τ σ, a.Models R τ σ → (a.widen R b).Models R τ σ
  widen_right : ∀ τ σ, b.Models R τ σ → (a.widen R b).Models R τ σ
  le : a.le R b = true → ∀ τ σ, a.Models R τ σ → b.Models R τ σ

/-- The operators are sound on two states unless an empty interval is saved and put back, and an
inclusion that is found is right unless constraints are lost with the variables it forgets. None are
when the right values are in split normal form. -/
theorem latticeSound_iff (ha : a.WF) (hb : b.WF) :
    (LatticeSound R a b ↔
      (SavesValues R a b ∨ ∀ τ σ, ¬ a.Models R τ σ ∧ ¬ b.Models R τ σ) ∧
        (a.le R b = true → Forgettable R a b)) ∧
    (b.values.NormalForm → Forgettable R a b) := by
  refine ⟨?_, forgettable_of_normalForm hb⟩
  constructor
  · refine fun h => ⟨or_iff_not_imp_left.mpr fun hsaves τ σ => ?_, fun hle =>
      forgettable_of_models ha hb (h.le hle)⟩
    have hnone : ¬ (a.widen R b).Models R τ σ := by
      rintro ⟨-, σ', -, hσ'⟩
      have hempty : ∃ e ∈ a.collectTypeDependentConstraints R b, e.2.isBottom = true := by
        by_contra hno
        exact hsaves fun e he => by simpa using fun hbot => hno ⟨e, he, hbot⟩
      change (setAll _ _).Models σ' at hσ'
      rw [setAll_of_isBottom hempty] at hσ'
      exact AddBottom.not_models_none hσ'
    exact ⟨fun hτσ => hnone (h.widen_left τ σ hτσ), fun hτσ => hnone (h.widen_right τ σ hτσ)⟩
  · rintro ⟨hsaves | hempty, hforget⟩
    · exact ⟨fun τ σ h => models_join ha hb hsaves (Or.inl h),
        fun τ σ h => models_join ha hb hsaves (Or.inr h),
        fun τ σ h => models_widen ha hb hsaves (Or.inl h),
        fun τ σ h => models_widen ha hb hsaves (Or.inr h),
        fun hle τ σ h => models_of_le ha hb (hforget hle) hle h⟩
    · exact ⟨fun τ σ h => absurd h (hempty τ σ).1, fun τ σ h => absurd h (hempty τ σ).2,
        fun τ σ h => absurd h (hempty τ σ).1, fun τ σ h => absurd h (hempty τ σ).2,
        fun _ τ σ h => absurd h (hempty τ σ).1⟩

/-- A location with a number, and one with a packet pointer. -/
theorem latticeSound_iff_packet :
    LatticeSound (.numbered 1) ⟨⟨some (SplitDbm.top.set 0 (.const (-4)))⟩, some .top⟩
      ⟨⟨some (SplitDbm.top.set 0 (.const (-2)))⟩, some (SplitDbm.top.set 6 (.const 5))⟩ :=
  (latticeSound_iff
    ⟨AddBottom.wf_some.mpr (SplitDbm.wf_set SplitDbm.wf_top 0 _),
      AddBottom.wf_some.mpr SplitDbm.wf_top⟩
    ⟨AddBottom.wf_some.mpr (SplitDbm.wf_set SplitDbm.wf_top 0 _),
      AddBottom.wf_some.mpr (SplitDbm.wf_set SplitDbm.wf_top 6 _)⟩).1.mpr
    ⟨Or.inl (by unfold SavesValues; decide), fun _ => forgettable_of_normalForm
      ⟨AddBottom.wf_some.mpr (SplitDbm.wf_set SplitDbm.wf_top 0 _),
        AddBottom.wf_some.mpr (SplitDbm.wf_set SplitDbm.wf_top 6 _)⟩ (by
      rintro d ⟨⟩
      exact SplitDbm.normalForm_of_entries (by decide) (by decide))⟩

/-- The empty state widened with a location that has a number. -/
theorem widen_loses_state :
    ¬ LatticeSound (.numbered 1) bottom
      ⟨⟨some (SplitDbm.top.set 0 (.const (-4)))⟩, some .top⟩ := by
  intro h
  have htypes : (SplitDbm.top.set 0 (.const (-4))).Models fun _ : ℕ => TypeEncoding.num.toInt := by
    have hmem : TypeEncoding.num.toInt ∈ Interval.const (-4) := Interval.mem_const.mpr rfl
    have hset := SplitDbm.models_set SplitDbm.wf_top (x := 0)
      (SplitDbm.models_top fun _ : ℕ => TypeEncoding.num.toInt) hmem
    rwa [Function.update_eq_self] at hset
  obtain ⟨-, σ', -, hσ'⟩ := h.widen_right (fun _ => .num) (fun _ => 0)
    ⟨AddBottom.models_some.mpr htypes, fun _ => 0, fun _ _ => rfl,
      AddBottom.models_some.mpr (SplitDbm.models_top _)⟩
  have hbot := hσ'.isBottom
  revert hbot
  decide

end TypeToNumDomain

end Prevail
