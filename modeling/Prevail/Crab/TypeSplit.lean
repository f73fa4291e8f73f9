import Prevail.Crab.JoinOverTypes
import Prevail.Crab.Keeps

/-!
# Splitting on the type of a register

`join_over_types` carries out a transition for each type that a register may have, on the state in which
it has this type, and joins what the transition returns. When the register is known to be initialised,
each type that it has in a concrete state is among the enumerated ones, the restriction keeps the
concrete states with the type (`models_withType`), and the accumulator grows with each join
(`joinTypes_covers`). A register that may not be initialised is not split: its transition sees the whole
state, as if the register had `T_UNINIT`.
-/

namespace Prevail

open StateT AddBottom

namespace Interval

variable {i : Interval} {n : ℤ}

/-- An interval that leaves out a number lies on one side of it. -/
theorem lt_or_lt_of_not_mem (h : n ∉ i) : i.ub < .fin n ∨ .fin n < i.lb := by
  by_contra hno
  obtain ⟨hub, hlb⟩ := not_or.mp hno
  exact h ⟨not_not.mp hlb, not_not.mp hub⟩

/-- The part of an interval between two numbers has ends when it has elements. -/
theorem exists_bound {lb ub : ℤ} (hn : n ∈ i) (hlb : lb ≤ n) (hub : n ≤ ub) :
    ∃ l u, i.bound lb ub = some (l, u) := by
  have hmem : n ∈ (ofInts lb ub).meet i := mem_meet.mpr ⟨mem_ofInts.mpr ⟨hlb, hub⟩, hn⟩
  have hrange : ∀ m, m ∈ (ofInts lb ub).meet i → lb ≤ m ∧ m ≤ ub :=
    fun m hm => mem_ofInts.mp (mem_meet.mp hm).1
  unfold bound
  simp only [isBottom_eq_false_of_mem hmem, Bool.false_eq_true, if_false]
  generalize (ofInts lb ub).meet i = part at hmem hrange
  obtain ⟨⟨l⟩ | l | _, u⟩ := part
  · have hbelow := hrange (min (lb - 1) n) ⟨Bound.negInf_le _, ?_⟩
    · omega
    · exact Bound.le_trans (Bound.fin_le_fin.mpr (by omega)) hmem.2
  · obtain ⟨⟩ | u | _ := u
    · cases hmem.2
    · exact ⟨l, u, rfl⟩
    · have habove := hrange (max (ub + 1) n) ⟨?_, Bound.le_posInf _⟩
      · omega
      · exact Bound.le_trans hmem.1 (Bound.fin_le_fin.mpr (by omega))
  · cases hmem.1

end Interval

namespace TypeDomain

variable {V : Type} [LinearOrder V] {t : TypeDomain V} {τ : V → TypeEncoding} {v : V}

/-- Types whose interval leaves out `T_UNINIT` are known to be initialised. -/
theorem isInitialized_of_mayHaveType (h : t.mayHaveType v .uninit = false) (hτ : t.Models τ) :
    t.isInitialized v = true := by
  set c := LinearExpression.ne (.var v) (.const TypeEncoding.uninit.toInt) with hc
  have hsat : c.Sat fun v => (τ v).toInt := by
    rw [hc, LinearExpression.sat_ne, LinearExpression.eval_var, LinearExpression.eval_const]
    intro heq
    rw [← TypeEncoding.toInt_inj heq, hτ.mayHaveType] at h
    cases h
  unfold mayHaveType at h
  unfold Models at hτ
  obtain ⟨d, hd, hmodels⟩ := hτ
  obtain ⟨inv⟩ := t
  obtain rfl : inv = some d := hd
  -- the interval of the difference leaves out zero, as that of the type leaves out `T_UNINIT`
  have hterms : c.expression.variableTerms.entries = [(v, 1)] := rfl
  have hzero : ¬ (0 : ℤ) ∈ d.evalInterval c.expression := by
    have heval : d.evalInterval c.expression =
        (Interval.const (0 - TypeEncoding.uninit.toInt)).add
          ((Interval.const 1).mul (d.getInterval v)) := by
      unfold SplitDbm.evalInterval
      rw [hterms, List.foldl_cons, List.foldl_nil]
      rfl
    rw [heval]
    intro hmem
    have hvar := Interval.mem_const_one_mul (Interval.sub_mem_of_mem_const_add hmem)
    rw [sub_sub_cancel] at hvar
    have hcontains := Interval.contains_iff.mpr (SplitDbm.mem_evalInterval_var.mpr hvar)
    exact absurd (h.symm.trans hcontains) Bool.false_ne_true
  have hdecides : SplitDbm.entailInterval (d.evalInterval c.expression) c.kind = true := by
    refine Bool.or_eq_true_iff.mpr ?_
    refine (Interval.lt_or_lt_of_not_mem hzero).imp ?_ ?_
    · exact fun hlt => decide_eq_true hlt
    · exact fun hlt => decide_eq_true hlt
  show SplitDbm.entail d c = true
  unfold SplitDbm.entail
  have hnot : c.isContradiction = false := by
    cases hcontra : c.isContradiction with
    | true => exact absurd hsat (LinearConstraint.not_sat_of_isContradiction hcontra _)
    | false => rfl
  rw [hnot, hdecides, if_neg Bool.false_ne_true, if_pos rfl, ite_self]

/-- The types of a location that leaves out `T_UNINIT` are enumerated. -/
theorem exists_iterateTypes (ht : t.inv.WF) (h : t.mayHaveType v .uninit = false) (hτ : t.Models τ) :
    ∃ types, t.iterateTypes v = some types ∧ .uninit ∉ types ∧ ∀ τ', t.Models τ' → τ' v ∈ types := by
  have hinit := isInitialized_of_mayHaveType h hτ
  have hmem := AddBottom.mem_evalInterval hτ (.var v)
  rw [LinearExpression.eval_var] at hmem
  have hvalid := TypeEncoding.mem_valid.mpr (hτ.ne_uninit ht hinit)
  have hrange : TypeEncoding.mapPrograms.toInt ≤ (τ v).toInt ∧
      (τ v).toInt ≤ TypeEncoding.shared.toInt := by
    revert hvalid
    cases τ v <;> decide
  obtain ⟨l, u, hbound⟩ := Interval.exists_bound hmem hrange.1 hrange.2
  have htypes : t.iterateTypes v = some
      (TypeEncoding.valid.filter fun type => l ≤ type.toInt && type.toInt ≤ u) := by
    unfold iterateTypes
    unfold mayHaveType at h
    simp only [Interval.isBottom_eq_false_of_mem hmem, h, hbound]
    rfl
  have huninit : .uninit ∉ TypeEncoding.valid.filter fun type => l ≤ type.toInt && type.toInt ≤ u :=
    fun hin => TypeEncoding.mem_valid.mp (List.mem_filter.mp hin).1 rfl
  refine ⟨_, htypes, huninit, fun τ' hτ' => ?_⟩
  refine (mem_iterateTypes ht hτ' hinit htypes).resolve_right fun heq => huninit ?_
  rw [heq]
  exact List.mem_singleton_self _

end TypeDomain

namespace TypeToNumDomain

variable {V : Type} [LinearOrder V] {R : ProgramVariables V} {a b d : TypeToNumDomain V}
  {τ : V → TypeEncoding} {σ : V → ℤ} {r : Reg}

/-! ## States with a model -/

/-- A well-formed state whose values are bottom or have a model. -/
structure Proper (d : TypeToNumDomain V) : Prop where
  wf : d.WF
  sat : d.isBottom = false → ∃ σ, d.values.Models σ

theorem proper_bottom : (bottom : TypeToNumDomain V).Proper where
  wf := ⟨AddBottom.wf_top, AddBottom.wf_none⟩
  sat h := by cases h

/-- No interval of a state with a model is empty. -/
theorem Proper.savesValues (ha : a.Proper) (hb : b.Proper) (hba : a.isBottom = false)
    (hbb : b.isBottom = false) : SavesValues R.toVariableRegistry a b := by
  obtain ⟨σa, hσa⟩ := ha.sat hba
  obtain ⟨σb, hσb⟩ := hb.sat hbb
  rintro ⟨v, i⟩ he
  obtain ⟨u, -, e, -, -, kind, -, -, rfl, -⟩ := mem_collectTypeDependentConstraints.mp he
  split_ifs
  · exact Interval.isBottom_eq_false_of_mem (AddBottom.mem_evalInterval hσa _)
  · exact Interval.isBottom_eq_false_of_mem (AddBottom.mem_evalInterval hσb _)

theorem Proper.joined (ha : a.Proper) (hb : b.Proper) (hba : a.isBottom = false)
    (hbb : b.isBottom = false) : (joined R.toVariableRegistry a b).Proper := by
  refine ⟨⟨ha.wf.types.join hb.wf.types, wf_setAll (ha.wf.values.join hb.wf.values)⟩, fun _ => ?_⟩
  obtain ⟨σ, hσ⟩ := ha.sat hba
  obtain ⟨c, -, hc⟩ := exists_models_setAll (Q := fun _ => True) (ha.wf.values.join hb.wf.values)
    (AddBottom.models_join ha.wf.values hb.wf.values (Or.inl hσ)) (ha.savesValues hb hba hbb)
    fun _ _ _ => Or.inr trivial
  exact ⟨c, hc⟩

theorem Proper.join (ha : a.Proper) (hb : b.Proper) : (a.join R.toVariableRegistry b).Proper := by
  rw [join_eq]
  split_ifs with hbb hba hba
  · exact hb
  · exact ha
  · exact hb.joined hb (by simpa using hbb) (by simpa using hbb)
  · exact ha.joined hb (by simpa using hba) (by simpa using hbb)

/-- The join of two states with models covers both. -/
theorem Proper.models_join (ha : a.Proper) (hb : b.Proper)
    (h : a.Models R.toVariableRegistry τ σ ∨ b.Models R.toVariableRegistry τ σ) :
    (a.join R.toVariableRegistry b).Models R.toVariableRegistry τ σ := by
  have hempty : ∀ {c : TypeToNumDomain V}, c.isBottom = true → ¬ c.Models R.toVariableRegistry τ σ :=
    fun hbot hc => absurd (hbot.symm.trans (isBottom_of_models hc)) (by simp)
  rw [join_eq]
  split_ifs with hbb hba hba
  · exact h.resolve_left (hempty hba)
  · exact h.resolve_right (hempty hbb)
  · exact models_joined hb.wf hb.wf (savesValues_self _ b) (Or.inr (h.resolve_left (hempty hba)))
  · exact models_joined ha.wf hb.wf (ha.savesValues hb (by simpa using hba) (by simpa using hbb)) h

/-! ## The state in which the register has one type -/

/-- What forgetting a variable preserves holds of the values of the restriction. -/
theorem withType_induction {P : AddBottom V → Prop} {valid : List (TypeEncoding × List DataKind)}
    {type : TypeEncoding} (h : P d.values) (hstep : ∀ x v, P x → P (x.havoc v)) :
    P (d.withType R r valid type).values := by
  unfold withType havocKindsOf
  refine List.foldlRecOn (motive := P) _ _ h fun x hx e _ => ?_
  exact List.foldlRecOn (motive := P) _ _ hx fun y hy kind _ => hstep y _ hy

theorem models_havoc_self {x : AddBottom V} (hx : x.WF) (hσ : x.Models σ) (v : V) :
    (x.havoc v).Models σ := by
  have hhavoc := AddBottom.models_havoc hx hσ (v := v) (σ v)
  rwa [Function.update_eq_self] at hhavoc

theorem models_set_self {x : SplitDbm V} {v : V} {i : Interval} (hx : x.WF) (hσ : x.Models σ)
    (h : σ v ∈ i) : (x.set v i).Models σ := by
  have hset := SplitDbm.models_set (x := v) hx hσ h
  rwa [Function.update_eq_self] at hset

/-- The restriction keeps the concrete states with the type. -/
theorem models_withType {valid : List (TypeEncoding × List DataKind)} (hd : d.WF)
    (hτσ : d.Models R.toVariableRegistry τ σ) :
    (d.withType R r valid (τ (R.regType r))).Models R.toVariableRegistry τ σ := by
  obtain ⟨hτ, σ', hagree, hσ'⟩ := hτσ
  refine ⟨AddBottom.models_addConstraint hd.types hτ (SplitDbm.unitDisequation_of_ne ?_) ?_,
    σ', hagree, ?_⟩
  · exact fun hkind => by cases hkind
  · rw [TypeDomain.typeIs, LinearExpression.sat_eq, LinearExpression.eval_var,
      LinearExpression.eval_const]
  · refine (withType_induction (P := fun x => x.WF ∧ x.Models σ') ⟨hd.values, hσ'⟩ ?_).2
    exact fun x v hx => ⟨hx.1.havoc v, models_havoc_self hx.1 hx.2 v⟩

theorem Proper.withType {valid : List (TypeEncoding × List DataKind)} (hd : d.Proper)
    (type : TypeEncoding) : (d.withType R r valid type).Proper := by
  have hvalues := @withType_induction _ _ R d r
    (fun x => x.WF ∧ (x.isBottom = false → ∃ σ, x.Models σ)) valid type ⟨hd.wf.values, hd.sat⟩ ?_
  · exact ⟨⟨hd.wf.types.addConstraint _, hvalues.1⟩, hvalues.2⟩
  · intro x v hx
    refine ⟨hx.1.havoc v, fun hbot => ?_⟩
    cases x with
    | none => cases hbot
    | some a =>
      obtain ⟨σ, hσ⟩ := hx.2 rfl
      exact ⟨σ, models_havoc_self hx.1 hσ v⟩

/-- The state restricted to a type of the register: what belongs to the other enumerated types is
forgotten. -/
def restrictedTo (R : ProgramVariables V) (d : TypeToNumDomain V) (r : Reg) (type : TypeEncoding) :
    TypeToNumDomain V :=
  let types := (d.types.iterateTypes (R.regType r)).getD []
  d.withType R r (types.filterMap fun type => type.kinds.map (type, ·)) type

variable {S : Type} {f : TypeEncoding → StateT S Option (TypeToNumDomain V)}
  {transition : TypeToNumDomain V → TypeEncoding → StateT S Option (TypeToNumDomain V)}

/-- Only `T_UNINIT` has no kinds. -/
theorem mapM_kinds {types : List TypeEncoding} {valid : List (TypeEncoding × List DataKind)}
    {s s' : S} :
    (types.mapM fun type => do return (type, ← type.kinds) : StateT S Option _) s = some (valid, s') ↔
      .uninit ∉ types ∧ valid = (types.filterMap fun type => type.kinds.map (type, ·)) ∧ s = s' := by
  induction types generalizing valid with
  | nil =>
    refine ⟨fun h => ?_, ?_⟩
    · obtain ⟨rfl, rfl⟩ := Prod.mk.inj (Option.some.inj h)
      exact ⟨List.not_mem_nil, rfl, rfl⟩
    · rintro ⟨-, rfl, rfl⟩
      rfl
  | cons type types ih =>
    rw [List.mapM_cons]
    cases hkinds : type.kinds with
    | none =>
      have htype : type = .uninit := by
        revert hkinds
        cases type <;> decide
      exact iff_of_false (fun h => by cases h) fun h => h.1 (htype ▸ List.mem_cons_self ..)
    | some kinds =>
      have htype : type ≠ .uninit := by
        rintro rfl
        cases hkinds
      have hvalid : ((type :: types).filterMap fun type => type.kinds.map (type, ·)) =
          (type, kinds) :: types.filterMap fun type => type.kinds.map (type, ·) := by
        rw [List.filterMap_cons, hkinds]
        rfl
      rw [hvalid, List.mem_cons, not_or]
      constructor
      · intro h
        obtain ⟨entry, s₁, hentry, hbind⟩ := bind_eq_some.mp h
        obtain ⟨rest, s₂, hrest, hpure⟩ := bind_eq_some.mp hbind
        obtain ⟨rfl, rfl⟩ := Prod.mk.inj (Option.some.inj hentry)
        obtain ⟨rfl, rfl⟩ := Prod.mk.inj (Option.some.inj hpure)
        obtain ⟨hnot, rfl, rfl⟩ := ih.mp hrest
        exact ⟨⟨htype.symm, hnot⟩, rfl, rfl⟩
      · rintro ⟨⟨-, hnot⟩, rfl, rfl⟩
        exact bind_eq_some.mpr ⟨_, s, rfl, bind_eq_some.mpr ⟨_, s, ih.mpr ⟨hnot, rfl, rfl⟩, rfl⟩⟩

/-! ## The loop -/

/-- `b` admits what `a` admits. -/
def Below (R : VariableRegistry V) (a b : TypeToNumDomain V) : Prop :=
  ∀ τ σ, a.Models R τ σ → b.Models R τ σ

/-- The accumulator admits what it admitted before, and what the transition returned for each type. -/
theorem joinTypes_covers {types : List TypeEncoding} {acc d' : TypeToNumDomain V} {s s' : S}
    (hf : ∀ type ∈ types, Ensures (f type) Proper) (hacc : acc.Proper)
    (h : (types.foldlM (fun res type => do return res.join R.toVariableRegistry (← f type)) acc :
      StateT S Option _) s = some (d', s')) :
    d'.Proper ∧ Below R.toVariableRegistry acc d' ∧ ∀ type ∈ types, ∃ s₁ tmp s₂,
      f type s₁ = some (tmp, s₂) ∧ Below R.toVariableRegistry tmp d' := by
  induction types generalizing acc s with
  | nil =>
    obtain ⟨rfl, rfl⟩ := Prod.mk.inj (Option.some.inj h)
    exact ⟨hacc, fun _ _ hτσ => hτσ, fun type htype => absurd htype List.not_mem_nil⟩
  | cons type types ih =>
    rw [List.foldlM_cons] at h
    obtain ⟨acc₁, s₁, hstep, hrest⟩ := bind_eq_some.mp h
    obtain ⟨tmp, s₂, htmp, hjoin⟩ := bind_eq_some.mp hstep
    obtain ⟨rfl, rfl⟩ := Prod.mk.inj (Option.some.inj hjoin)
    have htmpProper := hf type (List.mem_cons_self ..) s tmp s₂ htmp
    obtain ⟨hproper, hbelow, hall⟩ := ih (fun t ht => hf t (List.mem_cons_of_mem _ ht))
      (hacc.join htmpProper) hrest
    refine ⟨hproper, fun τ σ hτσ => hbelow τ σ (hacc.models_join htmpProper (Or.inl hτσ)), ?_⟩
    intro t ht
    rcases List.mem_cons.mp ht with rfl | ht
    · exact ⟨s, tmp, s₂, htmp, fun τ σ hτσ => hbelow τ σ (hacc.models_join htmpProper (Or.inr hτσ))⟩
    · exact hall t ht

/-- The loop goes on as long as the transitions return. -/
theorem joinTypes_isSome {types : List TypeEncoding} {acc : TypeToNumDomain V}
    (hf : ∀ type s, (f type s).isSome = true) (s : S) :
    ((types.foldlM (fun res type => do return res.join R.toVariableRegistry (← f type)) acc :
      StateT S Option _) s).isSome = true := by
  induction types generalizing acc s with
  | nil => rfl
  | cons type types ih =>
    obtain ⟨⟨tmp, s₁⟩, htmp⟩ := Option.isSome_iff_exists.mp (hf type s)
    have hstep : (do return acc.join R.toVariableRegistry (← f type) : StateT S Option _) s =
        some (acc.join R.toVariableRegistry tmp, s₁) := bind_eq_some.mpr ⟨tmp, s₁, htmp, rfl⟩
    obtain ⟨⟨d', s'⟩, hres⟩ := Option.isSome_iff_exists.mp (ih s₁)
    rw [List.foldlM_cons]
    exact Option.isSome_iff_exists.mpr ⟨_, bind_eq_some.mpr ⟨_, s₁, hstep, hres⟩⟩

/-- For each type, the transition keeps up with `step` on the concrete states whose register has it. -/
def TransitionSound (R : ProgramVariables V) (r : Reg)
    (transition : TypeToNumDomain V → TypeEncoding → StateT S Option (TypeToNumDomain V))
    (step : (V → TypeEncoding) × (V → ℤ) → (V → TypeEncoding) × (V → ℤ) → Prop) : Prop :=
  ∀ rcp type s tmp s', transition rcp type s = some (tmp, s') → ∀ c c', c.1 (R.regType r) = type →
    rcp.Models R.toVariableRegistry c.1 c.2 → step c c' → tmp.Models R.toVariableRegistry c'.1 c'.2

/-- `d'` covers the transitions from `d` for all types that the register may have. -/
structure CoversTypes (R : ProgramVariables V) (d : TypeToNumDomain V) (r : Reg)
    (transition : TypeToNumDomain V → TypeEncoding → StateT S Option (TypeToNumDomain V))
    (d' : TypeToNumDomain V) : Prop where
  union : ∀ τ σ, d.Models R.toVariableRegistry τ σ → ∃ s₁ tmp s₂,
    transition (restrictedTo R d r (τ (R.regType r))) (τ (R.regType r)) s₁ = some (tmp, s₂) ∧
      (restrictedTo R d r (τ (R.regType r))).Models R.toVariableRegistry τ σ ∧
        Below R.toVariableRegistry tmp d'
  noneLost : ∀ step, TransitionSound R r transition step → ∀ c c',
    d.Models R.toVariableRegistry c.1 c.2 → step c c' → d'.Models R.toVariableRegistry c'.1 c'.2

/-- A register that is known to be initialised is split without losing a concrete state. -/
theorem joinOverTypes_covers (hd : d.Proper)
    (htrans : ∀ rcp type, rcp.Proper → Ensures (transition rcp type) Proper) :
    (d.types.isInitialized (R.regType r) = false →
      joinOverTypes R d r transition = transition d .uninit) ∧
    (d.types.isInitialized (R.regType r) = true → ∀ s d' s',
      joinOverTypes R d r transition s = some (d', s') → d'.Proper ∧ CoversTypes R d r transition d') ∧
    ((∃ τ σ, d.Models R.toVariableRegistry τ σ) → d.types.mayHaveType (R.regType r) .uninit = false →
      (∀ rcp type s, (transition rcp type s).isSome = true) →
        ∀ s, (joinOverTypes R d r transition s).isSome = true) := by
  refine ⟨fun hinit => ?_, fun hinit s d' s' h => ?_, ?_⟩
  · unfold joinOverTypes
    rw [hinit]
    rfl
  · unfold joinOverTypes at h
    rw [hinit] at h
    obtain ⟨types, s₁, hlift, h⟩ := bind_eq_some.mp h
    obtain ⟨htypes, rfl⟩ := liftM_eq_some.mp hlift
    obtain ⟨valid, s₂, hvalid, h⟩ := bind_eq_some.mp h
    obtain ⟨huninit, hlist, rfl⟩ := mapM_kinds.mp hvalid
    have hwith : ∀ type, d.withType R r valid type = restrictedTo R d r type := by
      intro type
      unfold restrictedTo
      rw [htypes, hlist]
      rfl
    obtain ⟨hproper, -, hall⟩ := joinTypes_covers
      (fun type _ => htrans _ type (hd.withType type)) proper_bottom h
    have hunion : ∀ τ σ, d.Models R.toVariableRegistry τ σ → ∃ s₁ tmp s₂,
        transition (restrictedTo R d r (τ (R.regType r))) (τ (R.regType r)) s₁ = some (tmp, s₂) ∧
          (restrictedTo R d r (τ (R.regType r))).Models R.toVariableRegistry τ σ ∧
            Below R.toVariableRegistry tmp d' := by
      intro τ σ hτσ
      -- the type of the register is among the enumerated ones
      have hmem := (TypeDomain.mem_iterateTypes hd.wf.types hτσ.1 hinit htypes).resolve_right
        fun heq => huninit (by rw [heq]; exact List.mem_singleton_self _)
      obtain ⟨s₁, tmp, s₂, htmp, hbelow⟩ := hall _ hmem
      rw [hwith] at htmp
      exact ⟨s₁, tmp, s₂, htmp, models_withType hd.wf hτσ, hbelow⟩
    refine ⟨hproper, hunion, fun step hsound c c' hc hstep => ?_⟩
    obtain ⟨s₁, tmp, s₂, htmp, hrestricted, hbelow⟩ := hunion c.1 c.2 hc
    exact hbelow _ _ (hsound _ _ _ _ _ htmp c c' rfl hrestricted hstep)
  · rintro ⟨τ, σ, hτσ⟩ hmay htotal s
    obtain ⟨types, htypes, huninit, -⟩ := TypeDomain.exists_iterateTypes hd.wf.types hmay hτσ.1
    unfold joinOverTypes
    rw [TypeDomain.isInitialized_of_mayHaveType hmay hτσ.1]
    obtain ⟨⟨d', s'⟩, hres⟩ := Option.isSome_iff_exists.mp (@joinTypes_isSome _ _ R _
      (fun type => transition (restrictedTo R d r type) type) types bottom (fun _ _ => htotal _ _ _) s)
    refine Option.isSome_iff_exists.mpr ⟨(d', s'), bind_eq_some.mpr ⟨types, s,
      liftM_eq_some.mpr ⟨htypes, rfl⟩, bind_eq_some.mpr ⟨_, s, mapM_kinds.mpr ⟨huninit, rfl, rfl⟩, ?_⟩⟩⟩
    unfold restrictedTo at hres
    rw [htypes] at hres
    exact hres

/-- A register with a number or a pointer to the context. -/
def numOrCtx : TypeToNumDomain ProgramVariables.Name :=
  ⟨⟨some (SplitDbm.top.set ((ProgramVariables.named []).regType 1) (.ofInts (-4) (-3)))⟩,
    AddBottom.top⟩

theorem joinOverTypes_covers_numOrCtx : ∃ d', joinOverTypes (.named []) numOrCtx 1
    (fun rcp _ => pure rcp) () = some (d', ()) ∧
      CoversTypes (.named []) numOrCtx 1 (fun rcp _ => (pure rcp : StateT Unit Option _)) d' := by
  have hproper : numOrCtx.Proper := by
    refine ⟨⟨AddBottom.wf_some.mpr (SplitDbm.wf_set SplitDbm.wf_top _ _),
      AddBottom.wf_some.mpr SplitDbm.wf_top⟩, fun _ => ⟨fun _ => 0, ?_⟩⟩
    exact AddBottom.models_some.mpr (SplitDbm.models_top _)
  have hmodels : numOrCtx.Models (ProgramVariables.named []).toVariableRegistry (fun _ => .num)
      fun _ => 0 := by
    refine ⟨AddBottom.models_some.mpr ?_, fun _ => 0, fun _ _ => rfl,
      AddBottom.models_some.mpr (SplitDbm.models_top _)⟩
    exact models_set_self SplitDbm.wf_top (SplitDbm.models_top _) (Interval.mem_ofInts.mpr (by decide))
  obtain ⟨-, hcovers, hreturns⟩ := @joinOverTypes_covers _ _ (.named []) numOrCtx 1 Unit
    (fun rcp _ => pure rcp) hproper fun rcp _ hrcp => Ensures.pure hrcp
  have hsome := hreturns ⟨_, _, hmodels⟩ (by decide) (fun _ _ _ => rfl) ()
  obtain ⟨⟨d', s'⟩, hd'⟩ := Option.isSome_iff_exists.mp hsome
  exact ⟨d', hd', (hcovers (by decide) () d' s' hd').2⟩

/-- A transition that has nothing to do for a register that is not initialised. -/
def rejectUninit {V : Type} [LinearOrder V] (rcp : TypeToNumDomain V) (type : TypeEncoding) :
    StateT Unit Option (TypeToNumDomain V) := pure (if type = .uninit then bottom else rcp)

/-- A register that may have any type is not split: its numbers are lost. -/
theorem not_coversTypes_rejectUninit :
    joinOverTypes (.named []) top 1 rejectUninit () = some (bottom, ()) ∧
      ¬ CoversTypes (.named []) top 1 rejectUninit bottom := by
  have hinit : (top : TypeToNumDomain ProgramVariables.Name).types.isInitialized
      ((ProgramVariables.named []).regType 1) = false := by decide
  constructor
  · unfold joinOverTypes
    rw [hinit]
    rfl
  · intro h
    have hlost := h.noneLost
      (fun c c' => c = c' ∧ c.1 ((ProgramVariables.named []).regType 1) ≠ .uninit)
      ?_ (fun _ => .num, fun _ => 0) (fun _ => .num, fun _ => 0) ?_ ⟨rfl, by decide⟩
    · exact absurd (isBottom_of_models hlost) (by decide)
    · rintro rcp type s tmp s' htmp c _ rfl hc ⟨rfl, hne⟩
      unfold rejectUninit at htmp
      rw [if_neg hne] at htmp
      obtain ⟨rfl, -⟩ := Prod.mk.inj (Option.some.inj htmp)
      exact hc
    · exact ⟨AddBottom.models_some.mpr (SplitDbm.models_top _), fun _ => 0, fun _ _ => rfl,
        AddBottom.models_some.mpr (SplitDbm.models_top _)⟩

end TypeToNumDomain

end Prevail
