import Prevail.Crab.TypedRegisters
import Prevail.Crab.Untouched

/-!
# Joining over the types of a register

A transition that is carried out for each type of a register leaves the types as they may be, and
touches no more than the transition and the kind variables of the register: those of the other types
are forgotten for each type.
-/

namespace Prevail

open StateT AddBottom

namespace TypeDomain

variable {V : Type} [LinearOrder V] {t : TypeDomain V} {τ : V → TypeEncoding} {v : V}

theorem Models.ne_uninit (ht : t.inv.WF) (h : t.Models τ) (hinit : t.isInitialized v = true) :
    τ v ≠ .uninit := by
  have hsat := sat_of_entail ht hinit h
  rw [LinearExpression.sat_ne, LinearExpression.eval_var, LinearExpression.eval_const] at hsat
  exact fun heq => hsat (congrArg TypeEncoding.toInt heq)

theorem mem_bound {i : Interval} {lb ub l u n : ℤ} (h : i.bound lb ub = some (l, u)) (hn : n ∈ i)
    (hlb : lb ≤ n) (hub : n ≤ ub) : l ≤ n ∧ n ≤ u := by
  have hmem : n ∈ (Interval.ofInts lb ub).meet i :=
    Interval.mem_meet.mpr ⟨Interval.mem_ofInts.mpr ⟨hlb, hub⟩, hn⟩
  unfold Interval.bound at h
  simp only [Interval.isBottom_eq_false_of_mem hmem, Bool.false_eq_true, if_false] at h
  obtain ⟨l', hl, h⟩ := Option.bind_eq_some_iff.mp h
  obtain ⟨u', hu, h⟩ := Option.bind_eq_some_iff.mp h
  obtain ⟨rfl, rfl⟩ := Prod.mk.inj (Option.some.inj h)
  obtain ⟨hl', hu'⟩ := hmem
  cases hlb : ((Interval.ofInts lb ub).meet i).lb <;> rw [hlb] at hl hl' <;> cases hl
  cases hub : ((Interval.ofInts lb ub).meet i).ub <;> rw [hub] at hu hu' <;> cases hu
  exact ⟨hl', hu'⟩

/-- A type that the location may have is enumerated. -/
theorem mem_iterateTypes_of_ne {l : List TypeEncoding} (h : t.Models τ) (hne : τ v ≠ .uninit)
    (hl : t.iterateTypes v = some l) : τ v ∈ l ∨ l = [.uninit] := by
  have hmem := AddBottom.mem_evalInterval h (.var v)
  rw [LinearExpression.eval_var] at hmem
  unfold iterateTypes at hl
  simp only [Interval.isBottom_eq_false_of_mem hmem, Bool.false_eq_true, if_false] at hl
  split_ifs at hl with huninit
  · exact Or.inr (Option.some.inj hl).symm
  · obtain ⟨⟨lb, ub⟩, hbound, hl⟩ := Option.bind_eq_some_iff.mp hl
    obtain rfl := Option.some.inj hl
    have hvalid := TypeEncoding.mem_valid.mpr hne
    have hrange : TypeEncoding.mapPrograms.toInt ≤ (τ v).toInt ∧
        (τ v).toInt ≤ TypeEncoding.shared.toInt := by
      revert hvalid
      cases τ v <;> decide
    obtain ⟨hl, hu⟩ := mem_bound hbound hmem hrange.1 hrange.2
    exact Or.inl (List.mem_filter.mpr ⟨hvalid, by simp [hl, hu]⟩)

/-- The types that are enumerated are all that the location may have. -/
theorem mem_iterateTypes {l : List TypeEncoding} (ht : t.inv.WF) (h : t.Models τ)
    (hinit : t.isInitialized v = true) (hl : t.iterateTypes v = some l) :
    τ v ∈ l ∨ l = [.uninit] :=
  mem_iterateTypes_of_ne h (h.ne_uninit ht hinit) hl

end TypeDomain

namespace TypeToNumDomain

variable {V : Type} [LinearOrder V] {R : ProgramVariables V} {a b d : TypeToNumDomain V}
  {K : V → Prop} {x : AddBottom V} {τ : V → TypeEncoding} {v : V} {r : Reg}

theorem havocKindsOf_untouched {y : AddBottom V} (h : Untouched K x y) (kinds : List DataKind)
    (hK : ∀ kind ∈ kinds, K (R.kindVar kind v)) : Untouched K x (havocKindsOf R y v kinds) :=
  h.foldl fun kind hkind _ hz => hz.havoc (hK kind hkind)

theorem wf_setAll {l : List (V × Interval)} (hx : x.WF) : (setAll x l).WF :=
  List.foldlRecOn (motive := AddBottom.WF) l _ hx fun _ hy e _ => hy.set e.1 e.2

theorem models_setAll_top {l : List (V × Interval)} {σ : V → ℤ}
    (h : ∀ e ∈ l, e.2.contains (σ e.1) = true) : (setAll AddBottom.top l).Models σ :=
  models_setAll wf_top (models_some.mpr (SplitDbm.models_top σ))
    (fun e he => Interval.contains_iff.mp (h e he)) fun _ _ => rfl

/-- The values are those of `x` up to the variables in `K`. -/
structure From (K : V → Prop) (x : AddBottom V) (d : TypeToNumDomain V) : Prop where
  types : d.types.inv.WF
  values : Untouched K x d.values

theorem From.not_isBottom (h : From K x d) {σ : V → ℤ} (hσ : x.Models σ) : d.isBottom = false := by
  obtain ⟨σ', hσ', -⟩ := h.values.models σ hσ
  exact hσ'.isBottom

theorem From.joined (ha : From K x a) (hb : From K x b) : From K x (joined R.toVariableRegistry a b) := by
  refine ⟨ha.types.join hb.types, ⟨wf_setAll (ha.values.wf.join hb.values.wf), fun σ hσ => ?_⟩⟩
  obtain ⟨σa, hσa, heqa⟩ := ha.values.models σ hσ
  obtain ⟨σb, hσb, heqb⟩ := hb.values.models σ hσ
  -- a saved interval comes from one of the operands
  have hsource : ∀ v i, Saved R.toVariableRegistry a b v i → σa v ∈ i ∨ σb v ∈ i := by
    rintro v i ⟨u, -, e, -, -, kind, -, -, rfl, -⟩
    split_ifs
    · have hmem := AddBottom.mem_evalInterval hσa (.var v)
      rw [LinearExpression.eval_var] at hmem
      exact Or.inl hmem
    · have hmem := AddBottom.mem_evalInterval hσb (.var v)
      rw [LinearExpression.eval_var] at hmem
      exact Or.inr hmem
  have hsaves : SavesValues R.toVariableRegistry a b := by
    rintro ⟨v, i⟩ he
    rcases hsource v i (mem_collectTypeDependentConstraints.mp he) with hmem | hmem
    · exact Interval.isBottom_eq_false_of_mem hmem
    · exact Interval.isBottom_eq_false_of_mem hmem
  obtain ⟨c, hc, hmodels⟩ := exists_models_setAll (Q := K) (ha.values.wf.join hb.values.wf)
    (AddBottom.models_join ha.values.wf hb.values.wf (Or.inl hσa)) hsaves fun v i hs => by
      by_cases hv : K v
      · exact Or.inr hv
      · left
        rcases hsource v i hs with hmem | hmem
        · exact hmem
        · rwa [heqa v hv, ← heqb v hv]
  exact ⟨c, hmodels, fun v hv => (hc v hv).symm.trans (heqa v hv)⟩

/-- The state after some of the types. -/
structure JoinedFrom (K : V → Prop) (x : AddBottom V) (τ : V → TypeEncoding) (type : TypeEncoding)
    (done : List TypeEncoding) (d : TypeToNumDomain V) : Prop where
  from_ : From K x d
  models : type ∈ done → d.types.Models τ

theorem JoinedFrom.join {type t : TypeEncoding} {done : List TypeEncoding} {σ : V → ℤ}
    (ha : JoinedFrom K x τ type done a) (hb : JoinedFrom K x τ type [t] b) (hσ : x.Models σ) :
    JoinedFrom K x τ type (done ++ [t]) (a.join R.toVariableRegistry b) := by
  rw [join_eq, ha.from_.not_isBottom hσ, hb.from_.not_isBottom hσ]
  simp only [Bool.false_eq_true, if_false]
  refine ⟨ha.from_.joined hb.from_, fun hmem => ?_⟩
  refine AddBottom.models_join ha.from_.types hb.from_.types ?_
  rcases List.mem_append.mp hmem with hmem | hmem
  · exact Or.inl (ha.models hmem)
  · exact Or.inr (hb.models hmem)

theorem JoinedFrom.bottom_join {type t : TypeEncoding} {σ : V → ℤ}
    (hb : JoinedFrom K x τ type [t] b) (hσ : x.Models σ) :
    JoinedFrom K x τ type [t] (bottom.join R.toVariableRegistry b) := by
  have hbot : (bottom : TypeToNumDomain V).isBottom = true := rfl
  rw [join_eq, hb.from_.not_isBottom hσ, hbot]
  simp only [Bool.false_eq_true, if_false, if_true]
  refine ⟨hb.from_.joined hb.from_, fun hmem => ?_⟩
  exact AddBottom.models_join hb.from_.types hb.from_.types (Or.inl (hb.models hmem))

variable {S : Type} {σ : V → ℤ}

/-- The loop over the types. -/
theorem joinTypes_ensures {type : TypeEncoding} {f : TypeEncoding → StateT S Option (TypeToNumDomain V)}
    {types done : List TypeEncoding} (hσ : x.Models σ)
    (hf : ∀ t ∈ types, Ensures (f t) (JoinedFrom K x τ type [t])) (ha : JoinedFrom K x τ type done a) :
    Ensures (types.foldlM (fun res t => do return res.join R.toVariableRegistry (← f t)) a)
      (JoinedFrom K x τ type (done ++ types)) := by
  induction types generalizing a done with
  | nil => exact Ensures.pure (by rwa [List.append_nil])
  | cons t types ih =>
    rw [List.foldlM_cons, List.append_cons]
    refine Ensures.bind ((hf t (List.mem_cons_self ..)).bind fun tmp htmp =>
      Ensures.pure (ha.join htmp hσ)) fun acc hacc => ih (fun u hu => ?_) hacc
    exact hf u (List.mem_cons_of_mem _ hu)

/-- What the transition does for each type is done for the type that the register has, and nothing
else is touched. -/
theorem joinOverTypes_ensures {transition : TypeToNumDomain V → TypeEncoding →
      StateT S Option (TypeToNumDomain V)} (hd : From K x d) (hτ : d.types.Models τ)
    (hσ : x.Models σ) (hK : ∀ kind, K (R.kindVar kind (R.regType r)))
    (htrans : ∀ rcp t, From K x rcp → Ensures (transition rcp t) fun rcp' =>
      rcp'.types = rcp.types ∧ Untouched K x rcp'.values) :
    Ensures (joinOverTypes R d r transition) fun d' => From K x d' ∧ d'.types.Models τ := by
  have htrans' : ∀ rcp t, From K x rcp → Ensures (transition rcp t) fun rcp' =>
      From K x rcp' ∧ (rcp.types.Models τ → rcp'.types.Models τ) := by
    intro rcp t hrcp
    refine (htrans rcp t hrcp).mono ?_
    rintro rcp' ⟨htypes, hvalues⟩
    exact ⟨⟨htypes ▸ hrcp.types, hvalues⟩, fun h => htypes ▸ h⟩
  unfold joinOverTypes
  split_ifs with hinit
  · exact (htrans' d .uninit hd).mono fun rcp' h => ⟨h.1, h.2 hτ⟩
  · have hinit : d.types.isInitialized (R.regType r) = true := by simpa using hinit
    refine Ensures.lift_bind fun types htypes => ?_
    -- there are no kinds of `T_UNINIT`
    refine Ensures.bind (Q := fun _ => types ≠ [.uninit]) ?_ fun valid hvalid => ?_
    · rintro s valid s' h rfl
      cases h
    have hmem : τ (R.regType r) ∈ types :=
      (TypeDomain.mem_iterateTypes hd.types hτ hinit htypes).resolve_right hvalid
    have hstep : ∀ t, Ensures (transition (d.withType R r valid t) t)
        (JoinedFrom K x τ (τ (R.regType r)) [t]) := by
      intro t
      have hwith : From K x (d.withType R r valid t) := by
        refine ⟨hd.types.addConstraint _, hd.values.foldl fun e _ y hy => ?_⟩
        exact havocKindsOf_untouched hy e.2 fun kind _ => hK kind
      refine (htrans' _ t hwith).mono fun rcp' h => ⟨h.1, fun heq => h.2 ?_⟩
      refine AddBottom.models_addConstraint hd.types hτ (SplitDbm.unitDisequation_of_ne ?_) ?_
      · exact fun hkind => by cases hkind
      · rw [TypeDomain.typeIs, LinearExpression.sat_eq, LinearExpression.eval_var,
          LinearExpression.eval_const, List.mem_singleton.mp heq]
    cases types with
    | nil => cases hmem
    | cons t types =>
      rw [List.foldlM_cons]
      refine Ensures.bind ((hstep t).bind fun tmp htmp => Ensures.pure (htmp.bottom_join hσ))
        fun acc hacc => ?_
      exact (joinTypes_ensures hσ (fun t _ => hstep t) hacc).mono fun d' h => ⟨h.from_, h.models hmem⟩

end TypeToNumDomain

end Prevail
