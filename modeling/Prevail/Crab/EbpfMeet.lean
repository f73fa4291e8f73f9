import Prevail.Crab.EbpfDomain
import Prevail.Crab.SplitDbmMeet

/-!
# Meet and narrowing of the whole domain

A meet puts the numeric constraints of both operands together, those on kind variables of types
that the locations do not have included. Two such constraints can contradict each other, or
together relate variables with a meaning. The meet keeps all common states exactly when this does
not happen: when paths over constraints of both zones say no more about the variables with a meaning
than paths that change zones at these variables only (`Unmixed`, `meetSound_iff`). Narrowing keeps
the left operand, and is sound when the inclusion it relies on is.
-/

namespace Prevail

open DiffSys

namespace AddBottom

variable {V : Type*} [LinearOrder V] {x y : AddBottom V} {σ : V → ℤ}

/-- The meet of the zones, if there are two, settles. -/
def Settled (x y : AddBottom V) : Prop := ∀ a ∈ x, ∀ b ∈ y, SplitDbm.Settled a b

theorem models_of_meet (hx : x.WF) (hy : y.WF) (h : (x.meet y).Models σ) :
    x.Models σ ∧ y.Models σ := by
  obtain ⟨d, hd, hσ⟩ := h
  cases x with
  | none => cases hd
  | some a =>
    cases y with
    | none => cases hd
    | some b =>
      rw [models_some, models_some]
      exact (SplitDbm.models_meet (wf_some.mp hx) (wf_some.mp hy) hd).mp hσ

theorem models_meet (hx : x.WF) (hy : y.WF) (hsettled : Settled x y) (h : x.Models σ)
    (h' : y.Models σ) : (x.meet y).Models σ := by
  obtain ⟨a, rfl, ha⟩ := h
  obtain ⟨b, rfl, hb⟩ := h'
  have hsome := SplitDbm.isSome_meet_of_settled (wf_some.mp hx) (wf_some.mp hy)
    (hsettled a rfl b rfl) ⟨σ, ha, hb⟩
  obtain ⟨d, hd⟩ := Option.isSome_iff_exists.mp hsome
  exact ⟨d, hd, (SplitDbm.models_meet (wf_some.mp hx) (wf_some.mp hy) hd).mpr ⟨ha, hb⟩⟩

end AddBottom

namespace TypeToNumDomain

variable {V : Type*} [LinearOrder V] {R : VariableRegistry V} {τ : V → TypeEncoding}
  {σ σ' : V → ℤ} {x y : AddBottom V} {a b : SplitDbm V}

/-- What both zones say together about the variables with a meaning, they say without combining
constraints of both at a variable that has none. -/
def Unmixed (R : VariableRegistry V) (τ : V → TypeEncoding) (x y : AddBottom V) : Prop :=
  ∀ a ∈ x, ∀ b ∈ y, DiffSys.Unmixed a.csts b.csts (meaningful R τ)

/-- The valuations that agree with a model are the solutions of the shadow. -/
theorem sat_shadow_iff_agree (ha : a.WF) : Sat (shadow a.csts (meaningful R τ)) (SplitDbm.ext σ) ↔
    ∃ σ', Agree R τ σ σ' ∧ a.Models σ' := by
  rw [sat_shadow_iff (SplitDbm.finite_csts ha) none_mem_meaningful]
  constructor
  · rintro ⟨ψ, hψ, heq⟩
    have hbase : ψ none = 0 := heq none none_mem_meaningful
    refine ⟨_, (agree_iff hbase).mpr heq, (SplitDbm.models_iff ha).mpr ?_⟩
    rwa [ext_of_base hbase]
  · rintro ⟨σ', hagree, hσ'⟩
    exact ⟨SplitDbm.ext σ', (SplitDbm.models_iff ha).mp hσ', (agree_iff rfl).mp hagree⟩

/-- Zones do not mix exactly when valuations that agree with a model of each can be merged. -/
theorem unmixed_iff_merge {ρ ρ' : V → ℤ} (ha : a.WF) (hb : b.WF) (hρ : a.Models ρ)
    (hρ' : b.Models ρ') : DiffSys.Unmixed a.csts b.csts (meaningful R τ) ↔
      ∀ σ, (∃ σ', Agree R τ σ σ' ∧ a.Models σ') → (∃ σ', Agree R τ σ σ' ∧ b.Models σ') →
        ∃ σ', Agree R τ σ σ' ∧ a.Models σ' ∧ b.Models σ' := by
  rw [unmixed_iff (SplitDbm.finite_csts ha) (SplitDbm.finite_csts hb)
    ((SplitDbm.models_iff ha).mp hρ) ((SplitDbm.models_iff hb).mp hρ')]
  constructor
  · intro h σ hσa hσb
    obtain ⟨ψ, hψ, heq⟩ := h (SplitDbm.ext σ) ((sat_shadow_iff_agree ha).mpr hσa)
      ((sat_shadow_iff_agree hb).mpr hσb)
    have hbase : ψ none = 0 := heq none none_mem_meaningful
    refine ⟨_, (agree_iff hbase).mpr heq, ?_⟩
    rw [SplitDbm.models_iff ha, SplitDbm.models_iff hb, ext_of_base hbase]
    exact sat_and.mp hψ
  · intro h φ hφa hφb
    -- the valuation that has zero at zero
    have hbase : (fun u => φ u - φ none) none = 0 := sub_self _
    have hext := ext_of_base (ψ := fun u => φ u - φ none) hbase
    have hσa := hφa.sub_const (φ none)
    have hσb := hφb.sub_const (φ none)
    rw [← hext, sat_shadow_iff_agree ha] at hσa
    rw [← hext, sat_shadow_iff_agree hb] at hσb
    obtain ⟨σ', hagree, hma, hmb⟩ := h _ hσa hσb
    have hsat : Sat (a.csts.and b.csts) (SplitDbm.ext σ') :=
      sat_and.mpr ⟨(SplitDbm.models_iff ha).mp hma, (SplitDbm.models_iff hb).mp hmb⟩
    refine ⟨_, hsat.sub_const (-φ none), fun u hu => ?_⟩
    rw [(agree_iff (ψ := SplitDbm.ext σ') rfl).mp hagree u hu, congrFun hext u]
    omega

/-- Zones do not mix when no variable without a meaning is known to both. -/
theorem unmixed_of_unshared {ρ ρ' : V → ℤ} (ha : a.WF) (hb : b.WF) (hρ : a.Models ρ)
    (hρ' : b.Models ρ') (h : ∀ v, Meaningless R τ v →
      a.vertMap.find? v = none ∨ b.vertMap.find? v = none) :
    DiffSys.Unmixed a.csts b.csts (meaningful R τ) := by
  classical
  refine (unmixed_iff_merge ha hb hρ hρ').mpr ?_
  rintro σ ⟨σa, hagreea, hσa⟩ ⟨σb, hagreeb, hσb⟩
  -- the values of the zone that knows the variable
  let σ' : V → ℤ := fun v => if Meaningless R τ v ∧ a.vertMap.find? v = none then σb v else σa v
  refine ⟨σ', fun v hv => ?_, hσa.congr fun v n hv => ?_, hσb.congr fun v n hv => ?_⟩
  · simp only [σ', hv, false_and, if_false]
    exact hagreea v hv
  · simp only [σ', hv]
    simp
  · simp only [σ']
    split_ifs with hcond
    · rfl
    · by_cases hmean : Meaningless R τ v
      · rcases h v hmean with hnone | hnone
        · exact absurd ⟨hmean, hnone⟩ hcond
        · rw [hnone] at hv
          cases hv
      · exact (hagreea v hmean).symm.trans (hagreeb v hmean)

end TypeToNumDomain

namespace EbpfDomain

open TypeToNumDomain

variable {V : Type*} [LinearOrder V] {R : VariableRegistry V} {a b d : EbpfDomain V}

/-- A concrete state: the types of the locations, the values of the variables, and the stack bytes
that hold something other than a number. -/
structure State (V : Type*) where
  types : V → TypeEncoding
  values : V → ℤ
  nonNumerical : BitsetDomain

def Models (R : VariableRegistry V) (d : EbpfDomain V) (s : State V) : Prop :=
  d.rcp.Models R s.types s.values ∧ s.nonNumerical.le d.stack.numBytes = true

/-- The values of a narrowing are those of the left operand, unless it has no constraint. -/
theorem values_narrow {za zb : SplitDbm V} (hza : a.rcp.values = some za)
    (hzb : b.rcp.values = some zb) : (a.narrow b).rcp.values = some (if za.isTop then zb else za) := by
  show a.rcp.values.narrow b.rcp.values = _
  rw [hza, hzb]
  rfl

theorem models_narrow (ha : a.rcp.WF) (hb : b.rcp.WF) (hforget : Forgettable R b.rcp a.rcp)
    (hle : b.le R a = true) {s : State V} (h : b.Models R s) : (a.narrow b).Models R s := by
  obtain ⟨hrcp, hstack⟩ := h
  unfold le at hle
  split_ifs at hle with hbytes
  have hbytes : b.stack.le a.stack = true := by simpa using hbytes
  obtain ⟨hτa, σa, hagreea, hσa⟩ := TypeToNumDomain.models_of_le hb ha hforget hle hrcp
  obtain ⟨hτb, σb, hagreeb, hσb⟩ := hrcp
  refine ⟨⟨AddBottom.models_narrow hτa hτb, ?_⟩,
    BitsetDomain.le_meet (BitsetDomain.le_trans hstack hbytes) hstack⟩
  obtain ⟨za, hza, hσa⟩ := hσa
  obtain ⟨zb, hzb, hσb⟩ := hσb
  rw [values_narrow hza hzb]
  simp only [AddBottom.models_some]
  split_ifs
  · exact ⟨σb, hagreeb, hσb⟩
  · exact ⟨σa, hagreea, hσa⟩

/-- The state in which no byte of the stack holds anything but numbers is admitted when its types
and values are. -/
theorem models_of_rcp {τ : V → TypeEncoding} {σ : V → ℤ} (h : d.rcp.Models R τ σ) :
    d.Models R ⟨τ, σ, ⟨0⟩⟩ :=
  ⟨h, BitsetDomain.le_iff.mpr fun i hi => by simp at hi⟩

/-- A narrowing that is sound loses nothing with the variables that the inclusion forgets. -/
theorem forgettable_of_narrow (ha : a.rcp.WF) (hb : b.rcp.WF) (hle : b.le R a = true)
    (h : ∀ s, b.Models R s → (a.narrow b).Models R s) : Forgettable R b.rcp a.rcp := by
  cases hza : a.rcp.values with
  | none =>
    intro _ _ _ _ y hy
    rw [hza] at hy
    cases hy
  | some za =>
    cases htop : za.isTop with
    | true =>
      intro _ _ _ _ y hy
      rw [hza] at hy
      cases hy
      exact kept_of_no_constraints fun s d w hw => SplitDbm.not_csts_of_isTop htop hw
    | false =>
      refine forgettable_of_models hb ha fun τ σ hτσ => ?_
      have hτ : a.rcp.types.Models τ := by
        unfold le at hle
        split_ifs at hle
        exact AddBottom.models_of_le hb.types ha.types (types_le_of_le hle (isBottom_of_models hτσ))
          hτσ.1
      obtain ⟨-, σb, -, zb, hzb, -⟩ := id hτσ
      obtain ⟨⟨-, σ', hagree, hσ'⟩, -⟩ := h _ (models_of_rcp hτσ)
      rw [values_narrow hza hzb, htop] at hσ'
      refine ⟨hτ, σ', hagree, ?_⟩
      rw [hza]
      exact hσ'

/-- `from_constraints` admits the states that satisfy the constraints. -/
theorem models_fromConstraints {s : State V} {typeCsts valueCsts : List (LinearConstraint V)}
    (ht : ∀ c ∈ typeCsts, SplitDbm.UnitDisequation c ∧ c.Sat fun v => (s.types v).toInt)
    {ρ : V → ℤ} (hagree : Agree R s.types s.values ρ)
    (hv : ∀ c ∈ valueCsts, SplitDbm.UnitDisequation c ∧ c.Sat ρ) :
    (fromConstraints typeCsts valueCsts).Models R s := by
  let Inv : EbpfDomain V → Prop := fun d => d.rcp.WF ∧ d.stack = .top ∧
    d.rcp.types.Models s.types ∧ d.rcp.values.Models ρ
  have htop : Inv top :=
    ⟨⟨AddBottom.wf_some.mpr SplitDbm.wf_top, AddBottom.wf_some.mpr SplitDbm.wf_top⟩, rfl,
      AddBottom.models_some.mpr (SplitDbm.models_top _),
      AddBottom.models_some.mpr (SplitDbm.models_top _)⟩
  have htypes : Inv (typeCsts.foldl addTypeConstraint top) :=
    List.foldlRecOn (motive := Inv) _ _ htop fun d ⟨hwf, hstack, hτ, hσ⟩ c hc =>
      ⟨⟨hwf.types.addConstraint c, hwf.values⟩, hstack,
        AddBottom.models_addConstraint hwf.types hτ (ht c hc).1 (ht c hc).2, hσ⟩
  obtain ⟨-, hstack, hτ, hσ⟩ : Inv (fromConstraints typeCsts valueCsts) :=
    List.foldlRecOn (motive := Inv) _ _ htypes fun d ⟨hwf, hstack, hτ, hσ⟩ c hc =>
      ⟨⟨hwf.types, hwf.values.addConstraint c⟩, hstack, hτ,
        AddBottom.models_addConstraint hwf.values hσ (hv c hc).1 (hv c hc).2⟩
  refine ⟨⟨hτ, ρ, hagree, hσ⟩, ?_⟩
  rw [hstack]
  exact BitsetDomain.le_iff.mpr fun i hi => by
    have hlt := BitVec.lt_of_getLsbD hi
    simp [ArrayDomain.top, BitsetDomain.top, hlt]

/-- Meet and narrowing keep the concrete states that they must keep. -/
structure MeetSound (R : VariableRegistry V) (a b : EbpfDomain V) : Prop where
  meet : ∀ s, a.Models R s → b.Models R s → (a.meet b).Models R s
  narrow : b.le R a = true → ∀ s, b.Models R s → (a.narrow b).Models R s

/-- No meet of zones runs into the early end of the search for a potential. -/
structure Settled (a b : EbpfDomain V) : Prop where
  types : AddBottom.Settled a.rcp.types.inv b.rcp.types.inv
  values : AddBottom.Settled a.rcp.values b.rcp.values

/-- What a meet admits comes from common models of the numeric parts. -/
theorem exists_values_of_models_meet (ha : a.rcp.WF) (hb : b.rcp.WF) {s : State V}
    (h : (a.meet b).Models R s) : ∃ σ', Agree R s.types s.values σ' ∧
      a.rcp.values.Models σ' ∧ b.rcp.values.Models σ' := by
  obtain ⟨hrcp, -⟩ := h
  have hnotbot := isBottom_of_models hrcp
  obtain ⟨-, σ', hagree, hσ'⟩ := hrcp
  unfold meet at hnotbot hσ'
  simp only at hnotbot hσ'
  split_ifs at hnotbot hσ' with hbot
  · unfold TypeToNumDomain.meet at hσ'
    split at hσ'
    · exact ⟨σ', hagree, AddBottom.models_of_meet ha.values hb.values hσ'⟩
    · exact absurd hσ' AddBottom.not_models_none
  · exact absurd hσ' AddBottom.not_models_none

theorem models_meet (ha : a.rcp.WF) (hb : b.rcp.WF) (hsettled : Settled a b) {s : State V}
    (hunmixed : Unmixed R s.types a.rcp.values b.rcp.values) (hsa : a.Models R s)
    (hsb : b.Models R s) : (a.meet b).Models R s := by
  obtain ⟨⟨hτa, σa, hagreea, za, hza, hσa⟩, hbytesa⟩ := hsa
  obtain ⟨⟨hτb, σb, hagreeb, zb, hzb, hσb⟩, hbytesb⟩ := hsb
  have hτ : (a.rcp.types.inv.meet b.rcp.types.inv).Models fun v => (s.types v).toInt :=
    AddBottom.models_meet ha.types hb.types hsettled.types hτa hτb
  obtain ⟨σ', hagree, hσa', hσb'⟩ :=
    (unmixed_iff_merge (ha.values za hza) (hb.values zb hzb) hσa hσb).mp
      (hunmixed za hza zb hzb) s.values ⟨σa, hagreea, hσa⟩ ⟨σb, hagreeb, hσb⟩
  have hσ' : (a.rcp.values.meet b.rcp.values).Models σ' :=
    AddBottom.models_meet ha.values hb.values hsettled.values ⟨za, hza, hσa'⟩ ⟨zb, hzb, hσb'⟩
  have htypes : a.rcp.types.meet b.rcp.types =
      some ⟨a.rcp.types.inv.meet b.rcp.types.inv⟩ := by
    unfold TypeDomain.meet
    simp only
    rw [hτ.isBottom]
    rfl
  have hrcp : a.rcp.meet b.rcp = ⟨⟨a.rcp.types.inv.meet b.rcp.types.inv⟩,
      a.rcp.values.meet b.rcp.values⟩ := by
    unfold TypeToNumDomain.meet
    rw [htypes]
  have hmeet : a.meet b = ⟨a.rcp.meet b.rcp, a.stack.meet b.stack⟩ := by
    have hnot : (a.rcp.meet b.rcp).isBottom = false := by
      rw [hrcp]
      exact hσ'.isBottom
    unfold meet
    simp only
    rw [hnot]
    rfl
  rw [hmeet, hrcp]
  exact ⟨⟨hτ, σ', hagree, hσ'⟩, BitsetDomain.le_meet hbytesa hbytesb⟩

/-- On states with a common one, no type assignment of both lets their values mix. -/
def UnmixedWhenCommon (R : VariableRegistry V) (a b : EbpfDomain V) : Prop :=
  (∃ s, a.Models R s ∧ b.Models R s) → ∀ τ, a.rcp.types.Models τ → b.rcp.types.Models τ →
    Unmixed R τ a.rcp.values b.rcp.values

theorem unmixedWhenCommon_of_meet (ha : a.rcp.WF) (hb : b.rcp.WF)
    (h : ∀ s, a.Models R s → b.Models R s → (a.meet b).Models R s) : UnmixedWhenCommon R a b := by
  rintro ⟨s, ⟨⟨-, ρ, -, za, hza, hρ⟩, -⟩, ⟨⟨-, ρ', -, zb, hzb, hρ'⟩, -⟩⟩ τ hτa hτb za' hza' zb' hzb'
  obtain rfl := Option.some.inj (hza.symm.trans hza')
  obtain rfl := Option.some.inj (hzb.symm.trans hzb')
  refine (unmixed_iff_merge (ha.values za hza) (hb.values zb hzb) hρ hρ').mpr ?_
  rintro σ ⟨σa, hagreea, hσa⟩ ⟨σb, hagreeb, hσb⟩
  obtain ⟨σ', hagree, hσa', hσb'⟩ := exists_values_of_models_meet ha hb
    (h _ (models_of_rcp ⟨hτa, σa, hagreea, za, hza, hσa⟩)
      (models_of_rcp ⟨hτb, σb, hagreeb, zb, hzb, hσb⟩))
  rw [hza, AddBottom.models_some] at hσa'
  rw [hzb, AddBottom.models_some] at hσb'
  exact ⟨σ', hagree, hσa', hσb'⟩

/-- Meet and narrowing are sound only when no constraints combine at a variable without a meaning
and none are lost with a forgotten one; and they are when the meets of the zones settle besides. No
constraints are lost when the left values are in split normal form. -/
theorem meetSound_iff (ha : a.rcp.WF) (hb : b.rcp.WF) :
    (MeetSound R a b →
      UnmixedWhenCommon R a b ∧ (b.le R a = true → Forgettable R b.rcp a.rcp)) ∧
    (UnmixedWhenCommon R a b → ((∃ s, a.Models R s ∧ b.Models R s) → Settled a b) →
      (b.le R a = true → Forgettable R b.rcp a.rcp) → MeetSound R a b) ∧
    (a.rcp.values.NormalForm → Forgettable R b.rcp a.rcp) := by
  refine ⟨?_, ?_, forgettable_of_normalForm ha⟩
  · exact fun h => ⟨unmixedWhenCommon_of_meet ha hb h.meet,
      fun hle => forgettable_of_narrow ha hb hle (h.narrow hle)⟩
  · refine fun hunmixed hsettled hforget => ⟨fun s hsa hsb => ?_, fun hle s hs =>
      models_narrow ha hb (hforget hle) hle hs⟩
    have hcommon : ∃ s, a.Models R s ∧ b.Models R s := ⟨s, hsa, hsb⟩
    exact models_meet ha hb (hsettled hcommon) (hunmixed hcommon _ hsa.1.1 hsb.1.1) hsa hsb

/-- Two intervals of a signed value. -/
theorem meetSound_iff_intervals :
    MeetSound (.numbered 1) ⟨⟨.top, some (SplitDbm.top.set 1 (.ofInts 0 5))⟩, .top⟩
      ⟨⟨.top, some (SplitDbm.top.set 1 (.ofInts (-1) 3))⟩, .top⟩ := by
  have hwf : ∀ i, (⟨.top, some (SplitDbm.top.set 1 i)⟩ : TypeToNumDomain ℕ).WF := fun i =>
    ⟨AddBottom.wf_some.mpr SplitDbm.wf_top,
      AddBottom.wf_some.mpr (SplitDbm.wf_set SplitDbm.wf_top 1 i)⟩
  have hset : ∀ (i : Interval) (σ : ℕ → ℤ), σ 1 ∈ i → (SplitDbm.top.set 1 i).Models σ := by
    intro i σ h
    have hm := SplitDbm.models_set SplitDbm.wf_top (x := 1) (SplitDbm.models_top σ) h
    rwa [Function.update_eq_self] at hm
  have hwarm : SplitDbm.warmStart (SplitDbm.top.set 1 (.ofInts 0 5))
      (SplitDbm.top.set 1 (.ofInts (-1) 3)) 1 = 0 := by decide
  have hunshared : ∀ τ v, Meaningless (.numbered 1) τ v →
      (SplitDbm.top.set 1 (.ofInts 0 5)).vertMap.find? v = none := by
    rintro τ v ⟨u, -, e, he, -, kind, hkind, rfl⟩
    have hkinds : ∀ e ∈ typeToKinds, ∀ kind ∈ e.2, 3 ≤ kind.index := by decide
    have hkeys : ∀ e ∈ (SplitDbm.top.set 1 (.ofInts 0 5)).vertMap.entries, e.1 = 1 := by decide
    rw [Option.eq_none_iff_forall_ne_some]
    intro n hn
    have hkey : u / 11 * 11 + kind.index = 1 := hkeys _ (OrdMap.mem_entries.mpr hn)
    have hindex := hkinds e he kind hkind
    omega
  have hsettled : EbpfDomain.Settled ⟨⟨.top, some (SplitDbm.top.set 1 (.ofInts 0 5))⟩, .top⟩
      ⟨⟨.top, some (SplitDbm.top.set 1 (.ofInts (-1) 3))⟩, .top⟩ := by
    constructor
    · rintro _ ⟨⟩ _ ⟨⟩
      exact Or.inl rfl
    · rintro _ ⟨⟩ _ ⟨⟩
      exact Or.inr (Or.inr fun _ => SplitDbm.noSpill_of_models (SplitDbm.wf_set SplitDbm.wf_top _ _)
        (SplitDbm.wf_set SplitDbm.wf_top _ _) (hset _ _ (by simp [hwarm])) (hset _ _ (by simp [hwarm])))
  refine (meetSound_iff (hwf _) (hwf _)).2.1 (fun _ τ _ _ => ?_) (fun _ => hsettled) fun _ =>
    forgettable_of_normalForm (hwf _) ?_
  · rintro _ ⟨⟩ _ ⟨⟩
    exact unmixed_of_unshared (SplitDbm.wf_set SplitDbm.wf_top _ _)
      (SplitDbm.wf_set SplitDbm.wf_top _ _) (hset _ (fun _ => 0) (by simp))
      (hset _ (fun _ => 0) (by simp)) fun v hv => Or.inl (hunshared τ v hv)
  · rintro d ⟨⟩
    exact SplitDbm.normalForm_of_entries (by decide) (by decide)

/-- A number, with two different packet offsets left over. -/
theorem meet_loses_state :
    ¬ MeetSound (.numbered 1)
      (fromConstraints [(LinearExpression.var 0).eq (.const (-4))]
        [(LinearExpression.var 6).eq (.const 5)])
      (fromConstraints [(LinearExpression.var 0).eq (.const (-4))]
        [(LinearExpression.var 6).eq (.const 7)]) := by
  intro h
  let s : State ℕ := ⟨fun _ => .num, fun _ => 0, .top⟩
  have hmodels : ∀ n : ℤ, (fromConstraints [(LinearExpression.var 0).eq (.const (-4))]
      [(LinearExpression.var 6).eq (.const n)]).Models (.numbered 1) s := by
    intro n
    refine models_fromConstraints (ρ := Function.update (fun _ => 0) 6 n) ?_ (fun v hv => ?_) ?_
    · simp only [List.mem_singleton, forall_eq]
      refine ⟨fun h => (by cases h), LinearExpression.sat_eq.mpr ?_⟩
      rw [LinearExpression.eval_var, LinearExpression.eval_const]
      rfl
    · refine (Function.update_of_ne ?_ _ _).symm
      rintro rfl
      exact hv ⟨0, by decide, (.packet, [.packetOffsets]), by decide, by decide, .packetOffsets,
        by decide, by decide⟩
    · simp only [List.mem_singleton, forall_eq]
      refine ⟨fun h => (by cases h), LinearExpression.sat_eq.mpr ?_⟩
      rw [LinearExpression.eval_var, LinearExpression.eval_const, Function.update_self]
  have hbot := isBottom_of_models (h.meet s (hmodels 5) (hmodels 7)).1
  revert hbot
  decide

end EbpfDomain

end Prevail
