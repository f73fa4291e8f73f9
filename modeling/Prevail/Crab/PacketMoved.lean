import Prevail.Crab.CallContract

/-!
# Calls that move the packet

A helper may move the packet, so that the pointers into it and what is known about its size are stale.
The call forgets each location that may hold such a pointer, its type and its values. So the state after
the call admits that the stale pointers are not initialized, which no check of an access allows, and it
admits each size of the new packet whatever the other values are.
-/

namespace Prevail

open AddBottom TypeToNumDomain EbpfTransformer StateT ProgramVariables

/-! ## Variables of which nothing is known -/

namespace AddBottom

variable {V : Type*} [LinearOrder V] {x y : AddBottom V} {S : Option V → Prop} {u v : V} {σ : V → ℤ}

/-- The variable is not in use. -/
def Free (x : AddBottom V) (v : V) : Prop := ∀ d ∈ x, d.vertMap.find? v = none

theorem free_havoc (hx : x.WF) (v : V) : (x.havoc v).Free v := by
  intro d hd
  obtain ⟨a, ha, rfl⟩ := Option.map_eq_some_iff.mp hd
  rw [SplitDbm.find?_havoc (hx a ha), if_pos rfl]

theorem Free.havoc (h : x.Free v) (hx : x.WF) (u : V) : (x.havoc u).Free v := by
  intro d hd
  obtain ⟨a, ha, rfl⟩ := Option.map_eq_some_iff.mp hd
  rw [SplitDbm.find?_havoc (hx a ha)]
  split_ifs
  · rfl
  · exact h a ha

theorem Free.havoc_eq (h : x.Free v) : x.havoc v = x := by
  cases x with
  | none => rfl
  | some d => exact congrArg some (SplitDbm.havoc_of_none (h d rfl))

theorem Free.mem_evalInterval (h : x.Free v) (hx : x.isBottom = false) (n : ℤ) :
    n ∈ x.evalInterval (.var v) := by
  cases x with
  | none => cases hx
  | some d =>
    refine SplitDbm.mem_evalInterval_var.mpr ?_
    unfold SplitDbm.getInterval
    rw [h d rfl]
    exact Interval.mem_top n

/-- A state that keeps what is known about the variables in use admits no more. -/
theorem Keeps.models (h : Keeps S x y) (h0 : S none) (hS : ∀ v, S (some v) ∨ x.Free v) (hx : x.WF)
    (hy : y.WF) (hσ : y.Models σ) : x.Models σ := by
  obtain ⟨b, hb, hσ⟩ := hσ
  obtain ⟨a, ha, hab⟩ := h b hb
  refine ⟨a, ha, hab.models (fun v m hv => ?_) (hx a ha) (hy b hb) hσ⟩
  cases v with
  | none => exact h0
  | some v =>
    refine (hS v).resolve_right fun hfree => ?_
    rw [SplitDbm.vertOf, hfree a ha] at hv
    cases hv

end AddBottom

variable {V : Type} [LinearOrder V] {R : ProgramVariables V} {info : ProgramInfo}
  {opts : VerifierOptions} {d d' e : EbpfDomain V} {rcp rcp' : TypeToNumDomain V} {c : CallInfo}
  {τ : V → TypeEncoding} {σ : V → ℤ} {u v : V} {type : TypeEncoding} {arrays arrays' : ArrayMap}
  {n m : ℤ}

/-! ## The packet -/

/-- Nothing relates the new packet to other variables. -/
theorem models_initializePacket_update (hd : d.rcp.WF)
    (hσ : (d.initializePacket R info).rcp.values.Models σ) (h : EbpfDomain.PacketRange info n m) :
    (d.initializePacket R info).rcp.values.Models
      (Function.update (Function.update σ R.packetSize n) R.metaOffset m) := by
  -- the packet of `d` can be forgotten first
  set x := (d.rcp.values.havoc R.packetSize).havoc R.metaOffset with hxdef
  have hx₁ := hd.values.havoc R.packetSize
  have hx : x.WF := hx₁.havoc _
  have hsize : x.Free R.packetSize := (free_havoc hd.values _).havoc hx₁ _
  have hmeta : x.Free R.metaOffset := free_havoc hx₁ _
  set d₀ : EbpfDomain V := { d with rcp := { d.rcp with values := x } } with hd₀
  have heq : d.initializePacket R info = d₀.initializePacket R info := by
    unfold EbpfDomain.initializePacket
    rw [hd₀]
    simp only
    rw [hsize.havoc_eq, hmeta.havoc_eq]
  rw [heq] at hσ ⊢
  have hwf₀ : d₀.rcp.WF := ⟨hd.types, hx⟩
  obtain ⟨hwf, hmodels⟩ := @EbpfDomain.spec_initializePacket _ _ R info _ hwf₀
  refine hmodels σ n m ?_ h
  refine (@EbpfDomain.keeps_initializePacket _ _ R info d₀ hx).models ?_ (fun v => ?_) hx hwf hσ
  · exact fun v hv => by cases hv
  · by_cases hv : R.Packet v
    · right
      rcases hv with rfl | rfl
      · exact hsize
      · exact hmeta
    · left
      intro u hu
      exact Option.some.inj hu ▸ hv

/-! ## The locations that point into the packet -/

/-- Nothing is known about the type of the location, or it is not this type. -/
def Forgot (t : TypeDomain V) (type : TypeEncoding) (v : V) : Prop :=
  t.inv.Free v ∨ t.mayHaveType v type = false

/-- The locations that have the type are not initialized any more. -/
def invalidate (locations : List V) (type : TypeEncoding) (τ : V → TypeEncoding) (v : V) :
    TypeEncoding :=
  if v ∈ locations ∧ τ v = type then .uninit else τ v

theorem invalidate_cons (v : V) (l : List V) (type : TypeEncoding) (τ : V → TypeEncoding) :
    invalidate (v :: l) type τ =
      invalidate l type (if τ v = type then Function.update τ v .uninit else τ) := by
  funext u
  unfold invalidate
  by_cases huv : u = v
  · subst huv
    split_ifs <;> simp_all
  · have hmem : u ∈ v :: l ↔ u ∈ l := by simp [huv]
    have hτ : (if τ v = type then Function.update τ v .uninit else τ) u = τ u := by
      split_ifs
      · rw [Function.update_of_ne huv]
      · rfl
    rw [hτ]
    simp only [hmem]

theorem Forgot.havocType {t : TypeDomain V} (h : Forgot t type u) (ht : t.inv.WF) (v : V) :
    Forgot (t.havocType v) type u := by
  rcases h with hfree | hmay
  · exact Or.inl (hfree.havoc ht v)
  · by_cases huv : u = v
    · subst huv
      exact Or.inl (free_havoc ht u)
    · right
      cases hmay' : (t.havocType v).mayHaveType u type with
      | false => rfl
      | true =>
        have hkeep := keeps_havoc (S := fun y => y = none ∨ y = some u) ht (u := v) (by
          rintro y (rfl | rfl) heq
          · cases heq
          · exact huv (Option.some.inj heq))
        have hmem := hkeep.mem_evalInterval (Or.inr rfl) (Or.inl rfl) (Interval.contains_iff.mp hmay')
        rw [TypeDomain.mayHaveType, Interval.contains_iff.mpr hmem] at hmay
        cases hmay

/-- One location is forgotten if it may have the type. -/
structure Forgets (type : TypeEncoding) (l : List V) (rcp rcp' : TypeToNumDomain V) : Prop where
  wf : rcp'.WF
  forgot : ∀ v, v ∈ l ∨ Forgot rcp.types type v → Forgot rcp'.types type v
  types : ∀ τ, rcp.types.Models τ → rcp'.types.Models (invalidate l type τ)

theorem forgets_havocLocations {l : List V} (h : rcp.WF)
    (hl : l.foldlM (fun (d : TypeToNumDomain V) v => if d.types.mayHaveType v type then do
      return d.havocLocation R v (← type.kinds) else some d) rcp = some rcp') :
    Forgets type l rcp rcp' := by
  induction l generalizing rcp with
  | nil =>
    obtain rfl := Option.some.inj hl
    refine ⟨h, fun v hv => hv.resolve_left List.not_mem_nil, fun τ hτ => ?_⟩
    have hid : invalidate [] type τ = τ := funext fun v => if_neg fun h => List.not_mem_nil h.1
    rwa [hid]
  | cons v l ih =>
    rw [List.foldlM_cons] at hl
    obtain ⟨rcp₁, hrcp₁, hl⟩ := Option.bind_eq_some_iff.mp hl
    -- the location is forgotten first
    have hstep : rcp₁.WF ∧ (∀ u, u = v ∨ Forgot rcp.types type u → Forgot rcp₁.types type u) ∧
        ∀ τ, rcp.types.Models τ →
          rcp₁.types.Models (if τ v = type then Function.update τ v .uninit else τ) := by
      split_ifs at hrcp₁ with hmay
      · obtain ⟨kinds, -, hrcp₁⟩ := Option.bind_eq_some_iff.mp hrcp₁
        obtain rfl := Option.some.inj hrcp₁
        refine ⟨(passes_havocLocation (R := R) (K := fun _ => False) h v kinds).wf, fun u hu => ?_,
          fun τ hτ => ?_⟩
        · rcases hu with rfl | hu
          · exact Or.inl (free_havoc h.types u)
          · exact hu.havocType h.types v
        · split_ifs
          · exact models_havocType h.types hτ v .uninit
          · exact (passes_havocLocation (R := R) (K := fun _ => False) h v kinds).types τ hτ
      · obtain rfl := Option.some.inj hrcp₁
        refine ⟨h, fun u hu => ?_, fun τ hτ => ?_⟩
        · rcases hu with rfl | hu
          · exact Or.inr (by simpa using hmay)
          · exact hu
        · rw [if_neg]
          · exact hτ
          · rintro rfl
            exact hmay (hτ.mayHaveType v)
    obtain ⟨hwf, hforgot, hmodels⟩ := hstep
    obtain ⟨hwf', hforgot', hmodels'⟩ := ih hwf hl
    refine ⟨hwf', fun u hu => hforgot' u ?_, fun τ hτ => ?_⟩
    · rw [List.mem_cons, or_assoc] at hu
      rcases hu with rfl | hu | hu
      · exact Or.inr (hforgot u (Or.inl rfl))
      · exact Or.inl hu
      · exact Or.inr (hforgot u (Or.inr hu))
    · rw [invalidate_cons]
      exact hmodels' _ (hmodels τ hτ)

/-! ## What is said of a location that was forgotten -/

/-- It is not known to have the type. -/
theorem Forgot.not_known {t : TypeDomain V} (h : Forgot t type v) (ht : t.inv.WF)
    (htype : type ≠ .uninit) (hτ : t.Models τ) : t.inv.entail (TypeDomain.typeIs v type) = false := by
  rw [← Bool.not_eq_true]
  intro hentail
  rcases h with hfree | hmay
  · have hm : t.Models (Function.update τ v .uninit) := by
      have hm := models_havocType ht hτ v .uninit
      rwa [TypeDomain.havocType, hfree.havoc_eq] at hm
    have heq := eq_of_sat_typeIs (sat_of_entail ht hentail hm)
    rw [Function.update_self] at heq
    exact htype heq.symm
  · have heq := eq_of_sat_typeIs (sat_of_entail ht hentail hτ)
    rw [← heq, hτ.mayHaveType] at hmay
    cases hmay

/-- The part of an interval between two numbers is a part of it. -/
theorem mem_of_mem_bound {i : Interval} {lb ub l u k : ℤ} (h : i.bound lb ub = some (l, u))
    (hl : l ≤ k) (hu : k ≤ u) : k ∈ i := by
  unfold Interval.bound at h
  simp only at h
  split_ifs at h
  obtain ⟨l', hl', h⟩ := Option.bind_eq_some_iff.mp h
  obtain ⟨u', hu', h⟩ := Option.bind_eq_some_iff.mp h
  obtain ⟨rfl, rfl⟩ := Prod.mk.inj (Option.some.inj h)
  have hmem : k ∈ (Interval.ofInts lb ub).meet i := by
    constructor
    · cases hlb : ((Interval.ofInts lb ub).meet i).lb <;> rw [hlb] at hl' <;> cases hl'
      exact Bound.fin_le_fin.mpr hl
    · cases hub : ((Interval.ofInts lb ub).meet i).ub <;> rw [hub] at hu' <;> cases hu'
      exact Bound.fin_le_fin.mpr hu
  exact (Interval.mem_meet.mp hmem).2

/-- No check goes through the type. -/
theorem Forgot.not_mem_enumerateTypes {r : Reg} {types : List TypeEncoding}
    (h : Forgot rcp.types type (R.regType r)) (htype : type ≠ .uninit)
    (htypes : rcp.enumerateTypes R r = some types) : type ∉ types := by
  intro hmem
  have huninit : types ≠ [.uninit] := by
    rintro rfl
    exact htype (List.mem_singleton.mp hmem)
  unfold enumerateTypes at htypes
  split_ifs at htypes
  · exact huninit (Option.some.inj htypes).symm
  · unfold TypeDomain.iterateTypes at htypes
    simp only at htypes
    split_ifs at htypes with hbot hcontains
    · obtain rfl := Option.some.inj htypes
      exact List.not_mem_nil hmem
    · exact huninit (Option.some.inj htypes).symm
    · obtain ⟨⟨lb, ub⟩, hbound, htypes⟩ := Option.bind_eq_some_iff.mp htypes
      obtain rfl := Option.some.inj htypes
      obtain ⟨-, hrange⟩ := List.mem_filter.mp hmem
      simp only [Bool.and_eq_true, decide_eq_true_eq] at hrange
      rcases h with hfree | hmay
      · refine hcontains (Interval.contains_iff.mpr (hfree.mem_evalInterval ?_ _))
        cases hinv : rcp.types.inv with
        | none =>
          rw [hinv] at hbot
          exact absurd rfl hbot
        | some _ => rfl
      · have hmem := mem_of_mem_bound hbound hrange.1 hrange.2
        rw [TypeDomain.mayHaveType, Interval.contains_iff.mpr hmem] at hmay
        cases hmay

/-- No check of an access allows a register that may not be initialized. -/
theorem not_succeeds_validAccess (he : e.rcp.WF) (hτσ : e.rcp.Models R.toVariableRegistry τ σ)
    (s : ValidAccess) (huninit : τ (R.regType s.reg) = .uninit) :
    ¬ (ebpfDomainCheck R info opts e (.validAccess s)).Succeeds := by
  intro h
  rw [ebpfDomainCheck_eq (isBottom_of_models hτσ)] at h
  have has := EbpfChecker.validAccessAs_of_succeeds he.types hτσ.1 h
  rw [huninit] at has
  exact EbpfChecker.not_succeeds_throwFail _ _ has

/-! ## What a call leaves in `r0` -/

/-- A map in the range has a value size. -/
theorem exists_mem_getMapValueSize {fdReg : Reg} {fd : ℤ} {i : Interval}
    (h : d.getMapValueSize R info fdReg = some i)
    (hfd : fd ∈ d.rcp.values.evalInterval (.var (R.reg .mapFds fdReg))) : ∃ n, n ∈ i := by
  cases hm : info.platform.getMapDescriptor fd with
  | some m => exact ⟨_, mem_getMapValueSize h hfd hm⟩
  | none =>
    unfold EbpfDomain.getMapValueSize EbpfDomain.getMapField at h
    split at h
    · obtain rfl := Option.some.inj h
      exact ⟨0, Interval.mem_top 0⟩
    · next fds hfds =>
      obtain ⟨i₁, i₂, hstep⟩ := Option.exists_step_of_foldlM h (mem_getMapFdRange hfds hfd)
      rw [hm] at hstep
      cases hstep

/-- `r0` may have a type other than the packet after the call. -/
structure Returns (R : ProgramVariables V) (rcp' : TypeToNumDomain V) (τ : V → TypeEncoding) :
    Prop where
  types : ∃ type, type ≠ .packet ∧ rcp'.types.Models (Function.update τ (R.regType 0) type)
  values : ∃ σ, rcp'.values.Models σ

theorem returns_sharedOrNull (h : rcp.WF) (hτ : rcp.types.Models τ) (hσ : rcp.values.Models σ) :
    Returns R (sharedOrNull R rcp) τ := by
  have hm := models_sharedOrNull (R := R) h hτ hσ le_rfl (by decide)
  exact ⟨⟨.shared, by decide, hm.1⟩, _, hm.2⟩

theorem doLoadMapfd_spec {fd : ℤ} (h : rcp.WF)
    (hload : doLoadMapfd R info rcp 0 fd true = some rcp') :
    rcp'.WF ∧ ∀ τ σ, rcp.types.Models τ → rcp.values.Models σ → Returns R rcp' τ := by
  obtain ⟨desc, hdesc, hload⟩ := Option.bind_eq_some_iff.mp hload
  have hform : some rcp' = some (assignValidPtr R
      { rcp.assignType (R.regType 0) (.const (desc.encoding info).1.toInt) with
        values := rcp.values.assignInt (R.reg (desc.encoding info).2 0) fd } 0 true) := by
    rw [← hload]
    unfold MapDescriptor.encoding
    split_ifs <;> rfl
  obtain rfl := Option.some.inj hform
  have hset := h.values.assignInt (R.reg (desc.encoding info).2 0) fd
  refine ⟨⟨h.types.assign _ _, wf_assignValidPtr hset 0 true⟩, fun τ σ hτ hσ =>
    ⟨⟨(desc.encoding info).1, ?_, ?_⟩, ?_⟩⟩
  · unfold MapDescriptor.encoding
    split_ifs <;> decide
  · exact models_assignType h.types hτ _ _
  · exact ⟨_, models_assignValidPtr hset (models_assignInt h.values hσ fd) le_rfl (by decide)⟩

theorem mapLookup_spec {fdReg : Option Reg} (h : d.rcp.WF)
    (hlook : mapLookup R info d fdReg = some rcp') :
    rcp'.WF ∧ ∀ τ σ, d.rcp.types.Models τ → d.rcp.values.Models σ → Returns R rcp' τ := by
  have hshared : (sharedOrNull R d.rcp).WF ∧ ∀ τ σ, d.rcp.types.Models τ → d.rcp.values.Models σ →
      Returns R (sharedOrNull R d.rcp) τ :=
    ⟨wf_sharedOrNull h, fun _ _ hτ hσ => returns_sharedOrNull h hτ hσ⟩
  unfold mapLookup at hlook
  cases fdReg with
  | none => exact Option.some.inj hlook ▸ hshared
  | some fdReg =>
    obtain ⟨mapType?, -, hlook⟩ := Option.bind_eq_some_iff.mp hlook
    cases mapType? with
    | none => exact Option.some.inj hlook ▸ hshared
    | some mapType =>
      simp only at hlook
      split_ifs at hlook
      · obtain ⟨inner?, -, hlook⟩ := Option.bind_eq_some_iff.mp hlook
        cases inner? with
        | none => exact Option.some.inj hlook ▸ hshared
        | some innerMapFd => exact doLoadMapfd_spec h hlook
      · obtain ⟨size, hsize, hlook⟩ := Option.bind_eq_some_iff.mp hlook
        obtain rfl := Option.some.inj hlook
        -- `r0` is written twice
        have hw := (wf_assignValidPtr (R := R) h.values 0 true).assignInt (R.reg .sharedOffsets 0) 0
        have hwf : TypeToNumDomain.WF ⟨d.rcp.types.assignType (R.regType 0)
            (.const TypeEncoding.shared.toInt), _⟩ :=
          ⟨h.types.assign _ _, hw.set (R.reg .sharedRegionSizes 0) size⟩
        refine ⟨wf_sharedOrNull hwf, fun τ σ hτ hσ => ?_⟩
        have hm := models_assignInt (wf_assignValidPtr (R := R) h.values 0 true)
          (models_assignValidPtr h.values hσ le_rfl (by decide)) (v := R.reg .sharedOffsets 0) 0
        obtain ⟨k, hk⟩ := exists_mem_getMapValueSize hsize
          (AddBottom.mem_evalInterval hm (.var (R.reg .mapFds fdReg)))
        obtain ⟨⟨type, htype, hτ'⟩, hvalues⟩ := returns_sharedOrNull (R := R) hwf
          (models_assignType h.types hτ _ _) (models_set (v := R.reg .sharedRegionSizes 0) hw hm hk)
        exact ⟨⟨type, htype, by rwa [Function.update_idem] at hτ'⟩, hvalues⟩

theorem callResult_spec (h : d.rcp.WF) (hres : callResult R info d c = some rcp') :
    rcp'.WF ∧ ∀ τ σ, d.rcp.types.Models τ → d.rcp.values.Models σ → Returns R rcp' τ := by
  unfold callResult at hres
  simp only at hres
  have hw := h.values.havoc (R.reg .stackNumericSizes 0)
  have hm : ∀ σ, d.rcp.values.Models σ → (d.rcp.values.havoc (R.reg .stackNumericSizes 0)).Models
      (Function.update σ (R.reg .stackNumericSizes 0) 0) :=
    fun σ hσ => models_havoc h.values hσ 0
  split_ifs at hres
  · obtain ⟨hwf, hret⟩ := mapLookup_spec (R := R)
      (d := { d with rcp := { d.rcp with values := d.rcp.values.havoc (R.reg .stackNumericSizes 0) } })
      ⟨h.types, hw⟩ hres
    exact ⟨hwf, fun τ σ hτ hσ => hret τ _ hτ (hm σ hσ)⟩
  · obtain rfl := Option.some.inj hres
    refine ⟨⟨h.types.assign _ _, wf_havocKindsOf hw _⟩, fun τ σ hτ hσ => ⟨⟨.num, by decide, ?_⟩, ?_⟩⟩
    · exact models_assignType h.types hτ _ _
    · exact ⟨_, (models_havocKindsOf hw _ (hm σ hσ)).2⟩

/-! ## The memory that a call writes -/

theorem TypeToNumDomain.WF.join {a b : TypeToNumDomain V} (ha : a.WF) (hb : b.WF) :
    (a.join R.toVariableRegistry b).WF := by
  have hjoined : ∀ {a : TypeToNumDomain V}, a.WF → (joined R.toVariableRegistry a b).WF :=
    fun ha => ⟨ha.types.join hb.types, wf_setAll (ha.values.join hb.values)⟩
  rw [join_eq]
  split_ifs
  · exact hb
  · exact ha
  · exact hjoined hb
  · exact hjoined ha

theorem joinOverTypes_wf {S : Type} {r : Reg}
    {transition : TypeToNumDomain V → TypeEncoding → StateT S Option (TypeToNumDomain V)}
    (h : rcp.WF) (htrans : ∀ rcp t, rcp.WF → Ensures (transition rcp t) TypeToNumDomain.WF) :
    Ensures (joinOverTypes R rcp r transition) TypeToNumDomain.WF := by
  unfold joinOverTypes
  split_ifs
  · exact htrans rcp .uninit h
  · refine Ensures.bind' fun types => Ensures.bind' fun valid => ?_
    refine Ensures.foldlM ⟨wf_top, wf_none⟩ fun t _ acc hacc => ?_
    refine (htrans _ t ?_).bind fun tmp htmp => Ensures.pure (hacc.join htmp)
    refine ⟨h.types.addConstraint _, ?_⟩
    exact List.foldlRecOn (motive := AddBottom.WF) _ _ h.values fun y hy e _ => wf_havocKindsOf hy _

theorem writeMem_wf (h : d.rcp.WF) (param : ArgPair) :
    Ensures (writeMem R opts d param) fun d' => d'.rcp.WF := by
  unfold writeMem
  split_ifs
  · exact Ensures.pure h
  · refine Ensures.lift_bind fun offset _ => ?_
    cases offset with
    | none => exact Ensures.pure h
    | some offset =>
      refine Ensures.bind (Q := fun r : TypeToNumDomain V × Bool => r.1.WF) ?_ fun r hr => ?_
      · intro s r s' heq
        obtain ⟨⟨rcp, arrays, store⟩, hjoin, heq⟩ := Option.bind_eq_some_iff.mp heq
        obtain ⟨rfl, -⟩ := Prod.mk.inj (Option.some.inj heq)
        refine joinOverTypes_wf h (fun rcp t hrcp => ?_) _ _ _ hjoin
        intro s rcp' s' heq
        simp only at heq
        split_ifs at heq
        · obtain ⟨⟨values, arrays⟩, hhavoc, heq⟩ := Option.bind_eq_some_iff.mp heq
          obtain ⟨rfl, -⟩ := Prod.mk.inj (Option.some.inj heq)
          exact ⟨hrcp.types, (ArrayDomain.havocKinds_untouched (Untouched.refl hrcp.values) _ _ _
            hhavoc).wf⟩
        · obtain ⟨rfl, -⟩ := Prod.mk.inj (Option.some.inj heq)
          exact hrcp
      · obtain ⟨rcp, store⟩ := r
        cases store
        · exact Ensures.bind' fun _ => Ensures.pure hr
        · exact Ensures.bind' fun _ => Ensures.pure hr

/-! ## The call -/

/-- The pointers into the packet are forgotten, and so is what was known about its size. -/
structure PacketForgotten (R : ProgramVariables V) (info : ProgramInfo) (opts : VerifierOptions)
    (d d' : EbpfDomain V) : Prop where
  /-- No location is known to point into the packet, unless there is no state at all. -/
  unknown : ∀ v ∈ R.typeVariables, d'.rcp.types.inv.entail (TypeDomain.typeIs v .packet) = true →
    ∀ τ σ, ¬ d'.rcp.Models R.toVariableRegistry τ σ
  /-- No access is checked to be one of the packet. -/
  unchecked : d'.isBottom = false → ∀ r, R.regType r ∈ R.typeVariables → ∀ types,
    d'.rcp.enumerateTypes R r = some types → TypeEncoding.packet ∉ types
  /-- The stale pointers may be values that are not initialized. Only `r0` is written. -/
  stale : ∀ τ σ, d.rcp.Models R.toVariableRegistry τ σ → ∃ type σ', type ≠ TypeEncoding.packet ∧
    d'.rcp.Models R.toVariableRegistry
      (invalidate R.typeVariables .packet (Function.update τ (R.regType 0) type)) σ'
  /-- No access goes through a register that may not be initialized, in any later state. -/
  rejects : ∀ e : EbpfDomain V, e.rcp.WF → ∀ τ σ, e.rcp.Models R.toVariableRegistry τ σ →
    ∀ s : ValidAccess, τ (R.regType s.reg) = .uninit →
      ¬ (ebpfDomainCheck R info opts e (.validAccess s)).Succeeds
  /-- The packet may have any size and metadata, whatever the other values are. -/
  unrelated : ∀ σ, d'.rcp.values.Models σ → ∀ n m, EbpfDomain.PacketRange info n m →
    d'.rcp.values.Models (Function.update (Function.update σ R.packetSize n) R.metaOffset m)

/-- The steps of a call that may move the packet. -/
theorem call_of_reallocate (hrealloc : c.reallocatePacket = true) (hbot : d.isBottom = false)
    (hcall : call R info opts c d arrays = some (d', arrays')) :
    ∃ d₁ arrays₁ rcp, c.pairs.foldlM (writeMem R opts) d arrays = some (d₁, arrays₁) ∧
      callResult R info d₁ c = some rcp ∧
        forgetPacketPointers R info { d₁ with rcp := scratchCallerSavedRegisters R rcp } = some d' := by
  unfold call at hcall
  rw [if_neg (by rw [hbot]; simp)] at hcall
  obtain ⟨⟨d₁, arrays₁⟩, hd₁, hcall⟩ := Option.bind_eq_some_iff.mp hcall
  obtain ⟨⟨rcp, arrays₂⟩, hrcp, hcall⟩ := Option.bind_eq_some_iff.mp hcall
  refine ⟨d₁, arrays₁, rcp, hd₁, (liftM_eq_some.mp hrcp).1, ?_⟩
  simp only [hrealloc, if_true] at hcall
  exact (liftM_eq_some.mp hcall).1

/-- A call that may move the packet forgets it. -/
theorem packetForgotten_of_call (hd : d.rcp.WF) (hrealloc : c.reallocatePacket = true)
    (hcall : call R info opts c d arrays = some (d', arrays')) : PacketForgotten R info opts d d' := by
  have hrejects : ∀ e : EbpfDomain V, e.rcp.WF → ∀ τ σ, e.rcp.Models R.toVariableRegistry τ σ →
      ∀ s : ValidAccess, τ (R.regType s.reg) = .uninit →
        ¬ (ebpfDomainCheck R info opts e (.validAccess s)).Succeeds :=
    fun e he τ σ hτσ s => not_succeeds_validAccess he hτσ s
  cases hbot : d.isBottom with
  | true =>
    -- the empty state stays as it is
    unfold call at hcall
    rw [if_pos hbot] at hcall
    obtain ⟨rfl, -⟩ := Prod.mk.inj (Option.some.inj hcall)
    have hnone : ∀ σ, ¬ d.rcp.values.Models σ := by
      intro σ hσ
      rw [show d.isBottom = false from hσ.isBottom] at hbot
      cases hbot
    refine ⟨fun _ _ _ _ _ h => ?_, fun h => ?_, fun _ _ h => ?_, hrejects, fun σ hσ => absurd hσ (hnone σ)⟩
    · obtain ⟨-, σ', -, hσ'⟩ := h
      exact hnone σ' hσ'
    · rw [h] at hbot
      cases hbot
    · obtain ⟨-, σ', -, hσ'⟩ := h
      exact absurd hσ' (hnone σ')
  | false =>
    obtain ⟨d₁, arrays₁, rcp₁, hwrites, hres, hforget⟩ := call_of_reallocate hrealloc hbot hcall
    have hwf₁ : d₁.rcp.WF := by
      have hens : Ensures (c.pairs.foldlM (writeMem R opts) d) fun d' => d'.rcp.WF :=
        Ensures.foldlM hd fun param _ d₂ hd₂ => writeMem_wf hd₂ param
      exact hens _ _ _ hwrites
    obtain ⟨hwf₂, hreturns⟩ := callResult_spec hwf₁ hres
    have hscratch := passes_scratchCallerSavedRegisters (R := R) (K := fun _ => False) hwf₂
    obtain ⟨rcp₃, hhavoc, hinit⟩ := Option.bind_eq_some_iff.mp hforget
    obtain rfl := Option.some.inj hinit
    have hpass := passes_havocAllLocationsHavingType (K := fun _ => False) hscratch.wf hhavoc
    have hforgets := forgets_havocLocations hscratch.wf hhavoc
    have hforgot : ∀ v ∈ R.typeVariables, Forgot rcp₃.types .packet v :=
      fun v hv => hforgets.forgot v (Or.inl hv)
    refine ⟨fun v hv hentail τ σ hτσ => ?_, fun _ r hr types htypes => ?_, fun τ σ hτσ => ?_, hrejects,
      fun σ hσ n m hnm => ?_⟩
    · have hnot := (hforgot v hv).not_known hpass.wf.types (by decide) hτσ.1
      exact Bool.false_ne_true (hnot.symm.trans hentail)
    · exact (hforgot _ hr).not_mem_enumerateTypes (by decide) htypes
    · obtain ⟨hτ, σ₀, -, hσ₀⟩ := hτσ
      obtain ⟨hfrom, hτ₁⟩ := writeMems_spec hd hτ hσ₀ hwrites
      obtain ⟨σ₁, hσ₁, -⟩ := hfrom.values.models σ₀ hσ₀
      obtain ⟨⟨type, htype, hτ₂⟩, σ₂, hσ₂⟩ := hreturns τ σ₁ hτ₁ hσ₁
      obtain ⟨σ₃, hσ₃, -⟩ := hscratch.values σ₂ hσ₂
      obtain ⟨σ₄, hσ₄, -⟩ := hpass.values σ₃ hσ₃
      have hσ' := (@EbpfDomain.spec_initializePacket _ _ R info { d₁ with rcp := rcp₃ } hpass.wf).2 σ₄ 0 0 hσ₄ (EbpfDomain.packetRange_zero info)
      exact ⟨type, _, htype, hforgets.types _ (hscratch.types _ hτ₂), _, fun _ _ => rfl, hσ'⟩
    · exact models_initializePacket_update (d := { d₁ with rcp := rcp₃ }) hpass.wf hσ hnm

/-- A platform with a helper that moves the start of the packet. -/
def adjustHeadPlatform : MapPlatform where
  supportsGroup _ := true
  isHelperUsable n := n = 44
  getHelperPrototype _ :=
    ⟨"xdp_adjust_head", .integer, (.ptrToCtx, .anything, .dontcare, .dontcare, .dontcare), true⟩
  getMapDescriptor _ := none
  getMapType _ := ⟨false, .any⟩

def adjustHeadInfo : ProgramInfo := ⟨adjustHeadPlatform, false, ⟨24, 0, 4, 8⟩⟩

def adjustHead : CallInfo :=
  ⟨44, "xdp_adjust_head", false, true, [⟨.ptrToCtx, false, 1⟩, ⟨.anything, false, 2⟩], []⟩

/-- A register that a call saved, and a cell of the stack. -/
def heldLocations : List Location := [.saved 6 (Label.ofIndex 3).frame, .cell 4088 8]

/-- Pointers into the packet in `r6`, in a saved register and on the stack. -/
def packetState : EbpfDomain ProgramVariables.Name :=
  let R := ProgramVariables.named heldLocations
  ⟨⟨⟨setAll AddBottom.top [(R.regType 1, .const TypeEncoding.ctx.toInt),
      (R.regType 2, .const TypeEncoding.num.toInt), (R.regType 6, .const TypeEncoding.packet.toInt),
      (R.typeVar (.saved 6 (Label.ofIndex 3).frame), .const TypeEncoding.packet.toInt),
      (R.typeVar (.cell 4088 8), .const TypeEncoding.packet.toInt)]⟩,
    setAll AddBottom.top [(R.reg .ctxOffsets 1, .const 0), (R.reg .packetOffsets 6, .const 14),
      (R.packetSize, .ofInts 34 1500)]⟩, .top⟩

theorem call_packetState :
    (call (.named heldLocations) adjustHeadInfo ⟨false, true, false⟩ adjustHead packetState
      fun _ => .empty).isSome := by
  decide

theorem packetForgotten_adjustHead : ∃ d' arrays',
    call (.named heldLocations) adjustHeadInfo ⟨false, true, false⟩ adjustHead packetState
        (fun _ => .empty) = some (d', arrays') ∧
      PacketForgotten (.named heldLocations) adjustHeadInfo ⟨false, true, false⟩ packetState d' := by
  obtain ⟨⟨d', arrays'⟩, hcall⟩ := Option.isSome_iff_exists.mp call_packetState
  exact ⟨d', arrays', hcall,
    packetForgotten_of_call ⟨wf_setAll wf_top, wf_setAll wf_top⟩ rfl hcall⟩

end Prevail
