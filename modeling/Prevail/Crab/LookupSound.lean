import Prevail.Crab.MapLookup

/-!
# When map lookups are sound

From a safe state, `r0` admits what the lookup returns, since everything that comes after `r0` is
written only forgets. Conversely, the state after the call still has the bounds that the lookup wrote
for `r0`: a wrong inner map or a wrong value size is not admitted, nor is a map where the type of a
pointer was written.
-/

namespace Prevail

open AddBottom TypeToNumDomain EbpfTransformer StateT ProgramVariables

variable {V : Type} [LinearOrder V] {R : ProgramVariables V} {info : ProgramInfo}
  {opts : VerifierOptions} {d d' d₁ : EbpfDomain V} {rcp : TypeToNumDomain V} {fdReg : Reg}
  {n : BitVec 32} {c : CallInfo} {τ : V → TypeEncoding} {σ : V → ℤ} {m : MapDescriptor} {fd k : ℤ}
  {arrays arrays' arrays₁ : ArrayMap}

/-! ## Queries about maps -/

/-- All descriptors of the range have the attribute that they have in common. -/
theorem eq_of_commonAttribute {attr : MapDescriptor → BitVec 32} {fds : List ℤ}
    {res : Option (BitVec 32)} {x : BitVec 32}
    (h : EbpfDomain.commonAttribute info attr attr res fds = some (some x)) :
    (∀ y, res = some y → y = x) ∧
      ∀ fd ∈ fds, ∀ m, info.platform.getMapDescriptor fd = some m → attr m = x := by
  induction fds generalizing res with
  | nil =>
    cases res <;> simp_all [EbpfDomain.commonAttribute]
  | cons fd fds ih =>
    cases res with
    | none =>
      obtain ⟨map, hmap, h⟩ := Option.bind_eq_some_iff.mp h
      obtain ⟨_, _, h⟩ := Option.bind_eq_some_iff.mp h
      obtain ⟨hres, hfds⟩ := ih h
      refine ⟨by simp, fun fd' hfd' m hm => ?_⟩
      rcases List.mem_cons.mp hfd' with rfl | hfd'
      · obtain rfl := Option.some.inj (hmap.symm.trans hm)
        exact hres _ rfl
      · exact hfds fd' hfd' m hm
    | some y =>
      obtain ⟨map, hmap, h⟩ := Option.bind_eq_some_iff.mp h
      split_ifs at h with hne
      · cases h
      · obtain ⟨_, _, h⟩ := Option.bind_eq_some_iff.mp h
        obtain ⟨hres, hfds⟩ := ih h
        have hy := hres y rfl
        refine ⟨fun y' hy' => Option.some.inj hy' ▸ hy, fun fd' hfd' m hm => ?_⟩
        rcases List.mem_cons.mp hfd' with rfl | hfd'
        · obtain rfl := Option.some.inj (hmap.symm.trans hm)
          exact (not_not.mp hne).trans hy
        · exact hfds fd' hfd' m hm

theorem mem_getMapFdRange {fds : List ℤ} (h : d.getMapFdRange R fdReg = some fds)
    (hfd : fd ∈ d.rcp.values.evalInterval (.var (R.reg .mapFds fdReg))) : fd ∈ fds := by
  obtain ⟨lb, hlb, h⟩ := Option.bind_eq_some_iff.mp h
  obtain ⟨ub, hub, h⟩ := Option.bind_eq_some_iff.mp h
  obtain ⟨hl, hu⟩ := hfd
  split_ifs at h
  obtain rfl := Option.some.inj h
  cases hL : (d.rcp.values.evalInterval (.var (R.reg .mapFds fdReg))).lb <;> rw [hL] at hlb hl <;>
    cases hlb
  cases hU : (d.rcp.values.evalInterval (.var (R.reg .mapFds fdReg))).ub <;> rw [hU] at hub hu <;>
    cases hub
  rw [Bound.fin_le_fin] at hl hu
  have hlt : (fd - lb).toNat < (ub - lb + 1).toNat := by omega
  have heq : lb + ((fd - lb).toNat : ℤ) = fd := by omega
  exact List.mem_map.mpr ⟨_, List.mem_range.mpr hlt, heq⟩

/-- The type that is found is the type of each map. -/
theorem type_of_getMapType {mapType : BitVec 32} (h : d.getMapType R info fdReg = some (some mapType))
    (hfd : fd ∈ d.rcp.values.evalInterval (.var (R.reg .mapFds fdReg)))
    (hm : info.platform.getMapDescriptor fd = some m) : m.type = mapType := by
  unfold EbpfDomain.getMapType at h
  split at h
  · cases h
  · next fds hfds => exact (eq_of_commonAttribute h).2 fd (mem_getMapFdRange hfds hfd) m hm

/-- The value size of each map is in the range that is found. -/
theorem mem_getMapValueSize {i : Interval} (h : d.getMapValueSize R info fdReg = some i)
    (hfd : fd ∈ d.rcp.values.evalInterval (.var (R.reg .mapFds fdReg)))
    (hm : info.platform.getMapDescriptor fd = some m) : (m.valueSize : ℤ) ∈ i := by
  unfold EbpfDomain.getMapValueSize EbpfDomain.getMapField at h
  split at h
  · obtain rfl := Option.some.inj h
    exact Interval.mem_top _
  · next fds hfds =>
    have hmem := mem_getMapFdRange hfds hfd
    clear hfds hfd
    suffices key : ∀ (fds : List ℤ) (i₀ : Interval),
        fds.foldlM (fun result fd => do
          let map ← info.platform.getMapDescriptor fd
          guard (fd ≠ Number.maxInt 32)
          return result.join (.const map.valueSize)) i₀ = some i →
        (∀ x ∈ i₀, x ∈ i) ∧ (fd ∈ fds → (m.valueSize : ℤ) ∈ i) from (key fds .bottom h).2 hmem
    intro fds
    induction fds with
    | nil =>
      intro i₀ h
      obtain rfl := Option.some.inj h
      exact ⟨fun x hx => hx, fun h => absurd h List.not_mem_nil⟩
    | cons fd' fds ih =>
      intro i₀ h
      rw [List.foldlM_cons] at h
      obtain ⟨i₁, hi₁, h⟩ := Option.bind_eq_some_iff.mp h
      obtain ⟨map, hmap, hi₁⟩ := Option.bind_eq_some_iff.mp hi₁
      obtain ⟨_, _, hi₁⟩ := Option.bind_eq_some_iff.mp hi₁
      obtain rfl := Option.some.inj hi₁
      obtain ⟨hsub, hmem⟩ := ih _ h
      refine ⟨fun x hx => hsub x (Interval.mem_join (Or.inl hx)), fun hin => ?_⟩
      rcases List.mem_cons.mp hin with rfl | hin
      · obtain rfl := Option.some.inj (hmap.symm.trans hm)
        exact hsub _ (Interval.mem_join (Or.inr (Interval.mem_const.mpr rfl)))
      · exact hmem hin

/-! ## Writing `r0` -/

/-- A valuation with a number for a pointer in `r0`. -/
def withPtr (R : ProgramVariables V) (σ : V → ℤ) (k : ℤ) : V → ℤ :=
  Function.update (Function.update σ (R.reg .svalues 0) k) (R.reg .uvalues 0) k

theorem withPtr_of_ne {kind : DataKind} (hs : kind ≠ .svalues) (hu : kind ≠ .uvalues) (r : Reg) :
    withPtr R σ k (R.reg kind r) = σ (R.reg kind r) := by
  unfold withPtr
  rw [Function.update_of_ne (reg_ne hu), Function.update_of_ne (reg_ne hs)]

theorem withPtr_svalue : withPtr R σ k (R.reg .svalues 0) = k := by
  unfold withPtr
  rw [Function.update_of_ne (reg_ne (by decide)), Function.update_self]

theorem withPtr_uvalue : withPtr R σ k (R.reg .uvalues 0) = k := Function.update_self ..

theorem models_assignValidPtr (h : rcp.values.WF) (hσ : rcp.values.Models σ) (h0 : 0 ≤ k)
    (hmax : k ≤ ptrMax) : (assignValidPtr R rcp 0 true).values.Models (withPtr R σ k) := by
  have hw₁ := (h.havoc (R.reg .svalues 0)).havoc (R.reg .uvalues 0)
  have hm₁ := models_havoc (h.havoc (R.reg .svalues 0)) (models_havoc h hσ (v := R.reg .svalues 0) k)
    (v := R.reg .uvalues 0) k
  have hm₂ := models_addConstraint hw₁ hm₁
    (c := LinearExpression.le (.const 0) (.var (R.reg .svalues 0)))
    (SplitDbm.unitDisequation_of_ne fun h => by cases h) (by
      rw [LinearExpression.sat_le, LinearExpression.eval_const, LinearExpression.eval_var]
      exact h0.trans_eq withPtr_svalue.symm)
  have hw₂ := hw₁.addConstraint (LinearExpression.le (.const 0) (.var (R.reg .svalues 0)))
  have hm₃ := models_addConstraint hw₂ hm₂
    (c := LinearExpression.le (.var (R.reg .svalues 0)) (.const ptrMax))
    (SplitDbm.unitDisequation_of_ne fun h => by cases h) (by
      rw [LinearExpression.sat_le, LinearExpression.eval_const, LinearExpression.eval_var]
      exact withPtr_svalue.trans_le hmax)
  have hm₄ := models_assign (hw₂.addConstraint _) hm₃ (v := R.reg .uvalues 0)
    (.var (R.reg .svalues 0))
  rw [LinearExpression.eval_var] at hm₄
  change (assignValidPtr R rcp 0 true).values.Models
    (Function.update (withPtr R σ k) _ (withPtr R σ k _)) at hm₄
  rwa [withPtr_svalue, withPtr, Function.update_idem] at hm₄

theorem wf_assignValidPtr (h : rcp.values.WF) (r : Reg) (maybeNull : Bool) :
    (assignValidPtr R rcp r maybeNull).values.WF :=
  ((((h.havoc _).havoc _).addConstraint _).addConstraint _).assign _ _

/-- `r0` is a pointer to a value, or null, and what it had for the size of the value is kept. -/
theorem models_sharedOrNull (h : rcp.WF) (hτ : rcp.types.Models τ) (hσ : rcp.values.Models σ)
    (h0 : 0 ≤ k) (hmax : k ≤ ptrMax) :
    (sharedOrNull R rcp).types.Models (Function.update τ (R.regType 0) .shared) ∧
      (sharedOrNull R rcp).values.Models
        (Function.update (withPtr R σ k) (R.reg .sharedOffsets 0) 0) :=
  ⟨models_assignType h.types hτ _ _, models_assignInt (wf_assignValidPtr h.values 0 true)
    (models_assignValidPtr h.values hσ h0 hmax) 0⟩

theorem wf_sharedOrNull (h : rcp.WF) : (sharedOrNull R rcp).WF :=
  ⟨h.types.assign _ _, (wf_assignValidPtr h.values 0 true).assignInt _ _⟩

/-- A state whose `r0` may be a pointer with the number `k`, for each of these numbers. -/
structure Writes (R : ProgramVariables V) (result : TypeEncoding × List (DataKind × ℤ))
    (rcp : TypeToNumDomain V) (k : ℤ) (τ : V → TypeEncoding) (σ : V → ℤ) : Prop where
  types : rcp.types.Models τ
  values : rcp.values.Models σ
  type : τ (R.regType 0) = result.1
  svalue : σ (R.reg .svalues 0) = k
  uvalue : σ (R.reg .uvalues 0) = k
  result : ∀ e ∈ result.2, σ (R.reg e.1 0) = e.2

/-- A pointer to a value of the size that `r0` has. -/
theorem writes_sharedOrNull (h : rcp.WF) (hτ : rcp.types.Models τ) (hσ : rcp.values.Models σ)
    (hsize : σ (R.reg .sharedRegionSizes 0) = m.valueSize) (h0 : 0 ≤ k) (hmax : k ≤ ptrMax) :
    Writes R (.shared, [(.sharedOffsets, 0), (.sharedRegionSizes, m.valueSize)]) (sharedOrNull R rcp) k
      (Function.update τ (R.regType 0) .shared)
      (Function.update (withPtr R σ k) (R.reg .sharedOffsets 0) 0) where
  types := (models_sharedOrNull h hτ hσ h0 hmax).1
  values := (models_sharedOrNull h hτ hσ h0 hmax).2
  type := Function.update_self ..
  svalue := by
    rw [Function.update_of_ne (reg_ne (by decide)), withPtr_svalue]
  uvalue := by
    rw [Function.update_of_ne (reg_ne (by decide)), withPtr_uvalue]
  result := by
    simp only [List.forall_mem_cons, List.not_mem_nil, false_implies, implies_true, and_true]
    refine ⟨Function.update_self .., ?_⟩
    rw [Function.update_of_ne (reg_ne (by decide)),
      withPtr_of_ne (by decide) (by decide), hsize]

/-- A map with a descriptor. -/
theorem writes_doLoadMapfd {inner : MapDescriptor} {rcp' : TypeToNumDomain V} (h : rcp.WF)
    (hτ : rcp.types.Models τ) (hσ : rcp.values.Models σ)
    (hinner : info.platform.getMapDescriptor fd = some inner)
    (hload : doLoadMapfd R info rcp 0 fd true = some rcp') (h0 : 0 ≤ k) (hmax : k ≤ ptrMax) :
    rcp'.WF ∧ ∃ τ' σ', Writes R ((inner.encoding info).1, [((inner.encoding info).2, fd)]) rcp' k τ' σ' := by
  obtain ⟨desc, hdesc, hload⟩ := Option.bind_eq_some_iff.mp hload
  obtain rfl := Option.some.inj (hinner.symm.trans hdesc)
  have hkind : (inner.encoding info).2 ≠ .svalues ∧ (inner.encoding info).2 ≠ .uvalues := by
    unfold MapDescriptor.encoding
    split_ifs <;> decide
  have hform : some rcp' = some (assignValidPtr R
      { rcp.assignType (R.regType 0) (.const (inner.encoding info).1.toInt) with
        values := rcp.values.assignInt (R.reg (inner.encoding info).2 0) fd } 0 true) := by
    rw [← hload]
    unfold MapDescriptor.encoding
    split_ifs <;> rfl
  obtain rfl := Option.some.inj hform
  refine ⟨⟨h.types.assign _ _, wf_assignValidPtr (h.values.assignInt _ _) 0 true⟩,
    Function.update τ (R.regType 0) (inner.encoding info).1,
    withPtr R (Function.update σ (R.reg (inner.encoding info).2 0) fd) k, ?_⟩
  constructor
  · exact models_assignType h.types hτ _ _
  · exact models_assignValidPtr (h.values.assignInt _ _) (models_assignInt h.values hσ fd) h0 hmax
  · exact Function.update_self ..
  · exact withPtr_svalue
  · exact withPtr_uvalue
  · intro e he
    obtain rfl := List.mem_singleton.mp he
    rw [withPtr_of_ne hkind.1 hkind.2, Function.update_self]

/-! ## A safe lookup -/

theorem writes_mapLookup {result : TypeEncoding × List (DataKind × ℤ)} {rcp' : TypeToNumDomain V}
    (h : d.rcp.WF) (hτ : d.rcp.types.Models τ) (hσ : d.rcp.values.Models σ)
    (hm : info.platform.getMapDescriptor (σ (R.reg .mapFds fdReg)) = some m)
    (hresult : m.lookupResult info = some result)
    (hsafe : match d.getMapType R info fdReg with
      | some (some mapType) => (info.platform.getMapType mapType).valueType = .map →
          d.getMapInnerMapFd R info fdReg = some (some m.innerMapFd)
      | _ => ¬ m.IsMapOfMaps info ∧ ∃ σ₁, d.rcp.values.Models σ₁ ∧
          σ₁ (R.reg .sharedRegionSizes 0) = m.valueSize)
    (hlook : mapLookup R info d (some fdReg) = some rcp') :
    rcp'.WF ∧ ∀ k, 0 ≤ k → k ≤ ptrMax → ∃ τ' σ', Writes R result rcp' k τ' σ' := by
  have hfd := AddBottom.mem_evalInterval hσ (.var (R.reg .mapFds fdReg))
  rw [LinearExpression.eval_var] at hfd
  obtain ⟨mapType?, htype, hlook⟩ := Option.bind_eq_some_iff.mp hlook
  rw [htype] at hsafe
  cases mapType? with
  | none =>
    obtain ⟨hmaps, σ₁, hσ₁, hsize⟩ := hsafe
    obtain rfl := Option.some.inj hlook
    unfold MapDescriptor.lookupResult at hresult
    rw [if_neg hmaps] at hresult
    obtain rfl := Option.some.inj hresult
    exact ⟨wf_sharedOrNull h, fun k h0 hmax => ⟨_, _, writes_sharedOrNull h hτ hσ₁ hsize h0 hmax⟩⟩
  | some mapType =>
    have heq := type_of_getMapType htype hfd hm
    simp only at hlook
    by_cases hmaps : m.IsMapOfMaps info
    · have hvalue : (info.platform.getMapType mapType).valueType = .map := heq ▸ hmaps
      unfold MapDescriptor.lookupResult at hresult
      rw [if_pos hmaps] at hresult
      obtain ⟨inner, hinner, hresult⟩ := Option.bind_eq_some_iff.mp hresult
      obtain rfl := Option.some.inj hresult
      rw [if_pos hvalue, hsafe hvalue] at hlook
      have hwrites := fun k h0 hmax =>
        writes_doLoadMapfd (k := k) h hτ hσ hinner hlook h0 hmax
      exact ⟨(hwrites 0 le_rfl (by decide)).1, fun k h0 hmax => (hwrites k h0 hmax).2⟩
    · have hvalue : (info.platform.getMapType mapType).valueType ≠ .map := heq ▸ hmaps
      unfold MapDescriptor.lookupResult at hresult
      rw [if_neg hmaps] at hresult
      obtain rfl := Option.some.inj hresult
      rw [if_neg hvalue] at hlook
      obtain ⟨size, hsize, hlook⟩ := Option.bind_eq_some_iff.mp hlook
      obtain rfl := Option.some.inj hlook
      have hw₁ := (wf_assignValidPtr (R := R) h.values 0 true).assignInt (R.reg .sharedOffsets 0) 0
      have hw₂ := hw₁.set (R.reg .sharedRegionSizes 0) size
      -- the state after the first writes
      have hmodels : ∀ k, 0 ≤ k → k ≤ ptrMax → ∃ σ₂ : V → ℤ, σ₂ (R.reg .sharedRegionSizes 0) = m.valueSize ∧
          ((((assignValidPtr R d.rcp 0 true).values.assignInt (R.reg .sharedOffsets 0) 0).set
            (R.reg .sharedRegionSizes 0) size)).Models σ₂ := by
        intro k h0 hmax
        have hm₁ := models_assignInt (wf_assignValidPtr (R := R) h.values 0 true)
          (models_assignValidPtr h.values hσ h0 hmax) (v := R.reg .sharedOffsets 0) 0
        have hmem := AddBottom.mem_evalInterval hm₁ (.var (R.reg .mapFds fdReg))
        rw [LinearExpression.eval_var, Function.update_of_ne (reg_ne (by decide)),
          withPtr_of_ne (by decide) (by decide)] at hmem
        exact ⟨_, Function.update_self .., models_set hw₁ hm₁ (mem_getMapValueSize hsize hmem hm)⟩
      have hwf : TypeToNumDomain.WF ⟨d.rcp.types.assignType (R.regType 0) (.const TypeEncoding.shared.toInt),
          ((assignValidPtr R d.rcp 0 true).values.assignInt (R.reg .sharedOffsets 0) 0).set
            (R.reg .sharedRegionSizes 0) size⟩ := ⟨h.types.assign _ _, hw₂⟩
      refine ⟨wf_sharedOrNull hwf, fun k h0 hmax => ?_⟩
      obtain ⟨σ₂, hsize₂, hσ₂⟩ := hmodels k h0 hmax
      exact ⟨_, _, writes_sharedOrNull hwf (models_assignType h.types hτ _ _) hσ₂ hsize₂ h0 hmax⟩

/-- The steps of a call of a lookup. -/
theorem call_of_lookup (hlookup : c.isMapLookup = true) (hfd : maybeFdReg c = some fdReg)
    (hbot : d.isBottom = false) (hwrites : c.pairs.foldlM (writeMem R opts) d arrays = some (d₁, arrays₁))
    (hcall : call R info opts c d arrays = some (d', arrays')) :
    ∃ rcp, mapLookup R info (lookupStart R d₁) (some fdReg) = some rcp ∧
      ((d'.rcp = scratchCallerSavedRegisters R rcp) ∨
        forgetPacketPointers R info { d₁ with rcp := scratchCallerSavedRegisters R rcp } = some d') := by
  unfold call at hcall
  rw [if_neg (by rw [hbot]; simp)] at hcall
  obtain ⟨⟨d₂, arrays₂⟩, hd₂, hcall⟩ := Option.bind_eq_some_iff.mp hcall
  obtain ⟨rfl, rfl⟩ := Prod.mk.inj (Option.some.inj (hwrites.symm.trans hd₂))
  obtain ⟨⟨rcp, arrays₃⟩, hrcp, hcall⟩ := Option.bind_eq_some_iff.mp hcall
  obtain ⟨hres, rfl⟩ := liftM_eq_some.mp hrcp
  unfold callResult at hres
  simp only [hlookup, if_true, hfd] at hres
  refine ⟨rcp, hres, ?_⟩
  simp only at hcall
  split_ifs at hcall
  · exact Or.inr (liftM_eq_some.mp hcall).1
  · obtain ⟨rfl, -⟩ := Prod.mk.inj (Option.some.inj hcall)
    exact Or.inl rfl

/-- What comes after `r0` is written only forgets. -/
theorem passes_afterLookup {rcp : TypeToNumDomain V} (h : rcp.WF)
    (hafter : (d'.rcp = scratchCallerSavedRegisters R rcp) ∨
      forgetPacketPointers R info { d₁ with rcp := scratchCallerSavedRegisters R rcp } = some d') :
    Passes R.Packet rcp d'.rcp := by
  have hscratch := passes_scratchCallerSavedRegisters (R := R) (K := R.Packet) h
  rcases hafter with heq | hforget
  · rwa [heq]
  · exact hscratch.trans (passes_forgetPacketPointers hscratch.wf hforget)

theorem Writes.admitsResult {result : TypeEncoding × List (DataKind × ℤ)} {rcp rcp' : TypeToNumDomain V}
    (h : Writes R result rcp k τ σ) (hpass : Passes R.Packet rcp rcp') : AdmitsResult R rcp' result k := by
  obtain ⟨σ', hσ', heq⟩ := hpass.values σ h.values
  have hreg : ∀ kind, σ' (R.reg kind 0) = σ (R.reg kind 0) := fun kind => heq _ (R.reg_not_packet _ _)
  refine ⟨τ, σ', ⟨hpass.types τ h.types, σ', fun _ _ => rfl, hσ'⟩, h.type, ?_, ?_, fun e he => ?_⟩
  · exact (hreg _).trans h.svalue
  · exact (hreg _).trans h.uvalue
  · exact (hreg _).trans (h.result e he)

/-! ## The state in which the lookup starts -/

omit [LinearOrder V] in
/-- A kind variable of the type that a register has. -/
theorem not_meaningless {r : Reg} {kind : DataKind} {e : TypeEncoding × List DataKind}
    (he : e ∈ typeToKinds) (hkind : kind ∈ e.2) (hτ : τ (R.regType r) = e.1) :
    ¬ Meaningless R.toVariableRegistry τ (R.reg kind r) := by
  rintro ⟨v, hv, e', he', hne, kind', hkind', heq⟩
  obtain ⟨l, rfl⟩ := R.location v hv
  rw [R.reg_eq] at heq
  obtain ⟨rfl, rfl⟩ := R.kindVar_eq heq
  rw [typeToKinds_unique e he e' he' kind hkind hkind', R.regType_eq] at hτ
  exact hne hτ

/-- A state before the call leads to one in which the lookup starts, with the same map. -/
theorem exists_models_lookupStart (hd : d.rcp.WF) (hargs : ArgTypes R c fdReg τ)
    (hτσ : d.rcp.Models R.toVariableRegistry τ σ)
    (hwrites : c.pairs.foldlM (writeMem R opts) d arrays = some (d₁, arrays₁)) :
    (lookupStart R d₁).rcp.WF ∧ (lookupStart R d₁).rcp.types.Models τ ∧
      ∃ σ₁, (lookupStart R d₁).rcp.values.Models σ₁ ∧
        σ₁ (R.reg .mapFds fdReg) = σ (R.reg .mapFds fdReg) := by
  obtain ⟨hτ, σ', hagree, hσ'⟩ := hτσ
  obtain ⟨hfrom, hτ₁⟩ := writeMems_spec hd hτ hσ' hwrites
  obtain ⟨σ₁, hσ₁, heq⟩ := hfrom.values.models σ' hσ'
  have hm := models_havoc hfrom.values.wf hσ₁ (v := R.reg .stackNumericSizes 0)
    (σ₁ (R.reg .stackNumericSizes 0))
  rw [Function.update_eq_self] at hm
  refine ⟨⟨hfrom.types, hfrom.values.wf.havoc _⟩, hτ₁, σ₁, hm, ?_⟩
  rw [heq _ ?_]
  · exact (hagree _ (not_meaningless (e := (.map, [.mapFds])) (by decide) (by decide) hargs.map)).symm
  · rintro (hcell | ⟨arg, harg, kind, hreg⟩)
    · exact R.reg_not_cell _ _ hcell
    · obtain ⟨-, rfl⟩ := reg_inj.mp hreg
      exact hargs.mem arg harg hargs.map

theorem lookupSound_of_safe (hd : d.rcp.WF) (hlookup : c.isMapLookup = true)
    (hfd : maybeFdReg c = some fdReg)
    (hargs : ∀ τ σ, d.rcp.Models R.toVariableRegistry τ σ → ArgTypes R c fdReg τ)
    (hwrites : c.pairs.foldlM (writeMem R opts) d arrays = some (d₁, arrays₁))
    (hcall : call R info opts c d arrays = some (d', arrays'))
    (hsafe : LookupSafe R info fdReg d (lookupStart R d₁)) : LookupSound R info fdReg d d' := by
  intro τ σ m result hlooks k h0 hmax
  have hbot : d.isBottom = false := isBottom_of_models hlooks.models
  obtain ⟨rcp, hlook, hafter⟩ := call_of_lookup hlookup hfd hbot hwrites hcall
  obtain ⟨hwf, hτ₁, σ₁, hσ₁, hmap⟩ := exists_models_lookupStart hd (hargs τ σ hlooks.models)
    hlooks.models hwrites
  obtain ⟨hwf', hwrites'⟩ := writes_mapLookup hwf hτ₁ hσ₁ (hmap ▸ hlooks.map) hlooks.result
    (hsafe τ σ m result hlooks) hlook
  obtain ⟨τ', σ', hw⟩ := hwrites' k h0 hmax
  exact hw.admitsResult (passes_afterLookup hwf' hafter)

end Prevail
