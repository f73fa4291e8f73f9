import Prevail.Crab.LookupSound

/-!
# When map lookups are not sound

The steps after `r0` is written keep its type and the bounds of its values. So what the lookup wrote
for `r0` can be read off the state after the call, and a lookup that is sound started from a safe
state. For the size of the value this takes a start in normal form, where each number within the bounds
is possible.
-/

namespace Prevail

open AddBottom TypeToNumDomain EbpfTransformer ProgramVariables

variable {V : Type} [LinearOrder V] {R : ProgramVariables V} {info : ProgramInfo}
  {opts : VerifierOptions} {d d' d₁ : EbpfDomain V} {rcp rcp' : TypeToNumDomain V} {fdReg : Reg}
  {c : CallInfo} {τ : V → TypeEncoding} {σ : V → ℤ} {m : MapDescriptor} {fd k : ℤ}
  {type : TypeEncoding} {result : TypeEncoding × List (DataKind × ℤ)}
  {arrays arrays' arrays₁ : ArrayMap}

/-! ## What the lookup writes -/

/-- `r0` has the type and no other. -/
def HasType (R : ProgramVariables V) (rcp : TypeToNumDomain V) (type : TypeEncoding) : Prop :=
  ∀ k ∈ rcp.types.inv.evalInterval (.var (R.regType 0)), k = type.toInt

theorem hasType_assignType (h : rcp.WF) (values : AddBottom V) (type : TypeEncoding) :
    HasType R ⟨rcp.types.assignType (R.regType 0) (.const type.toInt), values⟩ type :=
  fun _ hk => eq_of_mem_assign h.types hk

theorem HasType.mayHaveType (h : HasType R rcp type) {type' : TypeEncoding} (hne : type' ≠ type) :
    rcp.types.mayHaveType (R.regType 0) type' = false := by
  cases hmay : rcp.types.mayHaveType (R.regType 0) type' with
  | false => rfl
  | true => exact absurd (TypeEncoding.toInt_inj (h _ (Interval.contains_iff.mp hmay))) hne

/-- A pointer is assigned its number only. -/
theorem keeps_assignValidPtr {S : Option V → Prop} (h : rcp.values.WF) {r : Reg}
    (hs : ∀ y, S y → y ≠ some (R.reg .svalues r)) (hu : ∀ y, S y → y ≠ some (R.reg .uvalues r))
    (maybeNull : Bool) : Keeps S rcp.values (assignValidPtr R rcp r maybeNull).values := by
  have h₁ := h.havoc (R.reg .svalues r)
  have h₂ := h₁.havoc (R.reg .uvalues r)
  set lower := if maybeNull then LinearExpression.le (.const 0) (.var (R.reg .svalues r))
    else LinearExpression.lt (.const 0) (.var (R.reg .svalues r)) with hlower
  have hkind : lower.kind ≠ .notZero := by
    rw [hlower]
    split_ifs <;> exact fun h => by cases h
  have h₃ := h₂.addConstraint lower
  set upper := LinearExpression.le (.var (R.reg .svalues r)) (.const ptrMax) with hupper
  have hkind' : upper.kind ≠ .notZero := fun h => by cases h
  refine (keeps_havoc h hs).trans ((keeps_havoc h₁ hu).trans ?_)
  refine (keeps_addConstraint h₂ hkind).trans ((keeps_addConstraint h₃ hkind').trans ?_)
  exact keeps_assign (h₃.addConstraint upper) _ hu

/-- The values of `r0` other than its number. -/
def Attribute (R : ProgramVariables V) (y : Option V) : Prop :=
  y = none ∨ ∃ kind, (kind ≠ .svalues ∧ kind ≠ .uvalues) ∧ y = some (R.reg kind 0)

omit [LinearOrder V] in
theorem attribute_ne {kind : DataKind} (hkind : kind = .svalues ∨ kind = .uvalues) (y : Option V)
    (hy : Attribute R y) : y ≠ some (R.reg kind 0) := by
  rcases hy with rfl | ⟨kind', ⟨hs, hu⟩, rfl⟩
  · exact fun h => by cases h
  · intro heq
    obtain rfl := (reg_inj.mp (Option.some.inj heq)).1
    exact hkind.elim hs hu

theorem keeps_assignValidPtr_attribute (h : rcp.values.WF) :
    Keeps (Attribute R) rcp.values (assignValidPtr R rcp 0 true).values :=
  keeps_assignValidPtr h (attribute_ne (Or.inl rfl)) (attribute_ne (Or.inr rfl)) true

/-- The size of the value is one that `r0` had. -/
theorem mem_size_of_sharedOrNull (h : rcp.WF)
    (hk : k ∈ (sharedOrNull R rcp).values.evalInterval (.var (R.reg .sharedRegionSizes 0))) :
    k ∈ rcp.values.evalInterval (.var (R.reg .sharedRegionSizes 0)) := by
  let S (y : Option V) : Prop := y = none ∨ y = some (R.reg .sharedRegionSizes 0)
  have hne : ∀ {kind : DataKind}, kind ≠ .sharedRegionSizes → ∀ y, S y → y ≠ some (R.reg kind 0) := by
    rintro kind hkind y (rfl | rfl) heq
    · cases heq
    · exact hkind (reg_inj.mp (Option.some.inj heq)).1.symm
  have h₁ : Keeps S rcp.values (assignValidPtr R rcp 0 true).values :=
    keeps_assignValidPtr h.values (hne (by decide)) (hne (by decide)) true
  have h₂ : Keeps S (assignValidPtr R rcp 0 true).values (sharedOrNull R rcp).values :=
    keeps_assignInt (wf_assignValidPtr h.values 0 true) 0 (hne (by decide))
  exact (h₁.trans h₂).mem_evalInterval (Or.inr rfl) (Or.inl rfl) hk

/-- The descriptor that is loaded, and its type. -/
theorem hasType_doLoadMapfd (h : rcp.WF) (hload : doLoadMapfd R info rcp 0 fd true = some rcp') :
    rcp'.WF ∧ ∃ desc, info.platform.getMapDescriptor fd = some desc ∧
      HasType R rcp' (desc.encoding info).1 ∧
      ∀ k ∈ rcp'.values.evalInterval (.var (R.reg (desc.encoding info).2 0)), k = fd := by
  obtain ⟨desc, hdesc, hload⟩ := Option.bind_eq_some_iff.mp hload
  have hkind : (desc.encoding info).2 ≠ .svalues ∧ (desc.encoding info).2 ≠ .uvalues := by
    unfold MapDescriptor.encoding
    split_ifs <;> decide
  have hform : some rcp' = some (assignValidPtr R
      { rcp.assignType (R.regType 0) (.const (desc.encoding info).1.toInt) with
        values := rcp.values.assignInt (R.reg (desc.encoding info).2 0) fd } 0 true) := by
    rw [← hload]
    unfold MapDescriptor.encoding
    split_ifs <;> rfl
  obtain rfl := Option.some.inj hform
  have hset := h.values.assignInt (R.reg (desc.encoding info).2 0) fd
  refine ⟨⟨h.types.assign _ _, wf_assignValidPtr hset 0 true⟩, desc, hdesc,
    hasType_assignType h _ _, fun k hk => ?_⟩
  exact eq_of_mem_assignInt h.values
    ((keeps_assignValidPtr_attribute hset).mem_evalInterval (Or.inr ⟨_, hkind, rfl⟩) (Or.inl rfl) hk)

/-! ## What is read off the state after the call -/

theorem keepsReg_afterLookup (h : rcp.WF) (htype : HasType R rcp type) (hne : .packet ≠ type)
    (hafter : (d'.rcp = scratchCallerSavedRegisters R rcp) ∨
      forgetPacketPointers R info { d₁ with rcp := scratchCallerSavedRegisters R rcp } = some d') :
    KeepsReg R 0 rcp d'.rcp := by
  have hscratch := keepsReg_scratchCallerSavedRegisters (R := R) h
  rcases hafter with heq | hforget
  · rwa [heq]
  · refine hscratch.trans (keepsReg_forgetPacketPointers hscratch.wf ?_ hforget)
    cases hmay : (scratchCallerSavedRegisters R rcp).types.mayHaveType (R.regType 0) .packet with
    | false => rfl
    | true => exact (hscratch.mayHaveType hmay).symm.trans (htype.mayHaveType hne)

theorem AdmitsResult.type_eq (h : AdmitsResult R rcp' result k) (hkeep : KeepsReg R 0 rcp rcp')
    (htype : HasType R rcp type) : result.1 = type := by
  obtain ⟨τ, σ, ⟨hτ, -⟩, hτ0, -⟩ := h
  have hmem := AddBottom.mem_evalInterval hτ (.var (R.regType 0))
  rw [LinearExpression.eval_var, hτ0] at hmem
  exact TypeEncoding.toInt_inj (htype _ (hkeep.mem_type hmem))

theorem AdmitsResult.mem_value (h : AdmitsResult R rcp' result k) (hkeep : KeepsReg R 0 rcp rcp')
    {e : DataKind × ℤ} (he : e ∈ result.2) {t : TypeEncoding × List DataKind} (ht : t ∈ typeToKinds)
    (htype : result.1 = t.1) (hkind : e.1 ∈ t.2) :
    e.2 ∈ rcp.values.evalInterval (.var (R.reg e.1 0)) := by
  obtain ⟨τ, σ, ⟨-, σ', hagree, hσ'⟩, hτ0, -, -, hvalue⟩ := h
  have hmem := AddBottom.mem_evalInterval hσ' (.var (R.reg e.1 0))
  rw [LinearExpression.eval_var, ← hagree _ (not_meaningless ht hkind (hτ0.trans htype)),
    hvalue e he] at hmem
  exact hkeep.mem_value hmem

/-! ## A sound lookup -/

/-- The types and kinds of maps go together. -/
theorem encoding_eq {m m' : MapDescriptor} (h : (m.encoding info).1 = (m'.encoding info).1) :
    m.encoding info = m'.encoding info := by
  unfold MapDescriptor.encoding at h ⊢
  split_ifs at h ⊢ <;> rfl

theorem encoding_mem (m : MapDescriptor) : ∃ t ∈ typeToKinds, (m.encoding info).1 = t.1 ∧
    (m.encoding info).2 ∈ t.2 := by
  unfold MapDescriptor.encoding
  split_ifs
  · exact ⟨(.mapPrograms, [.mapFdPrograms]), by decide, rfl, by decide⟩
  · exact ⟨(.map, [.mapFds]), by decide, rfl, by decide⟩

theorem encoding_ne_shared (m : MapDescriptor) : (m.encoding info).1 ≠ .shared ∧
    .packet ≠ (m.encoding info).1 := by
  unfold MapDescriptor.encoding
  split_ifs <;> decide

/-- What a lookup in a map of maps returns. -/
theorem lookupResult_of_isMapOfMaps (hm : m.IsMapOfMaps info) (h : m.lookupResult info = some result) :
    ∃ inner, info.platform.getMapDescriptor m.innerMapFd.toInt = some inner ∧
      result = ((inner.encoding info).1, [((inner.encoding info).2, m.innerMapFd.toInt)]) := by
  unfold MapDescriptor.lookupResult at h
  rw [if_pos hm] at h
  obtain ⟨inner, hinner, h⟩ := Option.bind_eq_some_iff.mp h
  exact ⟨inner, hinner, (Option.some.inj h).symm⟩

/-- A map whose result may be a pointer to a value. -/
theorem lookupResult_of_shared (h : m.lookupResult info = some result) (htype : result.1 = .shared) :
    ¬ m.IsMapOfMaps info ∧ (.sharedRegionSizes, (m.valueSize : ℤ)) ∈ result.2 := by
  by_cases hm : m.IsMapOfMaps info
  · obtain ⟨inner, -, rfl⟩ := lookupResult_of_isMapOfMaps hm h
    exact absurd htype (encoding_ne_shared inner).1
  · unfold MapDescriptor.lookupResult at h
    rw [if_neg hm] at h
    obtain rfl := Option.some.inj h
    exact ⟨hm, List.mem_cons_of_mem _ (List.mem_singleton.mpr rfl)⟩

theorem lookupSafe_of_sound (hd : d.rcp.WF) (hlookup : c.isMapLookup = true)
    (hfd : maybeFdReg c = some fdReg)
    (hargs : ∀ τ σ, d.rcp.Models R.toVariableRegistry τ σ → ArgTypes R c fdReg τ)
    (hwrites : c.pairs.foldlM (writeMem R opts) d arrays = some (d₁, arrays₁))
    (hcall : call R info opts c d arrays = some (d', arrays'))
    (hn : (lookupStart R d₁).rcp.values.NormalForm) (hsound : LookupSound R info fdReg d d') :
    LookupSafe R info fdReg d (lookupStart R d₁) := by
  intro τ σ m result hlooks
  have hadmits := hsound τ σ m result hlooks 0 le_rfl (by decide)
  have hbot : d.isBottom = false := isBottom_of_models hlooks.models
  obtain ⟨rcp, hlook, hafter⟩ := call_of_lookup hlookup hfd hbot hwrites hcall
  obtain ⟨hwf, hτ₁, σ₁, hσ₁, hmap⟩ := exists_models_lookupStart hd (hargs τ σ hlooks.models)
    hlooks.models hwrites
  have hm := hlooks.map
  rw [← hmap] at hm
  have hfd₁ := AddBottom.mem_evalInterval hσ₁ (.var (R.reg .mapFds fdReg))
  rw [LinearExpression.eval_var] at hfd₁
  obtain ⟨mapType?, htype, hlook⟩ := Option.bind_eq_some_iff.mp hlook
  rw [htype]
  cases mapType? with
  | none =>
    obtain rfl := Option.some.inj hlook
    have hshared : HasType R (sharedOrNull R (lookupStart R d₁).rcp) .shared :=
      hasType_assignType hwf _ _
    have hkeep := keepsReg_afterLookup (wf_sharedOrNull hwf) hshared (by decide) hafter
    obtain ⟨hnot, hsize⟩ := lookupResult_of_shared hlooks.result (hadmits.type_eq hkeep hshared)
    have hmem := hadmits.mem_value hkeep hsize (t := (.shared, [.sharedOffsets, .sharedRegionSizes]))
      (by decide) (hadmits.type_eq hkeep hshared) (by simp)
    exact ⟨hnot, exists_models_of_mem hwf.values hn (mem_size_of_sharedOrNull hwf hmem)⟩
  | some mapType =>
    intro hvalue
    have hmaps : m.IsMapOfMaps info := by
      rw [← type_of_getMapType htype hfd₁ hm] at hvalue
      exact hvalue
    obtain ⟨inner, hinner, rfl⟩ := lookupResult_of_isMapOfMaps hmaps hlooks.result
    simp only at hlook
    rw [if_pos hvalue] at hlook
    obtain ⟨innerMapFd?, hfound, hlook⟩ := Option.bind_eq_some_iff.mp hlook
    rw [hfound]
    cases innerMapFd? with
    | none =>
      obtain rfl := Option.some.inj hlook
      have hshared : HasType R (sharedOrNull R (lookupStart R d₁).rcp) .shared :=
        hasType_assignType hwf _ _
      have hkeep := keepsReg_afterLookup (wf_sharedOrNull hwf) hshared (by decide) hafter
      exact absurd (hadmits.type_eq hkeep hshared) (encoding_ne_shared inner).1
    | some innerMapFd =>
      obtain ⟨hwf', desc, hdesc, hdescType, hdescFd⟩ := hasType_doLoadMapfd hwf hlook
      have hkeep := keepsReg_afterLookup hwf' hdescType (encoding_ne_shared desc).2 hafter
      have henc := encoding_eq (hadmits.type_eq hkeep hdescType)
      obtain ⟨t, ht, htype, hkind⟩ := @encoding_mem info inner
      have hmem := hadmits.mem_value hkeep (List.mem_singleton.mpr rfl) ht htype hkind
      rw [show (inner.encoding info).2 = (desc.encoding info).2 by rw [henc]] at hmem
      rw [BitVec.toInt_inj.mp (hdescFd _ hmem)]

/-! ## Lookups that are accepted -/

/-- A call of a lookup that passes its assertions is sound when the lookup starts from a safe state.
When nothing is hidden in the zone with which it starts, it is sound only then. -/
theorem lookupSound_iff {label : Option Label} {f : Frame} (hd : d.rcp.WF)
    (hlookup : c.isMapLookup = true) (hfd : maybeFdReg c = some fdReg)
    (haccepts : Accepts R info opts d (getAssertions (.call c f) info label))
    (hwrites : c.pairs.foldlM (writeMem R opts) d arrays = some (d₁, arrays₁))
    (hcall : call R info opts c d arrays = some (d', arrays')) :
    (LookupSafe R info fdReg d (lookupStart R d₁) → LookupSound R info fdReg d d') ∧
      ((lookupStart R d₁).rcp.values.NormalForm → LookupSound R info fdReg d d' →
        LookupSafe R info fdReg d (lookupStart R d₁)) := by
  have hargs : ∀ τ σ, d.rcp.Models R.toVariableRegistry τ σ → ArgTypes R c fdReg τ :=
    fun τ σ h => argTypes_of_accepts hd.types (isBottom_of_models h) h.1 hfd haccepts
  exact ⟨lookupSound_of_safe hd hlookup hfd hargs hwrites hcall,
    fun hn => lookupSafe_of_sound hd hlookup hfd hargs hwrites hcall hn⟩

/-- An array with values of eight bytes and a hash table with values of four. -/
def twoMapPlatform : MapPlatform where
  supportsGroup _ := true
  isHelperUsable n := n = 1
  getHelperPrototype _ :=
    ⟨"map_lookup_elem", .ptrToMapValueOrNull,
      (.ptrToMap, .ptrToMapKey, .dontcare, .dontcare, .dontcare), false⟩
  getMapDescriptor fd :=
    if fd = 1 then some ⟨2, 4, 8, 10, 0⟩ else if fd = 2 then some ⟨1, 4, 4, 10, 0⟩ else none
  getMapType type := ⟨type = 2, .any⟩

def twoMapInfo : ProgramInfo := ⟨twoMapPlatform, false, ⟨0, -1, -1, -1⟩⟩

def mapLookupElem : CallInfo :=
  ⟨1, "map_lookup_elem", true, false, [⟨.mapFd, false, 1⟩, ⟨.ptrToMapKey, false, 2⟩], []⟩

/-- One of the maps up to `n` in `r1`, a key in `r2`, and what an earlier lookup left in `r0`. -/
def lookupState (n : ℤ) : EbpfDomain ProgramVariables.Name :=
  let R := ProgramVariables.named []
  ⟨⟨⟨setAll AddBottom.top [(R.regType 1, .const TypeEncoding.map.toInt),
      (R.regType 2, .const TypeEncoding.shared.toInt)]⟩,
    setAll AddBottom.top [(R.reg .mapFds 1, .ofInts 1 n), (R.reg .sharedOffsets 2, .const 0),
      (R.reg .sharedRegionSizes 2, .const 8), (R.reg .svalues 2, .const 64),
      (R.reg .sharedRegionSizes 0, .const 16)]⟩, .top⟩

theorem wf_lookupState (n : ℤ) : (lookupState n).rcp.WF :=
  ⟨wf_setAll wf_top, wf_setAll wf_top⟩

theorem accepts_lookupState : ∀ n ∈ [(1 : ℤ), 2],
    Accepts (.named []) twoMapInfo ⟨false, true, false⟩ (lookupState n)
      (getAssertions (.call mapLookupElem []) twoMapInfo none) := by
  intro n hn
  refine ⟨[.validCall 1 [], .typeConstraint 1 .mapFd, .typeConstraint 2 .mem,
    .validMapKeyValue 2 1 true], rfl, ?_⟩
  revert n
  unfold Except.Succeeds
  decide

theorem call_lookupState : ∀ n ∈ [(1 : ℤ), 2],
    (call (.named []) twoMapInfo ⟨false, true, false⟩ mapLookupElem (lookupState n)
      fun _ => .empty).isSome := by
  decide

/-- The lookup in the array. -/
theorem lookupSound_iff_array : ∃ d' arrays',
    call (.named []) twoMapInfo ⟨false, true, false⟩ mapLookupElem (lookupState 1) (fun _ => .empty) =
        some (d', arrays') ∧
      (LookupSafe (.named []) twoMapInfo 1 (lookupState 1) (lookupStart (.named []) (lookupState 1)) →
        LookupSound (.named []) twoMapInfo 1 (lookupState 1) d') ∧
      ((lookupStart (.named []) (lookupState 1)).rcp.values.NormalForm →
        LookupSound (.named []) twoMapInfo 1 (lookupState 1) d' →
          LookupSafe (.named []) twoMapInfo 1 (lookupState 1)
            (lookupStart (.named []) (lookupState 1))) := by
  obtain ⟨⟨d', arrays'⟩, hcall⟩ := Option.isSome_iff_exists.mp (call_lookupState 1 (by simp))
  exact ⟨d', arrays', hcall, lookupSound_iff (wf_lookupState 1) rfl rfl
    (accepts_lookupState 1 (by simp)) rfl hcall⟩

/-- The types when the lookup starts. -/
def lookupTypes (v : ProgramVariables.Name) : TypeEncoding :=
  if v = (named []).regType 1 then .map else if v = (named []).regType 2 then .shared else .uninit

/-- The values when the lookup starts, with the array in `r1`. -/
def lookupValues (v : ProgramVariables.Name) : ℤ :=
  if v = (named []).reg .mapFds 1 then 1
  else if v = (named []).reg .sharedRegionSizes 2 then 8
  else if v = (named []).reg .svalues 2 then 64
  else if v = (named []).reg .sharedRegionSizes 0 then 16 else 0

theorem models_lookupTypes : (lookupState 2).rcp.types.Models lookupTypes :=
  models_setAll_top (by decide)

theorem models_lookupValues : (lookupState 2).rcp.values.Models lookupValues :=
  models_setAll_top (by decide)

theorem looks_lookupState : Looks (.named []) twoMapInfo 1 (lookupState 2).rcp lookupTypes lookupValues
    ⟨2, 4, 8, 10, 0⟩ (.shared, [(.sharedOffsets, 0), (.sharedRegionSizes, 8)]) where
  models := ⟨models_lookupTypes, lookupValues, fun _ _ => rfl, models_lookupValues⟩
  map := rfl
  result := rfl

theorem normalForm_lookupStart :
    (lookupStart (.named []) (lookupState 2)).rcp.values.NormalForm := by
  rintro _ ⟨⟩
  exact SplitDbm.normalForm_of_entries (by decide) (by decide)

theorem not_lookupSafe_twoMaps :
    ¬ LookupSafe (.named []) twoMapInfo 1 (lookupState 2) (lookupStart (.named []) (lookupState 2)) := by
  intro hsafe
  have htype : (lookupStart (.named []) (lookupState 2)).getMapType (.named []) twoMapInfo 1 =
      some none := by decide
  have hsize := hsafe _ _ _ _ looks_lookupState
  rw [htype] at hsize
  obtain ⟨-, σ, hσ, hsize⟩ := hsize
  have hmem := AddBottom.mem_evalInterval hσ (.var ((named []).reg .sharedRegionSizes 0))
  rw [LinearExpression.eval_var, hsize, ← Interval.contains_iff] at hmem
  revert hmem
  decide

theorem argTypes_lookupState (τ : ProgramVariables.Name → TypeEncoding) (σ : ProgramVariables.Name → ℤ)
    (h : (lookupState 2).rcp.Models (named []).toVariableRegistry τ σ) :
    ArgTypes (.named []) mapLookupElem 1 τ :=
  argTypes_of_accepts (wf_lookupState 2).types (isBottom_of_models h) h.1 rfl
    (accepts_lookupState 2 (by simp))

/-- Of two maps with values of eight and four bytes, a lookup returns values of the size sixteen that
`r0` had before. -/
theorem not_lookupSound_twoMaps : ∃ d' arrays',
    call (.named []) twoMapInfo ⟨false, true, false⟩ mapLookupElem (lookupState 2) (fun _ => .empty) =
        some (d', arrays') ∧
      Accepts (.named []) twoMapInfo ⟨false, true, false⟩ (lookupState 2)
        (getAssertions (.call mapLookupElem []) twoMapInfo none) ∧
      ¬ LookupSound (.named []) twoMapInfo 1 (lookupState 2) d' := by
  obtain ⟨⟨d', arrays'⟩, hcall⟩ := Option.isSome_iff_exists.mp (call_lookupState 2 (by simp))
  refine ⟨d', arrays', hcall, accepts_lookupState 2 (by simp), fun hsound => ?_⟩
  have hwrites : mapLookupElem.pairs.foldlM (writeMem (.named []) ⟨false, true, false⟩) (lookupState 2)
      (fun _ => .empty) = some (lookupState 2, fun _ => .empty) := rfl
  have hlookup : mapLookupElem.isMapLookup = true := rfl
  have hfd : maybeFdReg mapLookupElem = some 1 := rfl
  refine not_lookupSafe_twoMaps ?_
  apply lookupSafe_of_sound (d := lookupState 2) (c := mapLookupElem)
  · exact wf_lookupState 2
  · exact hlookup
  · exact hfd
  · exact argTypes_lookupState
  · exact hwrites
  · exact hcall
  · exact normalForm_lookupStart
  · exact hsound

end Prevail
