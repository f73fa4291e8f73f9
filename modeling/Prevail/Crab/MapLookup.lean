import Prevail.Crab.Forgetting
import Prevail.Crab.IndirectCall

/-!
# Map lookups

A lookup returns a pointer to the value, or null; in a map of maps it returns the inner map. The
register of the map may hold one of several descriptors, and `r0` must admit what the lookup returns
for each of them.

The source asks for the inner map of all descriptors and compares the wrong field. When it does not
know the type of the map it returns a pointer to a value, and leaves the size of the value that `r0`
had. So a lookup is sound when the state with which it starts is safe (`LookupSafe`).
-/

namespace Prevail

open AddBottom TypeToNumDomain EbpfTransformer StateT

variable {V : Type} [LinearOrder V] {R : ProgramVariables V} {info : ProgramInfo}
  {opts : VerifierOptions} {d d' d₁ : EbpfDomain V} {fdReg : Reg} {c : CallInfo}
  {τ : V → TypeEncoding} {σ : V → ℤ} {arrays arrays' arrays₁ : ArrayMap}

/-- Whether the values of the map are maps. -/
def MapDescriptor.IsMapOfMaps (info : ProgramInfo) (m : MapDescriptor) : Prop :=
  (info.platform.getMapType m.type).valueType = .map

instance (m : MapDescriptor) : Decidable (m.IsMapOfMaps info) :=
  inferInstanceAs (Decidable (_ = _))

/-- The type of a map, and the kind of its descriptor. -/
def MapDescriptor.encoding (info : ProgramInfo) (m : MapDescriptor) : TypeEncoding × DataKind :=
  if (info.platform.getMapType m.type).valueType = .program then (.mapPrograms, .mapFdPrograms)
  else (.map, .mapFds)

/-- The type of what a lookup in the map returns, and the values that belong to it. -/
def MapDescriptor.lookupResult (info : ProgramInfo) (m : MapDescriptor) :
    Option (TypeEncoding × List (DataKind × ℤ)) :=
  if m.IsMapOfMaps info then do
    let inner ← info.platform.getMapDescriptor m.innerMapFd.toInt
    let (type, kind) := inner.encoding info
    return (type, [(kind, m.innerMapFd.toInt)])
  else some (.shared, [(.sharedOffsets, 0), (.sharedRegionSizes, m.valueSize)])

/-- `r0` may be a pointer with the number `k`, which is null when the number is zero. -/
def AdmitsResult (R : ProgramVariables V) (d : TypeToNumDomain V)
    (result : TypeEncoding × List (DataKind × ℤ)) (k : ℤ) : Prop :=
  ∃ τ σ, d.Models R.toVariableRegistry τ σ ∧ τ (R.regType 0) = result.1 ∧
    σ (R.reg .svalues 0) = k ∧ σ (R.reg .uvalues 0) = k ∧ ∀ e ∈ result.2, σ (R.reg e.1 0) = e.2

/-- A state before the lookup, the map that its register refers to, and what the lookup returns. -/
structure Looks (R : ProgramVariables V) (info : ProgramInfo) (fdReg : Reg) (d : TypeToNumDomain V)
    (τ : V → TypeEncoding) (σ : V → ℤ) (m : MapDescriptor)
    (result : TypeEncoding × List (DataKind × ℤ)) : Prop where
  models : d.Models R.toVariableRegistry τ σ
  map : info.platform.getMapDescriptor (σ (R.reg .mapFds fdReg)) = some m
  result : m.lookupResult info = some result

/-- After the call `r0` admits what the lookup returns, in each state and for each map. -/
def LookupSound (R : ProgramVariables V) (info : ProgramInfo) (fdReg : Reg) (d d' : EbpfDomain V) :
    Prop :=
  ∀ τ σ m result, Looks R info fdReg d.rcp τ σ m result →
    ∀ k, 0 ≤ k → k ≤ ptrMax → AdmitsResult R d'.rcp result k

/-- The state in which the lookup starts, after the pairs of arguments. -/
def lookupStart (R : ProgramVariables V) (d : EbpfDomain V) : EbpfDomain V :=
  { d with rcp := { d.rcp with values := d.rcp.values.havoc (R.reg .stackNumericSizes 0) } }

/-- The state with which the lookup starts knows enough: when all descriptors have one type, and it is
one of maps of maps, then the inner map that is found is the right one. When the type is not known, the
map is no map of maps and the value size that `r0` has from before is possible. -/
def LookupSafe (R : ProgramVariables V) (info : ProgramInfo) (fdReg : Reg) (d d₁ : EbpfDomain V) :
    Prop :=
  ∀ τ σ m result, Looks R info fdReg d.rcp τ σ m result →
    match d₁.getMapType R info fdReg with
    | some (some mapType) => (info.platform.getMapType mapType).valueType = .map →
        d₁.getMapInnerMapFd R info fdReg = some (some m.innerMapFd)
    | _ => ¬ m.IsMapOfMaps info ∧ ∃ σ₁, d₁.rcp.values.Models σ₁ ∧
        σ₁ (R.reg .sharedRegionSizes 0) = m.valueSize

/-! ## The pairs of arguments -/

/-- What the pairs of arguments touch: cells and the registers of the addresses. -/
def PairVars (R : ProgramVariables V) (c : CallInfo) (v : V) : Prop :=
  R.Cells v ∨ ∃ arg ∈ c.pairs, ∃ kind, v = R.reg kind arg.mem

/-- The memory of one pair of arguments. -/
theorem writeMem_ensures {K : V → Prop} {x : AddBottom V} {param : ArgPair} (hd : From K x d.rcp)
    (hτ : d.rcp.types.Models τ) (hσ : x.Models σ) (hcells : ∀ v, R.Cells v → K v)
    (hmem : ∀ kind, K (R.reg kind param.mem)) :
    Ensures (writeMem R opts d param) fun d' => From K x d'.rcp ∧ d'.rcp.types.Models τ := by
  unfold writeMem
  split_ifs
  · exact Ensures.pure ⟨hd, hτ⟩
  · refine Ensures.lift_bind fun offset _ => ?_
    cases offset with
    | none => exact Ensures.pure ⟨hd, hτ⟩
    | some offset =>
      refine Ensures.bind (Q := fun r : TypeToNumDomain V × Bool => From K x r.1 ∧ r.1.types.Models τ)
        ?_ fun r hr => ?_
      · intro s r s' heq
        obtain ⟨⟨rcp, arrays, store⟩, hjoin, heq⟩ := Option.bind_eq_some_iff.mp heq
        obtain ⟨rfl, -⟩ := Prod.mk.inj (Option.some.inj heq)
        refine joinOverTypes_ensures hd hτ hσ hmem (fun rcp t hrcp => ?_) _ _ _ hjoin
        intro s rcp' s' heq
        simp only at heq
        split_ifs at heq
        · obtain ⟨⟨values, arrays⟩, hhavoc, heq⟩ := Option.bind_eq_some_iff.mp heq
          obtain ⟨rfl, -⟩ := Prod.mk.inj (Option.some.inj heq)
          have h := ArrayDomain.havocKinds_untouched (Untouched.refl hrcp.values.wf) _ _ _ hhavoc
          exact ⟨rfl, hrcp.values.trans (h.mono hcells)⟩
        · obtain ⟨rfl, -⟩ := Prod.mk.inj (Option.some.inj heq)
          exact ⟨rfl, hrcp.values⟩
      · obtain ⟨rcp, store⟩ := r
        cases store
        · exact Ensures.bind' fun _ => Ensures.pure hr
        · exact Ensures.bind' fun _ => Ensures.pure hr

/-- The memory of all pairs. -/
theorem writeMems_spec (hd : d.rcp.WF) (hτ : d.rcp.types.Models τ) (hσ : d.rcp.values.Models σ)
    (h : c.pairs.foldlM (writeMem R opts) d arrays = some (d₁, arrays₁)) :
    From (PairVars R c) d.rcp.values d₁.rcp ∧ d₁.rcp.types.Models τ := by
  refine Ensures.foldlM (Q := fun d₁ : EbpfDomain V =>
    From (PairVars R c) d.rcp.values d₁.rcp ∧ d₁.rcp.types.Models τ)
    ⟨⟨hd.types, .refl hd.values⟩, hτ⟩ ?_ _ _ _ h
  rintro arg harg d₂ ⟨hd₂, hτ₂⟩
  exact writeMem_ensures hd₂ hτ₂ hσ (fun v hv => Or.inl hv) fun kind => Or.inr ⟨arg, harg, kind, rfl⟩

/-! ## What the assertions say -/

theorem subset_of_foldlM_argSingle {args : List ArgSingle} {res₀ res : List Assertion × Option Reg}
    (h : args.foldlM (fun (res : List Assertion × Option Reg) arg => do
      let (asserts, mapFdReg) ← AssertExtractor.argSingle info res.2 arg
      return (res.1 ++ asserts, mapFdReg)) res₀ = some res) :
    (∀ a ∈ res₀.1, a ∈ res.1) ∧ ∀ arg ∈ args, ∃ mapFdReg new,
      AssertExtractor.argSingle info mapFdReg arg = some new ∧ ∀ a ∈ new.1, a ∈ res.1 := by
  induction args generalizing res₀ with
  | nil =>
    obtain rfl := Option.some.inj h
    exact ⟨fun a ha => ha, fun _ h => absurd h List.not_mem_nil⟩
  | cons arg' args ih =>
    rw [List.foldlM_cons] at h
    obtain ⟨res₁, hres₁, h⟩ := Option.bind_eq_some_iff.mp h
    obtain ⟨new, hnew, hres₁⟩ := Option.bind_eq_some_iff.mp hres₁
    obtain rfl := Option.some.inj hres₁
    obtain ⟨hsub, hmem⟩ := ih h
    refine ⟨fun a ha => hsub a (List.mem_append_left _ ha), fun arg hin => ?_⟩
    rcases List.mem_cons.mp hin with rfl | hin
    · exact ⟨res₀.2, new, hnew, fun a ha => hsub a (List.mem_append_right _ ha)⟩
    · exact hmem arg hin

/-- The assertions of each argument are among those of all. -/
theorem argSingle_subset {args : List ArgSingle} {l : List Assertion}
    (h : AssertExtractor.argSingles info args = some l) {arg : ArgSingle} (harg : arg ∈ args) :
    ∃ mapFdReg new, AssertExtractor.argSingle info mapFdReg arg = some new ∧ ∀ a ∈ new.1, a ∈ l := by
  unfold AssertExtractor.argSingles at h
  obtain ⟨res, hres, h⟩ := Option.bind_eq_some_iff.mp h
  obtain rfl := Option.some.inj h
  exact (subset_of_foldlM_argSingle hres).2 arg harg

theorem mem_argSingles {args : List ArgSingle} {l : List Assertion}
    (h : AssertExtractor.argSingles info args = some l) {arg : ArgSingle} (harg : arg ∈ args)
    (hkind : arg.kind = .mapFd) : Assertion.typeConstraint arg.reg .mapFd ∈ l := by
  obtain ⟨mapFdReg, new, hnew, hsub⟩ := argSingle_subset h harg
  unfold AssertExtractor.argSingle at hnew
  rw [hkind] at hnew
  obtain rfl := Option.some.inj hnew
  exact hsub _ (List.mem_singleton.mpr rfl)

theorem mem_singles_of_maybeFdReg (h : maybeFdReg c = some fdReg) :
    ∃ arg ∈ c.singles, arg.kind = .mapFd ∧ arg.reg = fdReg := by
  unfold maybeFdReg at h
  suffices key : ∀ (l : List ArgSingle) (res : Option Reg),
      l.foldl (fun res param => if param.kind = .mapFd then some param.reg else res) res = some fdReg →
      res = some fdReg ∨ ∃ arg ∈ l, arg.kind = .mapFd ∧ arg.reg = fdReg from
    (key _ _ h).resolve_left (by simp)
  intro l
  induction l with
  | nil => exact fun res h => Or.inl h
  | cons arg l ih =>
    intro res h
    rcases ih _ h with h | ⟨arg', harg', h⟩
    · simp only at h
      split_ifs at h with hkind
      · exact Or.inr ⟨arg, List.mem_cons_self .., hkind, Option.some.inj h⟩
      · exact Or.inl h
    · exact Or.inr ⟨arg', List.mem_cons_of_mem _ harg', h⟩

theorem eq_of_sat_typeIs {v : V} {type : TypeEncoding}
    (h : (TypeDomain.typeIs v type).Sat fun v => (τ v).toInt) : τ v = type := by
  rw [TypeDomain.typeIs, LinearExpression.sat_eq, LinearExpression.eval_var,
    LinearExpression.eval_const] at h
  exact TypeEncoding.toInt_inj h

/-- The types in a group. -/
def TypeGroup.types : TypeGroup → List TypeEncoding
  | .number => [.num]
  | .mapFd => [.map]
  | .ctx => [.ctx]
  | .ctxOrNum => [.ctx, .num]
  | .packet => [.packet]
  | .stack => [.stack]
  | .stackOrNum => [.stack, .num]
  | .shared => [.shared]
  | .mapFdPrograms => [.mapPrograms]
  | .mem => [.packet, .stack, .shared]
  | .memOrNum => [.num, .packet, .stack, .shared]
  | .pointer => [.ctx, .packet, .stack, .shared]
  | .ptrOrNum => [.num, .ctx, .packet, .stack, .shared]
  | .stackOrPacket => [.packet, .stack]
  | .singletonPtr => [.ctx, .packet, .stack]

/-- What the domain puts in a group has a type of the group. -/
theorem mem_types_of_isInGroup {t : TypeDomain V} (ht : t.inv.WF) (hτ : t.Models τ) {v : V}
    {group : TypeGroup} (h : t.isInGroup v group = true) : τ v ∈ group.types := by
  have his : ∀ {type : TypeEncoding}, t.inv.entail (TypeDomain.typeIs v type) = true → τ v = type :=
    fun h => eq_of_sat_typeIs (sat_of_entail ht h hτ)
  have hge : ∀ {type : TypeEncoding}, t.inv.entail (TypeDomain.typeGe v type) = true →
      type.toInt ≤ (τ v).toInt := by
    intro type h
    have hsat := sat_of_entail ht h hτ
    rwa [TypeDomain.typeGe, LinearExpression.sat_ge, LinearExpression.eval_var,
      LinearExpression.eval_const] at hsat
  have hle : ∀ {type : TypeEncoding}, t.inv.entail (TypeDomain.typeLe v type) = true →
      (τ v).toInt ≤ type.toInt := by
    intro type h
    have hsat := sat_of_entail ht h hτ
    rwa [TypeDomain.typeLe, LinearExpression.sat_le, LinearExpression.eval_var,
      LinearExpression.eval_const] at hsat
  have hnot : ∀ {type : TypeEncoding}, t.inv.entail (TypeDomain.typeIsNot v type) = true →
      τ v ≠ type := by
    intro type h heq
    have hsat := sat_of_entail ht h hτ
    rw [TypeDomain.typeIsNot, LinearExpression.sat_ne, LinearExpression.eval_var,
      LinearExpression.eval_const] at hsat
    exact hsat (congrArg _ heq)
  cases group
  case number | mapFd | ctx | packet | stack | shared | mapFdPrograms =>
    exact List.mem_singleton.mpr (his h)
  case ctxOrNum | stackOrNum =>
    rcases (Bool.or_eq_true _ _).mp h with h | h
    · rw [his h]
      decide
    · rw [his h]
      decide
  case mem | pointer | ptrOrNum =>
    have hlow := hge h
    revert hlow
    cases τ v <;> decide
  case memOrNum =>
    obtain ⟨h₁, h₂⟩ := (Bool.and_eq_true _ _).mp h
    have hlow := hge h₁
    have hctx := hnot h₂
    revert hlow hctx
    cases τ v <;> decide
  case stackOrPacket | singletonPtr =>
    obtain ⟨h₁, h₂⟩ := (Bool.and_eq_true _ _).mp h
    have hlow := hge h₁
    have hhigh := hle h₂
    revert hlow hhigh
    cases τ v <;> decide

/-- A register that passes the assertion about its type. -/
theorem mem_types_of_succeeds (hd : d.rcp.types.inv.WF) (hbot : d.isBottom = false)
    (hτ : d.rcp.types.Models τ) {r : Reg} {group : TypeGroup}
    (h : (ebpfDomainCheck R info opts d (.typeConstraint r group)).Succeeds) :
    τ (R.regType r) ∈ group.types := by
  rw [ebpfDomainCheck_eq hbot] at h
  exact mem_types_of_isInGroup hd hτ (EbpfChecker.succeeds_require.mp h)

/-- The types of the arguments of a call that is accepted. -/
structure ArgTypes (R : ProgramVariables V) (c : CallInfo) (fdReg : Reg) (τ : V → TypeEncoding) :
    Prop where
  map : τ (R.regType fdReg) = .map
  mem : ∀ arg ∈ c.pairs, τ (R.regType arg.mem) ≠ .map

theorem argTypes_of_accepts {label : Option Label} {f : Frame} (hd : d.rcp.types.inv.WF)
    (hbot : d.isBottom = false) (hτ : d.rcp.types.Models τ) (hfd : maybeFdReg c = some fdReg)
    (h : Accepts R info opts d (getAssertions (.call c f) info label)) : ArgTypes R c fdReg τ := by
  obtain ⟨-, ⟨l, hl, hsingles⟩, hpairs⟩ := (accepts_call label f).mp h
  constructor
  · obtain ⟨arg, harg, hkind, rfl⟩ := mem_singles_of_maybeFdReg hfd
    exact List.mem_singleton.mp
      (mem_types_of_succeeds hd hbot hτ (hsingles _ (mem_argSingles hl harg hkind)))
  · intro arg harg hmap
    have hmem := mem_types_of_succeeds hd hbot hτ (hpairs arg harg
      (.typeConstraint arg.mem (if arg.orNull then .memOrNum else .mem)) (by simp [AssertExtractor.argPair]))
    rw [hmap] at hmem
    split_ifs at hmem
    · exact absurd hmem (by decide)
    · exact absurd hmem (by decide)

end Prevail
