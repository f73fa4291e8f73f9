import Prevail.Crab.LookupSound

/-!
# What an accepted call passes

A helper states what it takes: the context, a pointer to the stack, a number, a map, or some bytes of
memory with their size. When the assertions of a call are accepted, the arguments are as stated in every
concrete state, but for two kinds of arguments that may be null. The check of a pointer to the stack
takes any number for null. The check of the context takes a number when the offset that the register
would have as a context is known to be zero. So the arguments are as stated when the registers of these
arguments can not hold numbers other than zero (`callContract_iff`).
-/

namespace Prevail

open AddBottom TypeToNumDomain ProgramVariables

variable {V : Type} [LinearOrder V] {R : ProgramVariables V} {info : ProgramInfo}
  {opts : VerifierOptions} {d : EbpfDomain V} {c : CallInfo} {label : Option Label} {f : Frame}
  {τ : V → TypeEncoding} {σ σ' : V → ℤ} {r : Reg}

/-- A state of a program: the registers hold words, and `r10` points to the end of a frame. -/
structure Concrete (R : ProgramVariables V) (d : TypeToNumDomain V) (τ : V → TypeEncoding)
    (σ : V → ℤ) : Prop where
  models : d.Models R.toVariableRegistry τ σ
  word : ∀ r, ∃ w : BitVec 64, σ (R.reg .svalues r) = w.toInt ∧ σ (R.reg .uvalues r) = w.toNat
  frame : τ (R.regType 10) = .stack
  frame_le : (subprogramStackSize : ℤ) ≤ σ (R.reg .stackOffsets 10)

/-! ## The contract -/

/-- The register is zero: the number, or a pointer to a value that was not found. -/
def IsNull (R : ProgramVariables V) (τ : V → TypeEncoding) (σ : V → ℤ) (r : Reg) : Prop :=
  (τ (R.regType r) = .num ∨ τ (R.regType r) = .shared) ∧ σ (R.reg .svalues r) = 0

/-- The register points to `n` bytes of one region: the packet with its metadata, the stack, or a
value in shared memory. -/
def PointsTo (R : ProgramVariables V) (τ : V → TypeEncoding) (σ : V → ℤ) (r : Reg) (n : ℤ) : Prop :=
  match τ (R.regType r) with
  | .packet => σ R.metaOffset ≤ σ (R.reg .packetOffsets r) ∧
      σ (R.reg .packetOffsets r) + n ≤ σ R.packetSize
  | .stack => 0 ≤ σ (R.reg .stackOffsets r) ∧ σ (R.reg .stackOffsets r) + n ≤ totalStackSize
  | .shared => σ (R.reg .svalues r) ≠ 0 ∧ 0 ≤ σ (R.reg .sharedOffsets r) ∧
      σ (R.reg .sharedOffsets r) + n ≤ σ (R.reg .sharedRegionSizes r)
  | _ => False

/-- The register of an argument is of the kind that the prototype states. -/
def SingleHolds (R : ProgramVariables V) (info : ProgramInfo) (τ : V → TypeEncoding) (σ : V → ℤ)
    (arg : ArgSingle) : Prop :=
  match arg.kind with
  | .ptrToCtx => (τ (R.regType arg.reg) = .ctx ∧ σ (R.reg .ctxOffsets arg.reg) = 0) ∨
      arg.orNull = true ∧ IsNull R τ σ arg.reg
  | .ptrToStack => τ (R.regType arg.reg) = .stack ∨ arg.orNull = true ∧ IsNull R τ σ arg.reg
  | .anything => info.isPrivileged = true ∨ τ (R.regType arg.reg) = .num
  | .mapFd => τ (R.regType arg.reg) = .map
  | .mapFdPrograms => τ (R.regType arg.reg) = .mapPrograms
  | .ptrToMapKey | .ptrToMapValue => τ (R.regType arg.reg) ∈ TypeGroup.mem.types

/-- A pair of arguments is some bytes of memory and their number. -/
structure PairHolds (R : ProgramVariables V) (τ : V → TypeEncoding) (σ : V → ℤ) (arg : ArgPair) :
    Prop where
  number : τ (R.regType arg.size) = .num
  size : if arg.canBeZero then 0 ≤ σ (R.reg .svalues arg.size) else 0 < σ (R.reg .svalues arg.size)
  mem : PointsTo R τ σ arg.mem (σ (R.reg .svalues arg.size)) ∨
    arg.orNull = true ∧ IsNull R τ σ arg.mem

/-- The arguments are as stated in every concrete state. -/
structure CallContract (R : ProgramVariables V) (info : ProgramInfo) (c : CallInfo)
    (d : TypeToNumDomain V) : Prop where
  singles : ∀ τ σ, Concrete R d τ σ → ∀ arg ∈ c.singles, SingleHolds R info τ σ arg
  pairs : ∀ τ σ, Concrete R d τ σ → ∀ arg ∈ c.pairs, PairHolds R τ σ arg

/-- The register may hold a number other than zero. -/
def MayBeNonzero (R : ProgramVariables V) (d : TypeToNumDomain V) (r : Reg) : Prop :=
  ∃ τ σ, Concrete R d τ σ ∧ τ (R.regType r) = .num ∧ σ (R.reg .svalues r) ≠ 0

/-- The argument is a pointer to the stack or to the context, and it may be null. -/
def ArgSingle.NullablePtr (arg : ArgSingle) : Prop :=
  arg.orNull = true ∧ (arg.kind = .ptrToStack ∨ arg.kind = .ptrToCtx)

/-! ## Variables with a meaning -/

/-- The values that the domain has for a concrete state. -/
structure Stands (R : ProgramVariables V) (d : TypeToNumDomain V) (τ : V → TypeEncoding)
    (σ σ' : V → ℤ) : Prop where
  types : d.types.Models τ
  agree : Agree R.toVariableRegistry τ σ σ'
  values : d.values.Models σ'

omit [LinearOrder V] in
theorem not_meaningless_number {kind : DataKind} (hkind : kind = .svalues ∨ kind = .uvalues) :
    ¬ Meaningless R.toVariableRegistry τ (R.reg kind r) := by
  rintro ⟨v, hv, e, he, -, kind', hkind', heq⟩
  obtain ⟨l, rfl⟩ := R.location v hv
  rw [R.reg_eq] at heq
  obtain ⟨rfl, -⟩ := R.kindVar_eq heq
  revert hkind'
  rcases hkind with rfl | rfl
  · revert e
    decide
  · revert e
    decide

omit [LinearOrder V] in
theorem not_meaningless_packet {v : V} (hv : R.Packet v) : ¬ Meaningless R.toVariableRegistry τ v := by
  rintro ⟨u, hu, e, -, -, kind, -, rfl⟩
  obtain ⟨l, rfl⟩ := R.location u hu
  rcases hv with h | h
  · exact R.packetSize_ne _ _ h
  · exact R.metaOffset_ne _ _ h

theorem Stands.number (h : Stands R d.rcp τ σ σ') {kind : DataKind}
    (hkind : kind = .svalues ∨ kind = .uvalues) (r : Reg) : σ' (R.reg kind r) = σ (R.reg kind r) :=
  (h.agree _ (not_meaningless_number hkind)).symm

theorem Stands.packet (h : Stands R d.rcp τ σ σ') {v : V} (hv : R.Packet v) : σ' v = σ v :=
  (h.agree _ (not_meaningless_packet hv)).symm

/-- A value that belongs to the type that the register has. -/
theorem Stands.kind (h : Stands R d.rcp τ σ σ') {e : TypeEncoding × List DataKind}
    (he : e ∈ typeToKinds) {kind : DataKind} (hkind : kind ∈ e.2) (hτ : τ (R.regType r) = e.1) :
    σ' (R.reg kind r) = σ (R.reg kind r) :=
  (h.agree _ (not_meaningless he hkind hτ)).symm

theorem Concrete.exists_stands {d : TypeToNumDomain V} (h : Concrete R d τ σ) :
    ∃ σ', Stands R d τ σ σ' := by
  obtain ⟨hτ, σ', hagree, hσ'⟩ := h.models
  exact ⟨σ', hτ, hagree, hσ'⟩

/-- A word that is zero as an unsigned number is zero. -/
theorem Concrete.svalue_eq_zero {d : TypeToNumDomain V} (h : Concrete R d τ σ)
    (hu : σ (R.reg .uvalues r) = 0) : σ (R.reg .svalues r) = 0 := by
  obtain ⟨w, hs, hw⟩ := h.word r
  rw [hw] at hu
  have hzero : w = 0#64 := BitVec.eq_of_toNat_eq (by exact_mod_cast hu)
  rw [hs, hzero]
  rfl

/-! ## Memory -/

namespace EbpfChecker

open Except LinearExpression

/-- What is checked for the types of a register is checked for the type that it has, when the check
fails for a register that is not initialized. -/
theorem succeeds_of_enumerateTypes {f : TypeEncoding → Except CheckError Unit}
    (hd : d.rcp.types.inv.WF) (hτ : d.rcp.types.Models τ) (hf : ¬ (f .uninit).Succeeds)
    (h : (do (← ask (d.rcp.enumerateTypes R r)).forM f).Succeeds) : (f (τ (R.regType r))).Succeeds := by
  obtain ⟨types, htypes, h⟩ := succeeds_ask_bind.mp h
  rw [succeeds_forM] at h
  have huninit : types ≠ [.uninit] := by
    rintro rfl
    exact hf (h .uninit (List.mem_singleton.mpr rfl))
  unfold enumerateTypes at htypes
  split_ifs at htypes with hinit
  · exact absurd (Option.some.inj htypes).symm huninit
  · have hinit : d.rcp.types.isInitialized (R.regType r) = true := by simpa using hinit
    exact h _ ((TypeDomain.mem_iterateTypes hd hτ hinit htypes).resolve_right huninit)

/-- An access is checked for the type that the register has. -/
theorem validAccessAs_of_succeeds {a : Assertion} {s : ValidAccess} (hd : d.rcp.types.inv.WF)
    (hτ : d.rcp.types.Models τ) (h : (validAccess R info d a s).Succeeds) :
    (validAccessAs R info d a s (τ (R.regType s.reg))).Succeeds :=
  succeeds_of_enumerateTypes hd hτ (not_succeeds_throwFail _ _) h

variable {a : Assertion} {l : LinearConstraint V} {msg : String} {lb ub : LinearExpression V}

theorem sat_of_requireValue (hd : d.rcp.values.WF) (hσ : d.rcp.values.Models σ)
    (h : (requireValue d a l msg).Succeeds) : l.Sat σ :=
  sat_of_entail hd (succeeds_requireValue.mp h) hσ

theorem bounds_of_checkAccessPacket (hd : d.rcp.values.WF) (hσ : d.rcp.values.Models σ)
    (h : (checkAccessPacket R d a lb ub (some R.packetSize)).Succeeds) :
    σ R.metaOffset ≤ lb.eval σ ∧ ub.eval σ ≤ σ R.packetSize := by
  obtain ⟨hlow, hhigh⟩ := succeeds_andThen.mp h
  have hlow := sat_of_requireValue hd hσ hlow
  have hhigh := sat_of_requireValue hd hσ hhigh
  rw [sat_ge, eval_var] at hlow
  rw [sat_le, eval_var] at hhigh
  exact ⟨hlow, hhigh⟩

theorem bounds_of_checkAccessStack (hd : d.rcp.values.WF) (hσ : d.rcp.values.Models σ)
    (h : (checkAccessStack R d a lb ub).Succeeds) :
    σ (R.reg .stackOffsets 10) - subprogramStackSize ≤ lb.eval σ ∧ ub.eval σ ≤ totalStackSize := by
  obtain ⟨hlow, hhigh⟩ := succeeds_andThen.mp h
  have hlow := sat_of_requireValue hd hσ hlow
  have hhigh := sat_of_requireValue hd hσ hhigh
  rw [sat_le, eval_plusConst, eval_var] at hlow
  rw [sat_le, eval_const] at hhigh
  exact ⟨hlow, hhigh⟩

theorem bounds_of_checkAccessContext (hd : d.rcp.values.WF) (hσ : d.rcp.values.Models σ)
    (h : (checkAccessContext info d a lb ub).Succeeds) :
    0 ≤ lb.eval σ ∧ ub.eval σ ≤ info.contextDescriptor.size := by
  obtain ⟨hlow, hhigh⟩ := succeeds_andThen.mp h
  have hlow := sat_of_requireValue hd hσ hlow
  have hhigh := sat_of_requireValue hd hσ hhigh
  rw [sat_ge, eval_const] at hlow
  rw [sat_le, eval_const] at hhigh
  exact ⟨hlow, hhigh⟩

theorem bounds_of_checkAccessShared (hd : d.rcp.values.WF) (hσ : d.rcp.values.Models σ)
    (h : (checkAccessShared R d a lb ub r).Succeeds) :
    0 ≤ lb.eval σ ∧ ub.eval σ ≤ σ (R.reg .sharedRegionSizes r) := by
  obtain ⟨hlow, hhigh⟩ := succeeds_andThen.mp h
  have hlow := sat_of_requireValue hd hσ hlow
  have hhigh := sat_of_requireValue hd hσ hhigh
  rw [sat_ge, eval_const] at hlow
  rw [sat_le, eval_var] at hhigh
  exact ⟨hlow, hhigh⟩

end EbpfChecker

/-- Where the register points to in the region of its type. -/
def pointerOffset (R : ProgramVariables V) (τ : V → TypeEncoding) (σ : V → ℤ) (r : Reg) : ℤ :=
  match τ (R.regType r) with
  | .packet => σ (R.reg .packetOffsets r)
  | .stack => σ (R.reg .stackOffsets r)
  | .ctx => σ (R.reg .ctxOffsets r)
  | .shared => σ (R.reg .sharedOffsets r)
  | _ => 0

/-- The bytes from `lb` to `ub` are in the region that the register points into: the packet with its
metadata, the stack from the current frame on, the context, or a value in shared memory. -/
def Within (R : ProgramVariables V) (info : ProgramInfo) (τ : V → TypeEncoding) (σ : V → ℤ) (r : Reg)
    (lb ub : ℤ) : Prop :=
  match τ (R.regType r) with
  | .packet => σ R.metaOffset ≤ lb ∧ ub ≤ σ R.packetSize
  | .stack => σ (R.reg .stackOffsets 10) - subprogramStackSize ≤ lb ∧ ub ≤ totalStackSize
  | .ctx => 0 ≤ lb ∧ ub ≤ info.contextDescriptor.size
  | .shared => 0 ≤ lb ∧ ub ≤ σ (R.reg .sharedRegionSizes r)
  | _ => False

/-- The width of an access: a number, or the signed value of a register. -/
def accessWidth (R : ProgramVariables V) (σ : V → ℤ) : Value → ℤ
  | .inl r => σ (R.reg .svalues r)
  | .inr imm => imm.toNat

open EbpfChecker LinearExpression in
theorem Stands.eval_access {s : ValidAccess} {v : V} (hs : Stands R d.rcp τ σ σ')
    (hv : σ' v = pointerOffset R τ σ s.reg) :
    (lbUbAccessPair R s v).1.eval σ' = pointerOffset R τ σ s.reg + s.offset ∧
      (lbUbAccessPair R s v).2.eval σ' =
        pointerOffset R τ σ s.reg + s.offset + accessWidth R σ s.width := by
  unfold lbUbAccessPair accessWidth
  cases s.width with
  | inl size =>
    refine ⟨by rw [eval_plusConst, eval_var, hv], ?_⟩
    rw [eval_plus, eval_plusConst, eval_var, eval_var, hv, hs.number (Or.inl rfl)]
  | inr imm =>
    refine ⟨by rw [eval_plusConst, eval_var, hv], ?_⟩
    rw [eval_plusConst, eval_plusConst, eval_var, hv]

open EbpfChecker Except LinearExpression in
/-- The bytes of an access that is no comparison are in the region, unless a null pointer is allowed. -/
theorem within_of_validAccess {s : ValidAccess} {a : Assertion} (hd : d.rcp.WF)
    (hσ : Concrete R d.rcp τ σ) (hwidth : s.width ≠ .inr 0)
    (h : (validAccess R info d a s).Succeeds) :
    s.orNull = true ∧ τ (R.regType s.reg) = .num ∧ σ (R.reg .svalues s.reg) = 0 ∨
      (τ (R.regType s.reg) = .shared → s.orNull = false → 0 < σ (R.reg .svalues s.reg)) ∧
      Within R info τ σ s.reg (pointerOffset R τ σ s.reg + s.offset)
        (pointerOffset R τ σ s.reg + s.offset + accessWidth R σ s.width) := by
  obtain ⟨σ', hs⟩ := hσ.exists_stands
  have hvalue := hs.number (Or.inl rfl) s.reg
  have has := validAccessAs_of_succeeds hd.types hs.types h
  unfold Within
  cases htype : τ (R.regType s.reg) with
  | packet =>
    right
    have hoffset := hs.kind (show (.packet, [.packetOffsets]) ∈ typeToKinds by decide)
      List.mem_cons_self htype
    rw [htype] at has
    simp only [validAccessAs, decide_eq_false hwidth] at has
    obtain ⟨hlow, hhigh⟩ := bounds_of_checkAccessPacket hd.values hs.values has
    obtain ⟨hlb, hub⟩ := hs.eval_access (hoffset.trans (by unfold pointerOffset; rw [htype]))
    have hlow := hlow.trans_eq hlb
    have hhigh := hub.symm.trans_le hhigh
    rw [hs.packet (Or.inr rfl)] at hlow
    rw [hs.packet (Or.inl rfl)] at hhigh
    exact ⟨fun h => absurd h (by decide), hlow, hhigh⟩
  | stack =>
    right
    have hentry : (.stack, [.stackOffsets, .stackNumericSizes]) ∈ typeToKinds := by decide
    have hoffset := hs.kind hentry List.mem_cons_self htype
    have hframe := hs.kind hentry List.mem_cons_self hσ.frame
    rw [htype] at has
    obtain ⟨hlow, hhigh⟩ := bounds_of_checkAccessStack hd.values hs.values (succeeds_andThen.mp has).1
    obtain ⟨hlb, hub⟩ := hs.eval_access (hoffset.trans (by unfold pointerOffset; rw [htype]))
    have hlow := hlow.trans_eq hlb
    have hhigh := hub.symm.trans_le hhigh
    rw [hframe] at hlow
    exact ⟨fun h => absurd h (by decide), hlow, hhigh⟩
  | ctx =>
    right
    have hoffset := hs.kind (show (.ctx, [.ctxOffsets]) ∈ typeToKinds by decide)
      List.mem_cons_self htype
    rw [htype] at has
    obtain ⟨hlow, hhigh⟩ := bounds_of_checkAccessContext hd.values hs.values has
    obtain ⟨hlb, hub⟩ := hs.eval_access (hoffset.trans (by unfold pointerOffset; rw [htype]))
    have hlow := hlow.trans_eq hlb
    have hhigh := hub.symm.trans_le hhigh
    exact ⟨fun h => absurd h (by decide), hlow, hhigh⟩
  | shared =>
    right
    have hentry : (.shared, [.sharedOffsets, .sharedRegionSizes]) ∈ typeToKinds := by decide
    have hoffset := hs.kind hentry List.mem_cons_self htype
    have hregion := hs.kind hentry (List.mem_cons_of_mem _ List.mem_cons_self) htype
    rw [htype] at has
    obtain ⟨haccess, hnull⟩ := succeeds_andThen.mp has
    obtain ⟨hlow, hhigh⟩ := bounds_of_checkAccessShared hd.values hs.values haccess
    obtain ⟨hlb, hub⟩ := hs.eval_access (hoffset.trans (by unfold pointerOffset; rw [htype]))
    have hlow := hlow.trans_eq hlb
    have hhigh := hub.symm.trans_le hhigh
    rw [hregion] at hhigh
    refine ⟨fun _ hnot => ?_, hlow, hhigh⟩
    rw [if_pos (by simp [hnot, hwidth])] at hnull
    have hpos := sat_of_requireValue hd.values hs.values hnull
    rwa [sat_gt, eval_const, eval_var, hvalue] at hpos
  | num =>
    left
    rw [htype] at has
    cases hnull : s.orNull with
    | false => simp [validAccessAs, hnull, hwidth] at has
    | true =>
      have hzero : (requireValue d a (LinearExpression.eq (var (R.reg .svalues s.reg)) (const 0))
          "Non-null number").Succeeds := by
        simpa [validAccessAs, hnull, hwidth] using has
      have hzero := sat_of_requireValue hd.values hs.values hzero
      rw [sat_eq, eval_const, eval_var, hvalue] at hzero
      exact ⟨rfl, rfl, hzero⟩
  | map | mapPrograms | uninit =>
    rw [htype] at has
    simp [validAccessAs, hwidth] at has

open EbpfChecker Except in
/-- The memory of a pair of arguments. -/
theorem mem_of_validAccess {arg : ArgPair} {a : Assertion} {depth : ℕ} {type : AccessType}
    (hd : d.rcp.WF) (hσ : Concrete R d.rcp τ σ) (hctx : τ (R.regType arg.mem) ≠ .ctx)
    (h : (validAccess R info d a ⟨depth, arg.mem, 0, .inl arg.size, arg.orNull, type⟩).Succeeds) :
    PointsTo R τ σ arg.mem (σ (R.reg .svalues arg.size)) ∨
      arg.orNull = true ∧ IsNull R τ σ arg.mem := by
  rcases within_of_validAccess hd hσ Sum.inl_ne_inr h with ⟨hor, htype, hzero⟩ | ⟨hnull, hin⟩
  · exact Or.inr ⟨hor, Or.inl htype, hzero⟩
  · unfold Within pointerOffset accessWidth at hin
    unfold PointsTo
    cases htype : τ (R.regType arg.mem) <;> simp only [htype, add_zero] at hin hnull
    case ctx => exact absurd htype hctx
    case packet => exact Or.inl hin
    case stack =>
      have hle := hσ.frame_le
      exact Or.inl ⟨by omega, hin.2⟩
    case shared =>
      by_cases hzero : σ (R.reg .svalues arg.mem) = 0
      · refine Or.inr ⟨?_, Or.inr htype, hzero⟩
        by_contra hnot
        have hpos := hnull trivial (by simpa using hnot)
        omega
      · exact Or.inl ⟨hzero, hin⟩

/-! ## Arguments that are accepted -/

theorem TypeDomain.eq_of_getType {t : TypeDomain V} {v : V} {type : TypeEncoding}
    (hτ : t.Models τ) (htype : type ≠ .uninit) (h : t.getType v = some type.toInt) : τ v = type := by
  have hmem := AddBottom.mem_evalInterval hτ (.var v)
  rw [LinearExpression.eval_var] at hmem
  unfold TypeDomain.getType at h
  cases hsingle : (t.inv.evalInterval (.var v)).singleton with
  | none =>
    rw [hsingle] at h
    exact absurd (TypeEncoding.toInt_inj (Option.some.inj h)).symm htype
  | some n =>
    rw [hsingle] at h
    change (if Number.FitsS 32 n then some n else none) = _ at h
    split_ifs at h
    have hn := Option.some.inj h
    exact TypeEncoding.toInt_inj ((Interval.eq_of_singleton hsingle hmem).trans hn)

open EbpfChecker Except in
/-- The offset of the context is checked when the register is the context. -/
theorem ctxOffset_of_succeeds {a : Assertion} {orNull : Bool} (hd : d.rcp.WF)
    (hs : Stands R d.rcp τ σ σ') (hctx : τ (R.regType r) = .ctx)
    (h : (zeroCtxOffset R d a r orNull).Succeeds) : σ (R.reg .ctxOffsets r) = 0 := by
  have hzero : ∀ {msg : String}, (requireValue d a
      (LinearExpression.eq (.var (R.reg .ctxOffsets r)) (.const 0)) msg).Succeeds →
        σ (R.reg .ctxOffsets r) = 0 := by
    intro msg h
    have hsat := sat_of_requireValue hd.values hs.values h
    rwa [LinearExpression.sat_eq, LinearExpression.eval_var, LinearExpression.eval_const,
      hs.kind (e := (.ctx, [.ctxOffsets])) (by decide) (by decide) hctx] at hsat
  unfold zeroCtxOffset at h
  cases orNull with
  | false => exact hzero h
  | true =>
    obtain ⟨n, htype, h⟩ := succeeds_ask_bind.mp h
    have hn : n ≠ TypeEncoding.num.toInt := by
      rintro rfl
      have hnum := TypeDomain.eq_of_getType hs.types (by decide) htype
      rw [hctx] at hnum
      cases hnum
    rw [decide_eq_false hn] at h
    exact hzero h

/-- A single argument whose assertions hold is as stated, if it is not a number where it may be null. -/
theorem singleHolds_of_succeeds {arg : ArgSingle} {mapFdReg : Option Reg}
    {new : List Assertion × Option Reg} (hd : d.rcp.WF) (hσ : Concrete R d.rcp τ σ)
    (hnew : AssertExtractor.argSingle info mapFdReg arg = some new)
    (h : ∀ a ∈ new.1, (ebpfDomainCheck R info opts d a).Succeeds)
    (hnull : arg.NullablePtr → τ (R.regType arg.reg) = .num → σ (R.reg .svalues arg.reg) = 0) :
    SingleHolds R info τ σ arg := by
  obtain ⟨σ', hs⟩ := hσ.exists_stands
  have hbot : d.isBottom = false := isBottom_of_models hσ.models
  have htype : ∀ {group : TypeGroup}, .typeConstraint arg.reg group ∈ new.1 →
      τ (R.regType arg.reg) ∈ group.types :=
    fun ha => mem_types_of_succeeds hd.types hbot hs.types (h _ ha)
  unfold AssertExtractor.argSingle at hnew
  unfold SingleHolds
  cases hkind : arg.kind <;> simp only [hkind] at hnew ⊢
  case mapFd | mapFdPrograms =>
    obtain rfl := Option.some.inj hnew
    exact List.mem_singleton.mp (htype (List.mem_singleton.mpr rfl))
  case ptrToMapKey | ptrToMapValue =>
    obtain ⟨fd, -, hnew⟩ := Option.bind_eq_some_iff.mp hnew
    obtain rfl := Option.some.inj hnew
    exact htype List.mem_cons_self
  case anything =>
    obtain rfl := Option.some.inj hnew
    cases hprivileged : info.isPrivileged with
    | true => exact Or.inl rfl
    | false =>
      have hnumber : τ (R.regType arg.reg) ∈ TypeGroup.number.types := htype (by simp [hprivileged])
      exact Or.inr (List.mem_singleton.mp hnumber)
  case ptrToStack =>
    obtain rfl := Option.some.inj hnew
    have hmem := htype (List.mem_singleton.mpr rfl)
    cases hor : arg.orNull with
    | false =>
      rw [hor] at hmem
      exact Or.inl (List.mem_singleton.mp hmem)
    | true =>
      rw [hor] at hmem
      rcases List.mem_pair.mp hmem with hstack | hnum
      · exact Or.inl hstack
      · exact Or.inr ⟨rfl, Or.inl hnum, hnull ⟨hor, Or.inl hkind⟩ hnum⟩
  case ptrToCtx =>
    obtain rfl := Option.some.inj hnew
    have hmem := htype List.mem_cons_self
    have hzero : (EbpfChecker.zeroCtxOffset R d (.zeroCtxOffset arg.reg arg.orNull) arg.reg
        arg.orNull).Succeeds := by
      have hcheck := h (.zeroCtxOffset arg.reg arg.orNull)
        (List.mem_cons_of_mem _ (List.mem_singleton.mpr rfl))
      rwa [ebpfDomainCheck_eq hbot] at hcheck
    have hcases : τ (R.regType arg.reg) = .ctx ∨ arg.orNull = true ∧ τ (R.regType arg.reg) = .num := by
      cases hor : arg.orNull with
      | false =>
        rw [hor] at hmem
        exact Or.inl (List.mem_singleton.mp hmem)
      | true =>
        rw [hor] at hmem
        exact (List.mem_pair.mp hmem).imp_right fun hnum => ⟨rfl, hnum⟩
    rcases hcases with hctx | ⟨hor, hnum⟩
    · exact Or.inl ⟨hctx, ctxOffset_of_succeeds hd hs hctx hzero⟩
    · exact Or.inr ⟨hor, Or.inl hnum, hnull ⟨hor, Or.inr hkind⟩ hnum⟩

/-- A pair of arguments whose assertions hold is some bytes of memory and their number. -/
theorem pairHolds_of_succeeds {arg : ArgPair} (hd : d.rcp.WF) (hσ : Concrete R d.rcp τ σ)
    (h : ∀ a ∈ AssertExtractor.argPair label arg, (ebpfDomainCheck R info opts d a).Succeeds) :
    PairHolds R τ σ arg := by
  obtain ⟨σ', hs⟩ := hσ.exists_stands
  have hbot : d.isBottom = false := isBottom_of_models hσ.models
  simp only [AssertExtractor.argPair, AssertExtractor.makeValidAccess, List.forall_mem_cons] at h
  obtain ⟨hnumber, hsize, hgroup, haccess, -⟩ := h
  constructor
  · exact List.mem_singleton.mp (mem_types_of_succeeds hd.types hbot hs.types hnumber)
  · rw [ebpfDomainCheck_eq hbot] at hsize
    have hsat := EbpfChecker.sat_of_requireValue hd.values hs.values hsize
    split_ifs at hsat ⊢
    · rwa [LinearExpression.sat_ge, LinearExpression.eval_var, LinearExpression.eval_const,
        hs.number (Or.inl rfl)] at hsat
    · rwa [LinearExpression.sat_gt, LinearExpression.eval_var, LinearExpression.eval_const,
        hs.number (Or.inl rfl)] at hsat
  · rw [ebpfDomainCheck_eq hbot] at haccess
    refine mem_of_validAccess hd hσ (fun hctx => ?_) haccess
    have hmem := mem_types_of_succeeds hd.types hbot hs.types hgroup
    rw [hctx] at hmem
    split_ifs at hmem
    · exact absurd hmem (by decide)
    · exact absurd hmem (by decide)

/-! ## The call -/

/-- The arguments of a call that is accepted are as stated, unless one that may be null, a pointer to
the stack or to the context, may be another number. -/
theorem callContract_iff (hd : d.rcp.WF)
    (h : Accepts R info opts d (getAssertions (.call c f) info label)) :
    CallContract R info c d.rcp ↔
      ∀ arg ∈ c.singles, arg.NullablePtr → ¬ MayBeNonzero R d.rcp arg.reg := by
  obtain ⟨-, ⟨l, hl, hsingles⟩, hpairs⟩ := (accepts_call label f).mp h
  constructor
  · rintro ⟨hcontract, -⟩ arg harg ⟨-, hkind⟩ ⟨τ, σ, hσ, hnum, hne⟩
    have hholds := hcontract τ σ hσ arg harg
    unfold SingleHolds at hholds
    rcases hkind with hkind | hkind
    · rw [hkind] at hholds
      rcases hholds with hstack | ⟨-, -, hzero⟩
      · rw [hnum] at hstack
        cases hstack
      · exact hne hzero
    · rw [hkind] at hholds
      rcases hholds with ⟨hctx, -⟩ | ⟨-, -, hzero⟩
      · rw [hnum] at hctx
        cases hctx
      · exact hne hzero
  · intro hzero
    constructor
    · intro τ σ hσ arg harg
      obtain ⟨mapFdReg, new, hnew, hsub⟩ := argSingle_subset hl harg
      refine singleHolds_of_succeeds hd hσ hnew (fun a ha => hsingles a (hsub a ha)) ?_
      intro hptr hnum
      by_contra hne
      exact hzero arg harg hptr ⟨τ, σ, hσ, hnum, hne⟩
    · intro τ σ hσ arg harg
      exact pairHolds_of_succeeds hd hσ (hpairs arg harg)

/-- A platform with two helpers that take one pointer or null: number 122 takes the context. -/
def nullablePlatform : MapPlatform where
  supportsGroup _ := true
  isHelperUsable n := n = 121 ∨ n = 122
  getHelperPrototype n :=
    if n = 122 then
      ⟨"get_netns_cookie", .integer, (.ptrToCtxOrNull, .dontcare, .dontcare, .dontcare, .dontcare), false⟩
    else
      ⟨"fill_stack", .integer, (.ptrToStackOrNull, .dontcare, .dontcare, .dontcare, .dontcare), false⟩
  getMapDescriptor _ := none
  getMapType _ := ⟨false, .any⟩

def nullableInfo : ProgramInfo := ⟨nullablePlatform, false, ⟨0, -1, -1, -1⟩⟩

def getNetnsCookie : CallInfo := ⟨122, "get_netns_cookie", false, false, [⟨.ptrToCtx, true, 1⟩], []⟩

def fillStack : CallInfo := ⟨121, "fill_stack", false, false, [⟨.ptrToStack, true, 1⟩], []⟩

theorem callable_nullable : Callable nullableInfo 122 getNetnsCookie ∧
    Callable nullableInfo 121 fillStack := ⟨⟨rfl, rfl⟩, ⟨rfl, rfl⟩⟩

/-- The number `n` in `r1`, which was the context before. -/
def numberState (n : ℤ) : EbpfDomain ProgramVariables.Name :=
  let R := ProgramVariables.named []
  ⟨⟨⟨setAll AddBottom.top [(R.regType 1, .const TypeEncoding.num.toInt),
      (R.regType 10, .const TypeEncoding.stack.toInt)]⟩,
    setAll AddBottom.top [(R.reg .svalues 1, .const n), (R.reg .uvalues 1, .const n),
      (R.reg .ctxOffsets 1, .const 0), (R.reg .stackOffsets 10, .const 512)]⟩, .top⟩

theorem wf_numberState (n : ℤ) : (numberState n).rcp.WF := ⟨wf_setAll wf_top, wf_setAll wf_top⟩

theorem accepts_numberState : ∀ c ∈ [getNetnsCookie, fillStack],
    Accepts (.named []) nullableInfo ⟨false, true, false⟩ (numberState 5)
      (getAssertions (.call c []) nullableInfo none) := by
  have hctx : Accepts (.named []) nullableInfo ⟨false, true, false⟩ (numberState 5)
      (getAssertions (.call getNetnsCookie []) nullableInfo none) := by
    refine ⟨[.validCall 122 [], .typeConstraint 1 .ctxOrNum, .zeroCtxOffset 1 true], rfl, ?_⟩
    unfold Except.Succeeds
    decide
  have hstack : Accepts (.named []) nullableInfo ⟨false, true, false⟩ (numberState 5)
      (getAssertions (.call fillStack []) nullableInfo none) := by
    refine ⟨[.validCall 121 [], .typeConstraint 1 .stackOrNum], rfl, ?_⟩
    unfold Except.Succeeds
    decide
  simp only [List.forall_mem_cons]
  exact ⟨hctx, hstack, by simp⟩

theorem callContract_iff_numberState :
    CallContract (.named []) nullableInfo getNetnsCookie (numberState 5).rcp ↔
      ∀ arg ∈ getNetnsCookie.singles, arg.NullablePtr →
        ¬ MayBeNonzero (.named []) (numberState 5).rcp arg.reg :=
  callContract_iff (wf_numberState 5) (accepts_numberState _ (by decide))

/-- The types and the values of a state with the number five in `r1`. -/
def fiveTypes (v : ProgramVariables.Name) : TypeEncoding :=
  if v = (named []).regType 1 then .num else if v = (named []).regType 10 then .stack else .uninit

def fiveValues (v : ProgramVariables.Name) : ℤ :=
  if v = (named []).reg .svalues 1 ∨ v = (named []).reg .uvalues 1 then 5
  else if v = (named []).reg .stackOffsets 10 then 512 else 0

theorem concrete_five : Concrete (.named []) (numberState 5).rcp fiveTypes fiveValues where
  models := by
    have hτ : (numberState 5).rcp.types.Models fiveTypes := models_setAll_top (by decide)
    have hσ : (numberState 5).rcp.values.Models fiveValues := models_setAll_top (by decide)
    exact ⟨hτ, fiveValues, fun _ _ => rfl, hσ⟩
  word r := by
    have hs : fiveValues ((named []).reg .svalues r) = if r = 1 then 5 else 0 := by
      simp [fiveValues, reg_inj]
    have hu : fiveValues ((named []).reg .uvalues r) = if r = 1 then 5 else 0 := by
      simp [fiveValues, reg_inj]
    rw [hs, hu]
    split_ifs
    · exact ⟨5#64, rfl, rfl⟩
    · exact ⟨0#64, rfl, rfl⟩
  frame := by decide
  frame_le := by decide

/-- The call is accepted with the number five, which its contract excludes. -/
def AcceptsFive (c : CallInfo) : Prop :=
  (∃ n, Callable nullableInfo n c) ∧
    Accepts (.named []) nullableInfo ⟨false, true, false⟩ (numberState 5)
      (getAssertions (.call c []) nullableInfo none) ∧
    ¬ CallContract (.named []) nullableInfo c (numberState 5).rcp

theorem acceptsFive_of_mem : ∀ c ∈ [getNetnsCookie, fillStack], AcceptsFive c := by
  intro c hc
  refine ⟨?_, accepts_numberState c hc, fun hcontract => ?_⟩
  · rcases List.mem_pair.mp hc with rfl | rfl
    · exact ⟨122, callable_nullable.1⟩
    · exact ⟨121, callable_nullable.2⟩
  · have hholds := hcontract.singles _ _ concrete_five
    rcases List.mem_pair.mp hc with rfl | rfl
    · rcases hholds _ List.mem_cons_self with ⟨hctx, -⟩ | ⟨-, -, hzero⟩
      · exact absurd hctx (by decide)
      · exact absurd hzero (by decide)
    · rcases hholds _ List.mem_cons_self with hstack | ⟨-, -, hzero⟩
      · exact absurd hstack (by decide)
      · exact absurd hzero (by decide)

/-- The number five is taken for a context, when the register was the context before, and for a
pointer to the stack. -/
theorem not_callContract_five : AcceptsFive getNetnsCookie ∧ AcceptsFive fillStack :=
  ⟨acceptsFive_of_mem _ List.mem_cons_self,
    acceptsFive_of_mem _ (List.mem_cons_of_mem _ List.mem_cons_self)⟩

end Prevail
