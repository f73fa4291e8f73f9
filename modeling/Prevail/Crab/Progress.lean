import Prevail.Crab.SafeAccess
import Prevail.Crab.TransformAssume

/-!
# Accepted instructions do not go wrong

A machine that keeps the types of its registers can not execute every instruction: it needs a pointer to
access memory and the bytes of the access in the region of the pointer, two numbers to multiply, at most
one pointer to add, and so on (`Executable`). The assertions of an instruction ask for that. When a
state satisfies them, the instruction can be executed in each of its concrete states
(`executable_of_accepts`).
-/

namespace Prevail

open AddBottom TypeToNumDomain ProgramVariables EbpfChecker AssertExtractor LinearExpression

variable {V : Type} [LinearOrder V]

/-! ## What a machine asks for -/

section

variable (R : ProgramVariables V) (info : ProgramInfo) (opts : VerifierOptions) (τ : V → TypeEncoding)
  (σ : V → ℤ) (bytes : Set ℕ)

/-- The bytes of an access are in the region of the pointer, which is not null. -/
structure AccessInside (r : Reg) (offset width : ℤ) : Prop where
  pointer : τ (R.regType r) ∈ TypeGroup.pointer.types
  region : ∀ j, pointerOffset R τ σ r + offset ≤ j → j < pointerOffset R τ σ r + offset + width →
    Within R info τ σ r j (j + 1)
  null : 0 < width → ¬ IsNull R τ σ r

/-- A load or a store. The stack that other pointers than `r10` point to is read where it holds
numbers. Pointers are stored as a whole and to the stack. -/
structure MemExecutable (m : Mem) : Prop where
  access : AccessInside R info τ σ m.access.basereg m.access.offset m.access.width
  numeric : m.isLoad = true → m.access.basereg ≠ 10 → τ (R.regType m.access.basereg) = .stack →
    ∀ i : ℕ, pointerOffset R τ σ m.access.basereg + m.access.offset ≤ i →
      i < pointerOffset R τ σ m.access.basereg + m.access.offset + m.access.width → i ∈ bytes
  leak : info.isPrivileged = false → m.isLoad = false → m.access.basereg ≠ 10 →
    ∀ r, m.value = .inl r → m.access.width ≠ 8 ∨ τ (R.regType m.access.basereg) ≠ .stack →
      τ (R.regType r) = .num

/-- A number or a pointer. -/
def PtrOrNum (r : Reg) : Prop := τ (R.regType r) ∈ TypeGroup.ptrOrNum.types

/-- A difference of two registers is that of two numbers, of a pointer and a number, or of two pointers
into the same region. -/
def HasDifference (r r' : Reg) : Prop := ComparedAlike R τ r r' ∨ τ (R.regType r') = .num

/-- An operation on a destination and a register. -/
def BinExecutable (op : BinOp) (is64 : Bool) (dst src : Reg) : Prop :=
  match op with
  | .mov => is64 = false → τ (R.regType src) = .num
  | .movsx8 | .movsx16 | .movsx32 => τ (R.regType src) = .num
  | .add => PtrOrNum R τ dst ∧ PtrOrNum R τ src ∧ (τ (R.regType dst) = .num ∨ τ (R.regType src) = .num)
  | .sub => PtrOrNum R τ dst ∧ HasDifference R τ dst src
  | .udiv | .umod | .sdiv | .smod =>
    τ (R.regType dst) = .num ∧ τ (R.regType src) ∉ TypeGroup.pointer.types ∧
      (opts.allowDivisionByZero = false → σ (R.reg .uvalues src) ≠ 0)
  | .mul | .or | .and | .lsh | .rsh | .arsh | .xor =>
    τ (R.regType dst) = .num ∧ τ (R.regType src) = .num

/-- An operation on a destination and an immediate value. -/
def BinImmExecutable (op : BinOp) (dst : Reg) : Prop :=
  match op with
  | .mov | .movsx8 | .movsx16 | .movsx32 => True
  | .add | .sub => PtrOrNum R τ dst
  | _ => τ (R.regType dst) = .num

/-- A condition. A pointer is compared with zero or with what it has a difference to. -/
structure ConditionExecutable (cond : Condition) : Prop where
  initialized : τ (R.regType cond.left) ≠ .uninit
  imm : ∀ n, cond.right = .inr n → n ≠ 0 ∨ ¬ (allowPointers cond.op && cond.is64) →
    τ (R.regType cond.left) = .num
  reg : ∀ src, cond.right = .inl src → τ (R.regType src) ≠ .uninit ∧ HasDifference R τ cond.left src ∧
    (cond.op ≠ .eq → cond.op ≠ .ne → PtrOrNum R τ cond.left)

/-- A call of a helper: the pairs of arguments are as its prototype states them, and so are the single
ones that may not be null. -/
structure CallExecutable (c : CallInfo) (f : Frame) : Prop where
  returns : f ≠ [] →
    (info.platform.getHelperPrototype c.func).returnType ≠ .integerOrNoReturnIfSucceed
  singles : ∀ arg ∈ c.singles, ¬ arg.NullablePtr → SingleHolds R info τ σ arg
  pairs : ∀ arg ∈ c.pairs, PairHolds R τ σ arg

/-- The machine can execute the instruction. -/
def Executable (label : Option Label) : IsaInstruction → Prop
  | .undefined _ | .callLocal _ _ | .jmp none _ => True
  | .other (.loadMapFd _ _) | .other (.loadMapAddress _ _ _) => True
  | .incrementLoopCounter name => σ (R.loopCounter name) ≤ boundedLoopLimit
  | .exit _ => ∀ l, label = some l → l.stackFramePrefix = [] → τ (R.regType 0) = .num
  | .call c f => CallExecutable R info τ σ c f
  | .assume cond isImplicit =>
    isImplicit = false → info.isPrivileged = false → ConditionExecutable R τ cond
  | .jmp (some cond) _ => info.isPrivileged = false → ConditionExecutable R τ cond
  | .other (.packet _) => τ (R.regType 6) = .ctx ∧ σ (R.reg .ctxOffsets 6) = 0
  | .other (.callx func) => τ (R.regType func) = .num ∧ ∃ (n : ℤ) (c : CallInfo),
    σ (R.reg .svalues func) = n ∧ info.platform.isHelperUsable (.ofInt 32 n) = true ∧
      Unmarshaller.makeCall info.platform.toPlatform (.ofInt 32 n) = .ok c ∧
      CallExecutable R info τ σ c []
  | .other (.mem m) => MemExecutable R info τ σ bytes m
  | .other (.atomic a) => τ (R.regType a.valreg) = .num ∧
    AccessInside R info τ σ a.access.basereg a.access.offset (a.access.width % 2 ^ 32)
  | .other (.un u) => τ (R.regType u.dst) = .num
  | .other (.bin b) =>
    match b.v with
    | .inl src => BinExecutable R opts τ σ b.op b.is64 b.dst src
    | .inr _ => BinImmExecutable R τ b.op b.dst

/-- The loop counters are variables of their own. -/
def ProgramVariables.CountersApart : Prop := ∀ k l name, R.kindVar k (R.typeVar l) ≠ R.loopCounter name

end

/-! ## What the checks say -/

variable {R : ProgramVariables V} {info : ProgramInfo} {opts : VerifierOptions} {d : EbpfDomain V}
  {label : Option Label} {τ : V → TypeEncoding} {σ : V → ℤ} {bytes : Set ℕ} {a : Assertion} {r r' : Reg}

/-- What must be a number when the other one is a pointer. -/
theorem eq_num_of_implies {t : TypeDomain V} {v w : V} (ht : t.inv.WF) (hτ : t.Models τ)
    (h : t.implies (TypeDomain.typeIsPointer v) (TypeDomain.typeIs w .num) = true)
    (hv : τ v ∈ TypeGroup.pointer.types) : τ w = .num := by
  refine eq_of_sat_typeIs (sat_of_entail (ht.addConstraint _) h
    (models_addConstraint ht hτ (SplitDbm.unitDisequation_of_ne ConstraintKind.noConfusion) ?_))
  rw [TypeDomain.typeIsPointer, TypeDomain.typeGe, sat_ge, eval_var, eval_const]
  revert hv
  cases τ v <;> decide

/-- What must be a number when the other one does not point to the stack. -/
theorem eq_num_of_implies_not_stack {t : TypeDomain V} {v w : V} (ht : t.inv.WF) (hτ : t.Models τ)
    (h : t.implies (TypeDomain.typeIsNot v .stack) (TypeDomain.typeIs w .num) = true)
    (hv : τ v ≠ .stack) : τ w = .num := by
  refine eq_of_sat_typeIs (sat_of_entail (ht.addConstraint _) h
    (models_addConstraint ht hτ (unitDisequation_ne_const _ _) ?_))
  rw [TypeDomain.typeIsNot, sat_ne, eval_var, eval_const]
  exact fun heq => hv (TypeEncoding.toInt_inj heq)

/-- A register that is compared is initialized. -/
theorem ne_uninit_of_validAccess {s : ValidAccess} (hd : d.rcp.types.inv.WF)
    (hτ : d.rcp.types.Models τ) (h : (validAccess R info d a s).Succeeds) :
    τ (R.regType s.reg) ≠ .uninit := by
  intro huninit
  have has := validAccessAs_of_succeeds hd hτ h
  rw [huninit] at has
  exact not_succeeds_throwFail _ _ has

theorem hasDifference_of_comparable (hd : d.rcp.types.inv.WF) (hτ : d.rcp.types.Models τ)
    (h : (comparable R info d a r r').Succeeds) : HasDifference R τ r r' := by
  cases hsame : d.rcp.types.sameType (R.regType r) (R.regType r') with
  | true => exact Or.inl (comparedAlike_of_comparable hd hτ hsame h)
  | false =>
    unfold comparable at h
    rw [hsame, if_neg Bool.false_ne_true] at h
    exact Or.inr (eq_of_sat_typeIs (sat_of_entail hd (succeeds_require.mp h) hτ))

/-- An access of some bytes that is accepted for a pointer. -/
theorem accessInside_of_validAccess {s : ValidAccess} (hd : d.rcp.WF) (hσ : Concrete R d.rcp τ σ)
    (hor : s.orNull = false) (hpointer : τ (R.regType s.reg) ∈ TypeGroup.pointer.types)
    (h : (validAccess R info d a s).Succeeds) :
    AccessInside R info τ σ s.reg s.offset (accessWidth R σ s.width) := by
  by_cases hwidth : s.width = .inr 0
  · have hzero : accessWidth R σ s.width = 0 := by
      rw [hwidth]
      rfl
    rw [hzero]
    exact ⟨hpointer, fun j hlow hhigh => by omega, fun h => absurd h (lt_irrefl 0)⟩
  · rcases within_of_validAccess hd hσ hwidth h with ⟨hor', -⟩ | ⟨hshared, hin⟩
    · exact absurd (hor.symm.trans hor') Bool.false_ne_true
    · refine ⟨hpointer, fun j hlow hhigh => hin.byte hlow hhigh, ?_⟩
      rintro - ⟨hnum | hshared', hzero⟩
      · rw [hnum] at hpointer
        exact absurd hpointer (by decide)
      · have hpos := hshared hshared' hor
        omega

/-! ## Instructions -/

/-- What is true when the assertions of an instruction are accepted in a state that is not empty. -/
theorem succeeds_visit_of_accepts {l : List Assertion} (hbot : d.isBottom = false)
    (h : Accepts R info opts d (some l)) : ∀ a ∈ l, (visit R info opts d a).Succeeds := by
  obtain ⟨l', hl, h⟩ := h
  obtain rfl := Option.some.inj hl
  intro a ha
  rw [← ebpfDomainCheck_eq hbot]
  exact h a ha

theorem executable_condition {cond : Condition} (hd : d.rcp.types.inv.WF) (hτ : d.rcp.types.Models τ)
    (hprivileged : info.isPrivileged = false)
    (h : ∀ a ∈ explicate info label cond, (visit R info opts d a).Succeeds) :
    ConditionExecutable R τ cond := by
  have hgroup : ∀ {r group}, .typeConstraint r group ∈ explicate info label cond →
      τ (R.regType r) ∈ group.types :=
    fun ha => mem_types_of_isInGroup hd hτ (succeeds_require.mp (h _ ha))
  have hcompared : ∀ {r}, makeValidComparison label r ∈ explicate info label cond →
      τ (R.regType r) ≠ .uninit :=
    fun ha => ne_uninit_of_validAccess hd hτ (h _ ha)
  cases hright : cond.right with
  | inl src =>
    have hasserts : explicate info label cond =
        [makeValidComparison label cond.left, makeValidComparison label src] ++
          (if cond.op ≠ .eq ∧ cond.op ≠ .ne then [.typeConstraint cond.left .ptrOrNum] else []) ++
          [.comparable cond.left src false] := by
      unfold explicate
      rw [hprivileged, hright]
      rfl
    refine ⟨hcompared (by simp [hasserts]), fun n hn => ?_, fun src' hsrc => ?_⟩
    · exact absurd (hright.symm.trans hn) Sum.inl_ne_inr
    · obtain rfl := Sum.inl.inj (hright.symm.trans hsrc)
      have hcmp := h (.comparable cond.left src false) (by simp [hasserts])
      exact ⟨hcompared (by simp [hasserts]), hasDifference_of_comparable hd hτ hcmp,
        fun heq hne => hgroup (by simp [hasserts, heq, hne])⟩
  | inr imm =>
    have hasserts : explicate info label cond =
        if imm ≠ 0 then [.typeConstraint cond.left .number]
        else
          (if !(allowPointers cond.op && cond.is64) then [.typeConstraint cond.left .number] else []) ++
            [makeValidComparison label cond.left] := by
      unfold explicate
      rw [hprivileged, hright]
      rfl
    have hnumber : imm ≠ 0 ∨ ¬ (allowPointers cond.op && cond.is64) →
        τ (R.regType cond.left) = .num := by
      intro hor
      refine List.mem_singleton.mp (hgroup (show Assertion.typeConstraint _ .number ∈ _ from ?_))
      rw [hasserts]
      split_ifs with himm hallow
      · exact List.mem_singleton_self _
      · exact List.mem_cons_self ..
      · rcases hor with himm' | hallow'
        · exact absurd himm' himm
        · simp only [Bool.not_eq_true, Bool.not_eq_true'] at hallow hallow'
          exact absurd hallow' hallow
    refine ⟨?_, fun n hn => ?_, fun src hsrc => absurd (hright.symm.trans hsrc) Sum.inr_ne_inl⟩
    · by_cases himm : imm = 0
      · exact hcompared (by simp [hasserts, himm])
      · rw [hnumber (Or.inl himm)]
        decide
    · rw [hright] at hn
      obtain rfl := Sum.inr.inj hn
      exact hnumber

/-- An access through `r10` that stays in the frame is not checked. -/
theorem accessInside_frame {offset width : ℤ} (hσ : Concrete R d.rcp τ σ)
    (hle : σ (R.reg .stackOffsets 10) ≤ totalStackSize) (hlow : -subprogramStackSize ≤ offset)
    (hhigh : offset + width ≤ 0) : AccessInside R info τ σ 10 offset width := by
  have hstack := hσ.frame
  have hoffset : pointerOffset R τ σ 10 = σ (R.reg .stackOffsets 10) := by
    unfold pointerOffset
    rw [hstack]
  refine ⟨by rw [hstack]; decide, fun j hfirst hlast => ?_, ?_⟩
  · rw [hoffset] at hfirst hlast
    unfold Within
    rw [hstack]
    exact ⟨by omega, by omega⟩
  · rintro - ⟨hnum | hshared, -⟩
    · exact absurd (hstack.symm.trans hnum) (by decide)
    · exact absurd (hstack.symm.trans hshared) (by decide)

omit [LinearOrder V] in
theorem accessWidth_ofNat {n : ℕ} (hn : n < 2 ^ 32) :
    accessWidth R σ (.inr (UInt64.ofNat n)) = n := by
  show ((UInt64.ofNat n).toNat : ℤ) = n
  rw [UInt64.toNat_ofNat', Nat.mod_eq_of_lt (by omega)]

theorem executable_mem {m : Mem} (hd : d.rcp.WF) (hc : ConcreteBytes R d τ σ bytes)
    (hle : σ (R.reg .stackOffsets 10) ≤ totalStackSize)
    (h : Accepts R info opts d (AssertExtractor.mem info label m)) :
    MemExecutable R info τ σ bytes m := by
  have hbot : d.isBottom = false := isBottom_of_models hc.state.models
  unfold AssertExtractor.mem at h
  by_cases hfits : 0 ≤ m.access.width ∧ m.access.width < 2 ^ 32
  swap
  · rw [if_pos hfits] at h
    obtain ⟨l, hl, -⟩ := h
    cases hl
  rw [if_neg (not_not.mpr hfits)] at h
  have hwidth : accessWidth R σ (.inr (UInt64.ofNat m.access.width.toNat)) = m.access.width := by
    rw [accessWidth_ofNat (by omega), Int.toNat_of_nonneg hfits.1]
  by_cases hr10 : m.access.basereg = 10
  · refine ⟨?_, fun _ hne => absurd hr10 hne, fun _ _ hne => absurd hr10 hne⟩
    rw [if_pos hr10] at h
    by_cases hframe : m.access.offset < -subprogramStackSize ∨ 0 < m.access.offset + m.access.width
    · -- out of the frame
      rw [if_pos hframe] at h
      have haccess := succeeds_visit_of_accepts hbot h _ (List.mem_singleton_self _)
      have hinside := accessInside_of_validAccess hd hc.state rfl
        (by rw [hr10, hc.state.frame]; decide) haccess
      rwa [hwidth] at hinside
    · rw [hr10]
      exact accessInside_frame hc.state hle (by omega) (by omega)
  · rw [if_neg hr10] at h
    have hall := succeeds_visit_of_accepts hbot h
    have hpointer := mem_types_of_isInGroup hd.types hc.state.models.1
      (succeeds_require.mp (hall (.typeConstraint m.access.basereg .pointer) (by simp)))
    have haccess := hall (makeValidAccess label m.access.basereg m.access.offset
      (.inr (UInt64.ofNat m.access.width.toNat)) false (if m.isLoad then .read else .write)) (by simp)
    have hinside := accessInside_of_validAccess hd hc.state rfl hpointer haccess
    rw [hwidth] at hinside
    refine ⟨hinside, fun hload _ hstack i hlow hhigh => ?_, fun hprivileged hload _ r hvalue hor => ?_⟩
    · rw [hload] at haccess
      refine numeric_of_validAccess hd hc haccess rfl hstack ⟨hlow, ?_⟩
      rw [hwidth]
      exact hhigh
    · by_cases hwhole : m.access.width = 8
      · have hstore := hall (.validStore m.access.basereg r)
          (by simp [hprivileged, hload, hvalue, hwhole])
        refine eq_num_of_implies_not_stack hd.types hc.state.models.1 (succeeds_require.mp hstore) ?_
        exact hor.resolve_left (not_not.mpr hwhole)
      · exact List.mem_singleton.mp (mem_types_of_isInGroup hd.types hc.state.models.1
          (succeeds_require.mp (hall (.typeConstraint r .number)
            (by simp [hprivileged, hload, hvalue, hwhole]))))

theorem executable_atomic {m : Atomic} (hd : d.rcp.WF) (hc : ConcreteBytes R d τ σ bytes)
    (h : ∀ a ∈ AssertExtractor.atomic label m, (visit R info opts d a).Succeeds) :
    Executable R info opts τ σ bytes label (.other (.atomic m)) := by
  have hgroup : ∀ {r group}, .typeConstraint r group ∈ AssertExtractor.atomic label m →
      τ (R.regType r) ∈ group.types :=
    fun ha => mem_types_of_isInGroup hd.types hc.state.models.1 (succeeds_require.mp (h _ ha))
  have hnumber : τ (R.regType m.valreg) ∈ TypeGroup.number.types :=
    hgroup (by simp [AssertExtractor.atomic])
  have hpointer : τ (R.regType m.access.basereg) ∈ TypeGroup.pointer.types :=
    hgroup (by simp [AssertExtractor.atomic])
  refine ⟨List.mem_singleton.mp hnumber, ?_⟩
  have haccess := h (makeValidAccess label m.access.basereg m.access.offset
    (.inr (UInt64.ofNat (m.access.width % 2 ^ 32).toNat)) false .compare)
    (by simp [AssertExtractor.atomic])
  have hinside := accessInside_of_validAccess hd hc.state rfl hpointer haccess
  have hpos : 0 ≤ m.access.width % 2 ^ 32 := Int.emod_nonneg _ (by decide)
  have hlt : m.access.width % 2 ^ 32 < 2 ^ 32 := Int.emod_lt_of_pos _ (by decide)
  rwa [accessWidth_ofNat (by omega), Int.toNat_of_nonneg hpos] at hinside

/-- A divisor is not a pointer. It is not zero either, unless the division by zero is allowed. -/
theorem divisor_of_validDivisor {isSigned : Bool} (hd : d.rcp.WF) (hσ : Concrete R d.rcp τ σ)
    (h : (validDivisor R opts d a r isSigned).Succeeds) :
    τ (R.regType r) ∉ TypeGroup.pointer.types ∧
      (opts.allowDivisionByZero = false → σ (R.reg .uvalues r) ≠ 0) := by
  obtain ⟨hnumber, hzero⟩ := Except.succeeds_andThen.mp h
  refine ⟨fun hpointer => ?_, fun hallow huvalue => ?_⟩
  · have hnum := eq_num_of_implies hd.types hσ.models.1 (succeeds_require.mp hnumber) hpointer
    rw [hnum] at hpointer
    exact absurd hpointer (by decide)
  · obtain ⟨σ', hs⟩ := hσ.exists_stands
    rw [hallow, if_pos (by decide)] at hzero
    have hsat := sat_of_requireValue hd.values hs.values hzero
    rw [sat_ne, eval_var, eval_const] at hsat
    cases isSigned with
    | false => exact hsat ((hs.number (Or.inr rfl) r).trans huvalue)
    | true => exact hsat ((hs.number (Or.inl rfl) r).trans (hσ.svalue_eq_zero huvalue))

theorem executable_bin {b : Bin} (hd : d.rcp.WF) (hσ : Concrete R d.rcp τ σ)
    (h : ∀ a ∈ AssertExtractor.bin b, (visit R info opts d a).Succeeds) :
    Executable R info opts τ σ bytes label (.other (.bin b)) := by
  have hgroup : ∀ {r group}, .typeConstraint r group ∈ AssertExtractor.bin b →
      τ (R.regType r) ∈ group.types :=
    fun ha => mem_types_of_isInGroup hd.types hσ.models.1 (succeeds_require.mp (h _ ha))
  have hnumber : ∀ {r}, .typeConstraint r .number ∈ AssertExtractor.bin b → τ (R.regType r) = .num :=
    fun ha => List.mem_singleton.mp (hgroup ha)
  obtain ⟨op, dst, v, is64, lddw⟩ := b
  cases v with
  | inr imm =>
    show BinImmExecutable R τ op dst
    unfold BinImmExecutable
    cases op
    case mov | movsx8 | movsx16 | movsx32 => exact trivial
    case add | sub => exact hgroup (List.mem_singleton_self _)
    all_goals exact hnumber (List.mem_singleton_self _)
  | inl src =>
    show BinExecutable R opts τ σ op is64 dst src
    unfold BinExecutable
    cases op
    case mov =>
      rintro rfl
      exact hnumber (List.mem_singleton_self _)
    case movsx8 | movsx16 | movsx32 => exact hnumber (List.mem_singleton_self _)
    case add =>
      have haddable : ∀ {ptr num},
          .addable ptr num ∈ AssertExtractor.bin ⟨.add, dst, .inl src, is64, lddw⟩ →
          τ (R.regType ptr) ∈ TypeGroup.pointer.types → τ (R.regType num) = .num :=
        fun ha => eq_num_of_implies hd.types hσ.models.1 (succeeds_require.mp (h _ ha))
      have hdst : PtrOrNum R τ dst := hgroup (by simp [AssertExtractor.bin])
      refine ⟨hdst, hgroup (by simp [AssertExtractor.bin]), ?_⟩
      rcases List.mem_cons.mp hdst with hnum | hpointer
      · exact Or.inl hnum
      · exact Or.inr (haddable (by simp [AssertExtractor.bin]) hpointer)
    case sub =>
      exact ⟨hgroup (List.mem_cons_self ..), hasDifference_of_comparable hd.types hσ.models.1
        (h (.comparable dst src true) (by simp [AssertExtractor.bin]))⟩
    case udiv | umod =>
      exact ⟨hnumber (List.mem_cons_self ..), divisor_of_validDivisor hd hσ
        (h (.validDivisor src false) (by simp [AssertExtractor.bin]))⟩
    case sdiv | smod =>
      exact ⟨hnumber (List.mem_cons_self ..), divisor_of_validDivisor hd hσ
        (h (.validDivisor src true) (by simp [AssertExtractor.bin]))⟩
    all_goals exact ⟨hnumber (List.mem_cons_self ..), hnumber (by simp [AssertExtractor.bin])⟩

theorem executable_call {c : CallInfo} {f : Frame} (hd : d.rcp.WF) (hσ : Concrete R d.rcp τ σ)
    (h : Accepts R info opts d (getAssertions (.call c f) info label)) :
    CallExecutable R info τ σ c f := by
  have hbot : d.isBottom = false := isBottom_of_models hσ.models
  obtain ⟨-, ⟨l, hl, hsingles⟩, hpairs⟩ := (accepts_call label f).mp h
  refine ⟨fun hf => ?_, fun arg harg hnull => ?_, fun arg harg => ?_⟩
  · exact ((accepts_call_iff hbot label f).mp h).1.resolve_left hf
  · obtain ⟨mapFdReg, new, hnew, hsub⟩ := argSingle_subset hl harg
    exact singleHolds_of_succeeds hd hσ hnew (fun a ha => hsingles a (hsub a ha))
      fun hnullable => absurd hnullable hnull
  · exact pairHolds_of_succeeds hd hσ (hpairs arg harg)

/-- The helper of an indirect call that is accepted. -/
theorem exists_call_of_funcConstraint {sub : Assertion → Except CheckError Unit} {func : Reg}
    (hbot : d.isBottom = false) (h : (funcConstraint R info d sub a func).Succeeds) :
    ∃ (n : ℤ) (c : CallInfo),
      (d.rcp.values.evalInterval (.var (R.reg .svalues func))).singleton = some n ∧
        Number.FitsS 32 n ∧ Callable info (.ofInt 32 n) c := by
  have hbot : d.rcp.isBottom = false := hbot
  unfold funcConstraint at h
  rw [hbot, if_neg Bool.false_ne_true] at h
  cases hsingle : (d.rcp.values.evalInterval (.var (R.reg .svalues func))).singleton with
  | none =>
    rw [hsingle] at h
    exact absurd h (not_succeeds_throwFail _ _)
  | some n =>
    rw [hsingle] at h
    dsimp only at h
    by_cases hfits : Number.FitsS 32 n
    swap
    · rw [if_pos hfits] at h
      exact absurd h (not_succeeds_throwFail _ _)
    rw [if_neg (not_not.mpr hfits)] at h
    cases husable : info.platform.isHelperUsable (.ofInt 32 n) with
    | false =>
      rw [husable, if_pos (by decide)] at h
      exact absurd h (not_succeeds_throwFail _ _)
    | true =>
      rw [husable, if_neg (by decide)] at h
      cases hmake : Unmarshaller.makeCall info.platform.toPlatform (.ofInt 32 n) with
      | error e =>
        rw [hmake] at h
        exact absurd h Except.not_succeeds_error
      | ok c => exact ⟨n, c, rfl, hfits, husable, hmake⟩

theorem executable_callx {func : Reg} (hd : d.rcp.WF) (hσ : Concrete R d.rcp τ σ)
    (h : Accepts R info opts d (getAssertions (.other (.callx func)) info label)) :
    Executable R info opts τ σ bytes label (.other (.callx func)) := by
  have hbot : d.isBottom = false := isBottom_of_models hσ.models
  have hall := succeeds_visit_of_accepts hbot h
  have hgroup := succeeds_require.mp (hall (.typeConstraint func .number) (List.mem_cons_self ..))
  have hnum := List.mem_singleton.mp (mem_types_of_isInGroup hd.types hσ.models.1 hgroup)
  obtain ⟨n, c, hsingle, hfits, hcall⟩ := exists_call_of_funcConstraint hbot
    (hall (.funcConstraint func) (List.mem_cons_of_mem _ (List.mem_singleton_self _)))
  have hn : (BitVec.ofInt 32 n).toInt = n :=
    BitVec.toInt_ofInt_eq_self (by decide) hfits.1 (Int.lt_of_le_sub_one hfits.2)
  have hid : IsHelperId R d func (.ofInt 32 n) := ⟨hgroup, by rw [hn, hsingle]⟩
  obtain ⟨σ', hs⟩ := hσ.exists_stands
  have hvalue : σ (R.reg .svalues func) = n := by
    have hmem := mem_evalInterval hs.values (.var (R.reg .svalues func))
    rw [eval_var, hs.number (Or.inl rfl) func] at hmem
    exact Interval.eq_of_singleton hsingle hmem
  have hiff : Accepts R info opts d (getAssertions (.other (.callx func)) info (some .entry)) ↔
      Accepts R info opts d (getAssertions (.call c []) info none) := accepts_callx_iff hid hcall
  have hdirect := hiff.mp h
  exact ⟨hnum, n, c, hvalue, hcall.usable, hcall.made, executable_call hd hσ hdirect⟩

/-! ## All instructions -/

/-- An instruction whose assertions are accepted can be executed in every concrete state. -/
theorem executable_of_accepts {ins : IsaInstruction} (hd : d.rcp.WF) (hcounters : R.CountersApart)
    (h : Accepts R info opts d (getAssertions ins info label)) (hc : ConcreteBytes R d τ σ bytes)
    (hle : σ (R.reg .stackOffsets 10) ≤ totalStackSize) :
    Executable R info opts τ σ bytes label ins := by
  have hσ := hc.state
  have hbot : d.isBottom = false := isBottom_of_models hσ.models
  obtain ⟨σ', hs⟩ := hσ.exists_stands
  cases ins with
  | undefined _ => exact trivial
  | callLocal _ _ => exact trivial
  | incrementLoopCounter name =>
    have hsat := sat_of_requireValue hd.values hs.values
      (succeeds_visit_of_accepts hbot h (.boundedLoopCount name) (List.mem_singleton_self _))
    rw [sat_le, eval_var, eval_const] at hsat
    refine (hs.agree _ ?_).trans_le hsat
    rintro ⟨v, hv, e, -, -, kind, -, heq⟩
    obtain ⟨l, rfl⟩ := R.location v hv
    exact hcounters _ _ _ heq.symm
  | exit f =>
    rintro l rfl hmain
    have hasserts : AssertExtractor.exit (some l) = some [.typeConstraint 0 .number] := by
      show some (if l.stackFramePrefix.isEmpty then _ else _) = _
      rw [hmain]
      rfl
    have h : Accepts R info opts d (AssertExtractor.exit (some l)) := h
    rw [hasserts] at h
    exact List.mem_singleton.mp (mem_types_of_isInGroup hd.types hs.types (succeeds_require.mp
      (succeeds_visit_of_accepts hbot h (.typeConstraint 0 .number) (List.mem_singleton_self _))))
  | call c f => exact executable_call hd hσ h
  | assume cond isImplicit =>
    rintro rfl hprivileged
    exact executable_condition hd.types hs.types hprivileged (succeeds_visit_of_accepts hbot h)
  | jmp cond target =>
    cases cond with
    | none => exact trivial
    | some cond =>
      intro hprivileged
      exact executable_condition hd.types hs.types hprivileged (succeeds_visit_of_accepts hbot h)
  | other op =>
    cases op with
    | loadMapFd _ _ => exact trivial
    | loadMapAddress _ _ _ => exact trivial
    | callx func => exact executable_callx hd hσ h
    | mem m => exact executable_mem hd hc hle h
    | atomic m => exact executable_atomic hd hc (succeeds_visit_of_accepts hbot h)
    | bin b => exact executable_bin hd hσ (succeeds_visit_of_accepts hbot h)
    | un u =>
      exact List.mem_singleton.mp (mem_types_of_isInGroup hd.types hs.types (succeeds_require.mp
        (succeeds_visit_of_accepts hbot h (.typeConstraint u.dst .number) (List.mem_singleton_self _))))
    | packet p =>
      have hall := succeeds_visit_of_accepts hbot h
      have hctx : τ (R.regType 6) = .ctx := List.mem_singleton.mp (mem_types_of_isInGroup hd.types
        hs.types (succeeds_require.mp (hall (.typeConstraint 6 .ctx) (List.mem_cons_self ..))))
      have hzero : (zeroCtxOffset R d (.zeroCtxOffset 6 false) 6 false).Succeeds :=
        hall (.zeroCtxOffset 6 false) (List.mem_cons_of_mem _ (List.mem_singleton_self _))
      exact ⟨hctx, ctxOffset_of_succeeds hd hs hctx hzero⟩

theorem countersApart_named (more : List Location) : (named more).CountersApart := by
  intro k l name heq
  have hindex := (List.cons.inj heq).1
  omega

/-- `r2 = *(u64 *)(r1 - 8)`. -/
def slotLoad : IsaInstruction := .other (.mem ⟨⟨8, 1, -8⟩, .inl 2, true⟩)

theorem accepts_slotLoad : Accepts (.named []) nullableInfo ⟨false, true, false⟩ slotState
    (getAssertions slotLoad nullableInfo none) := by
  refine ⟨[.typeConstraint 1 .pointer, .validAccess ⟨1, 1, -8, .inr 8, false, .read⟩], rfl, ?_⟩
  unfold Except.Succeeds
  decide +kernel

theorem executable_of_accepts_slotLoad : Executable (.named []) nullableInfo ⟨false, true, false⟩
    slotTypes slotValues {i | 504 ≤ i ∧ i < 512} none slotLoad :=
  executable_of_accepts ⟨wf_setAll wf_top, wf_setAll wf_top⟩ (countersApart_named []) accepts_slotLoad
    concreteBytes_slot (by decide)

end Prevail
