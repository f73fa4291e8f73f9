import Prevail.Crab.CallContract
import Prevail.Crab.NumericBytes

/-!
# What an accepted access touches

The check of an access asks for bounds in the region of each type that the register may have, and for
numbers when the stack is read. The numbers are known from the bytes that are marked, or counted by the
numeric size of the register. When the check accepts, every byte of the access is in its region, and it
is a number where this is asked for (`accessSafe_of_validAccess`). A width of zero is that of a
comparison, which touches no byte.
-/

namespace Prevail

open AddBottom TypeToNumDomain ProgramVariables

variable {V : Type} [LinearOrder V] {R : ProgramVariables V} {info : ProgramInfo}
  {opts : VerifierOptions} {d : EbpfDomain V} {τ : V → TypeEncoding} {σ σ' : V → ℤ} {bytes : Set ℕ}
  {s : ValidAccess}

/-- A state of a program with the bytes of its stack that hold numbers. The numeric size of a pointer to
the stack counts such bytes from where it points to. -/
structure ConcreteBytes (R : ProgramVariables V) (d : EbpfDomain V) (τ : V → TypeEncoding) (σ : V → ℤ)
    (bytes : Set ℕ) : Prop where
  state : Concrete R d.rcp τ σ
  marked : d.stack.Admits bytes
  counted : ∀ r, τ (R.regType r) = .stack → ∀ i : ℕ, σ (R.reg .stackOffsets r) ≤ i →
    i < σ (R.reg .stackOffsets r) + σ (R.reg .stackNumericSizes r) → i ∈ bytes

/-- The byte is one of those that are accessed, at its offset in the region of the register. -/
def Accessed (R : ProgramVariables V) (τ : V → TypeEncoding) (σ : V → ℤ) (s : ValidAccess) (j : ℤ) :
    Prop :=
  pointerOffset R τ σ s.reg + s.offset ≤ j ∧
    j < pointerOffset R τ σ s.reg + s.offset + accessWidth R σ s.width

/-- The access touches its region only, a null pointer is allowed, and the bytes of the stack are
numbers where they are read. -/
structure AccessSafe (R : ProgramVariables V) (info : ProgramInfo) (τ : V → TypeEncoding) (σ : V → ℤ)
    (bytes : Set ℕ) (s : ValidAccess) : Prop where
  region : s.orNull = true ∧ τ (R.regType s.reg) = .num ∧ σ (R.reg .svalues s.reg) = 0 ∨
    ∀ j, Accessed R τ σ s j → Within R info τ σ s.reg j (j + 1)
  null : IsNull R τ σ s.reg → s.orNull = true ∨ s.width = .inr 0
  numeric : s.accessType = .read → τ (R.regType s.reg) = .stack →
    ∀ i : ℕ, Accessed R τ σ s i → i ∈ bytes

/-! ## Marked bytes -/

theorem BitsetDomain.marked_of_allNum {x : BitsetDomain} {lb ub : ℤ} {i : ℕ}
    (h : x.allNum lb ub = true) (hlb : lb ≤ i) (hub : i < ub) (hi : i < totalStackSize) :
    x.Marked i := by
  unfold allNum at h
  rw [if_neg (by omega)] at h
  have hbit := List.all_eq_true.mp h (i - (max lb 0).toNat) (List.mem_range.mpr (by omega))
  rw [Nat.add_sub_cancel' (by omega)] at hbit
  exact ⟨hi, by simpa using hbit⟩

/-- All bytes are marked from any lower to any upper bound. -/
theorem ArrayDomain.marked_of_allNumLbUb {a : ArrayDomain} {lb ub : Interval} {l u : ℤ} {i : ℕ}
    (h : a.allNumLbUb lb ub = some true) (hl : l ∈ lb) (hu : u ∈ ub) (hli : l ≤ i) (hiu : i < u)
    (hi : i < totalStackSize) : a.numBytes.Marked i := by
  obtain ⟨⟨minLb, maxUb⟩, hbound, h⟩ := Option.bind_eq_some_iff.mp h
  have hboth := Option.some.inj h
  rw [Bool.and_eq_true] at hboth
  have hfirst : l ∈ lb.join ub := Interval.mem_join (Or.inl hl)
  have hlast : u ∈ lb.join ub := Interval.mem_join (Or.inr hu)
  have hmem : (i : ℤ) ∈ lb.join ub := Interval.mem_of_between hfirst hlast hli hiu.le
  have hnext : (i : ℤ) + 1 ∈ lb.join ub := Interval.mem_of_between hfirst hlast (by omega) (by omega)
  have hleft := TypeDomain.mem_bound hbound hmem (by omega) (by omega)
  have hright := TypeDomain.mem_bound hbound hnext (by omega) (by omega)
  exact BitsetDomain.marked_of_allNum hboth.2 hleft.1 (by omega) hi

/-! ## The check -/

omit [LinearOrder V] in
theorem Within.byte {r : Reg} {lb ub j : ℤ} (h : Within R info τ σ r lb ub) (hlb : lb ≤ j)
    (hub : j < ub) : Within R info τ σ r j (j + 1) := by
  unfold Within at *
  cases htype : τ (R.regType r) <;> rw [htype] at h
  case packet | stack | ctx | shared => exact ⟨h.1.trans hlb, (Int.add_one_le_of_lt hub).trans h.2⟩
  all_goals exact h

open EbpfChecker Except LinearExpression in
/-- What is read from the stack is numbers. -/
theorem numeric_of_validAccess {a : Assertion} (hd : d.rcp.WF) (hc : ConcreteBytes R d τ σ bytes)
    (h : (validAccess R info d a s).Succeeds) (hread : s.accessType = .read)
    (htype : τ (R.regType s.reg) = .stack) {i : ℕ} (hi : Accessed R τ σ s i) : i ∈ bytes := by
  obtain ⟨σ', hs⟩ := hc.state.exists_stands
  have hentry : (.stack, [.stackOffsets, .stackNumericSizes]) ∈ typeToKinds := by decide
  have hoffset := hs.kind hentry List.mem_cons_self htype
  have hsize := hs.kind hentry (List.mem_cons_of_mem _ List.mem_cons_self) htype
  have hpointer : pointerOffset R τ σ s.reg = σ (R.reg .stackOffsets s.reg) := by
    unfold pointerOffset
    rw [htype]
  obtain ⟨hlb, hub⟩ := hs.eval_access (hoffset.trans hpointer.symm)
  have has := validAccessAs_of_succeeds hd.types hs.types h
  rw [htype] at has
  obtain ⟨hstack, has⟩ := succeeds_andThen.mp has
  obtain ⟨-, hhigh⟩ := bounds_of_checkAccessStack hd.values hs.values hstack
  have hhigh := hub.symm.trans_le hhigh
  obtain ⟨hfirst, hlast⟩ := hi
  rw [if_pos hread] at has
  obtain ⟨numeric, hnumeric, has⟩ := succeeds_ask_bind.mp has
  cases numeric with
  | true =>
    -- the bytes between the bounds are marked
    have hl := AddBottom.mem_evalInterval hs.values
      (lbUbAccessPair R s (R.reg .stackOffsets s.reg)).1
    have hu := AddBottom.mem_evalInterval hs.values
      (lbUbAccessPair R s (R.reg .stackOffsets s.reg)).2
    rw [hlb] at hl
    rw [hub] at hu
    exact hc.marked i (ArrayDomain.marked_of_allNumLbUb hnumeric hl hu hfirst hlast (by omega))
  | false =>
    -- the register counts them
    rw [if_neg Bool.false_ne_true] at has
    split_ifs at has with hneg
    · exact absurd has (not_succeeds_throwFail _ _)
    · have hsat := sat_of_requireValue hd.values hs.values has
      have hwidth : accessWidth R σ s.width ≤ σ (R.reg .stackNumericSizes s.reg) + -s.offset := by
        rw [sat_le, eval_plusConst, eval_var, hsize] at hsat
        unfold accessWidth
        cases hw : s.width with
        | inl size =>
          rw [hw] at hsat
          rwa [eval_var, hs.number (Or.inl rfl)] at hsat
        | inr imm =>
          rw [hw] at hsat
          rwa [eval_const] at hsat
      rw [hpointer] at hfirst hlast
      exact hc.counted s.reg htype i (by omega) (by omega)

/-- An access that is accepted is safe in every concrete state. -/
theorem accessSafe_of_validAccess (hd : d.rcp.WF) (hc : ConcreteBytes R d τ σ bytes)
    (h : (ebpfDomainCheck R info opts d (.validAccess s)).Succeeds) :
    AccessSafe R info τ σ bytes s := by
  have hbot : d.isBottom = false := isBottom_of_models hc.state.models
  rw [ebpfDomainCheck_eq hbot] at h
  have h : (EbpfChecker.validAccess R info d (.validAccess s) s).Succeeds := h
  refine ⟨?_, ?_, fun hread htype i hi => numeric_of_validAccess hd hc h hread htype hi⟩
  · by_cases hwidth : s.width = .inr 0
    · right
      rintro j ⟨hlow, hhigh⟩
      have hzero : accessWidth R σ s.width = 0 := by
        rw [hwidth]
        rfl
      omega
    · exact (within_of_validAccess hd hc.state hwidth h).imp_right fun hin j hj =>
        hin.2.byte hj.1 hj.2
  · rintro ⟨htype, hzero⟩
    by_contra hnot
    obtain ⟨hor, hwidth⟩ := not_or.mp hnot
    rcases within_of_validAccess hd hc.state hwidth h with ⟨hor', -⟩ | ⟨hshared, hin⟩
    · exact hor hor'
    · rcases htype with hnum | htype
      · unfold Within at hin
        rwa [hnum] at hin
      · have hpos := hshared htype (by simpa using hor)
        omega

/-- A pointer to the end of a frame in `r1`, before which there are eight bytes of numbers. -/
def slotState : EbpfDomain ProgramVariables.Name :=
  let R := ProgramVariables.named []
  ⟨⟨⟨setAll AddBottom.top [(R.regType 1, .const TypeEncoding.stack.toInt),
      (R.regType 10, .const TypeEncoding.stack.toInt)]⟩,
    setAll AddBottom.top [(R.reg .stackOffsets 1, .const 512), (R.reg .stackOffsets 10, .const 512)]⟩,
    ⟨BitsetDomain.top.reset 504 8⟩⟩

/-- The types and the values of a state with these pointers. -/
def slotTypes (v : ProgramVariables.Name) : TypeEncoding :=
  if v = (named []).regType 1 ∨ v = (named []).regType 10 then .stack else .uninit

def slotValues (v : ProgramVariables.Name) : ℤ :=
  if v = (named []).reg .stackOffsets 1 ∨ v = (named []).reg .stackOffsets 10 then 512 else 0

theorem concreteBytes_slot :
    ConcreteBytes (.named []) slotState slotTypes slotValues {i | 504 ≤ i ∧ i < 512} where
  state :=
    { models := by
        have hτ : slotState.rcp.types.Models slotTypes := models_setAll_top (by decide)
        have hσ : slotState.rcp.values.Models slotValues := models_setAll_top (by decide)
        exact ⟨hτ, slotValues, fun _ _ => rfl, hσ⟩
      word := fun r => ⟨0#64, by simp [slotValues, reg_inj], by simp [slotValues, reg_inj]⟩
      frame := by decide
      frame_le := by decide }
  marked i hi := by
    rcases BitsetDomain.marked_reset.mp hi with htop | ⟨-, hlow, hhigh⟩
    · exact absurd htop (ArrayDomain.admits_top ∅ i)
    · exact ⟨hlow, by omega⟩
  counted r _ i hlow hhigh := by
    have hsize : slotValues ((named []).reg .stackNumericSizes r) = 0 := by simp [slotValues, reg_inj]
    rw [hsize] at hhigh
    omega

/-- The eight bytes are read. -/
theorem accessSafe_of_validAccess_slot : AccessSafe (.named []) nullableInfo slotTypes slotValues
    {i | 504 ≤ i ∧ i < 512} ⟨1, 1, -8, .inr 8, false, .read⟩ := by
  have hwf : slotState.rcp.WF := ⟨wf_setAll wf_top, wf_setAll wf_top⟩
  have haccepted : (ebpfDomainCheck (.named []) nullableInfo ⟨false, true, false⟩ slotState
      (.validAccess ⟨1, 1, -8, .inr 8, false, .read⟩)).Succeeds := by
    unfold Except.Succeeds
    decide +kernel
  exact accessSafe_of_validAccess hwf concreteBytes_slot haccepted

end Prevail
