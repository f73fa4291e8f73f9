import Prevail.Crab.Built

/-!
# The transfer functions of arithmetic and conditions keep the zones built

Each case of the arithmetic instructions is one operation of the finite domain on the values, with
forgotten offsets before or after it. A condition adds constraints.
-/

namespace Prevail

open Option StateT TypeToNumDomain
open SplitDbm (Reachable)

variable {V : Type} [LinearOrder V] {meets : SplitDbm V → SplitDbm V → Prop} {R : ProgramVariables V}
  {isUnsigned : V → Bool} {info : ProgramInfo} {opts : VerifierOptions} {rcp : TypeToNumDomain V}
  {d : EbpfDomain V} {stack : ArrayDomain} {dst src : Reg} {w : ℕ}

namespace EbpfTransformer

/-! ## Operations on the values -/

/-- Most operations replace the values and leave the types. -/
theorem built_values (hd : rcp.Built meets) {x : AddBottom V} (hx : x.Built meets) :
    Built meets { rcp with values := x } := ⟨hd.types, hx⟩

theorem built_onValues {op : SplitDbm V → Option (SplitDbm V)} (hd : rcp.Built meets)
    (hop : ∀ z, Reachable meets z → (op z).Returns (Reachable meets)) :
    (onValues op rcp).Returns (Built meets) :=
  Returns.bind hd.values fun z hz => (hop z hz).bind fun _ hz => .some (built_values hd (.some hz))

/-- Arithmetic on the values of a register makes it a number: its offsets are forgotten. -/
theorem built_compute {op : SplitDbm V → V → V → Option (SplitDbm V)} (hd : rcp.Built meets)
    (hop : ∀ z s u, Reachable meets z → (op z s u).Returns (Reachable meets)) :
    (compute R dst op rcp).Returns (Built meets) :=
  (built_onValues hd fun z hz => hop z _ _ hz).bind fun _ hd => .some (hd.havocOffsets _)

/-- A shift of what may be no number forgets both variables of the register. -/
theorem built_onNumber {op : SplitDbm V → V → V → Option (SplitDbm V)} (hd : rcp.Built meets)
    (hop : ∀ z s u, Reachable meets z → (op z s u).Returns (Reachable meets)) :
    (onNumber R rcp dst op).Returns (Built meets) := by
  unfold onNumber
  simp only
  have hd := hd.havocOffsets (R := R) dst
  split
  · exact Returns.bind hd.values fun z hz => (hop z _ _ hz).bind fun _ hz => .some (built_values hd (.some hz))
  · exact .some (built_values hd ((hd.values.havoc _).havoc _))

theorem built_lowHalf (hd : rcp.Built meets) : (lowHalf R isUnsigned dst rcp).Returns (Built meets) :=
  built_onValues hd fun _ hz => FiniteDomain.reachable_applyUnsigned _ hz

/-- The number of numeric bytes at a stack pointer is read off the stack and set. -/
theorem built_recomputeStackNumericSize (hd : rcp.Built meets) (r : Reg) :
    (recomputeStackNumericSize R rcp stack r).Built meets := by
  unfold recomputeStackNumericSize
  simp only
  split_ifs
  · exact built_values hd (hd.values.assignInt _ _)
  · exact hd
  · exact hd

/-! ## `Bin` with an immediate value -/

/-- The immediate is added to both words of the register, to its offset and to its numeric size. -/
theorem built_add (hd : d.rcp.Built meets) (imm : ℤ) :
    (add R isUnsigned dst imm w d).Returns (·.rcp.Built meets) := by
  refine Returns.bind hd.values fun z hz => ?_
  refine (FiniteDomain.reachable_applySigned _ hz).bind fun z hz => Returns.bind' fun offset => ?_
  cases offset with
  | none => exact .some (built_values hd (.some hz))
  | some offset =>
    refine (FiniteDomain.reachable_applySigned _ hz).bind fun z hz => ?_
    have hsize : (addNumericSize R isUnsigned z dst imm).Returns (Reachable meets) := by
      unfold addNumericSize
      split_ifs
      · exact FiniteDomain.reachable_applySigned _ hz
      · exact .some (.havoc hz _)
      · exact .some hz
    exact hsize.bind fun z hz => .some (built_recomputeStackNumericSize (built_values hd (.some hz)) dst)

/-- The state that a case of an instruction leaves. -/
def Outcome.state {α : Type} : Outcome α → α
  | .returns a => a
  | .goesOn a => a

theorem built_addImm (hd : d.rcp.Built meets) (imm : ℤ) :
    (addImm R isUnsigned dst imm w d).Returns (·.state.rcp.Built meets) := by
  unfold addImm
  split
  · exact .some hd
  · exact Returns.bind' fun imm => (built_add hd imm).bind fun d hd => .some hd

theorem built_movImm (hd : rcp.Built meets) (imm : ℤ) :
    (movImm R dst imm w rcp).Returns (Built meets) := by
  refine (built_onValues (built_values hd ((hd.values.assignInt _ _).assignInt _ _)) fun z hz =>
    FiniteDomain.reachable_overflowBound hz _ _ _).bind fun rcp hd => ?_
  exact .some ((hd.assignType _ _).havocOffsets _)

theorem built_andImm (hd : rcp.Built meets) (imm : ℤ) :
    (andImm R isUnsigned dst imm w rcp).Returns (Built meets) := by
  refine (built_onValues hd fun z hz => FiniteDomain.reachable_applyUnsigned _ hz).bind fun rcp hd => ?_
  refine Returns.bind' fun imm => .some ?_
  split_ifs
  · have hbound : (boundBy R dst imm rcp).Built meets :=
      built_values hd ((((hd.values.addConstraint _).addConstraint _).addConstraint _).addConstraint _)
    exact hbound.havocOffsets _
  · exact hd.havocOffsets _

theorem built_cutOperand {b : Bin} (hd : rcp.Built meets) :
    (cutOperand R isUnsigned b rcp).Returns (Built meets) := by
  unfold cutOperand
  split_ifs
  · exact .some hd
  · exact built_lowHalf hd
  · exact .some (hd.havocRegister _)

/-- Each operator has one case, which goes on to the end of the instruction or returns at once. -/
theorem built_binImm {b : Bin} (hd : d.rcp.Built meets) (imm : ℤ) :
    (binImm R isUnsigned b imm w d).Returns (·.state.rcp.Built meets) := by
  have htyped : ∀ {o : Option (TypeToNumDomain V)}, o.Returns (Built meets) →
      (do return .goesOn { d with rcp := ← o } : Option (Outcome (EbpfDomain V))).Returns
        (·.state.rcp.Built meets) := fun ho => ho.bind fun rcp hd => .some hd
  unfold binImm
  simp only
  cases b.op with
  | mov => exact htyped (built_movImm hd imm)
  | movsx8 => exact .none
  | movsx16 => exact .none
  | movsx32 => exact .none
  | add => exact built_addImm hd imm
  | sub => exact built_addImm hd (-imm)
  | and => exact htyped (built_andImm hd imm)
  | lsh =>
    refine htyped (Returns.bind' fun count => ?_)
    exact built_onNumber hd fun z _ _ hz => FiniteDomain.reachable_shl hz _ _
  | rsh =>
    refine htyped (Returns.bind' fun count => ?_)
    exact built_onNumber hd fun z _ _ hz => FiniteDomain.reachable_lshr hz _ _
  | arsh =>
    refine htyped (Returns.bind' fun count => ?_)
    exact built_onNumber hd fun z _ _ hz => FiniteDomain.reachable_ashr hz _ _
  | mul => exact htyped (built_compute hd fun z _ _ hz => FiniteDomain.reachable_applySigned _ hz)
  | sdiv => exact htyped (built_compute hd fun z _ _ hz => FiniteDomain.reachable_applySigned _ hz)
  | smod => exact htyped (built_compute hd fun z _ _ hz => FiniteDomain.reachable_applySigned _ hz)
  | udiv => exact htyped (built_compute hd fun z _ _ hz => FiniteDomain.reachable_applyUnsigned _ hz)
  | umod => exact htyped (built_compute hd fun z _ _ hz => FiniteDomain.reachable_applyUnsigned _ hz)
  | or => exact htyped (built_compute hd fun z _ _ hz => FiniteDomain.reachable_applyUnsigned _ hz)
  | xor => exact htyped (built_compute hd fun z _ _ hz => FiniteDomain.reachable_applyUnsigned _ hz)

/-! ## `Bin` with a register -/

/-- Numeric bytes that may have grown are counted again on the stack. -/
theorem built_shrinkNumericSize {mayGrow : LinearConstraint V} {shrink : SplitDbm V → Option (SplitDbm V)}
    (hd : rcp.Built meets) (hop : ∀ z, Reachable meets z → (shrink z).Returns (Reachable meets)) :
    (shrinkNumericSize R stack dst mayGrow shrink rcp).Returns (Built meets) := by
  unfold shrinkNumericSize
  split_ifs
  · exact .some (built_recomputeStackNumericSize (built_values hd (hd.values.havoc _)) dst)
  · exact built_onValues hd hop

/-- A number plus a pointer is a pointer: the register takes the type and the offset of the other one. -/
theorem built_numPlusPtr {type : TypeEncoding} (hd : rcp.Built meets) :
    (numPlusPtr R isUnsigned dst src type rcp).Returns (Built meets) := by
  have hd := hd.assignType (R.regType dst) (.const type.toInt)
  unfold numPlusPtr
  simp only
  cases Prevail.getTypeOffsetVariable R dst type.toInt with
  | none =>
    exact Returns.bind (.some hd) fun rcp hd =>
      .ite (.some (built_values hd (hd.values.assign _ _))) (.some hd)
  | some offset =>
    refine Returns.bind' fun _ => ?_
    exact (built_onValues hd fun z hz => FiniteDomain.reachable_apply _ hz).bind fun rcp hd =>
      .ite (.some (built_values hd (hd.values.assign _ _))) (.some hd)

/-- The offset grows by the number, and the numeric bytes at the pointer shrink by it. -/
theorem built_ptrPlusNum {type : TypeEncoding} (hd : rcp.Built meets) :
    (ptrPlusNum R isUnsigned stack dst src type rcp).Returns (Built meets) := by
  unfold ptrPlusNum
  simp only
  have hd := hd.assignType (R.regType dst) (.const type.toInt)
  cases Prevail.getTypeOffsetVariable R dst type.toInt with
  | none => exact .some hd
  | some offset =>
    refine (built_onValues hd fun z hz => FiniteDomain.reachable_apply _ hz).bind fun rcp hd => ?_
    split_ifs
    · exact built_shrinkNumericSize hd fun z hz => FiniteDomain.reachable_applySigned _ hz
    · exact .some hd

theorem built_addNumbers (hd : rcp.Built meets) :
    (addNumbers R isUnsigned dst src w rcp).Returns (Built meets) :=
  built_onValues hd fun _ hz => FiniteDomain.reachable_applySigned _ hz

/-- Two pointers are not added: that pair of types has no states. -/
theorem built_addTyped {dstType srcType : TypeEncoding} (hd : rcp.Built meets) :
    (addTyped R isUnsigned stack dst src w dstType srcType rcp).Returns (Built meets) := by
  unfold addTyped
  split_ifs
  · exact built_numPlusPtr hd
  · exact built_ptrPlusNum hd
  · exact built_addNumbers hd
  · exact .some (built_values hd AddBottom.built_none)

/-- A split of a state that no other state goes along with. -/
theorem built_joinOverTypes {f : TypeToNumDomain V → TypeEncoding → Option (TypeToNumDomain V)} {r : Reg}
    (hd : rcp.Built meets) (hf : ∀ d type, d.Built meets → (f d type).Returns (Built meets)) :
    (joinOverTypes R rcp r (fun d type => (liftM (f d type) : StateT Unit Option _)) ()).Returns
      (·.1.Built meets) :=
  fun res hres => hd.joinOverTypes (fun d type hd => (hf d type hd).lift) _ res.1 res.2 hres

/-- The types of both registers are split, one inside the other. -/
theorem built_addReg (hd : rcp.Built meets) :
    (addReg R isUnsigned stack dst src w rcp).Returns (Built meets) := by
  unfold addReg
  split_ifs
  · exact built_onValues hd fun z hz => FiniteDomain.reachable_applySigned _ hz
  · refine Returns.bind (Q := fun res : TypeToNumDomain V × Unit => res.1.Built meets) (fun res hres => ?_)
      fun res hd => built_addNumbers hd
    refine hd.joinOverTypes (fun d dstType hd => ?_) _ _ _ hres
    exact hd.joinOverTypes fun d srcType hd => (built_addTyped hd).lift

/-- The difference of the offsets is the value; the offset itself is forgotten. -/
theorem built_ptrMinusPtr {type : TypeEncoding} (hd : rcp.Built meets) :
    (ptrMinusPtr R isUnsigned dst src type w rcp).Returns (Built meets) := by
  unfold ptrMinusPtr
  cases Prevail.getTypeOffsetVariable R dst type.toInt with
  | none => exact .some hd
  | some offset =>
    refine Returns.bind' fun _ => ?_
    refine (built_onValues hd fun z hz => FiniteDomain.reachable_applySigned _ hz).bind fun rcp hd => ?_
    exact .some (built_values hd (hd.values.havoc _))

theorem built_subTyped {type : TypeEncoding} (hd : rcp.Built meets) :
    (subTyped R isUnsigned dst src w type rcp).Returns (Built meets) := by
  unfold subTyped
  split_ifs
  · refine (built_onValues hd fun z hz => FiniteDomain.reachable_applySigned _ hz).bind fun rcp hd => ?_
    exact .some ((hd.assignType _ _).havocOffsets _)
  · exact (built_ptrMinusPtr hd).bind fun rcp hd => .some ((hd.havocOffsets _).assignType _ _)

theorem built_offsetMinusNum (hd : rcp.Built meets) :
    (offsetMinusNum R isUnsigned stack dst src rcp).Returns (Built meets) := by
  refine Returns.bind' fun offset => ?_
  cases offset with
  | none => exact .some hd
  | some offset =>
    refine (built_onValues hd fun z hz => FiniteDomain.reachable_applySigned _ hz).bind fun rcp hd => ?_
    split_ifs
    · exact built_shrinkNumericSize hd fun z hz => FiniteDomain.reachable_apply _ hz
    · exact .some hd

/-- Where the types are known equal the difference is taken type by type, else a number is taken off. -/
theorem built_subReg (hd : rcp.Built meets) :
    (subReg R isUnsigned stack dst src w rcp).Returns (Built meets) := by
  unfold subReg
  split_ifs
  · exact (built_joinOverTypes hd fun d type hd => built_subTyped hd).bind fun res hd => .some hd
  · refine (built_onValues hd fun z hz => FiniteDomain.reachable_applySigned _ hz).bind fun rcp hd => ?_
    exact built_offsetMinusNum hd
  · exact .some (hd.havocRegister _)

/-- A shift by a register is one by its value where that is known. -/
theorem built_shiftReg {b : Bin}
    {shift : TypeToNumDomain V → Reg → BitVec 32 → ℕ → Option (TypeToNumDomain V)}
    {otherwise : TypeToNumDomain V → Option (TypeToNumDomain V)} (hd : rcp.Built meets)
    (hshift : ∀ d imm, d.Built meets → (shift d b.dst imm w).Returns (Built meets))
    (hother : (otherwise rcp).Returns (Built meets)) :
    (shiftReg R isUnsigned b src w shift otherwise rcp).Returns (Built meets) := by
  refine Returns.bind' fun amount => ?_
  cases amount with
  | none => exact hother
  | some imm =>
    simp only
    split_ifs
    · exact Returns.bind (.some hd) fun rcp hd => hshift rcp imm hd
    · exact (built_lowHalf hd).bind fun rcp hd => hshift rcp imm hd

/-- A sign extension reads a number; else nothing is known of the register. -/
theorem built_movsx {source : ℕ} (hd : rcp.Built meets) :
    (movsx R dst src source w rcp).Returns (·.state.Built meets) := by
  unfold movsx
  split_ifs
  · exact .some hd
  · refine (built_onValues ((hd.havocOffsets dst).assignType _ _) fun z hz =>
      FiniteDomain.reachable_signExtend hz _ _ _).bind fun rcp hd => .some hd
  · exact .some (hd.havocRegister _)

theorem built_movReg {b : Bin} (hd : rcp.Built meets) : (movReg R b src rcp).Returns (Built meets) := by
  unfold movReg
  split_ifs
  · exact hd.assign _ _
  · exact .some (hd.havocRegister _)

/-- Each operator has one case, as with an immediate. -/
theorem built_binReg {b : Bin} (hd : rcp.Built meets) :
    (binReg R isUnsigned b src w stack rcp).Returns (·.state.Built meets) := by
  have hgoes : ∀ {o : Option (TypeToNumDomain V)}, o.Returns (Built meets) →
      (o.map Outcome.goesOn).Returns (·.state.Built meets) := fun ho => ho.map fun rcp hd => hd
  have hexcept : (some (havocRegisterExceptType R rcp b.dst)).Returns (Built meets) :=
    .some (hd.havocRegisterExceptType _)
  unfold binReg
  simp only
  cases b.op with
  | add => exact hgoes (built_addReg hd)
  | sub => exact hgoes (built_subReg hd)
  | lsh =>
    refine hgoes (built_shiftReg hd (fun d imm hd => ?_) ?_)
    · exact built_onNumber hd fun z _ _ hz => FiniteDomain.reachable_shl hz _ _
    · exact built_compute hd fun z _ _ hz => FiniteDomain.reachable_applyUnsigned _ hz
  | rsh =>
    refine hgoes (built_shiftReg hd (fun d imm hd => ?_) hexcept)
    exact built_onNumber hd fun z _ _ hz => FiniteDomain.reachable_lshr hz _ _
  | arsh =>
    split_ifs
    · exact hgoes (built_onNumber hd fun z _ _ hz => FiniteDomain.reachable_ashr hz _ _)
    · exact hgoes hexcept
  | movsx8 => exact built_movsx hd
  | movsx16 => exact built_movsx hd
  | movsx32 => exact built_movsx hd
  | mov => exact hgoes (built_movReg hd)
  | mul => exact hgoes (built_compute hd fun z _ _ hz => FiniteDomain.reachable_applySigned _ hz)
  | sdiv => exact hgoes (built_compute hd fun z _ _ hz => FiniteDomain.reachable_applySigned _ hz)
  | smod => exact hgoes (built_compute hd fun z _ _ hz => FiniteDomain.reachable_applySigned _ hz)
  | udiv => exact hgoes (built_compute hd fun z _ _ hz => FiniteDomain.reachable_applyUnsigned _ hz)
  | umod => exact hgoes (built_compute hd fun z _ _ hz => FiniteDomain.reachable_applyUnsigned _ hz)
  | or => exact hgoes (built_compute hd fun z _ _ hz => FiniteDomain.reachable_applyUnsigned _ hz)
  | and => exact hgoes (built_compute hd fun z _ _ hz => FiniteDomain.reachable_applyUnsigned _ hz)
  | xor => exact hgoes (built_compute hd fun z _ _ hz => FiniteDomain.reachable_applyUnsigned _ hz)

/-! ## `Bin`, `Un` and `Assume` -/

/-- A 32-bit operation ends by cutting the register to its low half. -/
theorem built_finish {b : Bin} {o : Outcome (EbpfDomain V)} (ho : o.state.rcp.Built meets) :
    (finish R isUnsigned b o).Returns (·.rcp.Built meets) := by
  cases o with
  | returns d => exact .some ho
  | goesOn d =>
    unfold finish
    split_ifs
    · exact .some ho
    · exact (built_lowHalf ho).bind fun rcp hd => .some hd

theorem built_bin {b : Bin} (hd : d.rcp.Built meets) :
    (bin R isUnsigned b d).Returns (·.rcp.Built meets) := by
  unfold bin
  split_ifs
  · exact .some hd
  · exact .some (hd.havocRegister _)
  · cases b.v with
    | inr imm =>
      refine (built_cutOperand hd).bind fun rcp hrcp => ?_
      exact (built_binImm (d := { d with rcp := rcp }) hrcp _).bind fun o ho => built_finish ho
    | inl src =>
      simp only
      split_ifs
      · refine (built_binReg hd).bind fun o ho => ?_
        cases o with
        | returns rcp => exact built_finish ho
        | goesOn rcp => exact built_finish ho
      · exact .some (hd.havocRegister _)

/-- The bytes of a known number are swapped; any other value is forgotten. -/
theorem built_swapEndianness {v : V} {f : BitVec 64 → ℤ} (hd : rcp.Built meets) :
    (swapEndianness R dst v f rcp).Built meets := by
  have hunknown := (built_values hd (hd.values.havoc v)).havocOffsets (R := R) dst
  unfold swapEndianness
  simp only
  split
  · split
    · split
      · exact built_values hd (hd.values.set _ _)
      · exact hunknown
    · exact hunknown
  · exact hunknown

theorem built_swapBoth {op : BitVec 64 → BitVec 64} (hd : rcp.Built meets) :
    (swapBoth R dst op rcp).Built meets := built_swapEndianness (built_swapEndianness hd)

theorem built_swapTo {swaps : Bool} {bytes : ℕ} (hd : rcp.Built meets) :
    (swapTo R dst swaps bytes rcp).Built meets := by
  unfold swapTo
  split_ifs
  · exact built_swapBoth hd
  · exact hd
  · exact built_swapBoth hd

theorem built_un {u : Un} (hd : d.rcp.Built meets) :
    (un R isUnsigned opts u d).Returns (·.rcp.Built meets) := by
  unfold un
  simp only
  split
  · exact .some hd
  · cases u.op with
    | neg =>
      exact (built_compute hd fun z _ _ hz => FiniteDomain.reachable_applySigned _ hz).bind
        fun rcp hd => .some hd
    | swap16 => exact .some (built_swapBoth hd)
    | swap32 => exact .some (built_swapBoth hd)
    | swap64 => exact .some (built_swapBoth hd)
    | be16 => exact .some (built_swapTo hd)
    | be32 => exact .some (built_swapTo hd)
    | be64 => exact .some (built_swapTo hd)
    | le16 => exact .some (built_swapTo hd)
    | le32 => exact .some (built_swapTo hd)
    | le64 => exact .some (built_swapTo hd)

/-- What a condition says are constraints, added one after the other. -/
theorem built_addConstraints {csts : List (LinearConstraint V)} (hd : rcp.Built meets) :
    Built meets { rcp with values := csts.foldl AddBottom.addConstraint rcp.values } :=
  built_values hd (hd.values.foldl fun _ c hx => hx.addConstraint c)

theorem built_assumeAs {cond : Condition} {type : TypeEncoding} (hd : rcp.Built meets) :
    (assumeAs R cond src rcp type).Returns (Built meets) := by
  unfold assumeAs
  split
  · exact Returns.bind' fun values => Returns.bind' fun csts => .some (built_addConstraints hd)
  · split
    · exact .some (built_values hd (hd.values.addConstraint _))
    · exact .some hd

/-- A condition between registers splits their common type. One with an immediate adds constraints at once. -/
theorem built_assume {cond : Condition} (hd : d.rcp.Built meets) :
    (EbpfTransformer.assume R cond d).Returns (·.rcp.Built meets) := by
  unfold EbpfTransformer.assume
  split
  · exact .some hd
  · cases cond.right with
    | inl src =>
      refine Returns.bind' fun _ => ?_
      exact (built_joinOverTypes hd fun d type hd => built_assumeAs hd).bind fun res hd => .some hd
    | inr imm => exact Returns.bind' fun values => Returns.bind' fun csts => .some (built_addConstraints hd)

end EbpfTransformer

end Prevail
