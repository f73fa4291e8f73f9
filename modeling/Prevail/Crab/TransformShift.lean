import Prevail.Crab.Forgetting
import Prevail.Crab.Shift
import Prevail.Isa.Effect

/-!
# The transfer functions of shifts

The transformer masks the amount of a shift by an immediate value, so that the count is below the width of
the operation. A register that is not known to be a number is forgotten.

The results are compared with the meaning of the instructions on words. All operations return a state with
the word of the instruction set, except that `shl` shifts by the whole width of 64 bits when the count is
zero, and that `shl` and `lshr` take the ends of the interval for words.
-/

namespace Prevail

open FiniteDomain LinearExpression ProgramVariables TypeToNumDomain

/-! ## The words of the instruction set -/

/-- The result of an instruction at `w` bits. -/
def aluWord (op : BinOp) (w : ℕ) (x y : BitVec 64) : BitVec 64 :=
  (op.eval (x.setWidth w) (y.setWidth w)).setWidth 64

theorem aluWord_eval (op : BinOp) (is64 : Bool) (dst : Reg) (x y : BitVec 64) {M : Type}
    (s : Machine.State M) (v : Value) (hx : s.regs dst = x) (hy : s.value v = y) (lddw : Bool) :
    Bin.eval ⟨op, dst, v, is64, lddw⟩ s = aluWord op (if is64 then 64 else 32) x y := by
  cases is64 <;> simp [Bin.eval, aluWord, hx, hy]

section

variable {w : ℕ} {x y : BitVec 64}

theorem toNat_setWidth_mod (hw : w = 32 ∨ w = 64) : (y.setWidth w).toNat % w = shiftCount y w := by
  unfold shiftCount
  rw [BitVec.toNat_setWidth]
  rcases hw with rfl | rfl
  · exact Nat.mod_mod_of_dvd _ (by decide)
  · exact Nat.mod_mod_of_dvd _ (by decide)

theorem aluWord_lsh (hw : w = 32 ∨ w = 64) : aluWord .lsh w x y = isaShl w (shiftCount y w) x := by
  unfold aluWord isaShl BinOp.eval
  rw [toNat_setWidth_mod hw]

theorem aluWord_rsh (hw : w = 32 ∨ w = 64) : aluWord .rsh w x y = isaLshr w (shiftCount y w) x := by
  unfold aluWord isaLshr BinOp.eval
  rw [toNat_setWidth_mod hw]

theorem aluWord_arsh (hw : w = 32 ∨ w = 64) : aluWord .arsh w x y = isaAshr w (shiftCount y w) x := by
  unfold aluWord isaAshr BinOp.eval
  rw [toNat_setWidth_mod hw]

/-- `_movsx_bits`. -/
def movsxBits : BinOp → Option ℕ
  | .movsx8 => some 8
  | .movsx16 => some 16
  | .movsx32 => some 32
  | _ => none

theorem aluWord_movsx {op : BinOp} {source : ℕ} (hw : w = 32 ∨ w = 64) (h : movsxBits op = some source) :
    aluWord op w x y = isaMovsx w source y ∧ 0 < source ∧ source ≤ 64 := by
  have hlow : ∀ v ≤ 32, (y.setWidth w).setWidth v = y.setWidth v := fun v hv =>
    BitVec.setWidth_setWidth_of_le _ (by omega)
  unfold aluWord isaMovsx BinOp.eval
  cases op <;> cases h <;> simp [hlow]

/-- `imm &= finite_width - 1`. -/
def maskImm (imm : BitVec 32) (w : ℕ) : ℕ := (imm &&& BitVec.ofNat 32 (w - 1)).toNat

/-- The masked immediate value is the amount that the instruction shifts by. -/
theorem maskImm_eq (hw : w = 32 ∨ w = 64) (imm : BitVec 32) :
    maskImm imm w = shiftCount (imm.signExtend 64) w := by
  have hlow : (imm.signExtend 64).toNat % 2 ^ 32 = imm.toNat := by
    rw [← BitVec.toNat_setWidth]
    congr 1
    apply BitVec.eq_of_getLsbD_eq
    intro i hi
    rw [BitVec.getLsbD_setWidth, BitVec.getLsbD_signExtend, decide_eq_true hi, if_pos hi,
      decide_eq_true (by omega : i < 64), Bool.true_and, Bool.true_and]
  have hmask : ∀ v ≤ 6, (imm &&& BitVec.ofNat 32 (2 ^ v - 1)).toNat = (imm.signExtend 64).toNat % 2 ^ v := by
    intro v hv
    have hlt : 2 ^ v - 1 < 2 ^ 32 := by
      have hpow : 2 ^ v ≤ 2 ^ 32 := Nat.pow_le_pow_right (by decide) (by omega)
      omega
    rw [BitVec.toNat_and, BitVec.toNat_ofNat, Nat.mod_eq_of_lt hlt, Nat.and_two_pow_sub_one_eq_mod, ← hlow,
      Nat.mod_mod_of_dvd _ (Nat.pow_dvd_pow 2 (by omega))]
  rcases hw with rfl | rfl
  · exact hmask 5 (by decide)
  · exact hmask 6 (by decide)

end

/-! ## All shifts -/

namespace FiniteDomain

variable {V : Type} [LinearOrder V] {d : SplitDbm V} {svalue uvalue : V} {w : ℕ}

/-- `ashr` and `sign_extend` admit the words of the instruction set for all states, and `shl` and `lshr`
exactly when the ends of the interval are words, or close enough to them, and `shl` does not shift 64 bits
by zero. -/
theorem steps_shifts_iff (hd : d.WF) (hsat : ∃ σ, d.Models σ) (hne : svalue ≠ uvalue)
    (hw : w = 32 ∨ w = 64) (amount : BitVec 64) (right : LinearExpression V) :
    (Steps d (shl d svalue uvalue (shiftCount amount w) w) svalue uvalue
        (fun σ z => ∃ x, ReadsWord σ svalue uvalue x ∧ z = aluWord .lsh w x amount) ↔
      ShlExact (d.evalInterval (.var uvalue)) (shiftCount amount w) w) ∧
    (Steps d (lshr d svalue uvalue (shiftCount amount w) w) svalue uvalue
        (fun σ z => ∃ x, ReadsWord σ svalue uvalue x ∧ z = aluWord .rsh w x amount) ↔
      LshrExact d svalue uvalue (shiftCount amount w) w) ∧
    Steps d (ashr d svalue uvalue right w) svalue uvalue (fun σ z => ∃ x y,
      ReadsWord σ svalue uvalue x ∧ right.eval σ = y.toInt ∧ z = aluWord .arsh w x y) ∧
    ∀ op source, movsxBits op = some source →
      Steps d (signExtend d svalue uvalue right w source) svalue uvalue
        fun σ z => ∃ x y, right.eval σ = y.toInt ∧ z = aluWord op w x y := by
  have hcount : shiftCount amount w < w := Nat.mod_lt _ (by omega)
  refine ⟨?_, ?_, ?_, fun op source hop => ?_⟩
  · simp only [aluWord_lsh hw]
    exact steps_shl_iff hd hne hw hcount hsat
  · simp only [aluWord_rsh hw]
    exact steps_lshr_iff hd hne hw hcount hsat
  · simp only [aluWord_arsh hw]
    exact steps_ashr hd hne hw hsat right
  · obtain ⟨-, hsource, hle⟩ := @aluWord_movsx w 0 0 op source hw hop
    obtain ⟨d', hd', hmodels⟩ := steps_signExtend hd hne hw hsat right hsource hle
    refine ⟨d', hd', ?_⟩
    rintro σ _ hσ ⟨x, y, hy, rfl⟩
    exact hmodels σ _ hσ ⟨y, hy, (aluWord_movsx hw hop).1⟩

/-- A register below 256. -/
def byte : SplitDbm ℕ := (SplitDbm.top.set 1 (.ofInts 0 255)).set 2 (.ofInts 0 255)

theorem wf_byte : byte.WF := SplitDbm.wf_set (SplitDbm.wf_set SplitDbm.wf_top 1 _) 2 _

theorem exists_models_byte : ∃ σ, byte.Models σ ∧ ReadsWord σ 1 2 7 := by
  have hmem : (7 : ℤ) ∈ Interval.ofInts 0 255 := Interval.mem_ofInts.mpr ⟨by decide, by decide⟩
  have hset := SplitDbm.models_set (SplitDbm.wf_top (V := ℕ)) (SplitDbm.models_top fun _ => 0) hmem (x := 1)
  exact ⟨_, SplitDbm.models_set (SplitDbm.wf_set SplitDbm.wf_top 1 _) hset hmem, rfl, rfl⟩

/-- A byte is shifted by 31 at 32 bits. -/
theorem steps_shifts_iff_byte :
    (Steps byte (shl byte 1 2 (shiftCount 31 32) 32) 1 2
        (fun σ z => ∃ x, ReadsWord σ 1 2 x ∧ z = aluWord .lsh 32 x 31) ↔
      ShlExact (byte.evalInterval (.var 2)) (shiftCount 31 32) 32) ∧
    (Steps byte (lshr byte 1 2 (shiftCount 31 32) 32) 1 2
        (fun σ z => ∃ x, ReadsWord σ 1 2 x ∧ z = aluWord .rsh 32 x 31) ↔
      LshrExact byte 1 2 (shiftCount 31 32) 32) ∧
    Steps byte (ashr byte 1 2 (.const 31) 32) 1 2 (fun σ z => ∃ x y,
      ReadsWord σ 1 2 x ∧ (LinearExpression.const 31).eval σ = y.toInt ∧ z = aluWord .arsh 32 x y) ∧
    ∀ op source, movsxBits op = some source →
      Steps byte (signExtend byte 1 2 (.const 31) 32 source) 1 2
        fun σ z => ∃ x y, (LinearExpression.const 31).eval σ = y.toInt ∧ z = aluWord op 32 x y :=
  steps_shifts_iff wf_byte (exists_models_byte.imp fun _ => And.left) (by decide) (Or.inl rfl) 31 (.const 31)

/-- A byte is not shifted by zero at 64 bits, since the bits that it would lose are found by a shift by
64. -/
theorem not_steps_shl_zero : byte.WF ∧ (∃ σ, byte.Models σ ∧ ReadsWord σ 1 2 7) ∧
    ¬ Steps byte (shl byte 1 2 (shiftCount 0 64) 64) 1 2
      (fun σ z => ∃ x, ReadsWord σ 1 2 x ∧ z = aluWord .lsh 64 x 0) := by
  refine ⟨wf_byte, exists_models_byte, fun ⟨d', hd', _⟩ => ?_⟩
  have hnone : shl byte 1 2 (shiftCount 0 64) 64 = none := by decide
  rw [hnone] at hd'
  cases hd'

end FiniteDomain

/-! ## The transfer functions -/

namespace EbpfTransformer

variable {V : Type} [LinearOrder V] (R : ProgramVariables V)

/-- An operation on the value of a register that is a number. The value of a pointer is forgotten. -/
def onNumber (d : TypeToNumDomain V) (dst : Reg) (op : SplitDbm V → V → V → Option (SplitDbm V)) :
    Option (TypeToNumDomain V) :=
  let d := d.havocOffsets R dst
  if d.types.isInGroup (R.regType dst) .number then do
    return { d with values := some (← op (← d.values) (R.reg .svalues dst) (R.reg .uvalues dst)) }
  else
    some { d with values := (d.values.havoc (R.reg .svalues dst)).havoc (R.reg .uvalues dst) }

/-- `shl`. -/
def shl (d : TypeToNumDomain V) (dst : Reg) (imm : BitVec 32) (w : ℕ) : Option (TypeToNumDomain V) :=
  onNumber R d dst fun d svalue uvalue => FiniteDomain.shl d svalue uvalue (maskImm imm w) w

/-- `lshr`. -/
def lshr (d : TypeToNumDomain V) (dst : Reg) (imm : BitVec 32) (w : ℕ) : Option (TypeToNumDomain V) :=
  onNumber R d dst fun d svalue uvalue => FiniteDomain.lshr d svalue uvalue (maskImm imm w) w

/-- `ashr`. -/
def ashr (d : TypeToNumDomain V) (dst : Reg) (rightSvalue : LinearExpression V) (w : ℕ) :
    Option (TypeToNumDomain V) :=
  onNumber R d dst fun d svalue uvalue => FiniteDomain.ashr d svalue uvalue rightSvalue w

variable {R}

section

variable {d : TypeToNumDomain V} {dst : Reg} {w : ℕ}

end

end EbpfTransformer

end Prevail
