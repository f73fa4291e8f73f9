import Prevail.Isa.AcceptMem

/-!
# What the decoder accepts: jumps and calls

A jump is accepted just when it ends at an instruction, and a helper call when the platform has the
helper with a prototype that a call can be made of.
-/

namespace Prevail

open DecodeError Unmarshaller

variable {P : Platform} {insts : List EbpfInst}

section Jmp

variable {pc : ℕ} {inst : EbpfInst} {u : RawUnit}

theorem succeeds_makeArgs {name : String} (args : List ArgumentType) : ∀ (i : ℕ) (res : CallInfo),
    (makeArgs name i (args ++ [.dontcare]) res).Succeeds ↔ ArgumentsFit args := by
  induction args using ArgumentsFit.induct with
  | case1 =>
    intro i res
    exact iff_of_true Except.succeeds_ok trivial
  | case2 arg =>
    intro i res
    rw [List.singleton_append]
    cases arg <;> simp [makeArgs, ArgumentsFit, ArgumentType.IsMemory, ArgumentType.IsSize]
  | case3 arg next rest ih ih' =>
    intro i res
    rw [List.cons_append, List.cons_append]
    rw [List.cons_append] at ih'
    have hfit : ∀ arg, ArgumentsFit (arg :: next :: rest) ↔ arg = .dontcare ∨
        arg.IsMemory ∧ next.IsSize ∧ ArgumentsFit rest ∨
        arg ≠ .unsupported ∧ ¬ arg.IsMemory ∧ ¬ arg.IsSize ∧ ArgumentsFit (next :: rest) :=
      fun _ => Iff.rfl
    rw [hfit]
    unfold ArgumentType.IsMemory ArgumentType.IsSize
    cases arg
    case dontcare | unsupported | constSize | constSizeOrZero =>
      rw [makeArgs]
      simp
    case ptrToReadableMem | ptrToReadableMemOrNull | ptrToWritableMem | ptrToWritableMemOrNull =>
      rw [makeArgs, Except.succeeds_guard, ih]
      simp
      tauto
    all_goals
      rw [makeArgs, ih']
      simp

theorem succeeds_makeCall {imm : BitVec 32} (h : P.isHelperUsable imm) :
    (makeCall P imm).Succeeds ↔ HelperFits P imm := by
  unfold makeCall HelperFits
  dsimp only
  rw [Except.succeeds_guard, and_iff_right h]
  exact and_congr_right fun _ => succeeds_makeArgs [_, _, _, _, _] 1 _

/-- A jump that `getJumpTarget` takes. The counters of the program fit the labels. -/
theorem succeeds_getJumpTarget {offset : ℤ} (hlen : insts.length ≤ 2 ^ 31) (hpc : pc < insts.length)
    (hlo : -2 ^ 31 ≤ offset) (hhi : offset < 2 ^ 31) :
    (getJumpTarget offset insts pc).Succeeds ↔ JumpFits insts pc offset := by
  constructor
  · rintro ⟨l, hl⟩
    obtain ⟨n, inst, hn, -, hlt, hinst, hop⟩ := getJumpTarget_eq_ok hl
    refine ⟨n, inst, ?_, hinst, hop⟩
    have hmod : 0 ≤ ((pc : ℤ) + 1 + offset) % 2 ^ 32 := Int.emod_nonneg _ (by decide)
    have hn' : (n : ℤ) = ((pc : ℤ) + 1 + offset) % 2 ^ 32 := by omega
    omega
  · rintro ⟨n, inst, hn, hinst, hop⟩
    have hlt : n < insts.length := (List.getElem?_eq_some_iff.mp hinst).1
    exact ⟨_, (getJumpTarget_iff (by omega) (by omega) (by omega)).mpr ⟨hn, inst, hinst, hop⟩⟩

theorem succeeds_makeCallLocal (hlen : insts.length ≤ 2 ^ 31) (hpc : pc < insts.length) :
    (makeCallLocal insts pc inst).Succeeds ↔
      inst.srcReg = false ∧ inst.dst = 0 ∧ JumpFits insts pc inst.imm.toInt := by
  unfold makeCallLocal
  have htarget := succeeds_getJumpTarget hlen hpc (BitVec.le_toInt inst.imm) BitVec.toInt_lt
  simp [htarget]

theorem succeeds_makeCallx : (makeCallx pc inst).Succeeds ↔
    inst.dst ≤ 10 ∧ inst.imm = 0 ∨ inst.dst = 0 ∧ inst.imm ≤ 10 := by
  have hrange : ¬ (inst.imm.toInt < 0 ∨ 10 < inst.imm.toInt) ↔ inst.imm ≤ 10 := by
    rw [BitVec.le_def, BitVec.toInt_eq_toNat_cond]
    have hlt := inst.imm.isLt
    have h10 : (10 : BitVec 32).toNat = 10 := rfl
    split_ifs <;> omega
  have hdst : ¬ 0 < inst.dst ↔ inst.dst = 0 := by
    rw [← not_ne_iff]
    exact not_congr (BitVec.pos_iff_ne_zero _)
  have hzero : inst.dst = 0 → inst.dst ≤ 10 := fun h => by rw [h]; decide
  have hzero' : inst.imm = 0 → inst.imm ≤ 10 := fun h => by rw [h]; decide
  unfold makeCallx
  rw [Except.succeeds_guard, BitVec.not_lt]
  by_cases himm : inst.imm = 0
  · rw [if_neg (not_not.mpr himm), and_iff_left Except.succeeds_ok]
    tauto
  · rw [if_pos himm, Except.succeeds_guard, Except.succeeds_guard, hrange, hdst,
      and_iff_left Except.succeeds_ok]
    tauto

theorem makeAnyCall_succeeds (hlen : insts.length ≤ 2 ^ 31) (hpc : pc < insts.length) :
    (makeAnyCall P insts pc inst).Succeeds ↔ inst.cls = 0x05 ∧ P.supportsGroup .base32 ∧
      inst.offset = 0 ∧ (inst.srcReg = false ∧ inst.src = 1 ∧ inst.dst = 0 ∧
          JumpFits insts pc inst.imm.toInt ∨
        inst.srcReg = true ∧ inst.src = 0 ∧ P.supportsGroup .callx ∧
          (inst.dst ≤ 10 ∧ inst.imm = 0 ∨ inst.dst = 0 ∧ inst.imm ≤ 10) ∨
        inst.srcReg = false ∧ inst.src = 0 ∧ inst.dst = 0 ∧ HelperFits P inst.imm) := by
  have hsrc : ¬ 2 ≤ inst.src ↔ inst.src = 0 ∨ inst.src = 1 := by
    have hall : ∀ r : BitVec 4, ¬ 2 ≤ r ↔ r = 0 ∨ r = 1 := by decide
    exact hall inst.src
  have hhelper : (do return .call (← makeCall P inst.imm) [] : Except DecodeError IsaInstruction).Succeeds ↔
      (makeCall P inst.imm).Succeeds := Except.succeeds_bind_pure
  have husable : P.isHelperUsable inst.imm ∧ (makeCall P inst.imm).Succeeds ↔
      HelperFits P inst.imm := by
    constructor
    · exact fun h => (succeeds_makeCall h.1).mp h.2
    · exact fun h => ⟨h.1, (succeeds_makeCall h.1).mpr h⟩
  unfold makeAnyCall
  simp only [Except.succeeds_guard, hsrc, not_not]
  by_cases hlocal : inst.src = 1
  · have h0 : inst.src ≠ 0 := by rw [hlocal]; decide
    rw [if_pos hlocal, succeeds_makeCallLocal hlen hpc]
    cases inst.srcReg <;> simp [hlocal]
  · have hlocal' : ¬ inst.src = 1#4 := hlocal
    rw [if_neg hlocal]
    cases inst.srcReg
    · simp [husable]
      tauto
    · simp [succeeds_makeCallx]
      tauto

theorem makeExit_succeeds : (makeExit P pc inst).Succeeds ↔ P.supportsGroup .base32 ∧
    inst.cls = 0x05 ∧ inst.srcReg = false ∧ inst.src = 0 ∧ inst.dst = 0 ∧ inst.imm = 0 ∧
      inst.offset = 0 := by
  simp [makeExit]
  tauto

theorem succeeds_getJmpOp :
    (getJmpOp pc inst).Succeeds ↔ inst.opcode >>> 4 ≠ 0xe ∧ inst.opcode >>> 4 ≠ 0xf := by
  unfold getJmpOp
  split <;> simp_all

theorem makeCondJmp_succeeds (hlen : insts.length ≤ 2 ^ 31) (hpc : pc < insts.length) :
    (makeCondJmp P insts pc inst).Succeeds ↔ P.supportsGroup (base (inst.cls = 0x05)) ∧
      (inst.opcode >>> 4 ≠ 0xe ∧ inst.opcode >>> 4 ≠ 0xf) ∧
      (if inst.srcReg then inst.imm = 0 else inst.src = 0) ∧
      JumpFits insts pc (if inst.opcode = 0x06 then inst.imm.toInt else inst.offset.toInt) ∧
      (¬ (inst.opcode = 0x05 ∨ inst.opcode = 0x06) →
        inst.dst ≤ 10 ∧ (inst.srcReg → inst.src ≤ 10)) := by
  have htarget : (getJumpTarget (if inst.opcode = 0x06 then inst.imm.toInt else inst.offset.toInt)
      insts pc).Succeeds ↔
      JumpFits insts pc (if inst.opcode = 0x06 then inst.imm.toInt else inst.offset.toInt) := by
    refine succeeds_getJumpTarget hlen hpc ?_ ?_
    · split_ifs
      · exact BitVec.le_toInt inst.imm
      · have h := BitVec.le_toInt inst.offset
        omega
    · split_ifs
      · exact BitVec.toInt_lt
      · have h := BitVec.toInt_lt (x := inst.offset)
        omega
  rw [← @succeeds_getJmpOp pc inst, ← htarget]
  unfold makeCondJmp
  dsimp only
  rw [Except.succeeds_guard, Bool.not_eq_true', Bool.not_eq_false]
  refine and_congr_right fun _ => ?_
  constructor
  · intro h
    obtain ⟨op, hop, h⟩ := Except.succeeds_bind.mp h
    rw [Except.succeeds_guard, Except.succeeds_guard] at h
    obtain ⟨hsrc, himm, h⟩ := h
    obtain ⟨l, hl, h⟩ := Except.succeeds_bind.mp h
    rw [Except.succeeds_guard, Except.succeeds_guard] at h
    obtain ⟨hdst, hreg, -⟩ := h
    refine ⟨⟨op, hop⟩, ?_, ⟨l, hl⟩, fun hgoto => ⟨?_, fun hr => ?_⟩⟩
    · cases hr : inst.srcReg <;> simp_all
    · simp_all
    · simp_all
  · rintro ⟨⟨op, hop⟩, hvalue, ⟨l, hl⟩, hregs⟩
    rw [Except.succeeds_bind]
    refine ⟨op, hop, ?_⟩
    rw [Except.succeeds_guard, Except.succeeds_guard, Except.succeeds_bind]
    refine ⟨?_, ?_, l, hl, ?_⟩
    · cases hr : inst.srcReg <;> simp_all
    · cases hr : inst.srcReg <;> simp_all
    · rw [Except.succeeds_guard, Except.succeeds_guard, and_iff_left Except.succeeds_pure]
      by_cases hgoto : inst.opcode = 0x05 ∨ inst.opcode = 0x06
      · simp_all
      · obtain ⟨hdst, hreg⟩ := hregs hgoto
        simp_all

/-- The groups that a jump needs by its class, whatever its template. -/
def jmpGroups (inst : EbpfInst) : List ConformanceGroup :=
  match inst.opcode >>> 4 with
  | 0x0 => [.base32, base (inst.cls = 0x05)]
  | 0x8 | 0x9 => [.base32]
  | _ => [base (inst.cls = 0x05)]

theorem opcode_of_goto {op : BitVec 8} (h : op >>> 4 = 0x0) (hreg : op &&& 0x08 = 0) :
    op = op &&& 0x07 := by
  revert op
  decide

theorem exists_call_fits (hwide : u.inst.opcode ≠ 24#8) :
    (∃ t ∈ [(⟨u.inst.opcode, 0, 0, 0, .helperId, .base32⟩ : EbpfInstructionTemplate),
      ⟨u.inst.opcode, 0, 1, 0, .jmpOffset, .base32⟩], t.Fits P insts u) ↔
      u.inst.dst = 0 ∧ u.inst.offset = 0 ∧ P.supportsGroup .base32 ∧
        (u.inst.src = 1 ∧ JumpFits insts u.pc u.inst.imm.toInt ∨
          u.inst.src = 0 ∧ HelperFits P u.inst.imm) := by
  simp [EbpfInstructionTemplate.fits_iff, hwide]
  tauto

theorem exists_callx_fits (hwide : u.inst.opcode ≠ 24#8) :
    (∃ t ∈ [(⟨u.inst.opcode, .dst, 0, 0, 0, .callx⟩ : EbpfInstructionTemplate),
      ⟨u.inst.opcode, 0, 0, 0, .register, .callx⟩], t.Fits P insts u) ↔
      u.inst.src = 0 ∧ u.inst.offset = 0 ∧ P.supportsGroup .callx ∧
        (u.inst.dst ≤ 10 ∧ u.inst.imm = 0 ∨ u.inst.dst = 0 ∧ u.inst.imm ≤ 10) := by
  simp [EbpfInstructionTemplate.fits_iff, hwide]
  tauto

/-- The words of the jump classes that are accepted. -/
theorem makeJmp_succeeds (hlen : insts.length ≤ 2 ^ 31) (hpc : u.pc < insts.length)
    (hcls : u.inst.cls = 0x05 ∨ u.inst.cls = 0x06) :
    (makeJmp P insts u.pc u.inst).Succeeds ↔ (∀ g ∈ jmpGroups u.inst, P.supportsGroup g) ∧
      ∃ t ∈ jmpTemplates u.inst.opcode, t.Fits P insts u := by
  have hwide : u.inst.opcode ≠ 0x18 := by
    intro hop
    unfold EbpfInst.cls at hcls
    rw [hop] at hcls
    exact absurd hcls (by decide)
  have hwide' : u.inst.opcode ≠ 24#8 := hwide
  have hreg : decide (u.inst.opcode &&& 0x08 ≠ 0) = u.inst.srcReg := rfl
  have h64 : decide (u.inst.opcode &&& 0x07 = 0x05) = decide (u.inst.cls = 0x05) := rfl
  have hcond := @makeCondJmp_succeeds P insts u.pc u.inst hlen hpc
  unfold makeJmp jmpTemplates jmpGroups
  rw [hreg, h64]
  dsimp only
  generalize hn : u.inst.opcode >>> 4 = n
  rw [hn] at hcond
  split
  case h_1 =>
    rw [makeAnyCall_succeeds hlen hpc]
    clear hcond
    rcases hcls with hcls | hcls
    · cases hsrc : u.inst.srcReg
      · simp only [hcls, decide_true, Bool.not_true, Bool.false_eq_true, if_false,
          exists_call_fits hwide']
        simp
        tauto
      · simp only [hcls, decide_true, Bool.not_true, Bool.false_eq_true, if_false, if_true,
          exists_callx_fits hwide']
        simp
        tauto
    · simp [hcls]
  case h_2 =>
    rw [makeExit_succeeds]
    clear hcond
    rcases hcls with hcls | hcls
    · cases hsrc : u.inst.srcReg
      · simp [EbpfInstructionTemplate.fits_iff, hcls]
        tauto
      · simp [hcls]
    · simp [hcls]
  case h_3 =>
    unfold makeGoto
    simp only [Except.succeeds_guard, hcond]
    cases hsrc : u.inst.srcReg
    · have hop := opcode_of_goto hn (by simpa using hreg.trans hsrc)
      rcases hcls with hcls | hcls
      · have h5 : u.inst.opcode = 5#8 := hop.trans hcls
        simp [EbpfInstructionTemplate.fits_iff, hcls, h5]
        tauto
      · have h6 : u.inst.opcode = 6#8 := hop.trans hcls
        simp [EbpfInstructionTemplate.fits_iff, hcls, h6]
        tauto
    · simp
  case h_4 h8 h9 h0 =>
    have h5 : u.inst.opcode ≠ 5#8 := by
      rintro hop
      rw [hop] at hn
      exact h0 hn.symm
    have h6 : u.inst.opcode ≠ 6#8 := by
      rintro hop
      rw [hop] at hn
      exact h0 hn.symm
    rw [hcond, if_neg (show ¬ u.inst.opcode = 0x06 from h6)]
    cases hsrc : u.inst.srcReg
    · simp only [Bool.false_eq_true, if_false]
      split
      case h_1 | h_2 | h_3 => contradiction
      case h_4 | h_5 => simp
      case h_6 =>
        simp [EbpfInstructionTemplate.fits_iff, h5, h6]
        tauto
    · simp only [if_true]
      split
      case h_1 | h_2 | h_3 => contradiction
      case h_4 | h_5 => simp
      case h_6 =>
        simp [EbpfInstructionTemplate.fits_iff, h5, h6]
        tauto

end Jmp
end Prevail
