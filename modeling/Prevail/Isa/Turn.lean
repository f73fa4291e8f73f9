import Prevail.Isa.DecodedEffect
import Prevail.Isa.FramePointer

/-!
# One turn of the decoder

Each instruction of a decoded program comes from one word, from a wide load with its second word, or
from two shifts by 32 that are merged (`Turn`): the words have the effect of the instruction, up to
stores of negative immediates. A jump has the target that its word names (`SameTarget`).
-/

namespace Prevail

open DecodeError Unmarshaller Machine

variable {P : Platform} {pc : ℕ} {M : Type} {E : Env M} {s : State M} {inst : EbpfInst}
  {insts : List EbpfInst}

/-! ## One turn of the loop -/

/-- The word has the effect of the instruction. -/
def SameEffect (pc : ℕ) (inst : EbpfInst) (next? : Option EbpfInst) (ins : IsaInstruction) : Prop :=
  ∀ (M : Type) (E : Env M) (s : State M),
    Instruction.effect E s ins = (inst.effect E s next?).map (labelAt pc)

/-- Both words together have the effect of the instruction. -/
def SameEffects (inst next : EbpfInst) (ins : IsaInstruction) : Prop :=
  ∀ (M : Type) (E : Env M) (s : State M), ∃ s₁ s₂, inst.effect E s (some next) = .next s₁ ∧
    (∀ next?, next.effect E s₁ next? = .next s₂) ∧ Instruction.effect E s ins = .next s₂

/-- How an instruction comes from the words at `pc`; the flag says whether the next word is part of
it. -/
inductive Turn (pc : ℕ) (inst : EbpfInst) (next? : Option EbpfInst) (ins : IsaInstruction) :
    Bool → Prop
  | single (hslots : inst.slots = 1) (hpair : ∀ next, next? = some next → ¬ inst.ShiftPair next)
    (heffect : ¬ inst.NegativeWideStore → SameEffect pc inst next? ins) : Turn pc inst next? ins false
  | wide (next : EbpfInst) (hslots : inst.slots = 2) (hnext : next? = some next)
    (hop : next.opcode = 0) (heffect : SameEffect pc inst next? ins) : Turn pc inst next? ins true
  | merged (next : EbpfInst) (hnext : next? = some next) (hpair : inst.ShiftPair next)
    (heffect : SameEffects inst next ins) : Turn pc inst next? ins true

theorem EbpfInst.ShiftPair.cls {next : EbpfInst} (h : inst.ShiftPair next) :
    inst.cls = 0x07 ∧ next.cls = 0x07 := by
  obtain ⟨dst, rfl, rfl | rfl⟩ := h
  · exact ⟨by simp [EbpfInst.cls], by simp [EbpfInst.cls]⟩
  · exact ⟨by simp [EbpfInst.cls], by simp [EbpfInst.cls]⟩

theorem slots_of_cls {c : BitVec 8} (hcls : inst.cls = c) (hc : c ≠ 0x00) : inst.slots = 1 :=
  if_neg (of_decide_eq_false (opcode_ne_of_cls hcls hc).symm)

theorem not_shiftPair_of_cls {c : BitVec 8} {next? : Option EbpfInst} (hcls : inst.cls = c)
    (hc : c ≠ 0x07) (next : EbpfInst) (_ : next? = some next) : ¬ inst.ShiftPair next :=
  fun h => hc (hcls.symm.trans h.cls.1)

theorem effect_alu {next? : Option EbpfInst} (hcls : inst.cls = 0x04 ∨ inst.cls = 0x07) :
    inst.effect E s next? = .ofOption ((inst.alu E s).map (s.set (.ofField inst.dst))) := by
  unfold EbpfInst.effect
  rcases hcls with hcls | hcls
  · rw [hcls]
    rfl
  · rw [hcls]
    rfl

theorem State.set_set (s : State M) (r : Reg) (v w : BitVec 64) : (s.set r v).set r w = s.set r w := by
  unfold State.set
  rw [Function.update_idem]

theorem State.set_regs (s : State M) (r : Reg) (v : BitVec 64) : (s.set r v).regs r = v :=
  Function.update_self _ _ _

/-- The state after an arithmetic word, read off its instruction. -/
theorem effect_of_next {next? : Option EbpfInst} {i : IsaInstruction} {s' : State M}
    (hcls : inst.cls = 0x07) (hi : makeAluOp P pc inst = .ok i)
    (h : Instruction.effect E s i = .next s') : inst.effect E s next? = .next s' := by
  rw [effect_of_makeAluOp hi] at h
  rw [effect_alu (Or.inr hcls)]
  cases hs : (inst.alu E s).map (s.set (.ofField inst.dst)) with
  | none =>
    rw [hs] at h
    cases h
  | some s'' =>
    rw [hs] at h
    cases h
    rfl

/-- The second shift works on what the first one leaves. -/
theorem sameEffects_of_shift {next : EbpfInst} {op : BinOp} {dst : Reg} {ins : IsaInstruction}
    (hi : makeAluOp P pc inst = .ok (shift32 dst .lsh)) (hcls : inst.cls = 0x07)
    (hnext : makeAluOp P (pc + 1) next = .ok (shift32 dst op)) (hcls' : next.cls = 0x07)
    (hins : ∀ (M : Type) (E : Env M) (s : State M), Instruction.effect E s ins =
      .next (s.set dst (op.eval (s.regs dst <<< 32) 32))) :
    SameEffects inst next ins := by
  intro M E s
  refine ⟨s.set dst (s.regs dst <<< 32), s.set dst (op.eval (s.regs dst <<< 32) 32), ?_, ?_,
    hins M E s⟩
  · exact effect_of_next hcls hi rfl
  · intro next?
    refine effect_of_next hcls' hnext (congrArg Effect.next ?_)
    show State.set _ dst (op.eval ((State.set s dst _).regs dst) 32) = _
    rw [State.set_set, State.set_regs]

theorem shiftLeft_ushiftRight (v : BitVec 64) : v <<< 32 >>> 32 = (v.setWidth 32).setWidth 64 := by
  apply BitVec.eq_of_getLsbD_eq
  intro i hi
  rw [BitVec.getLsbD_ushiftRight, BitVec.getLsbD_shiftLeft, BitVec.getLsbD_setWidth,
    BitVec.getLsbD_setWidth, decide_eq_true hi]
  by_cases h : i < 32
  · have h' : 32 + i < 64 := by omega
    simp [h, h']
  · have h' : ¬ 32 + i < 64 := by omega
    simp [h, h']

theorem shiftLeft_sshiftRight (v : BitVec 64) :
    (v <<< 32).sshiftRight 32 = (v.setWidth 32).signExtend 64 := by
  apply BitVec.eq_of_getLsbD_eq
  intro i hi
  rw [BitVec.getLsbD_sshiftRight, BitVec.getLsbD_signExtend, decide_eq_true hi]
  by_cases h : i < 32
  · have h' : 32 + i < 64 := by omega
    simp [h, h', hi]
  · have h' : ¬ 32 + i < 64 := by omega
    simp [h, h', hi, BitVec.msb_eq_getLsbD_last]

theorem Reg.ofField_injective : Function.Injective Reg.ofField := by
  intro a b h
  apply BitVec.eq_of_toNat_eq
  rw [← Reg.toNat_ofField, ← Reg.toNat_ofField, h]

/-- A merged word and the next one are shifts by 32. -/
theorem turn_of_mergeShifts {i ins : IsaInstruction} {next? : Option EbpfInst}
    (hi : makeAluOp P pc inst = .ok i) (h : mergeShifts P pc inst i next? = .ok (ins, true)) :
    Turn pc inst next? ins true := by
  unfold mergeShifts at h
  cases next? with
  | none => cases h
  | some next =>
    dsimp only at h
    split_ifs at h with hshift hnext
    · cases h
    · cases h
    · obtain rfl := not_not.mp hshift
      obtain ⟨i', hi', h⟩ := Except.bind_eq_ok.mp h
      obtain ⟨-, hword⟩ := word_of_shift rfl hi
      have hcls : inst.cls = 0x07 := by
        rw [hword]
        simp [EbpfInst.cls]
      split_ifs at h with hrsh harsh
      · subst hrsh
        cases h
        obtain ⟨hdst, hword'⟩ := word_of_shift rfl hi'
        rw [← Reg.ofField_injective hdst] at hword'
        refine .merged next rfl ⟨inst.dst, hword, Or.inl hword'⟩
          (sameEffects_of_shift hi hcls hi' (not_not.mp hnext) fun M E s => ?_)
        exact congrArg (fun v => Effect.next (s.set _ v)) (shiftLeft_ushiftRight _).symm
      · subst harsh
        cases h
        obtain ⟨hdst, hword'⟩ := word_of_shift rfl hi'
        rw [← Reg.ofField_injective hdst] at hword'
        refine .merged next rfl ⟨inst.dst, hword, Or.inr hword'⟩
          (sameEffects_of_shift hi hcls hi' (not_not.mp hnext) fun M E s => ?_)
        exact congrArg (fun v => Effect.next (s.set _ v)) (shiftLeft_sshiftRight _).symm
      · cases h

theorem turn_of_makeAluOp {i ins : IsaInstruction} {next? : Option EbpfInst} {skip : Bool}
    (hcls : inst.cls = 0x04 ∨ inst.cls = 0x07) (hi : makeAluOp P pc inst = .ok i)
    (h : mergeShifts P pc inst i next? = .ok (ins, skip)) : Turn pc inst next? ins skip := by
  cases skip with
  | true => exact turn_of_mergeShifts hi h
  | false =>
    obtain ⟨-, rfl, hun⟩ | ⟨hskip, -⟩ := mergeShifts_ok hi h
    case inr => cases hskip
    refine .single ?_ ?_ fun _ M E s => ?_
    · rcases hcls with hcls | hcls
      · exact slots_of_cls hcls (by decide)
      · exact slots_of_cls hcls (by decide)
    · rintro next hnext ⟨dst, hinst, hword⟩
      have hdst : inst.dst = dst := by rw [hinst]
      have hlsh := shift_of_word (show shiftOpcode .lsh = some 0x67 from rfl)
        (by rw [hdst]; exact hinst) hi
      have hcls' : next.cls = 0x07 := (EbpfInst.ShiftPair.cls ⟨dst, hinst, hword⟩).2
      obtain ⟨i', hi', hrsh, harsh⟩ := hun _ next hlsh hnext hcls'
      rcases hword with rfl | rfl
      · rw [hdst] at hrsh
        exact hrsh (shift_of_word (show shiftOpcode .rsh = some 0x77 from rfl) rfl hi')
      · rw [hdst] at harsh
        exact harsh (shift_of_word (show shiftOpcode .arsh = some 0xc7 from rfl) rfl hi')
    · rw [effect_of_makeAluOp hi, effect_alu hcls, Effect.map_ofOption]

/-- Each turn of the loop of `unmarshal` is one of the three. -/
theorem turn_of_decode {next? : Option EbpfInst} {ins : IsaInstruction} {skip : Bool}
    (hpc : pc < 2 ^ 31) (h : decode P insts pc inst next? = .ok (ins, skip)) :
    Turn pc inst next? ins skip := by
  unfold decode at h
  split at h
  case h_1 hcls =>
    split_ifs at h with hop
    · obtain ⟨i, hi, h⟩ := Except.bind_eq_ok.mp h
      cases h
      obtain ⟨-, next, hnext, hop'⟩ := makeLddw_sets hi
      exact .wide next (if_pos hop) hnext hop' fun M E s => effect_of_makeLddw hop hi
    · obtain ⟨i, hi, h⟩ := Except.bind_eq_ok.mp h
      cases h
      exact .single (if_neg hop) (not_shiftPair_of_cls hcls (by decide)) fun hneg M E s =>
        effect_of_makeMemOp hop (Or.inl hcls) hneg hi
  case h_2 hcls | h_3 hcls | h_4 hcls =>
    obtain ⟨i, hi, h⟩ := Except.bind_eq_ok.mp h
    cases h
    have hop := of_decide_eq_false (opcode_ne_of_cls hcls (by decide)).symm
    exact .single (if_neg hop) (not_shiftPair_of_cls hcls (by decide)) fun hneg M E s =>
      effect_of_makeMemOp hop (Or.inr (by simp [hcls])) hneg hi
  case h_5 hcls =>
    obtain ⟨i, hi, h⟩ := Except.bind_eq_ok.mp h
    exact turn_of_makeAluOp (Or.inl hcls) hi h
  case h_6 hcls =>
    obtain ⟨i, hi, h⟩ := Except.bind_eq_ok.mp h
    exact turn_of_makeAluOp (Or.inr hcls) hi h
  case h_7 hcls =>
    obtain ⟨i, hi, h⟩ := Except.bind_eq_ok.mp h
    cases h
    exact .single (slots_of_cls hcls (by decide)) (not_shiftPair_of_cls hcls (by decide))
      fun _ M E s => effect_of_makeJmp hpc (Or.inl hcls) hi
  case h_8 hcls =>
    obtain ⟨i, hi, h⟩ := Except.bind_eq_ok.mp h
    cases h
    exact .single (slots_of_cls hcls (by decide)) (not_shiftPair_of_cls hcls (by decide))
      fun _ M E s => effect_of_makeJmp hpc (Or.inr hcls) hi
  case h_9 => cases h

/-! ## Targets -/

/-- The distance that control may go from the next word, if the word is a jump or a local call. -/
def EbpfInst.jumpOffset (inst : EbpfInst) : Option ℤ :=
  if inst.cls ≠ 0x05 ∧ inst.cls ≠ 0x06 then none
  else match inst.opcode >>> 4 with
    | 0x0 => some inst.gotoOffset
    | 0x8 => if inst.srcReg ∨ inst.src ≠ 1 then none else some inst.imm.toInt
    | 0x9 => none
    | _ => some inst.offset.toInt

/-- The instruction has the target that the word names, and the word there is not the second one of a
wide load. -/
def SameTarget (insts : List EbpfInst) (pc : ℕ) (inst : EbpfInst) (ins : IsaInstruction) : Prop :=
  match Instruction.target? ins with
  | none => inst.jumpOffset = none
  | some l => ∃ (n : ℕ) (next : EbpfInst), inst.jumpOffset = some ((n : ℤ) - pc - 1) ∧
      l = .ofIndex n ∧ insts[n]? = some next ∧ next.opcode ≠ 0

theorem jumpOffset_of_cls {c : BitVec 8} (hcls : inst.cls = c) (h5 : c ≠ 0x05) (h6 : c ≠ 0x06) :
    inst.jumpOffset = none := by
  rw [← hcls] at h5 h6
  exact if_pos ⟨h5, h6⟩

theorem sameTarget_of_getJumpTarget {offset : ℤ} {l : Label} {ins : IsaInstruction}
    (hpc : pc < 2 ^ 31) (hoffset : Number.FitsS 32 offset) (hinst : inst.jumpOffset = some offset)
    (hins : Instruction.target? ins = some l) (h : getJumpTarget offset insts pc = .ok l) :
    SameTarget insts pc inst ins := by
  obtain ⟨n, hl, -, hn, next, hnext, hop⟩ := offset_of_getJumpTarget hpc le_rfl hoffset h
  unfold SameTarget
  rw [hins]
  exact ⟨n, next, by rw [hinst, hn], hl, hnext, hop⟩

theorem jumpOffset_of_jump (hcls : inst.cls = 0x05 ∨ inst.cls = 0x06) :
    inst.jumpOffset = match inst.opcode >>> 4 with
      | 0x0 => some inst.gotoOffset
      | 0x8 => if inst.srcReg ∨ inst.src ≠ 1 then none else some inst.imm.toInt
      | 0x9 => none
      | _ => some inst.offset.toInt :=
  if_neg fun h => hcls.elim h.1 h.2

theorem sameTarget_of_makeCondJmp {ins : IsaInstruction} (hpc : pc < 2 ^ 31)
    (hcls : inst.cls = 0x05 ∨ inst.cls = 0x06)
    (h0 : inst.opcode >>> 4 ≠ 0x0) (h8 : inst.opcode >>> 4 ≠ 0x8) (h9 : inst.opcode >>> 4 ≠ 0x9)
    (h : makeCondJmp P insts pc inst = .ok ins) : SameTarget insts pc inst ins := by
  have hgoto : inst.opcode ≠ 0x06 := fun hop => h0 (by rw [hop]; rfl)
  obtain ⟨-, h⟩ := Except.guard_eq_ok.mp h
  obtain ⟨op, -, h⟩ := Except.bind_eq_ok.mp h
  iterate 2 obtain ⟨-, h⟩ := Except.guard_eq_ok.mp h
  obtain ⟨l, hl, h⟩ := Except.bind_eq_ok.mp h
  iterate 2 obtain ⟨-, h⟩ := Except.guard_eq_ok.mp h
  cases h
  rw [if_neg hgoto] at hl
  refine sameTarget_of_getJumpTarget hpc (fitsS_offset _) ?_ rfl hl
  rw [jumpOffset_of_jump hcls]
  generalize inst.opcode >>> 4 = nibble at h0 h8 h9
  split
  · exact absurd rfl h0
  · exact absurd rfl h8
  · exact absurd rfl h9
  · rfl

theorem sameTarget_of_makeGoto {ins : IsaInstruction} (hpc : pc < 2 ^ 31)
    (h0 : inst.opcode >>> 4 = 0x0) (h : makeGoto P insts pc inst = .ok ins) :
    SameTarget insts pc inst ins := by
  obtain ⟨hcls, l, rfl, hl⟩ := jmp_of_makeGoto h0 h
  refine sameTarget_of_getJumpTarget hpc fitsS_gotoOffset ?_ rfl hl
  rw [jumpOffset_of_jump hcls, h0]
  rfl

theorem sameTarget_of_makeAnyCall {ins : IsaInstruction} (hpc : pc < 2 ^ 31)
    (h8 : inst.opcode >>> 4 = 0x8) (h : makeAnyCall P insts pc inst = .ok ins) :
    SameTarget insts pc inst ins := by
  obtain ⟨hcls, h⟩ := Except.guard_eq_ok.mp h
  have hoffset : inst.jumpOffset =
      if inst.srcReg ∨ inst.src ≠ 1 then none else some inst.imm.toInt := by
    rw [jumpOffset_of_jump (Or.inl (not_not.mp hcls)), h8]
    rfl
  iterate 4 obtain ⟨-, h⟩ := Except.guard_eq_ok.mp h
  split at h
  · next hsrc =>
    obtain ⟨hreg, h⟩ := Except.guard_eq_ok.mp h
    obtain ⟨-, h⟩ := Except.guard_eq_ok.mp h
    obtain ⟨l, hl, h⟩ := Except.bind_eq_ok.mp h
    cases h
    refine sameTarget_of_getJumpTarget hpc (fitsS_toInt _) ?_ rfl hl
    exact hoffset.trans (if_neg fun h => h.elim hreg fun hne => hne hsrc)
  · next hsrc =>
    have hnone : inst.jumpOffset = none := hoffset.trans (if_pos (Or.inr hsrc))
    split at h
    · obtain ⟨-, h⟩ := Except.guard_eq_ok.mp h
      split at h
      · iterate 2 obtain ⟨-, h⟩ := Except.guard_eq_ok.mp h
        cases h
        exact hnone
      · cases h
        exact hnone
    · iterate 2 obtain ⟨-, h⟩ := Except.guard_eq_ok.mp h
      obtain ⟨c, -, h⟩ := Except.bind_eq_ok.mp h
      cases h
      exact hnone

theorem sameTarget_of_makeJmp {ins : IsaInstruction} (hpc : pc < 2 ^ 31)
    (hcls : inst.cls = 0x05 ∨ inst.cls = 0x06) (h : makeJmp P insts pc inst = .ok ins) :
    SameTarget insts pc inst ins := by
  unfold makeJmp at h
  split at h
  case h_1 h8 => exact sameTarget_of_makeAnyCall hpc h8 h
  case h_2 h9 =>
    iterate 6 obtain ⟨-, h⟩ := Except.guard_eq_ok.mp h
    cases h
    show inst.jumpOffset = none
    rw [jumpOffset_of_jump hcls, h9]
    rfl
  case h_3 h0 => exact sameTarget_of_makeGoto hpc h0 h
  case h_4 h8 h9 h0 => exact sameTarget_of_makeCondJmp hpc hcls h0 h8 h9 h

theorem sameTarget_of_makeAluOp {i : IsaInstruction} (h : inst.jumpOffset = none)
    (hi : makeAluOp P pc inst = .ok i) : SameTarget insts pc inst i := by
  obtain ⟨-, -, ⟨u, -, rfl⟩ | ⟨b, -, -, -, -, -, rfl⟩⟩ := makeAluOp_ok hi
  · exact h
  · exact h

theorem sameTarget_of_makeMemOp {i : IsaInstruction} (h : inst.jumpOffset = none)
    (hi : makeMemOp P pc inst = .ok i) : SameTarget insts pc inst i := by
  unfold makeMemOp at hi
  iterate 2 obtain ⟨-, hi⟩ := Except.guard_eq_ok.mp hi
  split at hi
  case h_1 | h_2 =>
    iterate 3 obtain ⟨-, hi⟩ := Except.guard_eq_ok.mp hi
    rw [makePacket_ok hi]
    exact h
  case h_3 =>
    iterate 4 obtain ⟨-, hi⟩ := Except.guard_eq_ok.mp hi
    cases hi
    exact h
  case h_4 =>
    iterate 2 obtain ⟨-, hi⟩ := Except.guard_eq_ok.mp hi
    obtain ⟨op, -, hi⟩ := Except.bind_eq_ok.mp hi
    cases hi
    exact h
  case h_5 => cases hi

theorem sameTarget_of_makeLddw {next? : Option EbpfInst} {i : IsaInstruction}
    (h : inst.jumpOffset = none) (hi : makeLddw P pc inst next? = .ok i) :
    SameTarget insts pc inst i := by
  unfold makeLddw at hi
  obtain ⟨-, hi⟩ := Except.guard_eq_ok.mp hi
  cases next? with
  | none => cases hi
  | some next =>
    iterate 4 obtain ⟨-, hi⟩ := Except.guard_eq_ok.mp hi
    split at hi
    · cases hi
      exact h
    · obtain ⟨-, hi⟩ := Except.guard_eq_ok.mp hi
      cases hi
      exact h
    · cases hi
      exact h
    · cases hi

theorem sameTarget_of_decode {next? : Option EbpfInst} {ins : IsaInstruction} {skip : Bool}
    (hpc : pc < 2 ^ 31) (h : decode P insts pc inst next? = .ok (ins, skip)) :
    SameTarget insts pc inst ins := by
  unfold decode at h
  split at h
  case h_1 hcls =>
    have hnone := jumpOffset_of_cls hcls (by decide) (by decide)
    split_ifs at h
    · obtain ⟨i, hi, h⟩ := Except.bind_eq_ok.mp h
      cases h
      exact sameTarget_of_makeLddw hnone hi
    · obtain ⟨i, hi, h⟩ := Except.bind_eq_ok.mp h
      cases h
      exact sameTarget_of_makeMemOp hnone hi
  case h_2 hcls | h_3 hcls | h_4 hcls =>
    obtain ⟨i, hi, h⟩ := Except.bind_eq_ok.mp h
    cases h
    exact sameTarget_of_makeMemOp (jumpOffset_of_cls hcls (by decide) (by decide)) hi
  case h_5 hcls | h_6 hcls =>
    obtain ⟨i, hi, h⟩ := Except.bind_eq_ok.mp h
    have hnone := jumpOffset_of_cls hcls (by decide) (by decide)
    obtain ⟨-, rfl, -⟩ | ⟨-, dst, -, -, -, rfl | rfl⟩ := mergeShifts_ok hi h
    · exact sameTarget_of_makeAluOp hnone hi
    · exact hnone
    · exact hnone
  case h_7 hcls =>
    obtain ⟨i, hi, h⟩ := Except.bind_eq_ok.mp h
    cases h
    exact sameTarget_of_makeJmp hpc (Or.inl hcls) hi
  case h_8 hcls =>
    obtain ⟨i, hi, h⟩ := Except.bind_eq_ok.mp h
    cases h
    exact sameTarget_of_makeJmp hpc (Or.inr hcls) hi
  case h_9 => cases h

end Prevail
