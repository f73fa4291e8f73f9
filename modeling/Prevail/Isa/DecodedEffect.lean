import Prevail.Isa.Decoded
import Prevail.Isa.Effect

/-!
# The effect of decoded words

A word and the instruction that it is decoded to have the same effect (`effect_of_decode`), except
for a store of eight bytes of a negative immediate: the instruction set extends the sign, the decoder
does not. Two shifts by 32 have together the effect of the move that they become.
-/

namespace Prevail

open DecodeError Unmarshaller Machine

variable {P : Platform} {pc : ℕ} {M : Type} {E : Env M} {s : State M} {inst : EbpfInst}

/-! ## Arithmetic -/

theorem aluResult_of_getDivOp {unsigned signed : BinOp} {o : BinOp ⊕ UnOp}
    (h : getDivOp P pc inst unsigned signed = .ok o) :
    inst.offset = 0 ∧ o = .inl unsigned ∨ inst.offset ≠ 0 ∧ inst.offset = 1 ∧ o = .inl signed := by
  obtain ⟨-, h⟩ := Except.guard_eq_ok.mp h
  split_ifs at h with h0 h1
  · cases h
    exact Or.inl ⟨h0, rfl⟩
  · cases h
    exact Or.inr ⟨h0, h1, rfl⟩

theorem imm_of_endian {op16 op32 op64 : UnOp} {o : BinOp ⊕ UnOp}
    (h : endian P pc inst op16 op32 op64 = .ok o) :
    inst.imm = 16 ∧ o = .inr op16 ∨ inst.imm = 32 ∧ o = .inr op32 ∨
      inst.imm = 64 ∧ o = .inr op64 := by
  unfold endian at h
  split_ifs at h with h16 hg h32 hg h64 hg
  · cases h
    exact Or.inl ⟨h16, rfl⟩
  · cases h
    exact Or.inr (Or.inl ⟨h32, rfl⟩)
  · cases h
    exact Or.inr (Or.inr ⟨h64, rfl⟩)

/-- What the operation of an arithmetic word computes. -/
def AluEval (E : Env M) (s : State M) (inst : EbpfInst) : BinOp ⊕ UnOp → Prop
  | .inl op => inst.opcode &&& 0xf0 ≠ 0xd0 ∧
      ∀ (w : ℕ) (a b : BitVec w), inst.aluResult a b = some (op.eval a b)
  | .inr op => inst.alu E s =
      some (Un.eval E ⟨op, .ofField inst.dst, inst.cls = 0x07⟩ (s.regs (.ofField inst.dst)))

theorem nibble_cases (op : BitVec 8) : op &&& 0xf0 = 0x00 ∨ op &&& 0xf0 = 0x10 ∨
    op &&& 0xf0 = 0x20 ∨ op &&& 0xf0 = 0x30 ∨ op &&& 0xf0 = 0x40 ∨ op &&& 0xf0 = 0x50 ∨
    op &&& 0xf0 = 0x60 ∨ op &&& 0xf0 = 0x70 ∨ op &&& 0xf0 = 0x80 ∨ op &&& 0xf0 = 0x90 ∨
    op &&& 0xf0 = 0xa0 ∨ op &&& 0xf0 = 0xb0 ∨ op &&& 0xf0 = 0xc0 ∨ op &&& 0xf0 = 0xd0 ∨
    op &&& 0xf0 = 0xe0 ∨ op &&& 0xf0 = 0xf0 := by
  revert op
  decide

theorem alu_swap (hop : inst.opcode &&& 0xf0 = 0xd0) :
    inst.alu E s = inst.swapResult E (s.regs (.ofField inst.dst)) := if_pos hop

theorem toOrder_of_srcReg {big : Bool} {n : ℕ} {v : BitVec 64} (hcls : inst.cls ≠ 0x07)
    (hreg : inst.srcReg = big) :
    (if inst.cls = 0x07 ∨ inst.srcReg ≠ E.bigEndian then reverseBytes n v else truncate n v) =
      toOrder E big n v := by
  unfold toOrder
  by_cases hbig : E.bigEndian = big
  · rw [if_pos hbig]
    exact if_neg fun h => h.elim hcls fun h => h (hreg.trans hbig.symm)
  · rw [if_neg hbig]
    exact if_pos (Or.inr fun h => hbig (h.symm.trans hreg))

/-- A swap of either class. -/
theorem aluEval_of_endian {op16 op32 op64 : UnOp} {o : BinOp ⊕ UnOp} {r : ℕ → BitVec 64}
    (hop : inst.opcode &&& 0xf0 = 0xd0)
    (hswap : ∀ n, (if inst.cls = 0x07 ∨ inst.srcReg ≠ E.bigEndian then
      reverseBytes n (s.regs (.ofField inst.dst)) else truncate n (s.regs (.ofField inst.dst))) = r n)
    (h16 : ∀ dst is64, Un.eval E ⟨op16, dst, is64⟩ (s.regs (.ofField inst.dst)) = r 2)
    (h32 : ∀ dst is64, Un.eval E ⟨op32, dst, is64⟩ (s.regs (.ofField inst.dst)) = r 4)
    (h64 : ∀ dst is64, Un.eval E ⟨op64, dst, is64⟩ (s.regs (.ofField inst.dst)) = r 8)
    (h : endian P pc inst op16 op32 op64 = .ok o) : AluEval E s inst o := by
  have hresult : ∀ n, inst.imm.toNat / 8 = n → (inst.imm = 16 ∨ inst.imm = 32 ∨ inst.imm = 64) →
      inst.alu E s = some (r n) := by
    rintro n rfl himm
    rw [alu_swap hop, ← hswap, EbpfInst.swapResult, if_pos himm]
    dsimp only
    split_ifs <;> rfl
  rcases imm_of_endian h with ⟨himm, rfl⟩ | ⟨himm, rfl⟩ | ⟨himm, rfl⟩
  · show inst.alu E s = _
    rw [h16, hresult 2 (by rw [himm]; rfl) (Or.inl himm)]
  · show inst.alu E s = _
    rw [h32, hresult 4 (by rw [himm]; rfl) (Or.inr (Or.inl himm))]
  · show inst.alu E s = _
    rw [h64, hresult 8 (by rw [himm]; rfl) (Or.inr (Or.inr himm))]

theorem aluEval_of_getPlainAluOp {o : BinOp ⊕ UnOp} (h : getPlainAluOp P pc inst = .ok o)
    (h30 : inst.opcode &&& 0xf0 ≠ 0x30) (h90 : inst.opcode &&& 0xf0 ≠ 0x90)
    (hb0 : inst.opcode &&& 0xf0 ≠ 0xb0) : AluEval E s inst o := by
  unfold getPlainAluOp at h
  obtain ⟨-, h⟩ := Except.guard_eq_ok.mp h
  have hne : ∀ c : BitVec 8, inst.opcode &&& 0xf0 = c → c ≠ 0xd0 → inst.opcode &&& 0xf0 ≠ 0xd0 :=
    fun c hc hne h => hne (hc.symm.trans h)
  split at h
  case h_8 hop =>
    -- negation
    split_ifs at h
    cases h
    show inst.alu E s = _
    unfold EbpfInst.alu EbpfInst.aluResult
    rw [hop]
    dsimp only
    rw [if_neg (by decide)]
    by_cases hcls : inst.cls = 0x07
    · rw [if_pos hcls]
      exact congrArg some (if_pos (decide_eq_true hcls)).symm
    · rw [if_neg hcls]
      exact congrArg some (if_neg fun h => hcls (of_decide_eq_true h)).symm
  case h_11 hop =>
    split_ifs at h with hsrc hcls hreg hreg
    · refine aluEval_of_endian hop (fun n => if_pos (Or.inl (of_decide_eq_true hcls))) ?_ ?_ ?_ h
      all_goals exact fun _ _ => rfl
    · refine @aluEval_of_endian P pc M E s inst _ _ _ _
        (fun n => toOrder E true n (s.regs (.ofField inst.dst))) hop
        (fun n => toOrder_of_srcReg (fun h => hcls (decide_eq_true h)) hreg) ?_ ?_ ?_ h
      all_goals exact fun _ _ => rfl
    · refine @aluEval_of_endian P pc M E s inst _ _ _ _
        (fun n => toOrder E false n (s.regs (.ofField inst.dst))) hop
        (fun n => toOrder_of_srcReg (fun h => hcls (decide_eq_true h)) (Bool.eq_false_iff.mpr hreg))
        ?_ ?_ ?_ h
      all_goals exact fun _ _ => rfl
  case h_12 | h_13 => cases h
  case h_3 hop =>
    obtain ⟨-, h⟩ := Except.guard_eq_ok.mp h
    cases h
    refine ⟨hne _ hop (by decide), fun w a b => ?_⟩
    unfold EbpfInst.aluResult
    rw [hop]
    rfl
  case h_14 =>
    rcases nibble_cases inst.opcode with hop | hop | hop | hop | hop | hop | hop | hop | hop | hop |
      hop | hop | hop | hop | hop | hop
    all_goals contradiction
  all_goals
    next hop =>
      cases h
      refine ⟨hne _ hop (by decide), fun w a b => ?_⟩
      unfold EbpfInst.aluResult
      rw [hop]
      rfl

theorem aluEval_of_getAluOp {o : BinOp ⊕ UnOp} (h : getAluOp P pc inst = .ok o) :
    AluEval E s inst o := by
  have hne : ∀ c : BitVec 8, inst.opcode &&& 0xf0 = c → c ≠ 0xd0 → inst.opcode &&& 0xf0 ≠ 0xd0 :=
    fun c hc hne h => hne (hc.symm.trans h)
  unfold getAluOp at h
  split at h
  case h_1 hop | h_2 hop =>
    rcases aluResult_of_getDivOp h with ⟨h0, rfl⟩ | ⟨h0, h1, rfl⟩
    all_goals
      refine ⟨hne _ hop (by decide), fun w a b => ?_⟩
      unfold EbpfInst.aluResult
      rw [hop]
      show (if _ then _ else _) = _
    · rw [if_pos h0]
      rfl
    · rw [if_neg h0, if_pos h1]
      rfl
  case h_3 hop =>
    split_ifs at h with hpos h0 h8 h16 h32
    all_goals
      cases h
      refine ⟨hne _ hop (by decide), fun w a b => ?_⟩
      unfold EbpfInst.aluResult
      rw [hop]
      show (if _ then _ else _) = _
    · rw [if_pos h0]
      rfl
    · rw [if_neg h0, if_pos h8]
      rfl
    · rw [if_neg h0, if_neg h8, if_pos h16]
      rfl
    · rw [if_neg h0, if_neg h8, if_neg h16, if_pos h32]
      rfl
  case h_4 h30 h90 hb0 => exact aluEval_of_getPlainAluOp h h30 h90 hb0

theorem value_of_getBinValue {v : Value} (h : getBinValue pc inst = .ok v) :
    s.value v = inst.operand s := by
  unfold getBinValue at h
  unfold EbpfInst.operand
  split_ifs at h with hreg himm hsrc
  · cases h
    rw [if_pos hreg]
    rfl
  · cases h
    rw [if_neg hreg]
    rfl

theorem effect_of_makeAluOp {ins : IsaInstruction} (h : makeAluOp P pc inst = .ok ins) :
    Instruction.effect E s ins = .ofOption ((inst.alu E s).map (s.set (.ofField inst.dst))) := by
  unfold makeAluOp at h
  iterate 3 obtain ⟨-, h⟩ := Except.guard_eq_ok.mp h
  obtain ⟨o, ho, h⟩ := Except.bind_eq_ok.mp h
  have heval := aluEval_of_getAluOp (E := E) (s := s) ho
  cases o with
  | inr op =>
    cases h
    rw [show inst.alu E s = _ from heval]
    rfl
  | inl op =>
    obtain ⟨v, hv, h⟩ := Except.bind_eq_ok.mp h
    cases h
    obtain ⟨hop, heval⟩ := heval
    unfold EbpfInst.alu
    dsimp only
    rw [if_neg hop, heval, heval, ← value_of_getBinValue hv]
    by_cases hcls : inst.cls = 0x07
    · rw [if_pos hcls]
      refine congrArg (fun x => Effect.next (s.set _ x)) ?_
      exact if_pos (decide_eq_true hcls)
    · rw [if_neg hcls]
      refine congrArg (fun x => Effect.next (s.set _ x)) ?_
      exact if_neg fun h => hcls (of_decide_eq_true h)

/-! ## Memory -/

theorem toBitVec_mergeImm (imm nextImm : BitVec 32) :
    (mergeImm imm nextImm).toBitVec = nextImm ++ imm := by
  apply BitVec.eq_of_getLsbD_eq
  intro i hi
  show (nextImm.signExtend 64 <<< 32 ||| imm.setWidth 64).getLsbD i = (nextImm ++ imm).getLsbD i
  simp only [BitVec.getLsbD_or, BitVec.getLsbD_shiftLeft, BitVec.getLsbD_signExtend,
    BitVec.getLsbD_setWidth, BitVec.getLsbD_append]
  by_cases h : i < 32
  · simp [h, hi]
  · have h' : i - 32 < 32 := by omega
    simp only [hi, h, h', decide_true, decide_false, Bool.true_and, Bool.not_false, if_true,
      if_false]
    rw [BitVec.getLsbD_of_ge imm i (by omega), Bool.or_false, decide_eq_true (by omega : i - 32 < 64),
      Bool.true_and]

/-- Both extensions of an immediate have the same low bits. -/
theorem setWidth_zeroExtend {n : ℕ} (imm : BitVec 32) (h : n ≤ 32 ∨ imm.msb = false) :
    (imm.setWidth 64).setWidth n = (imm.signExtend 64).setWidth n := by
  rcases h with h | h
  · apply BitVec.eq_of_getLsbD_eq
    intro i hi
    have hi' : i < 32 := by omega
    have hi'' : i < 64 := by omega
    rw [BitVec.getLsbD_setWidth, BitVec.getLsbD_setWidth, BitVec.getLsbD_setWidth,
      BitVec.getLsbD_signExtend, decide_eq_true hi'', if_pos hi', Bool.true_and]
  · rw [BitVec.signExtend_eq_setWidth_of_msb_false h]

theorem toNat_getMemWidth : (getMemWidth inst).toNat = inst.bytes := by
  have hsize : ∀ op : BitVec 8, op &&& 0x18 = 0x00 ∨ op &&& 0x18 = 0x08 ∨ op &&& 0x18 = 0x10 ∨
      op &&& 0x18 = 0x18 := by decide
  unfold getMemWidth EbpfInst.bytes
  rcases hsize inst.opcode with h | h | h | h
  all_goals
    rw [h]
    rfl

theorem effect_of_makeLddw {f : ℤ → Label} {next? : Option EbpfInst} {ins : IsaInstruction}
    (hop : inst.opcode = 0x18) (h : makeLddw P pc inst next? = .ok ins) :
    Instruction.effect E s ins = (inst.effect E s next?).map f := by
  have hcls : inst.cls = 0x00 := by rw [EbpfInst.cls, hop]; rfl
  unfold makeLddw at h
  obtain ⟨-, h⟩ := Except.guard_eq_ok.mp h
  cases next? with
  | none => cases h
  | some next =>
    iterate 4 obtain ⟨-, h⟩ := Except.guard_eq_ok.mp h
    have heffect : inst.effect E s (some next) =
        .ofOption ((inst.wideValue E next).map (s.set (.ofField inst.dst))) := by
      unfold EbpfInst.effect
      rw [hcls]
      exact if_pos hop
    rw [heffect, Effect.map_ofOption]
    split at h
    case h_1 hsrc =>
      cases h
      have hvalue : inst.wideValue E next = some (mergeImm inst.imm next.imm).toBitVec := by
        unfold EbpfInst.wideValue
        rw [hsrc, toBitVec_mergeImm]
        rfl
      rw [hvalue]
      rfl
    case h_2 hsrc =>
      obtain ⟨-, h⟩ := Except.guard_eq_ok.mp h
      cases h
      have hvalue : inst.wideValue E next = some (E.mapFd inst.imm) := by
        unfold EbpfInst.wideValue
        rw [hsrc]
        rfl
      rw [hvalue]
      rfl
    case h_3 hsrc =>
      cases h
      have hvalue : inst.wideValue E next = some (E.mapAddress inst.imm next.imm) := by
        unfold EbpfInst.wideValue
        rw [hsrc]
        rfl
      rw [hvalue]
      rfl
    case h_4 => cases h

/-- A store of eight bytes of a negative immediate. -/
def EbpfInst.NegativeWideStore (inst : EbpfInst) : Prop := inst.opcode = 0x7a ∧ inst.imm.msb = true

instance : DecidablePred EbpfInst.NegativeWideStore := fun inst =>
  inferInstanceAs (Decidable (inst.opcode = 0x7a ∧ inst.imm.msb = true))

theorem bytes_of_not_negativeWideStore (hcls : inst.cls = 0x02)
    (hmode : inst.opcode &&& 0xe0 = 0x60) (hneg : ¬ inst.NegativeWideStore) :
    8 * inst.bytes ≤ 32 ∨ inst.imm.msb = false := by
  have hall : ∀ op : BitVec 8, op &&& 0x07 = 0x02 → op &&& 0xe0 = 0x60 →
      op &&& 0x18 = 0x10 ∨ op &&& 0x18 = 0x08 ∨ op &&& 0x18 = 0x00 ∨ op = 0x7a := by
    decide
  unfold EbpfInst.bytes
  rcases hall inst.opcode hcls hmode with h | h | h | h
  · rw [h]
    exact Or.inl (by decide)
  · rw [h]
    exact Or.inl (by decide)
  · rw [h]
    exact Or.inl (by decide)
  · exact Or.inr (Bool.eq_false_iff.mpr fun hmsb => hneg ⟨h, hmsb⟩)

theorem effect_of_makeLoadStore {f : ℤ → Label} {next? : Option EbpfInst} {ins : IsaInstruction}
    (hcls : inst.cls = 0x01 ∨ inst.cls = 0x02 ∨ inst.cls = 0x03)
    (hmode : inst.opcode &&& 0xe0 = 0x60) (hneg : ¬ inst.NegativeWideStore)
    (h : makeLoadStore pc inst = .ok ins) :
    Instruction.effect E s ins = (inst.effect E s next?).map f := by
  have himm : ∀ op : BitVec 8, (op &&& 0x07 = 0x02 → op &&& 1 = 0) ∧
      (op &&& 0x07 = 0x03 → op &&& 1 ≠ 0) := by decide
  unfold makeLoadStore at h
  iterate 3 obtain ⟨-, h⟩ := Except.guard_eq_ok.mp h
  cases h
  rcases hcls with hcls | hcls | hcls
  · have heffect : inst.effect E s next? =
        .ofOption (E.loadInto s (.ofField inst.dst) (inst.address s inst.src) inst.bytes) := by
      unfold EbpfInst.effect
      rw [hcls]
      exact if_pos hmode
    rw [heffect, Effect.map_ofOption, ← toNat_getMemWidth, hcls]
    rfl
  · have heffect : inst.effect E s next? = .ofOption
        (E.storeAt s (inst.address s inst.dst) inst.bytes (inst.imm.signExtend 64)) := by
      unfold EbpfInst.effect
      rw [hcls]
      exact if_pos hmode
    have hsame : E.storeAt s (inst.address s inst.dst) inst.bytes (inst.imm.signExtend 64) =
        E.storeAt s (inst.address s inst.dst) inst.bytes (inst.imm.setWidth 64) := by
      unfold Env.storeAt
      rw [setWidth_zeroExtend inst.imm (bytes_of_not_negativeWideStore hcls hmode hneg)]
    rw [heffect, Effect.map_ofOption, hsame, ← toNat_getMemWidth, hcls,
      (himm inst.opcode).1 hcls]
    rfl
  · have heffect : inst.effect E s next? = .ofOption
        (E.storeAt s (inst.address s inst.dst) inst.bytes (s.regs (.ofField inst.src))) := by
      unfold EbpfInst.effect
      rw [hcls, hmode]
      rfl
    rw [heffect, Effect.map_ofOption, ← toNat_getMemWidth, hcls,
      decide_eq_false ((himm inst.opcode).2 hcls)]
    rfl

/-- What `getAtomicOp` reads is what the word stores and fetches. -/
theorem atomicResult_of_getAtomicOp {op : AtomicOp} (h : getAtomicOp pc inst = .ok op) :
    (∀ (w : ℕ) (old src r0 : BitVec w), inst.atomicResult old src r0 = some (op.eval old src r0)) ∧
      (inst.imm &&& ~~~0x1 = 0xf0 ↔ op = .cmpxchg) := by
  unfold getAtomicOp at h
  split at h
  case h_1 hop | h_2 hop =>
    obtain ⟨-, h⟩ := Except.guard_eq_ok.mp h
    cases h
    rw [hop]
    refine ⟨fun w old src r0 => ?_, by decide⟩
    unfold EbpfInst.atomicResult
    rw [hop]
    rfl
  case h_7 => cases h
  all_goals
    next hop =>
      cases h
      rw [hop]
      refine ⟨fun w old src r0 => ?_, by decide⟩
      unfold EbpfInst.atomicResult
      rw [hop]
      rfl

theorem effect_of_makeAtomic {f : ℤ → Label} {next? : Option EbpfInst} {ins : IsaInstruction}
    (hmode : inst.opcode &&& 0xe0 = 0xc0) (h : makeAtomic P pc inst = .ok ins) :
    Instruction.effect E s ins = (inst.effect E s next?).map f := by
  unfold makeAtomic at h
  obtain ⟨hsize, h⟩ := Except.guard_eq_ok.mp h
  obtain ⟨-, h⟩ := Except.guard_eq_ok.mp h
  obtain ⟨op, hop, h⟩ := Except.bind_eq_ok.mp h
  cases h
  have hcls : inst.cls = 0x03 := not_not.mp (not_or.mp hsize).1
  obtain ⟨hresult, hcmp⟩ := atomicResult_of_getAtomicOp hop
  have heffect : inst.effect E s next? = .ofOption (inst.atomic E s) := by
    unfold EbpfInst.effect
    rw [hcls, hmode]
    rfl
  have hfetch : inst.fetched = if decide (inst.imm &&& 0x1 = 0x1) then
      some (if op = .cmpxchg then 0 else Reg.ofField inst.src) else none := by
    unfold EbpfInst.fetched
    by_cases h0 : inst.imm &&& 0x1 = 0
    · rw [if_pos h0, if_neg (by rw [h0]; decide)]
    · rw [if_neg h0, if_pos (decide_eq_true (and_one_cases inst.imm h0))]
      by_cases hc : op = .cmpxchg
      · rw [if_pos hc, if_pos (hcmp.mpr hc)]
      · rw [if_neg hc, if_neg fun h => hc (hcmp.mp h)]
  rw [heffect, Effect.map_ofOption]
  unfold EbpfInst.atomic
  simp only [hresult, hfetch]
  rw [← toNat_getMemWidth]
  rfl

theorem effect_of_makeMemOp {f : ℤ → Label} {next? : Option EbpfInst} {ins : IsaInstruction}
    (hne : inst.opcode ≠ 0x18)
    (hcls : inst.cls = 0x00 ∨ inst.cls = 0x01 ∨ inst.cls = 0x02 ∨ inst.cls = 0x03)
    (hneg : ¬ inst.NegativeWideStore) (h : makeMemOp P pc inst = .ok ins) :
    Instruction.effect E s ins = (inst.effect E s next?).map f := by
  unfold makeMemOp at h
  iterate 2 obtain ⟨-, h⟩ := Except.guard_eq_ok.mp h
  split at h
  case h_1 hmode =>
    obtain ⟨hld, h⟩ := Except.guard_eq_ok.mp h
    iterate 2 obtain ⟨-, h⟩ := Except.guard_eq_ok.mp h
    have hcls0 : inst.cls = 0x00 := by simpa using (not_or.mp (not_or.mp hld).2).1
    have heffect : inst.effect E s next? = .ofOption (E.packet s inst.bytes inst.imm none) := by
      unfold EbpfInst.effect
      rw [hcls0, hmode]
      exact if_neg hne
    rw [makePacket_ok h, heffect, Effect.map_ofOption, ← toNat_getMemWidth]
    rfl
  case h_2 hmode =>
    obtain ⟨hld, h⟩ := Except.guard_eq_ok.mp h
    iterate 2 obtain ⟨-, h⟩ := Except.guard_eq_ok.mp h
    have hcls0 : inst.cls = 0x00 := by simpa using (not_or.mp (not_or.mp hld).2).1
    have heffect : inst.effect E s next? =
        .ofOption (E.packet s inst.bytes inst.imm (some (s.regs (.ofField inst.src)))) := by
      unfold EbpfInst.effect
      rw [hcls0, hmode]
      exact if_neg hne
    rw [makePacket_ok h, heffect, Effect.map_ofOption, ← toNat_getMemWidth]
    rfl
  case h_3 hmode =>
    obtain ⟨hld, h⟩ := Except.guard_eq_ok.mp h
    refine effect_of_makeLoadStore (hcls.resolve_left ?_) hmode hneg h
    exact fun h => hld (decide_eq_true h)
  case h_4 hmode => exact effect_of_makeAtomic hmode h
  case h_5 => cases h

/-! ## Jumps -/

/-- The label at a distance from the word after the one at `pc`. -/
def labelAt (pc : ℕ) (offset : ℤ) : Label := .ofIndex (pc + 1 + offset)

theorem eq_labelAt {insts : List EbpfInst} {offset : ℤ} {l : Label} (hpc : pc < 2 ^ 31)
    (hoffset : Number.FitsS 32 offset) (h : getJumpTarget offset insts pc = .ok l) :
    l = labelAt pc offset := by
  obtain ⟨n, rfl, -, hn, -⟩ := offset_of_getJumpTarget hpc le_rfl hoffset h
  unfold labelAt
  rw [← hn]
  congr 1
  omega

theorem fitsS_offset (o : BitVec 16) : Number.FitsS 32 o.toInt := by
  have h := fitsS_toInt o
  unfold Number.FitsS Number.minInt Number.maxInt at h ⊢
  omega

theorem holds_of_getJmpOp {op : ConditionOp} (h : getJmpOp pc inst = .ok op)
    (h0 : inst.opcode >>> 4 ≠ 0x0) (h8 : inst.opcode >>> 4 ≠ 0x8) (h9 : inst.opcode >>> 4 ≠ 0x9)
    (w : ℕ) (a b : BitVec w) : inst.holds a b = some (op.eval a b) := by
  have hall : ∀ op : BitVec 8, op >>> 4 = 0x0 ∨ op >>> 4 = 0x1 ∨ op >>> 4 = 0x2 ∨ op >>> 4 = 0x3 ∨
      op >>> 4 = 0x4 ∨ op >>> 4 = 0x5 ∨ op >>> 4 = 0x6 ∨ op >>> 4 = 0x7 ∨ op >>> 4 = 0x8 ∨
      op >>> 4 = 0x9 ∨ op >>> 4 = 0xa ∨ op >>> 4 = 0xb ∨ op >>> 4 = 0xc ∨ op >>> 4 = 0xd ∨
      op >>> 4 = 0xe ∨ op >>> 4 = 0xf := by decide
  unfold getJmpOp at h
  unfold EbpfInst.holds
  rcases hall inst.opcode with hop | hop | hop | hop | hop | hop | hop | hop | hop | hop | hop |
    hop | hop | hop | hop | hop
  case inl => exact absurd hop h0
  all_goals
    first
    | exact absurd hop h8
    | exact absurd hop h9
    | rw [hop] at h ⊢
      cases h
      try rfl

theorem jump_of_holds {op : ConditionOp} (h0 : inst.opcode >>> 4 ≠ 0x0)
    (h8 : inst.opcode >>> 4 ≠ 0x8) (h9 : inst.opcode >>> 4 ≠ 0x9)
    (h : ∀ (w : ℕ) (a b : BitVec w), inst.holds a b = some (op.eval a b)) :
    inst.jump E s =
      if (if inst.cls = 0x05 then op.eval (s.regs (.ofField inst.dst)) (inst.operand s)
        else op.eval ((s.regs (.ofField inst.dst)).setWidth 32) ((inst.operand s).setWidth 32))
      then .goto inst.offset.toInt else .next s := by
  unfold EbpfInst.jump
  simp only [h]
  generalize inst.opcode >>> 4 = nibble at h0 h8 h9
  split
  · exact absurd rfl h0
  · exact absurd rfl h8
  · exact absurd rfl h9
  · by_cases hcls : inst.cls = 0x05
    · rw [if_pos hcls, if_pos hcls]
      cases op.eval (s.regs (.ofField inst.dst)) (inst.operand s) with
      | true => rfl
      | false => rfl
    · rw [if_neg hcls, if_neg hcls]
      cases op.eval ((s.regs (.ofField inst.dst)).setWidth 32) ((inst.operand s).setWidth 32) with
      | true => rfl
      | false => rfl

theorem effect_of_makeCondJmp {insts : List EbpfInst} {ins : IsaInstruction} (hpc : pc < 2 ^ 31)
    (h0 : inst.opcode >>> 4 ≠ 0x0) (h8 : inst.opcode >>> 4 ≠ 0x8) (h9 : inst.opcode >>> 4 ≠ 0x9)
    (h : makeCondJmp P insts pc inst = .ok ins) :
    Instruction.effect E s ins = (inst.jump E s).map (labelAt pc) := by
  have hgoto : ¬ (inst.opcode = 0x05 ∨ inst.opcode = 0x06) := by
    rintro (hop | hop)
    · exact h0 (by rw [hop]; rfl)
    · exact h0 (by rw [hop]; rfl)
  obtain ⟨-, h⟩ := Except.guard_eq_ok.mp h
  obtain ⟨op, hop, h⟩ := Except.bind_eq_ok.mp h
  obtain ⟨-, h⟩ := Except.guard_eq_ok.mp h
  obtain ⟨-, h⟩ := Except.guard_eq_ok.mp h
  obtain ⟨l, hl, h⟩ := Except.bind_eq_ok.mp h
  iterate 2 obtain ⟨-, h⟩ := Except.guard_eq_ok.mp h
  cases h
  rw [if_neg (not_or.mp hgoto).2] at hl
  rw [eq_labelAt hpc (fitsS_offset _) hl, if_neg (by simpa using hgoto)]
  have hvalue : s.value (if inst.srcReg then .inl (Reg.ofField inst.src)
      else .inr (signExtendImm inst.imm)) = inst.operand s := by
    unfold EbpfInst.operand
    split_ifs <;> rfl
  have heval : Condition.eval ⟨op, Reg.ofField inst.dst, if inst.srcReg then
      .inl (Reg.ofField inst.src) else .inr (signExtendImm inst.imm), inst.cls = 0x05⟩ s =
      if inst.cls = 0x05 then op.eval (s.regs (.ofField inst.dst)) (inst.operand s)
      else op.eval ((s.regs (.ofField inst.dst)).setWidth 32) ((inst.operand s).setWidth 32) := by
    unfold Condition.eval
    rw [hvalue]
    by_cases hcls : inst.cls = 0x05
    · rw [if_pos hcls]
      exact if_pos (decide_eq_true hcls)
    · rw [if_neg hcls]
      exact if_neg fun h => hcls (of_decide_eq_true h)
  rw [jump_of_holds h0 h8 h9 (holds_of_getJmpOp hop h0 h8 h9), ← heval]
  rw [apply_ite (Effect.map (labelAt pc))]
  rfl

/-- An unconditional jump goes as far as its word says. -/
theorem jmp_of_makeGoto {insts : List EbpfInst} {ins : IsaInstruction}
    (h0 : inst.opcode >>> 4 = 0x0) (h : makeGoto P insts pc inst = .ok ins) :
    (inst.cls = 0x05 ∨ inst.cls = 0x06) ∧ ∃ l, ins = .jmp none l ∧
      getJumpTarget inst.gotoOffset insts pc = .ok l := by
  have hall : ∀ op : BitVec 8, op >>> 4 = 0x0 → op &&& 0x08 = 0 →
      (op &&& 0x07 = 0x05 ↔ op = 0x05) ∧ (op &&& 0x07 = 0x06 ↔ op = 0x06) := by decide
  obtain ⟨hcls, h⟩ := Except.guard_eq_ok.mp h
  obtain ⟨-, h⟩ := Except.guard_eq_ok.mp h
  obtain ⟨hreg, h⟩ := Except.guard_eq_ok.mp h
  obtain ⟨h5, h6⟩ := hall inst.opcode h0 (by simpa [EbpfInst.srcReg] using hreg)
  iterate 4 obtain ⟨-, h⟩ := Except.guard_eq_ok.mp h
  obtain ⟨op, hop, h⟩ := Except.bind_eq_ok.mp h
  iterate 2 obtain ⟨-, h⟩ := Except.guard_eq_ok.mp h
  obtain ⟨l, hl, h⟩ := Except.bind_eq_ok.mp h
  iterate 2 obtain ⟨-, h⟩ := Except.guard_eq_ok.mp h
  cases h
  have hcls' : inst.cls = 0x05 ∨ inst.cls = 0x06 := by
    by_contra hno
    exact hcls (not_or.mp hno)
  have hgoto : inst.opcode = 0x05 ∨ inst.opcode = 0x06 := hcls'.imp h5.mp h6.mp
  have hoffset : inst.gotoOffset =
      if inst.opcode = 0x06 then inst.imm.toInt else inst.offset.toInt := by
    unfold EbpfInst.gotoOffset EbpfInst.cls
    rcases hgoto with hop' | hop'
    · rw [hop', if_pos (by decide), if_neg (by decide)]
    · rw [hop', if_neg (by decide), if_pos rfl]
  rw [if_pos (decide_eq_true hgoto)]
  rw [← hoffset] at hl
  exact ⟨hcls', l, rfl, hl⟩

theorem fitsS_gotoOffset : Number.FitsS 32 inst.gotoOffset := by
  unfold EbpfInst.gotoOffset
  split_ifs
  · exact fitsS_offset _
  · exact fitsS_toInt _

theorem effect_of_makeGoto {insts : List EbpfInst} {ins : IsaInstruction} (hpc : pc < 2 ^ 31)
    (h0 : inst.opcode >>> 4 = 0x0) (h : makeGoto P insts pc inst = .ok ins) :
    Instruction.effect E s ins = (inst.jump E s).map (labelAt pc) := by
  obtain ⟨-, l, rfl, hl⟩ := jmp_of_makeGoto h0 h
  rw [eq_labelAt hpc fitsS_gotoOffset hl]
  unfold EbpfInst.jump
  rw [h0]
  rfl

theorem effect_of_makeAnyCall {insts : List EbpfInst} {ins : IsaInstruction} (hpc : pc < 2 ^ 31)
    (h8 : inst.opcode >>> 4 = 0x8) (h : makeAnyCall P insts pc inst = .ok ins) :
    Instruction.effect E s ins = (inst.jump E s).map (labelAt pc) := by
  iterate 5 obtain ⟨-, h⟩ := Except.guard_eq_ok.mp h
  unfold EbpfInst.jump
  rw [h8]
  show _ = (if inst.srcReg then _ else if inst.src = 1 then _ else _ : Effect ℤ M).map _
  split at h
  · next hsrc =>
    obtain ⟨hreg, h⟩ := Except.guard_eq_ok.mp h
    obtain ⟨-, h⟩ := Except.guard_eq_ok.mp h
    obtain ⟨l, hl, h⟩ := Except.bind_eq_ok.mp h
    cases h
    rw [if_neg hreg, if_pos hsrc, eq_labelAt hpc (fitsS_toInt _) hl]
    rfl
  split at h
  · next hreg =>
    obtain ⟨-, h⟩ := Except.guard_eq_ok.mp h
    rw [if_pos hreg]
    split at h
    · next himm =>
      iterate 2 obtain ⟨-, h⟩ := Except.guard_eq_ok.mp h
      cases h
      rw [if_neg himm, Effect.map_ofOption]
      rfl
    · next himm =>
      cases h
      rw [if_pos (not_not.mp himm), Effect.map_ofOption]
      rfl
  · next hsrc hreg =>
    iterate 2 obtain ⟨-, h⟩ := Except.guard_eq_ok.mp h
    obtain ⟨c, hc, h⟩ := Except.bind_eq_ok.mp h
    cases h
    rw [if_neg hreg, if_neg hsrc, Effect.map_ofOption, ← makeCall_func hc]
    rfl

theorem effect_of_makeJmp {insts : List EbpfInst} {next? : Option EbpfInst} {ins : IsaInstruction}
    (hpc : pc < 2 ^ 31) (hcls : inst.cls = 0x05 ∨ inst.cls = 0x06)
    (h : makeJmp P insts pc inst = .ok ins) :
    Instruction.effect E s ins = (inst.effect E s next?).map (labelAt pc) := by
  have heffect : inst.effect E s next? = inst.jump E s := by
    unfold EbpfInst.effect
    rcases hcls with hcls | hcls
    · rw [hcls]
      rfl
    · rw [hcls]
      rfl
  rw [heffect]
  unfold makeJmp at h
  split at h
  case h_1 h8 => exact effect_of_makeAnyCall hpc h8 h
  case h_2 h9 =>
    iterate 6 obtain ⟨-, h⟩ := Except.guard_eq_ok.mp h
    cases h
    unfold EbpfInst.jump
    rw [h9]
    rfl
  case h_3 h0 => exact effect_of_makeGoto hpc h0 h
  case h_4 h8 h9 h0 => exact effect_of_makeCondJmp hpc h0 h8 h9 h

/-! ## Shifts -/

/-- A left shift by 32 and a right shift by 32 of the same register. -/
def EbpfInst.ShiftPair (inst next : EbpfInst) : Prop :=
  ∃ dst, inst = ⟨0x67, dst, 0, 0, 32⟩ ∧ (next = ⟨0x77, dst, 0, 0, 32⟩ ∨ next = ⟨0xc7, dst, 0, 0, 32⟩)

/-- The opcodes of the shifts by 32 that are merged. -/
def shiftOpcode : BinOp → Option (BitVec 8)
  | .lsh => some 0x67
  | .rsh => some 0x77
  | .arsh => some 0xc7
  | _ => none

theorem nibble_of_getAluOp {op : BinOp} {c : BitVec 8} (hop : shiftOpcode op = some c)
    (h : getAluOp P pc inst = .ok (.inl op)) :
    inst.opcode &&& 0xf0 = c &&& 0xf0 ∧ inst.offset = 0 := by
  unfold getAluOp at h
  split at h
  case h_1 | h_2 =>
    rcases aluResult_of_getDivOp h with ⟨-, heq⟩ | ⟨-, -, heq⟩
    · cases heq
      cases hop
    · cases heq
      cases hop
  case h_3 =>
    split_ifs at h
    all_goals
      cases h
      cases hop
  case h_4 =>
    unfold getPlainAluOp at h
    obtain ⟨hoffset, h⟩ := Except.guard_eq_ok.mp h
    refine ⟨?_, not_not.mp hoffset⟩
    split at h
    case h_11 =>
      split_ifs at h
      all_goals rcases imm_of_endian h with ⟨-, heq⟩ | ⟨-, heq⟩ | ⟨-, heq⟩ <;> cases heq
    case h_3 | h_8 =>
      split_ifs at h
      all_goals
        cases h
        try cases hop
    all_goals
      cases h
      try cases hop
    all_goals assumption

theorem toBitVec_signExtendImm_injective : Function.Injective signExtendImm := by
  intro a b h
  have h' : a.signExtend 64 = b.signExtend 64 := congrArg UInt64.toBitVec h
  have hint := congrArg BitVec.toInt h'
  rw [BitVec.toInt_signExtend_of_le (by decide), BitVec.toInt_signExtend_of_le (by decide)] at hint
  exact BitVec.eq_of_toInt_eq hint

/-- Only one word is decoded to a shift by 32 of a register. -/
theorem word_of_shift {op : BinOp} {c : BitVec 8} {dst : Reg} (hop : shiftOpcode op = some c)
    (h : makeAluOp P pc inst = .ok (shift32 dst op)) :
    dst = .ofField inst.dst ∧ inst = ⟨c, inst.dst, 0, 0, 32⟩ := by
  have hword : ∀ o : BitVec 8, o &&& 0xf0 = c &&& 0xf0 → o &&& 0x07 = 0x07 → o &&& 0x08 = 0 →
      o = c := by
    cases op <;> cases hop <;> decide
  unfold makeAluOp at h
  iterate 3 obtain ⟨-, h⟩ := Except.guard_eq_ok.mp h
  obtain ⟨o, ho, h⟩ := Except.bind_eq_ok.mp h
  cases o with
  | inr op => cases h
  | inl op' =>
    obtain ⟨v, hv, h⟩ := Except.bind_eq_ok.mp h
    obtain ⟨rfl, hdst, hval, his64, -⟩ := Bin.mk.inj (Operation.bin.inj (Instruction.other.inj
      (Except.ok.inj h)))
    obtain ⟨hnibble, hoffset⟩ := nibble_of_getAluOp hop ho
    unfold getBinValue at hv
    split_ifs at hv with hreg himm hsrc
    · rw [← Except.ok.inj hv] at hval
      cases hval
    · rw [← Except.ok.inj hv] at hval
      have himm : inst.imm = 32 := toBitVec_signExtendImm_injective (Sum.inr.inj hval)
      have hopcode := hword inst.opcode hnibble (of_decide_eq_true his64)
        (by simpa [EbpfInst.srcReg] using hreg)
      refine ⟨hdst.symm, ?_⟩
      obtain ⟨opcode, dst', src, offset, imm⟩ := inst
      rw [EbpfInst.mk.injEq]
      exact ⟨hopcode, rfl, not_not.mp hsrc, hoffset, himm⟩

/-- The words of shifts by 32 are decoded to them. -/
theorem shift_of_word {op : BinOp} {c : BitVec 8} {ins : IsaInstruction}
    (hop : shiftOpcode op = some c) (hword : inst = ⟨c, inst.dst, 0, 0, 32⟩)
    (h : makeAluOp P pc inst = .ok ins) : ins = shift32 (.ofField inst.dst) op := by
  rw [hword] at h
  generalize inst.dst = dst at h ⊢
  unfold makeAluOp at h
  iterate 3 obtain ⟨-, h⟩ := Except.guard_eq_ok.mp h
  obtain ⟨o, ho, h⟩ := Except.bind_eq_ok.mp h
  have hop' : getAluOp P pc ⟨c, dst, 0, 0, 32⟩ = .ok (.inl op) := by
    cases op <;> cases hop <;> simp [getAluOp, getPlainAluOp]
  cases ho.symm.trans hop'
  obtain ⟨v, hv, h⟩ := Except.bind_eq_ok.mp h
  have hval : getBinValue pc ⟨c, dst, 0, 0, 32⟩ = .ok (.inr (signExtendImm 32)) := by
    cases op <;> cases hop <;> simp [getBinValue, EbpfInst.srcReg]
  cases hv.symm.trans hval
  cases h
  have hcls : EbpfInst.cls ⟨c, dst, 0, 0, 32⟩ = 0x07 := by
    cases op <;> cases hop <;> simp [EbpfInst.cls]
  rw [decide_eq_true hcls]
  rfl

end Prevail
