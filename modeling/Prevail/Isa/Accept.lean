import Prevail.Isa.Template

/-!
# What the decoder accepts

The templates of an opcode follow from its class, as the decoder goes by it (`templates_eq`). In each
class a word is accepted just when one of them fits.
-/

namespace Prevail

open DecodeError Unmarshaller

variable {P : Platform} {insts : List EbpfInst}

/-! ## The templates of an opcode -/

/-- The form that the decoder takes and no template has: a sign extension of 32 bits to 32 bits. -/
def movsx32Template : List EbpfInstructionTemplate := [⟨0xbc, .dst, .src, 32, 0, .base32⟩]

/-- The templates that the decoder goes by. -/
def acceptedTemplate : List EbpfInstructionTemplate :=
  instructionTemplate ++ legacyTemplate ++ movsx32Template

/-- The templates of the arithmetic classes. -/
def aluTemplates (op : BitVec 8) : List EbpfInstructionTemplate :=
  let is64 : Bool := op &&& 0x07 = 0x07
  let reg : Bool := op &&& 0x08 ≠ 0
  let source : RegField := if reg then .src else 0
  let right : ImmField := if reg then 0 else .imm
  match op &&& 0xf0 with
  | 0x20 => [⟨op, .dst, source, 0, right, divmul is64⟩]
  | 0x30 | 0x90 => [⟨op, .dst, source, 0, right, divmul is64⟩, ⟨op, .dst, source, 1, right, divmul is64⟩]
  | 0x80 => if reg then [] else [⟨op, .dst, 0, 0, 0, base is64⟩]
  | 0xb0 =>
    if reg then [⟨op, .dst, .src, 0, 0, base is64⟩, ⟨op, .dst, .src, 8, 0, base is64⟩,
      ⟨op, .dst, .src, 16, 0, base is64⟩, ⟨op, .dst, .src, 32, 0, base is64⟩]
    else [⟨op, .dst, 0, 0, .imm, base is64⟩]
  | 0xd0 =>
    if is64 ∧ reg then []
    else [⟨op, .dst, 0, 0, 0x10, .base32⟩, ⟨op, .dst, 0, 0, 0x20, .base32⟩,
      ⟨op, .dst, 0, 0, 0x40, .base64⟩]
  | 0xe0 | 0xf0 => []
  | _ => [⟨op, .dst, source, 0, right, base is64⟩]

/-- The immediates of the atomic operations. -/
def atomicImms : List (BitVec 32) :=
  [0x00, 0x01, 0x40, 0x41, 0x50, 0x51, 0xa0, 0xa1, 0xe1, 0xf1]

/-- The templates of the memory classes. -/
def memTemplates (op : BitVec 8) : List EbpfInstructionTemplate :=
  let size := op &&& 0x18
  let group := base (size = 0x18)
  match op &&& 0xe0 with
  | 0x20 => if op &&& 0x07 = 0x00 ∧ size ≠ 0x18 then [⟨op, 0, 0, 0, .imm, .packet⟩] else []
  | 0x40 => if op &&& 0x07 = 0x00 ∧ size ≠ 0x18 then [⟨op, 0, .src, 0, .imm, .packet⟩] else []
  | 0x60 =>
    if op &&& 0x07 = 0x00 then []
    else if op &&& 0x07 = 0x02 then [⟨op, .dst, 0, .memOffset, .imm, group⟩]
    else [⟨op, .dst, .src, .memOffset, 0, group⟩]
  | 0xc0 =>
    if op &&& 0x07 = 0x03 ∧ (size = 0x00 ∨ size = 0x18) then
      atomicImms.map fun n =>
        ⟨op, .dst, .src, .memOffset, .value n, if size = 0x18 then .atomic64 else .atomic32⟩
    else []
  | _ => []

/-- The templates of the wide loads. -/
def lddwTemplates : List EbpfInstructionTemplate :=
  [⟨0x18, .dst, 0, 0, .imm, .base64⟩, ⟨0x18, .dst, 1, 0, .imm, .base64⟩,
    ⟨0x18, .dst, 2, 0, .imm, .base64⟩]

/-- The templates of the jump classes. -/
def jmpTemplates (op : BitVec 8) : List EbpfInstructionTemplate :=
  let is64 : Bool := op &&& 0x07 = 0x05
  let reg : Bool := op &&& 0x08 ≠ 0
  match op >>> 4 with
  | 0x0 =>
    if reg then []
    else if is64 then [⟨op, 0, 0, .jmpOffset, 0, .base32⟩]
    else [⟨op, 0, 0, 0, .jmpOffset, .base32⟩]
  | 0x8 =>
    if !is64 then []
    else if reg then [⟨op, .dst, 0, 0, 0, .callx⟩, ⟨op, 0, 0, 0, .register, .callx⟩]
    else [⟨op, 0, 0, 0, .helperId, .base32⟩, ⟨op, 0, 1, 0, .jmpOffset, .base32⟩]
  | 0x9 => if !is64 ∨ reg then [] else [⟨op, 0, 0, 0, 0, .base32⟩]
  | 0xe | 0xf => []
  | _ =>
    if reg then [⟨op, .dst, .src, .jmpOffset, 0, base is64⟩]
    else [⟨op, .dst, 0, .jmpOffset, .imm, base is64⟩]

/-- The templates of an opcode, by its class. -/
def templates (op : BitVec 8) : List EbpfInstructionTemplate :=
  match op &&& 0x07 with
  | 0x00 => if op = 0x18 then lddwTemplates else memTemplates op
  | 0x01 | 0x02 | 0x03 => memTemplates op
  | 0x04 | 0x07 => aluTemplates op
  | _ => jmpTemplates op

theorem mem_templates : ∀ t ∈ acceptedTemplate, t ∈ templates t.opcode := by
  decide +kernel

theorem mem_of_mem_templates : ∀ op : BitVec 8, ∀ t ∈ templates op, t ∈ acceptedTemplate := by
  decide +kernel

/-! ## Fields -/

theorem EbpfInstructionTemplate.fits_iff {op : BitVec 8} {d s : RegField} {o : OffsetField}
    {i : ImmField} {group : ConformanceGroup} {u : RawUnit} :
    EbpfInstructionTemplate.Fits P insts ⟨op, d, s, o, i, group⟩ u ↔
      u.inst.opcode = op ∧ d.Fits u.inst.dst ∧ s.Fits u.inst.src ∧
        o.Fits insts u.pc u.inst.offset ∧ i.Fits P insts u.pc u.inst.imm ∧
        (u.inst.opcode = 0x18 → u.NextFits) ∧ P.supportsGroup group := by
  constructor
  · rintro ⟨hop, hdst, hsrc, hoffset, himm, hnext, hgroup⟩
    exact ⟨hop, hdst, hsrc, hoffset, himm, hnext, hgroup⟩
  · rintro ⟨hop, hdst, hsrc, hoffset, himm, hnext, hgroup⟩
    exact ⟨hop, hdst, hsrc, hoffset, himm, hnext, hgroup⟩

@[simp] theorem RegField.fits_ofNat {r : BitVec 4} {n : ℕ} :
    RegField.Fits r (no_index (OfNat.ofNat n)) ↔ r = BitVec.ofNat 4 n := Iff.rfl

@[simp] theorem RegField.fits_dst {r : BitVec 4} : RegField.Fits r .dst ↔ r ≤ 10 := Iff.rfl

@[simp] theorem RegField.fits_src {r : BitVec 4} : RegField.Fits r .src ↔ r ≤ 10 := Iff.rfl

section Offset

variable {pc : ℕ} {offset : BitVec 16}

@[simp] theorem OffsetField.fits_ofNat {n : ℕ} :
    OffsetField.Fits insts pc offset (no_index (OfNat.ofNat n)) ↔ offset = BitVec.ofNat 16 n :=
  Iff.rfl

@[simp] theorem OffsetField.fits_memOffset : OffsetField.Fits insts pc offset .memOffset ↔ True :=
  Iff.rfl

@[simp] theorem OffsetField.fits_jmpOffset :
    OffsetField.Fits insts pc offset .jmpOffset ↔ JumpFits insts pc offset.toInt := Iff.rfl

end Offset

section Imm

variable {pc : ℕ} {imm : BitVec 32}

@[simp] theorem ImmField.fits_ofNat {n : ℕ} :
    ImmField.Fits P insts pc imm (no_index (OfNat.ofNat n)) ↔ imm = BitVec.ofNat 32 n := Iff.rfl

@[simp] theorem ImmField.fits_value {n : BitVec 32} :
    ImmField.Fits P insts pc imm (.value n) ↔ imm = n := Iff.rfl

@[simp] theorem ImmField.fits_imm : ImmField.Fits P insts pc imm .imm ↔ True := Iff.rfl

@[simp] theorem ImmField.fits_jmpOffset :
    ImmField.Fits P insts pc imm .jmpOffset ↔ JumpFits insts pc imm.toInt := Iff.rfl

@[simp] theorem ImmField.fits_helperId : ImmField.Fits P insts pc imm .helperId ↔ HelperFits P imm :=
  Iff.rfl

@[simp] theorem ImmField.fits_register : ImmField.Fits P insts pc imm .register ↔ imm ≤ 10 := Iff.rfl

end Imm

/-! ## Arithmetic -/

section Alu

variable {pc : ℕ} {inst : EbpfInst} {u : RawUnit}

theorem succeeds_getBinValue : (getBinValue pc inst).Succeeds ↔
    (if inst.srcReg then inst.imm = 0 else inst.src = 0) := by
  unfold getBinValue
  split_ifs <;> simp_all

/-- A word of the arithmetic classes: the registers are some, and the operand fits the operation. -/
theorem succeeds_makeAluOp : (makeAluOp P pc inst).Succeeds ↔
    P.supportsGroup (base (inst.cls = 0x07)) ∧ inst.dst ≠ 10 ∧ inst.dst ≤ 10 ∧ inst.src ≤ 10 ∧
      ((∃ op, getAluOp P pc inst = .ok (.inl op)) ∧ (getBinValue pc inst).Succeeds ∨
        ∃ op, getAluOp P pc inst = .ok (.inr op)) := by
  unfold makeAluOp
  simp only [Except.succeeds_guard, Bool.not_eq_true', Bool.not_eq_false, not_or, BitVec.not_lt,
    and_assoc]
  rw [Except.succeeds_bind]
  refine and_congr_right fun _ => and_congr_right fun _ => and_congr_right fun _ =>
    and_congr_right fun _ => ?_
  constructor
  · rintro ⟨op | op, hop, h⟩
    · exact Or.inl ⟨⟨op, hop⟩, Except.succeeds_bind_pure.mp h⟩
    · exact Or.inr ⟨op, hop⟩
  · rintro (⟨⟨op, hop⟩, h⟩ | ⟨op, hop⟩)
    · exact ⟨.inl op, hop, Except.succeeds_bind_pure.mpr h⟩
    · exact ⟨.inr op, hop, Except.succeeds_pure⟩

/-- The operations of the last branch of `aluTemplates` are binary, and have no offset. -/
theorem getAluOp_binary (h : inst.opcode &&& 0xf0 ≠ 0x30 ∧ inst.opcode &&& 0xf0 ≠ 0x80 ∧
    inst.opcode &&& 0xf0 ≠ 0x90 ∧ inst.opcode &&& 0xf0 ≠ 0xb0 ∧ inst.opcode &&& 0xf0 ≠ 0xd0 ∧
    inst.opcode &&& 0xf0 ≠ 0xe0 ∧ inst.opcode &&& 0xf0 ≠ 0xf0 ∧ inst.opcode &&& 0xf0 ≠ 0x20) :
    ((∃ op, getAluOp P pc inst = .ok (.inl op)) ↔ inst.offset = 0) ∧
      ¬ ∃ op, getAluOp P pc inst = .ok (.inr op) := by
  obtain ⟨h30, h80, h90, hb0, hd0, he0, hf0, h20⟩ := h
  have hplain : getAluOp P pc inst = getPlainAluOp P pc inst := by
    unfold getAluOp
    split <;> first | contradiction | rfl
  rw [hplain]
  unfold getPlainAluOp
  dsimp only
  by_cases hoffset : inst.offset = 0
  · rw [if_neg (not_not.mpr hoffset)]
    split <;> first | contradiction | simpa using hoffset
  · rw [if_pos hoffset]
    simpa using hoffset

theorem getAluOp_mul (h : inst.opcode &&& 0xf0 = 0x20) :
    ((∃ op, getAluOp P pc inst = .ok (.inl op)) ↔
      P.supportsGroup (divmul (inst.cls = 0x07)) ∧ inst.offset = 0) ∧
      ¬ ∃ op, getAluOp P pc inst = .ok (.inr op) := by
  have h' : inst.opcode &&& 240#8 = 32#8 := h
  by_cases hoffset : inst.offset = 0#16 <;>
    by_cases hg : P.supportsGroup (divmul (decide (inst.cls = 7#8))) <;>
    simp [getAluOp, getPlainAluOp, h', hoffset, hg]

theorem getDivOp_binary {unsigned signed : BinOp} :
    ((∃ op, getDivOp P pc inst unsigned signed = .ok (.inl op)) ↔
      P.supportsGroup (divmul (inst.cls = 0x07)) ∧ (inst.offset = 0 ∨ inst.offset = 1)) ∧
      ¬ ∃ op, getDivOp P pc inst unsigned signed = .ok (.inr op) := by
  unfold getDivOp
  split_ifs <;> simp_all

theorem getAluOp_div (h : inst.opcode &&& 0xf0 = 0x30 ∨ inst.opcode &&& 0xf0 = 0x90) :
    ((∃ op, getAluOp P pc inst = .ok (.inl op)) ↔
      P.supportsGroup (divmul (inst.cls = 0x07)) ∧ (inst.offset = 0 ∨ inst.offset = 1)) ∧
      ¬ ∃ op, getAluOp P pc inst = .ok (.inr op) := by
  unfold getAluOp
  rcases h with h | h
  · rw [h]
    exact getDivOp_binary
  · rw [h]
    exact getDivOp_binary

theorem getAluOp_neg (h : inst.opcode &&& 0xf0 = 0x80) :
    (¬ ∃ op, getAluOp P pc inst = .ok (.inl op)) ∧
      ((∃ op, getAluOp P pc inst = .ok (.inr op)) ↔
        inst.offset = 0 ∧ inst.srcReg = false ∧ inst.src = 0 ∧ inst.imm = 0) := by
  have h' : inst.opcode &&& 240#8 = 128#8 := h
  by_cases hoffset : inst.offset = 0#16 <;> cases hreg : inst.srcReg <;>
    by_cases hsrc : inst.src = 0#4 <;> by_cases himm : inst.imm = 0#32 <;>
    simp [getAluOp, getPlainAluOp, h', hoffset, hreg, hsrc, himm]

theorem getAluOp_mov (h : inst.opcode &&& 0xf0 = 0xb0) :
    ((∃ op, getAluOp P pc inst = .ok (.inl op)) ↔ inst.offset = 0 ∨
      inst.srcReg ∧ (inst.offset = 8 ∨ inst.offset = 16 ∨ inst.offset = 32)) ∧
      ¬ ∃ op, getAluOp P pc inst = .ok (.inr op) := by
  have h' : inst.opcode &&& 240#8 = 176#8 := h
  have hpositive : ∀ n : BitVec 16, inst.offset = n → 0 < n.toInt → 0 < inst.offset.toInt := by
    rintro n rfl hn
    exact hn
  have h8' := fun h => hpositive 8#16 h (by decide)
  have h16' := fun h => hpositive 16#16 h (by decide)
  have h32' := fun h => hpositive 32#16 h (by decide)
  have h0' : inst.offset = 0#16 → ¬ 0 < inst.offset.toInt := fun h => by rw [h]; decide
  simp only [getAluOp, BitVec.ofNat_eq_ofNat, h']
  split_ifs with hpos h0 h8 h16 h32
  · have h0 := fun h => h0' h hpos.1
    simp_all
  · simp_all
  · have hreg : inst.srcReg = true := by simpa [h8' h8] using hpos
    simp [h8, hreg]
  · have hreg : inst.srcReg = true := by simpa [h16' h16] using hpos
    simp [h16, hreg]
  · have hreg : inst.srcReg = true := by simpa [h32' h32] using hpos
    simp [h32, hreg]
  · simp_all

theorem endian_unary {op16 op32 op64 : UnOp} :
    (¬ ∃ op, endian P pc inst op16 op32 op64 = .ok (.inl op)) ∧
      ((∃ op, endian P pc inst op16 op32 op64 = .ok (.inr op)) ↔
        inst.imm = 16 ∧ P.supportsGroup .base32 ∨ inst.imm = 32 ∧ P.supportsGroup .base32 ∨
          inst.imm = 64 ∧ P.supportsGroup .base64) := by
  unfold endian
  split_ifs <;> simp_all

theorem getAluOp_end (h : inst.opcode &&& 0xf0 = 0xd0) :
    (¬ ∃ op, getAluOp P pc inst = .ok (.inl op)) ∧
      ((∃ op, getAluOp P pc inst = .ok (.inr op)) ↔
        inst.offset = 0 ∧ inst.src = 0 ∧ ¬ (inst.cls = 0x07 ∧ inst.srcReg) ∧
          (inst.imm = 16 ∧ P.supportsGroup .base32 ∨ inst.imm = 32 ∧ P.supportsGroup .base32 ∨
            inst.imm = 64 ∧ P.supportsGroup .base64)) := by
  have h' : inst.opcode &&& 240#8 = 208#8 := h
  by_cases hoffset : inst.offset = 0#16 <;> by_cases hsrc : inst.src = 0#4 <;>
    by_cases hcls : inst.cls = 7#8 <;> cases hreg : inst.srcReg <;>
    simp [getAluOp, getPlainAluOp, h', hoffset, hsrc, hcls, hreg, endian_unary]

theorem getAluOp_reserved (h : inst.opcode &&& 0xf0 = 0xe0 ∨ inst.opcode &&& 0xf0 = 0xf0) :
    (¬ ∃ op, getAluOp P pc inst = .ok (.inl op)) ∧ ¬ ∃ op, getAluOp P pc inst = .ok (.inr op) := by
  unfold getAluOp getPlainAluOp
  rcases h with h | h
  · rw [h]
    dsimp only
    split_ifs <;> simp
  · rw [h]
    dsimp only
    split_ifs <;> simp

/-- The templates of a byte swap differ in the immediate. -/
theorem exists_swap_fits (hwide : u.inst.opcode ≠ 0x18) :
    (∃ t ∈ [(⟨u.inst.opcode, .dst, 0, 0, 0x10, .base32⟩ : EbpfInstructionTemplate),
      ⟨u.inst.opcode, .dst, 0, 0, 0x20, .base32⟩, ⟨u.inst.opcode, .dst, 0, 0, 0x40, .base64⟩],
      t.Fits P insts u) ↔ u.inst.dst ≤ 10 ∧ u.inst.src = 0 ∧ u.inst.offset = 0 ∧
        (u.inst.imm = 16 ∧ P.supportsGroup .base32 ∨ u.inst.imm = 32 ∧ P.supportsGroup .base32 ∨
          u.inst.imm = 64 ∧ P.supportsGroup .base64) := by
  have hwide' : u.inst.opcode ≠ 24#8 := hwide
  simp [EbpfInstructionTemplate.fits_iff, hwide']
  tauto

/-- The words of the arithmetic classes that are accepted. -/
theorem makeAluOp_succeeds (insts : List EbpfInst)
    (hcls : u.inst.cls = 0x04 ∨ u.inst.cls = 0x07) :
    (makeAluOp P u.pc u.inst).Succeeds ↔ P.supportsGroup (base (u.inst.cls = 0x07)) ∧
      u.inst.dst ≠ 10 ∧ ∃ t ∈ aluTemplates u.inst.opcode, t.Fits P insts u := by
  have hwide : u.inst.opcode ≠ 0x18 := by
    intro hop
    unfold EbpfInst.cls at hcls
    rw [hop] at hcls
    exact absurd hcls (by decide)
  rw [succeeds_makeAluOp, succeeds_getBinValue]
  refine and_congr_right fun hbase => and_congr_right fun _ => ?_
  have hreg : decide (u.inst.opcode &&& 0x08 ≠ 0) = u.inst.srcReg := rfl
  have h64 : decide (u.inst.opcode &&& 0x07 = 0x07) = decide (u.inst.cls = 0x07) := rfl
  unfold aluTemplates
  rw [hreg, h64]
  dsimp only
  have hzero : u.inst.src = 0#4 → u.inst.src ≤ 10#4 := fun h => by rw [h]; decide
  have hwide' : u.inst.opcode ≠ 24#8 := hwide
  cases hsrc : u.inst.srcReg
  · simp only [Bool.false_eq_true, if_false]
    split
    case h_1 h =>
      simp [getAluOp_mul h, EbpfInstructionTemplate.fits_iff]
      grind
    case h_2 h =>
      simp [getAluOp_div (Or.inl h), EbpfInstructionTemplate.fits_iff]
      grind
    case h_3 h =>
      simp [getAluOp_div (Or.inr h), EbpfInstructionTemplate.fits_iff]
      grind
    case h_4 h =>
      simp [getAluOp_neg h, EbpfInstructionTemplate.fits_iff, hsrc]
      grind
    case h_5 h =>
      simp [getAluOp_mov h, EbpfInstructionTemplate.fits_iff, hsrc]
      clear h
      grind
    case h_6 h =>
      simp only [getAluOp_end h, hsrc, Bool.false_eq_true, and_false, if_false,
        exists_swap_fits hwide]
      tauto
    case h_7 h =>
      simp [getAluOp_reserved (Or.inl h)]
    case h_8 h =>
      simp [getAluOp_reserved (Or.inr h)]
    case h_9 h20 h30 h90 h80 hb0 hd0 he0 hf0 => 
      simp [getAluOp_binary ⟨h30, h80, h90, hb0, hd0, he0, hf0, h20⟩,
        EbpfInstructionTemplate.fits_iff]
      clear h20 h30 h90 h80 hb0 hd0 he0 hf0
      grind
  · simp only [if_true]
    split
    case h_1 h =>
      simp [getAluOp_mul h, EbpfInstructionTemplate.fits_iff]
      grind
    case h_2 h =>
      simp [getAluOp_div (Or.inl h), EbpfInstructionTemplate.fits_iff]
      grind
    case h_3 h =>
      simp [getAluOp_div (Or.inr h), EbpfInstructionTemplate.fits_iff]
      grind
    case h_4 h =>
      simp [getAluOp_neg h, hsrc]
    case h_5 h =>
      simp [getAluOp_mov h, EbpfInstructionTemplate.fits_iff, hsrc]
      clear h
      grind
    case h_6 h =>
      by_cases h7 : u.inst.cls = 0x07
      · simp [getAluOp_end h, hsrc, h7]
      · simp only [getAluOp_end h, hsrc, h7, decide_false, Bool.false_eq_true, false_and, if_false,
          exists_swap_fits hwide]
        tauto
    case h_7 h =>
      simp [getAluOp_reserved (Or.inl h)]
    case h_8 h =>
      simp [getAluOp_reserved (Or.inr h)]
    case h_9 h20 h30 h90 h80 hb0 hd0 he0 hf0 => 
      simp [getAluOp_binary ⟨h30, h80, h90, hb0, hd0, he0, hf0, h20⟩,
        EbpfInstructionTemplate.fits_iff]
      clear h20 h30 h90 h80 hb0 hd0 he0 hf0
      grind

end Alu

end Prevail
