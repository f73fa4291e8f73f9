import Prevail.Isa.FramePointer

/-!
# Templates of instructions

`instructionTemplate` is the table of the instruction set, with the wildcards of its fields. A unit of
a raw program is a word, with the word after it if the load is wide; it is a legal instruction when
one of the templates fits it (`Matches`).
-/

namespace Prevail

open Unmarshaller

/-! ## The table -/

/-- The field of a register: a number, or the wildcards `DST` and `SRC`. -/
inductive RegField where
  | value (n : BitVec 4)
  | dst
  | src
  deriving DecidableEq

/-- The field of the offset: a number, or the wildcards `MEM_OFFSET` and `JMP_OFFSET`. -/
inductive OffsetField where
  | value (n : BitVec 16)
  | memOffset
  | jmpOffset
  deriving DecidableEq

/-- The field of the immediate: a number, or the wildcards `IMM`, `JMP_OFFSET` and `HELPER_ID`. The
old form of an indirect call has a register there. -/
inductive ImmField where
  | value (n : BitVec 32)
  | imm
  | jmpOffset
  | helperId
  | register
  deriving DecidableEq

instance (n : ℕ) : OfNat RegField n := ⟨.value (.ofNat 4 n)⟩

instance (n : ℕ) : OfNat OffsetField n := ⟨.value (.ofNat 16 n)⟩

instance (n : ℕ) : OfNat ImmField n := ⟨.value (.ofNat 32 n)⟩

/-- `EbpfInstructionTemplate`. -/
structure EbpfInstructionTemplate where
  opcode : BitVec 8
  dst : RegField
  src : RegField
  offset : OffsetField
  imm : ImmField
  groups : ConformanceGroup
  deriving DecidableEq

/-- `instruction_template`. -/
def instructionTemplate : List EbpfInstructionTemplate := [
  ⟨0x04, .dst, 0, 0, .imm, .base32⟩,
  ⟨0x05, 0, 0, .jmpOffset, 0, .base32⟩,
  ⟨0x06, 0, 0, 0, .jmpOffset, .base32⟩,
  ⟨0x07, .dst, 0, 0, .imm, .base64⟩,
  ⟨0x0c, .dst, .src, 0, 0, .base32⟩,
  ⟨0x0f, .dst, .src, 0, 0, .base64⟩,
  ⟨0x14, .dst, 0, 0, .imm, .base32⟩,
  ⟨0x15, .dst, 0, .jmpOffset, .imm, .base64⟩,
  ⟨0x16, .dst, 0, .jmpOffset, .imm, .base32⟩,
  ⟨0x17, .dst, 0, 0, .imm, .base64⟩,
  ⟨0x18, .dst, 0, 0, .imm, .base64⟩,
  ⟨0x18, .dst, 1, 0, .imm, .base64⟩,
  ⟨0x18, .dst, 2, 0, .imm, .base64⟩,
  ⟨0x1c, .dst, .src, 0, 0, .base32⟩,
  ⟨0x1d, .dst, .src, .jmpOffset, 0, .base64⟩,
  ⟨0x1e, .dst, .src, .jmpOffset, 0, .base32⟩,
  ⟨0x1f, .dst, .src, 0, 0, .base64⟩,
  ⟨0x20, 0, 0, 0, .imm, .packet⟩,
  ⟨0x24, .dst, 0, 0, .imm, .divmul32⟩,
  ⟨0x25, .dst, 0, .jmpOffset, .imm, .base64⟩,
  ⟨0x26, .dst, 0, .jmpOffset, .imm, .base32⟩,
  ⟨0x27, .dst, 0, 0, .imm, .divmul64⟩,
  ⟨0x28, 0, 0, 0, .imm, .packet⟩,
  ⟨0x2c, .dst, .src, 0, 0, .divmul32⟩,
  ⟨0x2d, .dst, .src, .jmpOffset, 0, .base64⟩,
  ⟨0x2e, .dst, .src, .jmpOffset, 0, .base32⟩,
  ⟨0x2f, .dst, .src, 0, 0, .divmul64⟩,
  ⟨0x30, 0, 0, 0, .imm, .packet⟩,
  ⟨0x34, .dst, 0, 0, .imm, .divmul32⟩,
  ⟨0x34, .dst, 0, 1, .imm, .divmul32⟩,
  ⟨0x35, .dst, 0, .jmpOffset, .imm, .base64⟩,
  ⟨0x36, .dst, 0, .jmpOffset, .imm, .base32⟩,
  ⟨0x37, .dst, 0, 0, .imm, .divmul64⟩,
  ⟨0x37, .dst, 0, 1, .imm, .divmul64⟩,
  ⟨0x3c, .dst, .src, 0, 0, .divmul32⟩,
  ⟨0x3c, .dst, .src, 1, 0, .divmul32⟩,
  ⟨0x3d, .dst, .src, .jmpOffset, 0, .base64⟩,
  ⟨0x3e, .dst, .src, .jmpOffset, 0, .base32⟩,
  ⟨0x3f, .dst, .src, 0, 0, .divmul64⟩,
  ⟨0x3f, .dst, .src, 1, 0, .divmul64⟩,
  ⟨0x40, 0, .src, 0, .imm, .packet⟩,
  ⟨0x44, .dst, 0, 0, .imm, .base32⟩,
  ⟨0x45, .dst, 0, .jmpOffset, .imm, .base64⟩,
  ⟨0x46, .dst, 0, .jmpOffset, .imm, .base32⟩,
  ⟨0x47, .dst, 0, 0, .imm, .base64⟩,
  ⟨0x48, 0, .src, 0, .imm, .packet⟩,
  ⟨0x4c, .dst, .src, 0, 0, .base32⟩,
  ⟨0x4d, .dst, .src, .jmpOffset, 0, .base64⟩,
  ⟨0x4e, .dst, .src, .jmpOffset, 0, .base32⟩,
  ⟨0x4f, .dst, .src, 0, 0, .base64⟩,
  ⟨0x50, 0, .src, 0, .imm, .packet⟩,
  ⟨0x54, .dst, 0, 0, .imm, .base32⟩,
  ⟨0x55, .dst, 0, .jmpOffset, .imm, .base64⟩,
  ⟨0x56, .dst, 0, .jmpOffset, .imm, .base32⟩,
  ⟨0x57, .dst, 0, 0, .imm, .base64⟩,
  ⟨0x5c, .dst, .src, 0, 0, .base32⟩,
  ⟨0x5d, .dst, .src, .jmpOffset, 0, .base64⟩,
  ⟨0x5e, .dst, .src, .jmpOffset, 0, .base32⟩,
  ⟨0x5f, .dst, .src, 0, 0, .base64⟩,
  ⟨0x61, .dst, .src, .memOffset, 0, .base32⟩,
  ⟨0x62, .dst, 0, .memOffset, .imm, .base32⟩,
  ⟨0x63, .dst, .src, .memOffset, 0, .base32⟩,
  ⟨0x64, .dst, 0, 0, .imm, .base32⟩,
  ⟨0x65, .dst, 0, .jmpOffset, .imm, .base64⟩,
  ⟨0x66, .dst, 0, .jmpOffset, .imm, .base32⟩,
  ⟨0x67, .dst, 0, 0, .imm, .base64⟩,
  ⟨0x69, .dst, .src, .memOffset, 0, .base32⟩,
  ⟨0x6a, .dst, 0, .memOffset, .imm, .base32⟩,
  ⟨0x6b, .dst, .src, .memOffset, 0, .base32⟩,
  ⟨0x6c, .dst, .src, 0, 0, .base32⟩,
  ⟨0x6d, .dst, .src, .jmpOffset, 0, .base64⟩,
  ⟨0x6e, .dst, .src, .jmpOffset, 0, .base32⟩,
  ⟨0x6f, .dst, .src, 0, 0, .base64⟩,
  ⟨0x71, .dst, .src, .memOffset, 0, .base32⟩,
  ⟨0x72, .dst, 0, .memOffset, .imm, .base32⟩,
  ⟨0x73, .dst, .src, .memOffset, 0, .base32⟩,
  ⟨0x74, .dst, 0, 0, .imm, .base32⟩,
  ⟨0x75, .dst, 0, .jmpOffset, .imm, .base64⟩,
  ⟨0x76, .dst, 0, .jmpOffset, .imm, .base32⟩,
  ⟨0x77, .dst, 0, 0, .imm, .base64⟩,
  ⟨0x79, .dst, .src, .memOffset, 0, .base64⟩,
  ⟨0x7a, .dst, 0, .memOffset, .imm, .base64⟩,
  ⟨0x7b, .dst, .src, .memOffset, 0, .base64⟩,
  ⟨0x7c, .dst, .src, 0, 0, .base32⟩,
  ⟨0x7d, .dst, .src, .jmpOffset, 0, .base64⟩,
  ⟨0x7e, .dst, .src, .jmpOffset, 0, .base32⟩,
  ⟨0x7f, .dst, .src, 0, 0, .base64⟩,
  ⟨0x84, .dst, 0, 0, 0, .base32⟩,
  ⟨0x85, 0, 0, 0, .helperId, .base32⟩,
  ⟨0x85, 0, 1, 0, .jmpOffset, .base32⟩,
  ⟨0x87, .dst, 0, 0, 0, .base64⟩,
  ⟨0x8d, .dst, 0, 0, 0, .callx⟩,
  ⟨0x94, .dst, 0, 0, .imm, .divmul32⟩,
  ⟨0x94, .dst, 0, 1, .imm, .divmul32⟩,
  ⟨0x95, 0, 0, 0, 0, .base32⟩,
  ⟨0x97, .dst, 0, 0, .imm, .divmul64⟩,
  ⟨0x97, .dst, 0, 1, .imm, .divmul64⟩,
  ⟨0x9c, .dst, .src, 0, 0, .divmul32⟩,
  ⟨0x9c, .dst, .src, 1, 0, .divmul32⟩,
  ⟨0x9f, .dst, .src, 0, 0, .divmul64⟩,
  ⟨0x9f, .dst, .src, 1, 0, .divmul64⟩,
  ⟨0xa4, .dst, 0, 0, .imm, .base32⟩,
  ⟨0xa5, .dst, 0, .jmpOffset, .imm, .base64⟩,
  ⟨0xa6, .dst, 0, .jmpOffset, .imm, .base32⟩,
  ⟨0xa7, .dst, 0, 0, .imm, .base64⟩,
  ⟨0xac, .dst, .src, 0, 0, .base32⟩,
  ⟨0xad, .dst, .src, .jmpOffset, 0, .base64⟩,
  ⟨0xae, .dst, .src, .jmpOffset, 0, .base32⟩,
  ⟨0xaf, .dst, .src, 0, 0, .base64⟩,
  ⟨0xb4, .dst, 0, 0, .imm, .base32⟩,
  ⟨0xb5, .dst, 0, .jmpOffset, .imm, .base64⟩,
  ⟨0xb6, .dst, 0, .jmpOffset, .imm, .base32⟩,
  ⟨0xb7, .dst, 0, 0, .imm, .base64⟩,
  ⟨0xbc, .dst, .src, 0, 0, .base32⟩,
  ⟨0xbc, .dst, .src, 8, 0, .base32⟩,
  ⟨0xbc, .dst, .src, 16, 0, .base32⟩,
  ⟨0xbd, .dst, .src, .jmpOffset, 0, .base64⟩,
  ⟨0xbe, .dst, .src, .jmpOffset, 0, .base32⟩,
  ⟨0xbf, .dst, .src, 0, 0, .base64⟩,
  ⟨0xbf, .dst, .src, 8, 0, .base64⟩,
  ⟨0xbf, .dst, .src, 16, 0, .base64⟩,
  ⟨0xbf, .dst, .src, 32, 0, .base64⟩,
  ⟨0xc3, .dst, .src, .memOffset, 0x00, .atomic32⟩,
  ⟨0xc3, .dst, .src, .memOffset, 0x01, .atomic32⟩,
  ⟨0xc3, .dst, .src, .memOffset, 0x40, .atomic32⟩,
  ⟨0xc3, .dst, .src, .memOffset, 0x41, .atomic32⟩,
  ⟨0xc3, .dst, .src, .memOffset, 0x50, .atomic32⟩,
  ⟨0xc3, .dst, .src, .memOffset, 0x51, .atomic32⟩,
  ⟨0xc3, .dst, .src, .memOffset, 0xa0, .atomic32⟩,
  ⟨0xc3, .dst, .src, .memOffset, 0xa1, .atomic32⟩,
  ⟨0xc3, .dst, .src, .memOffset, 0xe1, .atomic32⟩,
  ⟨0xc3, .dst, .src, .memOffset, 0xf1, .atomic32⟩,
  ⟨0xc4, .dst, 0, 0, .imm, .base32⟩,
  ⟨0xc5, .dst, 0, .jmpOffset, .imm, .base64⟩,
  ⟨0xc6, .dst, 0, .jmpOffset, .imm, .base32⟩,
  ⟨0xc7, .dst, 0, 0, .imm, .base64⟩,
  ⟨0xcc, .dst, .src, 0, 0, .base32⟩,
  ⟨0xcd, .dst, .src, .jmpOffset, 0, .base64⟩,
  ⟨0xce, .dst, .src, .jmpOffset, 0, .base32⟩,
  ⟨0xcf, .dst, .src, 0, 0, .base64⟩,
  ⟨0xd4, .dst, 0, 0, 0x10, .base32⟩,
  ⟨0xd4, .dst, 0, 0, 0x20, .base32⟩,
  ⟨0xd4, .dst, 0, 0, 0x40, .base64⟩,
  ⟨0xd5, .dst, 0, .jmpOffset, .imm, .base64⟩,
  ⟨0xd6, .dst, 0, .jmpOffset, .imm, .base32⟩,
  ⟨0xd7, .dst, 0, 0, 0x10, .base32⟩,
  ⟨0xd7, .dst, 0, 0, 0x20, .base32⟩,
  ⟨0xd7, .dst, 0, 0, 0x40, .base64⟩,
  ⟨0xdb, .dst, .src, .memOffset, 0x00, .atomic64⟩,
  ⟨0xdb, .dst, .src, .memOffset, 0x01, .atomic64⟩,
  ⟨0xdb, .dst, .src, .memOffset, 0x40, .atomic64⟩,
  ⟨0xdb, .dst, .src, .memOffset, 0x41, .atomic64⟩,
  ⟨0xdb, .dst, .src, .memOffset, 0x50, .atomic64⟩,
  ⟨0xdb, .dst, .src, .memOffset, 0x51, .atomic64⟩,
  ⟨0xdb, .dst, .src, .memOffset, 0xa0, .atomic64⟩,
  ⟨0xdb, .dst, .src, .memOffset, 0xa1, .atomic64⟩,
  ⟨0xdb, .dst, .src, .memOffset, 0xe1, .atomic64⟩,
  ⟨0xdb, .dst, .src, .memOffset, 0xf1, .atomic64⟩,
  ⟨0xdc, .dst, 0, 0, 0x10, .base32⟩,
  ⟨0xdc, .dst, 0, 0, 0x20, .base32⟩,
  ⟨0xdc, .dst, 0, 0, 0x40, .base64⟩,
  ⟨0xdd, .dst, .src, .jmpOffset, 0, .base64⟩,
  ⟨0xde, .dst, .src, .jmpOffset, 0, .base32⟩]

/-- The indirect call of old compilers, with the number of the register in the immediate. -/
def legacyTemplate : List EbpfInstructionTemplate := [⟨0x8d, 0, 0, 0, .register, .callx⟩]

/-! ## Units of a raw program -/

/-- The word at a counter, with the next word if the load is wide. -/
structure RawUnit where
  pc : ℕ
  inst : EbpfInst
  next? : Option EbpfInst
  deriving DecidableEq

/-- The units of the words from `pc` on. -/
def units : ℕ → List EbpfInst → List RawUnit
  | _, [] => []
  | pc, [inst] => [⟨pc, inst, none⟩]
  | pc, inst :: next :: rest =>
    if inst.opcode = 0x18 then ⟨pc, inst, some next⟩ :: units (pc + 2) rest
    else ⟨pc, inst, none⟩ :: units (pc + 1) (next :: rest)

/-! ## Templates that fit -/

variable (P : Platform) (insts : List EbpfInst)

/-- A jump from `pc` that ends at an instruction of the program, and not in the middle of a wide
load. -/
def JumpFits (pc : ℕ) (offset : ℤ) : Prop :=
  ∃ (n : ℕ) (inst : EbpfInst), (n : ℤ) = pc + 1 + offset ∧ insts[n]? = some inst ∧ inst.opcode ≠ 0

/-- The pointers that come with a size. -/
def ArgumentType.IsMemory (arg : ArgumentType) : Prop :=
  arg = .ptrToReadableMem ∨ arg = .ptrToReadableMemOrNull ∨ arg = .ptrToWritableMem ∨
    arg = .ptrToWritableMemOrNull

/-- The sizes of memory. -/
def ArgumentType.IsSize (arg : ArgumentType) : Prop := arg = .constSize ∨ arg = .constSizeOrZero

/-- The types of arguments that a call can be made of: up to the first that does not matter, a pointer
to memory is followed by its size, and there is no other size. -/
def ArgumentsFit : List ArgumentType → Prop
  | [] => True
  | [arg] => arg ≠ .unsupported ∧ ¬ arg.IsMemory ∧ ¬ arg.IsSize
  | arg :: next :: rest =>
    arg = .dontcare ∨ arg.IsMemory ∧ next.IsSize ∧ ArgumentsFit rest ∨
      arg ≠ .unsupported ∧ ¬ arg.IsMemory ∧ ¬ arg.IsSize ∧ ArgumentsFit (next :: rest)

/-- A helper that the platform supports. -/
def HelperFits (imm : BitVec 32) : Prop :=
  P.isHelperUsable imm ∧ (P.getHelperPrototype imm).returnType ≠ .unsupported ∧
    let (a₁, a₂, a₃, a₄, a₅) := (P.getHelperPrototype imm).argumentType
    ArgumentsFit [a₁, a₂, a₃, a₄, a₅]

/-- A register of the instruction set. -/
def RegField.Fits (r : BitVec 4) : RegField → Prop
  | .value n => r = n
  | .dst | .src => r ≤ 10

def OffsetField.Fits (pc : ℕ) (offset : BitVec 16) : OffsetField → Prop
  | .value n => offset = n
  | .memOffset => True
  | .jmpOffset => JumpFits insts pc offset.toInt

def ImmField.Fits (pc : ℕ) (imm : BitVec 32) : ImmField → Prop
  | .value n => imm = n
  | .imm => True
  | .jmpOffset => JumpFits insts pc imm.toInt
  | .helperId => HelperFits P imm
  | .register => imm ≤ 10

/-- The second word of a wide load: all fields but the immediate are zero, and the immediate too if
the load is of a map descriptor. -/
def RawUnit.NextFits (u : RawUnit) : Prop :=
  ∃ next, u.next? = some next ∧ next.opcode = 0 ∧ next.dst = 0 ∧ next.src = 0 ∧ next.offset = 0 ∧
    (u.inst.src = 1 → next.imm = 0)

/-- A template, and the platform supports its group. -/
structure EbpfInstructionTemplate.Fits (t : EbpfInstructionTemplate) (u : RawUnit) : Prop where
  opcode : u.inst.opcode = t.opcode
  dst : t.dst.Fits u.inst.dst
  src : t.src.Fits u.inst.src
  offset : t.offset.Fits insts u.pc u.inst.offset
  imm : t.imm.Fits P insts u.pc u.inst.imm
  next : u.inst.opcode = 0x18 → u.NextFits
  groups : P.supportsGroup t.groups

/-- The frame pointer is the target: of an arithmetic operation or a load, or of an atomic operation
that fetches. -/
def EbpfInst.TargetsR10 (inst : EbpfInst) : Prop :=
  (inst.cls = 0x00 ∨ inst.cls = 0x01 ∨ inst.cls = 0x04 ∨ inst.cls = 0x07) ∧ inst.dst = 10 ∨
    inst.FetchesSrc ∧ inst.src = 10

/-- A legal instruction: it fits a template and leaves the frame pointer alone. -/
def Matches (u : RawUnit) : Prop :=
  (∃ t ∈ instructionTemplate ++ legacyTemplate, t.Fits P insts u) ∧ ¬ u.inst.TargetsR10

end Prevail
