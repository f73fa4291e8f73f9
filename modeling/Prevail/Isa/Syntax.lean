import Mathlib.Data.Int.Bitwise
import Prevail.Ir.Syntax

/-!
# Instruction words and decoded instructions

`EbpfInst` is a word of a raw program. A decoded instruction is an `Instruction` whose parts that the
control-flow graph only copies are here: `Operation` for the instructions without a target, `CallInfo`
for the fields of a helper call. The platform says which groups of instructions it supports and
describes its helpers.
-/

namespace Prevail

/-- `EbpfInst`. -/
structure EbpfInst where
  opcode : BitVec 8
  dst : BitVec 4
  src : BitVec 4
  offset : BitVec 16
  imm : BitVec 32
  deriving DecidableEq

/-- `Reg`. -/
abbrev Reg := UInt8

/-- `Value`: a register or an immediate. -/
abbrev Value := Reg ⊕ UInt64

/-- `Bin::Op`. -/
inductive BinOp where
  | mov
  | add
  | sub
  | mul
  | udiv
  | umod
  | or
  | and
  | lsh
  | rsh
  | arsh
  | xor
  | sdiv
  | smod
  | movsx8
  | movsx16
  | movsx32
  deriving DecidableEq

/-- `Un::Op`. -/
inductive UnOp where
  | be16
  | be32
  | be64
  | le16
  | le32
  | le64
  | swap16
  | swap32
  | swap64
  | neg
  deriving DecidableEq

/-- `Atomic::Op`. -/
inductive AtomicOp where
  | add
  | or
  | and
  | xor
  | xchg
  | cmpxchg
  deriving DecidableEq

/-- `Bin`. -/
structure Bin where
  op : BinOp
  dst : Reg
  v : Value
  is64 : Bool
  lddw : Bool
  deriving DecidableEq

/-- `Un`. -/
structure Un where
  op : UnOp
  dst : Reg
  is64 : Bool
  deriving DecidableEq

/-- `Deref`. -/
structure Deref where
  width : ℤ
  basereg : Reg
  offset : ℤ
  deriving DecidableEq

/-- `Mem`. -/
structure Mem where
  access : Deref
  value : Value
  isLoad : Bool
  deriving DecidableEq

/-- `Packet`. -/
structure Packet where
  width : ℤ
  offset : BitVec 32
  regoffset : Option Reg
  deriving DecidableEq

/-- `Atomic`. -/
structure Atomic where
  op : AtomicOp
  fetch : Bool
  access : Deref
  valreg : Reg
  deriving DecidableEq

/-- The instructions without a target. -/
inductive Operation where
  | bin (b : Bin)
  | un (u : Un)
  | loadMapFd (dst : Reg) (mapfd : BitVec 32)
  | loadMapAddress (dst : Reg) (mapfd offset : BitVec 32)
  | callx (func : Reg)
  | mem (m : Mem)
  | packet (p : Packet)
  | atomic (a : Atomic)
  deriving DecidableEq

/-- `ArgSingle::Kind`. -/
inductive ArgSingleKind where
  | mapFd
  | mapFdPrograms
  | ptrToMapKey
  | ptrToMapValue
  | ptrToCtx
  | ptrToStack
  | anything
  deriving DecidableEq

/-- `ArgSingle`. -/
structure ArgSingle where
  kind : ArgSingleKind
  orNull : Bool
  reg : Reg
  deriving DecidableEq

/-- `ArgPair::Kind`. -/
inductive ArgPairKind where
  | ptrToReadableMem
  | ptrToWritableMem
  deriving DecidableEq

/-- `ArgPair`. -/
structure ArgPair where
  kind : ArgPairKind
  orNull : Bool
  mem : Reg
  size : Reg
  canBeZero : Bool
  deriving DecidableEq

/-- `Call`, without the frame, which the instruction holds. -/
structure CallInfo where
  func : BitVec 32
  name : String
  isMapLookup : Bool
  reallocatePacket : Bool
  singles : List ArgSingle
  pairs : List ArgPair
  deriving DecidableEq

/-- The instructions that the decoder makes. -/
abbrev IsaInstruction := Instruction Operation CallInfo

/-! ## Platforms -/

/-- `bpf_conformance_groups_t`, as far as the decoder asks. -/
inductive ConformanceGroup where
  | base32
  | base64
  | divmul32
  | divmul64
  | atomic32
  | atomic64
  | packet
  | callx
  deriving DecidableEq

/-- `ebpf_return_type_t`. -/
inductive ReturnType where
  | integer
  | ptrToMapValueOrNull
  | integerOrNoReturnIfSucceed
  | unsupported
  deriving DecidableEq

/-- `ebpf_argument_type_t`. -/
inductive ArgumentType where
  | dontcare
  | anything
  | constSize
  | constSizeOrZero
  | ptrToStack
  | ptrToStackOrNull
  | ptrToCtx
  | ptrToCtxOrNull
  | ptrToMap
  | ptrToMapOfPrograms
  | ptrToMapKey
  | ptrToMapValue
  | ptrToReadableMem
  | ptrToReadableMemOrNull
  | ptrToWritableMem
  | ptrToWritableMemOrNull
  | unsupported
  deriving DecidableEq

/-- `EbpfHelperPrototype`. The types of the arguments are those of `R1` to `R5`. -/
structure HelperPrototype where
  name : String
  returnType : ReturnType
  argumentType : ArgumentType × ArgumentType × ArgumentType × ArgumentType × ArgumentType
  reallocatePacket : Bool

/-- `ebpf_platform_t`. -/
structure Platform where
  supportsGroup : ConformanceGroup → Bool
  isHelperUsable : BitVec 32 → Bool
  getHelperPrototype : BitVec 32 → HelperPrototype

namespace EbpfInst

/-- The class, the part under `INST_CLS_MASK`. -/
def cls (inst : EbpfInst) : BitVec 8 := inst.opcode &&& 0x07

/-- The part of the opcode under `INST_SRC_REG`. -/
def srcReg (inst : EbpfInst) : Bool := inst.opcode &&& 0x08 ≠ 0

end EbpfInst

end Prevail
