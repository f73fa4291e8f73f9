import Prevail.Ir.CfgBuilder
import Prevail.Isa.Syntax
import Prevail.Lib.Result

/-!
# Decoding

`Unmarshaller`: each word is checked and becomes one instruction; a wide load takes the next word
too, and two shifts by 32 become one move. The notes of the decoder are left out, and so is the line
information. An `InvalidInstruction` holds the counter and the text; the text of
`make_opcode_message` is kept apart from the opcode that it prints.
-/

namespace Prevail

/-- Why a program is not decoded. -/
inductive DecodeError where
  | invalid (pc : ℕ) (what : String)
  | invalidOpcode (pc : ℕ) (msg : String) (opcode : BitVec 8)
  | runtime (what : String)
  | unexpectedOpcode (opcode : BitVec 8)
  | zeroLength
  | narrowing
  deriving DecidableEq

namespace DecodeError

/-- `InvalidInstruction(pc, opcode)`. -/
def bad (pc : ℕ) (inst : EbpfInst) : DecodeError := .invalidOpcode pc "bad instruction" inst.opcode

/-- `InvalidInstruction(pc, make_opcode_message(msg, opcode))`. -/
def opcodeMessage (pc : ℕ) (msg : String) (inst : EbpfInst) : DecodeError :=
  .invalidOpcode pc msg inst.opcode

end DecodeError

open DecodeError

/-- A register field as a `Reg`. -/
def Reg.ofField (r : BitVec 4) : Reg := UInt8.ofNat r.toNat

/-- `sign_extend`. -/
def signExtendImm (imm : BitVec 32) : UInt64 := ⟨imm.signExtend 64⟩

/-- `zero_extend`. -/
def zeroExtendImm (imm : BitVec 32) : UInt64 := ⟨imm.setWidth 64⟩

/-- `merge`. -/
def mergeImm (imm nextImm : BitVec 32) : UInt64 :=
  ⟨(nextImm.signExtend 64 <<< 32) ||| imm.setWidth 64⟩

namespace Unmarshaller

variable (P : Platform)

/-- The group of divisions and multiplications of a width. -/
def divmul (is64 : Bool) : ConformanceGroup := if is64 then .divmul64 else .divmul32

/-- The base group of a width. -/
def base (is64 : Bool) : ConformanceGroup := if is64 then .base64 else .base32

/-- The operation of a byte swap, from those for the three sizes. -/
def endian (pc : ℕ) (inst : EbpfInst) (op16 op32 op64 : UnOp) : Except DecodeError (BinOp ⊕ UnOp) :=
  if inst.imm = 16 then
    if !P.supportsGroup .base32 then .error (bad pc inst) else .ok (.inr op16)
  else if inst.imm = 32 then
    if !P.supportsGroup .base32 then .error (bad pc inst) else .ok (.inr op32)
  else if inst.imm = 64 then
    if !P.supportsGroup .base64 then .error (bad pc inst) else .ok (.inr op64)
  else .error (.invalid pc "unsupported immediate")

/-- `getAluOp` for the operations that require a zero offset. -/
def getPlainAluOp (pc : ℕ) (inst : EbpfInst) : Except DecodeError (BinOp ⊕ UnOp) :=
  let is64 : Bool := inst.cls = 0x07
  if inst.offset ≠ 0 then .error (opcodeMessage pc "nonzero offset for" inst)
  else match inst.opcode &&& 0xf0 with
    | 0x00 => .ok (.inl .add)
    | 0x10 => .ok (.inl .sub)
    | 0x20 => if !P.supportsGroup (divmul is64) then .error (bad pc inst) else .ok (.inl .mul)
    | 0x40 => .ok (.inl .or)
    | 0x50 => .ok (.inl .and)
    | 0x60 => .ok (.inl .lsh)
    | 0x70 => .ok (.inl .rsh)
    | 0x80 =>
      if inst.srcReg then .error (bad pc inst)
      else if inst.src ≠ 0 then .error (bad pc inst)
      else if inst.imm ≠ 0 then .error (opcodeMessage pc "nonzero imm for" inst)
      else .ok (.inr .neg)
    | 0xa0 => .ok (.inl .xor)
    | 0xc0 => .ok (.inl .arsh)
    | 0xd0 =>
      if inst.src ≠ 0 then .error (bad pc inst)
      else if is64 then
        if inst.srcReg then .error (bad pc inst) else endian P pc inst .swap16 .swap32 .swap64
      else if inst.srcReg then endian P pc inst .be16 .be32 .be64
      else endian P pc inst .le16 .le32 .le64
    | 0xe0 => .error (bad pc inst)
    | 0xf0 => .error (bad pc inst)
    | _ => .ok (.inl .mov)

/-- A division or modulo, unsigned or signed by the offset. -/
def getDivOp (pc : ℕ) (inst : EbpfInst) (unsigned signed : BinOp) :
    Except DecodeError (BinOp ⊕ UnOp) :=
  if !P.supportsGroup (divmul (inst.cls = 0x07)) then .error (bad pc inst)
  else if inst.offset = 0 then .ok (.inl unsigned)
  else if inst.offset = 1 then .ok (.inl signed)
  else .error (opcodeMessage pc "invalid offset for" inst)

/-- `getAluOp`. -/
def getAluOp (pc : ℕ) (inst : EbpfInst) : Except DecodeError (BinOp ⊕ UnOp) :=
  match inst.opcode &&& 0xf0 with
  | 0x30 => getDivOp P pc inst .udiv .sdiv
  | 0x90 => getDivOp P pc inst .umod .smod
  | 0xb0 =>
    if 0 < inst.offset.toInt ∧ !inst.srcReg then .error (opcodeMessage pc "nonzero offset for" inst)
    else if inst.offset = 0 then .ok (.inl .mov)
    else if inst.offset = 8 then .ok (.inl .movsx8)
    else if inst.offset = 16 then .ok (.inl .movsx16)
    else if inst.offset = 32 then .ok (.inl .movsx32)
    else .error (opcodeMessage pc "invalid offset for" inst)
  | _ => getPlainAluOp P pc inst

def getBinValue (pc : ℕ) (inst : EbpfInst) : Except DecodeError Value :=
  if inst.srcReg then
    if inst.imm ≠ 0 then .error (opcodeMessage pc "nonzero imm for" inst)
    else .ok (.inl (.ofField inst.src))
  else if inst.src ≠ 0 then .error (bad pc inst)
  else .ok (.inr (signExtendImm inst.imm))

/-- `makeAluOp`. -/
def makeAluOp (pc : ℕ) (inst : EbpfInst) : Except DecodeError IsaInstruction :=
  let is64 : Bool := inst.cls = 0x07
  if !P.supportsGroup (base is64) then .error (bad pc inst)
  else if inst.dst = 10 then .error (.invalid pc "invalid target r10")
  else if 10 < inst.dst ∨ 10 < inst.src then .error (.invalid pc "bad register")
  else do
    match ← getAluOp P pc inst with
    | .inr op => return .other (.un ⟨op, .ofField inst.dst, is64⟩)
    | .inl op =>
      return .other (.bin ⟨op, .ofField inst.dst, ← getBinValue pc inst, is64, false⟩)

/-- `getMemWidth`, and `opcode_to_width`. -/
def getMemWidth (inst : EbpfInst) : ℤ :=
  match inst.opcode &&& 0x18 with
  | 0x10 => 1
  | 0x08 => 2
  | 0x00 => 4
  | _ => 8

/-- The operation in the immediate of an atomic instruction, without `INST_FETCH`. -/
def getAtomicOp (pc : ℕ) (inst : EbpfInst) : Except DecodeError AtomicOp :=
  let fetch : Bool := inst.imm &&& 0x1 ≠ 0
  match inst.imm &&& ~~~0x1 with
  | 0xe0 => if !fetch then .error (.invalid pc "unsupported immediate") else .ok .xchg
  | 0xf0 => if !fetch then .error (.invalid pc "unsupported immediate") else .ok .cmpxchg
  | 0x00 => .ok .add
  | 0x40 => .ok .or
  | 0x50 => .ok .and
  | 0xa0 => .ok .xor
  | _ => .error (.invalid pc "unsupported immediate")

/-- A packet access, with the register for its offset if it has one. -/
def makePacket (pc : ℕ) (inst : EbpfInst) (regoffset : Option Reg) :
    Except DecodeError IsaInstruction :=
  if inst.offset ≠ 0 then .error (opcodeMessage pc "nonzero offset for" inst)
  else .ok (.other (.packet ⟨getMemWidth inst, inst.imm, regoffset⟩))

/-- A load or a store of a register or of an immediate. -/
def makeLoadStore (pc : ℕ) (inst : EbpfInst) : Except DecodeError IsaInstruction :=
  let isLoad : Bool := inst.cls = 0x00 ∨ inst.cls = 0x01
  let isImm : Bool := inst.opcode &&& 1 = 0
  if isLoad ∧ inst.dst = 10 then .error (.invalid pc "cannot modify r10")
  else if isImm ∧ inst.src ≠ 0 then .error (bad pc inst)
  else if !isImm ∧ inst.imm ≠ 0 then .error (opcodeMessage pc "nonzero imm for" inst)
  else
    let basereg := if isLoad then inst.src else inst.dst
    let value : Value :=
      if isLoad then .inl (.ofField inst.dst)
      else if isImm then .inr (zeroExtendImm inst.imm)
      else .inl (.ofField inst.src)
    .ok (.other (.mem ⟨⟨getMemWidth inst, .ofField basereg, inst.offset.toInt⟩, value, isLoad⟩))

def makeAtomic (pc : ℕ) (inst : EbpfInst) : Except DecodeError IsaInstruction :=
  if inst.cls ≠ 0x03 ∨ inst.opcode &&& 0x18 ≠ 0x00 ∧ inst.opcode &&& 0x18 ≠ 0x18 then
    .error (bad pc inst)
  else if !P.supportsGroup (if inst.opcode &&& 0x18 = 0x18 then .atomic64 else .atomic32) then
    .error (bad pc inst)
  else do
    return .other (.atomic ⟨← getAtomicOp pc inst, inst.imm &&& 0x1 = 0x1,
      ⟨getMemWidth inst, .ofField inst.dst, inst.offset.toInt⟩, .ofField inst.src⟩)

/-- `makeMemOp`. -/
def makeMemOp (pc : ℕ) (inst : EbpfInst) : Except DecodeError IsaInstruction :=
  let width := getMemWidth inst
  let isLD : Bool := inst.cls = 0x00
  if 10 < inst.dst ∨ 10 < inst.src then .error (.invalid pc "bad register")
  else if !P.supportsGroup (base (width = 8)) then .error (bad pc inst)
  else match inst.opcode &&& 0xe0 with
    | 0x20 =>
      if !P.supportsGroup .packet ∨ !isLD ∨ width = 8 then .error (bad pc inst)
      else if inst.dst ≠ 0 then .error (opcodeMessage pc "nonzero dst for register" inst)
      else if 0 < inst.src then .error (bad pc inst)
      else makePacket pc inst none
    | 0x40 =>
      if !P.supportsGroup .packet ∨ !isLD ∨ width = 8 then .error (bad pc inst)
      else if inst.dst ≠ 0 then .error (opcodeMessage pc "nonzero dst for register" inst)
      else if 10 < inst.src then .error (.invalid pc "bad register")
      else makePacket pc inst (some (.ofField inst.src))
    | 0x60 => if isLD then .error (bad pc inst) else makeLoadStore pc inst
    | 0xc0 => makeAtomic P pc inst
    | _ => .error (bad pc inst)

/-- `makeLddw`, with the word after the first one, if there is one. -/
def makeLddw (pc : ℕ) (inst : EbpfInst) (next? : Option EbpfInst) :
    Except DecodeError IsaInstruction :=
  if !P.supportsGroup .base64 then .error (bad pc inst)
  else match next? with
    | none => .error (.invalid pc "incomplete lddw")
    | some next =>
      if next.opcode ≠ 0 ∨ next.dst ≠ 0 ∨ next.src ≠ 0 ∨ next.offset ≠ 0 then
        .error (.invalid pc "invalid lddw")
      else if 2 < inst.src then .error (bad pc inst)
      else if inst.offset ≠ 0 then .error (opcodeMessage pc "nonzero offset for" inst)
      else if 10 < inst.dst then .error (.invalid pc "bad register")
      else match inst.src with
        | 0 => .ok (.other (.bin ⟨.mov, .ofField inst.dst, .inr (mergeImm inst.imm next.imm), true,
            true⟩))
        | 1 =>
          if next.imm ≠ 0 then .error (.invalid pc "lddw uses reserved fields")
          else .ok (.other (.loadMapFd (.ofField inst.dst) inst.imm))
        | 2 => .ok (.other (.loadMapAddress (.ofField inst.dst) inst.imm next.imm))
        | _ => .error (bad pc inst)

/-! ## Calls -/

/-- `toArgSingleKind`. -/
def toArgSingleKind : ArgumentType → ArgSingleKind
  | .anything => .anything
  | .ptrToStack | .ptrToStackOrNull => .ptrToStack
  | .ptrToMap => .mapFd
  | .ptrToMapOfPrograms => .mapFdPrograms
  | .ptrToMapKey => .ptrToMapKey
  | .ptrToMapValue => .ptrToMapValue
  | .ptrToCtx | .ptrToCtxOrNull => .ptrToCtx
  | _ => .mapFd

/-- `toArgPairKind`. -/
def toArgPairKind : ArgumentType → ArgPairKind
  | .ptrToWritableMem | .ptrToWritableMemOrNull => .ptrToWritableMem
  | _ => .ptrToReadableMem

/-- The arguments from number `i` on. The last type of the list is only looked at from the one
    before. -/
def makeArgs (name : String) : ℕ → List ArgumentType → CallInfo → Except DecodeError CallInfo
  | i, arg :: next :: rest, res =>
    let reg := UInt8.ofNat i
    match arg with
    | .unsupported => .error (.runtime ("unsupported function: " ++ name))
    | .dontcare => .ok res
    | .anything | .ptrToMap | .ptrToMapOfPrograms | .ptrToMapKey | .ptrToMapValue | .ptrToStack
    | .ptrToCtx =>
      makeArgs name (i + 1) (next :: rest)
        { res with singles := res.singles ++ [⟨toArgSingleKind arg, false, reg⟩] }
    | .ptrToStackOrNull | .ptrToCtxOrNull =>
      makeArgs name (i + 1) (next :: rest)
        { res with singles := res.singles ++ [⟨toArgSingleKind arg, true, reg⟩] }
    | .constSize => .error (.runtime
        ("mismatched EBPF_ARGUMENT_TYPE_PTR_TO* and EBPF_ARGUMENT_TYPE_CONST_SIZE: " ++ name))
    | .constSizeOrZero => .error (.runtime
        ("mismatched EBPF_ARGUMENT_TYPE_PTR_TO* and EBPF_ARGUMENT_TYPE_CONST_SIZE_OR_ZERO: " ++
          name))
    | .ptrToReadableMemOrNull | .ptrToReadableMem | .ptrToWritableMemOrNull | .ptrToWritableMem =>
      if next ≠ .constSize ∧ next ≠ .constSizeOrZero then
        .error (.runtime ("Pointer argument not followed by EBPF_ARGUMENT_TYPE_CONST_SIZE or " ++
          "EBPF_ARGUMENT_TYPE_CONST_SIZE_OR_ZERO: " ++ name))
      else
        makeArgs name (i + 2) rest { res with pairs := res.pairs ++ [⟨toArgPairKind arg,
          arg = .ptrToReadableMemOrNull ∨ arg = .ptrToWritableMemOrNull, reg, UInt8.ofNat (i + 1),
          next = .constSizeOrZero⟩] }
  | _, _, res => .ok res

/-- `makeCall`. -/
def makeCall (imm : BitVec 32) : Except DecodeError CallInfo :=
  let proto := P.getHelperPrototype imm
  if proto.returnType = .unsupported then
    .error (.runtime ("unsupported function: " ++ proto.name))
  else
    let (a₁, a₂, a₃, a₄, a₅) := proto.argumentType
    makeArgs proto.name 1 [a₁, a₂, a₃, a₄, a₅, .dontcare]
      ⟨imm, proto.name, proto.returnType = .ptrToMapValueOrNull, proto.reallocatePacket, [], []⟩

/-! ## Jumps -/

/-- `getJumpTarget`. Counters have 32 bits. -/
def getJumpTarget (offset : ℤ) (insts : List EbpfInst) (pc : ℕ) : Except DecodeError Label :=
  let newPc := ((pc + 1 + offset) % 2 ^ 32).toNat
  match insts[newPc]? with
  | none => .error (.invalid pc "jump out of bounds")
  | some inst =>
    if inst.opcode = 0 then .error (.invalid pc "jump to middle of lddw")
    else if 2 ^ 31 ≤ newPc then .error .narrowing
    else .ok (.ofIndex newPc)

def makeCallLocal (insts : List EbpfInst) (pc : ℕ) (inst : EbpfInst) :
    Except DecodeError IsaInstruction :=
  if inst.srcReg then .error (bad pc inst)
  else if inst.dst ≠ 0 then .error (opcodeMessage pc "nonzero dst for register" inst)
  else do return .callLocal (← getJumpTarget inst.imm.toInt insts pc) []

/-- `makeCallx`. Old compilers put the number of the register into the immediate. -/
def makeCallx (pc : ℕ) (inst : EbpfInst) : Except DecodeError IsaInstruction :=
  if 10 < inst.dst then .error (.invalid pc "bad register")
  else if inst.imm ≠ 0 then
    if 0 < inst.dst then .error (opcodeMessage pc "nonzero imm for" inst)
    else if inst.imm.toInt < 0 ∨ 10 < inst.imm.toInt then .error (.invalid pc "bad register")
    else .ok (.other (.callx (UInt8.ofNat inst.imm.toNat)))
  else .ok (.other (.callx (.ofField inst.dst)))

/-- `getJmpOp`. -/
def getJmpOp (pc : ℕ) (inst : EbpfInst) : Except DecodeError ConditionOp :=
  match inst.opcode >>> 4 with
  | 0x1 => .ok .eq
  | 0x2 => .ok .gt
  | 0x3 => .ok .ge
  | 0x4 => .ok .set
  | 0x5 => .ok .ne
  | 0x6 => .ok .sgt
  | 0x7 => .ok .sge
  | 0xa => .ok .lt
  | 0xb => .ok .le
  | 0xc => .ok .slt
  | 0xd => .ok .sle
  | 0xe => .error (bad pc inst)
  | 0xf => .error (bad pc inst)
  | _ => .ok .eq

/-- The case of `makeJmp` for calls. -/
def makeAnyCall (insts : List EbpfInst) (pc : ℕ) (inst : EbpfInst) :
    Except DecodeError IsaInstruction :=
  if inst.cls ≠ 0x05 then .error (bad pc inst)
  else if !P.supportsGroup .callx ∧ inst.srcReg then .error (bad pc inst)
  else if !P.supportsGroup .base32 then .error (bad pc inst)
  else if 2 ≤ inst.src then .error (bad pc inst)
  else if inst.offset ≠ 0 then .error (opcodeMessage pc "nonzero offset for" inst)
  else if inst.src = 1 then makeCallLocal insts pc inst
  else if inst.srcReg then makeCallx pc inst
  else if inst.dst ≠ 0 then .error (opcodeMessage pc "nonzero dst for register" inst)
  else if !P.isHelperUsable inst.imm then
    .error (.invalid pc ("invalid helper function id " ++ toString inst.imm.toInt))
  else do return .call (← makeCall P inst.imm) []

/-- The case of `makeJmp` for exits. -/
def makeExit (pc : ℕ) (inst : EbpfInst) : Except DecodeError IsaInstruction :=
  if !P.supportsGroup .base32 then .error (bad pc inst)
  else if inst.cls ≠ 0x05 ∨ inst.srcReg then .error (bad pc inst)
  else if inst.src ≠ 0 then .error (bad pc inst)
  else if inst.dst ≠ 0 then .error (opcodeMessage pc "nonzero dst for register" inst)
  else if inst.imm ≠ 0 then .error (opcodeMessage pc "nonzero imm for" inst)
  else if inst.offset ≠ 0 then .error (opcodeMessage pc "nonzero offset for" inst)
  else .ok (.exit [])

/-- The last case of `makeJmp`. -/
def makeCondJmp (insts : List EbpfInst) (pc : ℕ) (inst : EbpfInst) :
    Except DecodeError IsaInstruction :=
  let is64 : Bool := inst.cls = 0x05
  let isGoto : Bool := inst.opcode = 0x05 ∨ inst.opcode = 0x06
  if !P.supportsGroup (base is64) then .error (bad pc inst)
  else do
    let op ← getJmpOp pc inst
    if !inst.srcReg ∧ inst.src ≠ 0 then .error (bad pc inst)
    else if inst.srcReg ∧ inst.imm ≠ 0 then .error (opcodeMessage pc "nonzero imm for" inst)
    else
      let offset := if inst.opcode = 0x06 then inst.imm.toInt else inst.offset.toInt
      let target ← getJumpTarget offset insts pc
      if !isGoto ∧ 10 < inst.dst then .error (.invalid pc "bad register")
      else if !isGoto ∧ inst.srcReg ∧ 10 < inst.src then .error (.invalid pc "bad register")
      else
        let right : Value := if inst.srcReg then .inl (Reg.ofField inst.src)
          else .inr (signExtendImm inst.imm)
        return .jmp (if isGoto then none else some ⟨op, Reg.ofField inst.dst, right, is64⟩) target

/-- The case of `makeJmp` for unconditional jumps, which goes on with the last case. -/
def makeGoto (insts : List EbpfInst) (pc : ℕ) (inst : EbpfInst) :
    Except DecodeError IsaInstruction :=
  if inst.cls ≠ 0x05 ∧ inst.cls ≠ 0x06 then .error (bad pc inst)
  else if !P.supportsGroup .base32 then .error (bad pc inst)
  else if inst.srcReg then .error (bad pc inst)
  else if inst.cls = 0x05 ∧ inst.imm ≠ 0 then .error (opcodeMessage pc "nonzero imm for" inst)
  else if inst.cls = 0x06 ∧ inst.offset ≠ 0 then .error (opcodeMessage pc "nonzero offset for" inst)
  else if inst.dst ≠ 0 then .error (opcodeMessage pc "nonzero dst for register" inst)
  else makeCondJmp P insts pc inst

/-- `makeJmp`. -/
def makeJmp (insts : List EbpfInst) (pc : ℕ) (inst : EbpfInst) :
    Except DecodeError IsaInstruction :=
  match inst.opcode >>> 4 with
  | 0x8 => makeAnyCall P insts pc inst
  | 0x9 => makeExit P pc inst
  | 0x0 => makeGoto P insts pc inst
  | _ => makeCondJmp P insts pc inst

/-! ## Programs -/

/-- `shift32`. -/
def shift32 (dst : Reg) (op : BinOp) : IsaInstruction :=
  .other (.bin ⟨op, dst, .inr 32, true, false⟩)

/-- Merge two shifts by 32: what the first instruction becomes, and whether the next word is
    skipped. -/
def mergeShifts (pc : ℕ) (inst : EbpfInst) (newIns : IsaInstruction) (next? : Option EbpfInst) :
    Except DecodeError (IsaInstruction × Bool) :=
  let dst := Reg.ofField inst.dst
  match next? with
  | none => .ok (newIns, false)
  | some next =>
    if newIns ≠ shift32 dst .lsh then .ok (newIns, false)
    else if next.cls ≠ 0x07 then .ok (newIns, false)
    else do
      let nextIns ← makeAluOp P (pc + 1) next
      if nextIns = shift32 dst .rsh then
        return (.other (.bin ⟨.mov, dst, .inl dst, false, false⟩), true)
      else if nextIns = shift32 dst .arsh then
        return (.other (.bin ⟨.movsx32, dst, .inl dst, true, false⟩), true)
      else return (newIns, false)

/-- One turn of the loop of `unmarshal`: the instruction at `pc`, and whether the next word is part
    of it. -/
def decode (insts : List EbpfInst) (pc : ℕ) (inst : EbpfInst) (next? : Option EbpfInst) :
    Except DecodeError (IsaInstruction × Bool) :=
  match inst.cls with
  | 0x00 =>
    if inst.opcode = 0x18 then do return (← makeLddw P pc inst next?, true)
    else do return (← makeMemOp P pc inst, false)
  | 0x01 | 0x02 | 0x03 => do return (← makeMemOp P pc inst, false)
  | 0x04 | 0x07 => do mergeShifts P pc inst (← makeAluOp P pc inst) next?
  | 0x05 | 0x06 => do return (← makeJmp P insts pc inst, false)
  | _ => .error (.unexpectedOpcode (inst.opcode &&& 0x07))

/-- The loop of `unmarshal`, from `pc` on. -/
def unmarshalFrom (insts : List EbpfInst) :
    ℕ → List EbpfInst → Except DecodeError (InstructionSeq Operation CallInfo)
  | _, [] => .ok []
  | pc, inst :: rest => do
    let (newIns, skip) ← decode P insts pc inst rest.head?
    if 2 ^ 31 ≤ pc then .error .narrowing
    else
      match rest with
      | [] => return [(.ofIndex pc, newIns)]
      | next :: rest =>
        if skip then return (.ofIndex pc, newIns) :: (← unmarshalFrom insts (pc + 2) rest)
        else return (.ofIndex pc, newIns) :: (← unmarshalFrom insts (pc + 1) (next :: rest))

/-- `unmarshal`. -/
def unmarshal (insts : List EbpfInst) :
    Except DecodeError (InstructionSeq Operation CallInfo) :=
  if insts.isEmpty then .error .zeroLength
  else unmarshalFrom P insts 0 insts

end Unmarshaller

end Prevail
