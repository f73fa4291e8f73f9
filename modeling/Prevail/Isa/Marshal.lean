import Prevail.Arith.Number
import Prevail.Ir.CfgBuilder
import Prevail.Isa.Syntax

/-!
# Encoding

`MarshalVisitor` encodes one instruction at a counter, `marshal` a whole sequence, where labels become
counters first. `gsl::narrow` fails when the value changes, an assertion when it does not hold.
-/

namespace Prevail

/-- Why an instruction is not encoded. -/
inductive EncodeError where
  | narrowing
  | unexpectedWidth (width : ℤ)
  | assertion
  | ldImm (m : Mem)
  | assumption
  | outOfRange (l : Label)
  deriving DecidableEq

/-- A register in a field of four bits. -/
def Reg.toField (r : Reg) : BitVec 4 := BitVec.ofNat 4 r.toNat

/-- `gsl::narrow<int32_t>` of an immediate. -/
def narrowImm (v : UInt64) : Except EncodeError (BitVec 32) :=
  if v.toNat < 2 ^ 31 then .ok (v.toBitVec.setWidth 32) else .error .narrowing

/-- `gsl::narrow<int16_t>` of an offset. -/
def narrowOffset (n : ℤ) : Except EncodeError (BitVec 16) :=
  if Number.FitsS 16 n then .ok (BitVec.ofInt 16 n) else .error .narrowing

/-- `label_to_offset16`. -/
def labelToOffset16 (pc : ℕ) (l : Label) : BitVec 16 :=
  let offset := l.src - pc - 1
  if Number.FitsS 16 offset then BitVec.ofInt 16 offset else 0

/-- `label_to_offset32`. -/
def labelToOffset32 (pc : ℕ) (l : Label) : Except EncodeError (BitVec 32) :=
  let offset := l.src - pc - 1
  if Number.FitsS 16 offset then .ok 0
  else if Number.FitsS 32 offset then .ok (BitVec.ofInt 32 offset)
  else .error .narrowing

/-- `width_to_opcode`. -/
def widthToOpcode (width : ℤ) : Except EncodeError (BitVec 8) :=
  if width = 1 then .ok 0x10
  else if width = 2 then .ok 0x08
  else if width = 4 then .ok 0x00
  else if width = 8 then .ok 0x18
  else .error (.unexpectedWidth width)

/-- `op(Condition::Op)`. -/
def ConditionOp.code : ConditionOp → Except EncodeError (BitVec 8)
  | .eq => .ok 0x1
  | .gt => .ok 0x2
  | .ge => .ok 0x3
  | .set => .ok 0x4
  | .nset => .error .assertion
  | .ne => .ok 0x5
  | .sgt => .ok 0x6
  | .sge => .ok 0x7
  | .lt => .ok 0xa
  | .le => .ok 0xb
  | .slt => .ok 0xc
  | .sle => .ok 0xd

/-- `op(Bin::Op)`. -/
def BinOp.code : BinOp → BitVec 8
  | .add => 0x0
  | .sub => 0x1
  | .mul => 0x2
  | .sdiv | .udiv => 0x3
  | .or => 0x4
  | .and => 0x5
  | .lsh => 0x6
  | .rsh => 0x7
  | .smod | .umod => 0x9
  | .xor => 0xa
  | .mov | .movsx8 | .movsx16 | .movsx32 => 0xb
  | .arsh => 0xc

/-- `offset(Bin::Op)`. -/
def BinOp.offset : BinOp → BitVec 16
  | .sdiv | .smod => 1
  | .movsx8 => 8
  | .movsx16 => 16
  | .movsx32 => 32
  | _ => 0

/-- `imm_endian`, for the operations that have a size. -/
def UnOp.immEndian : UnOp → BitVec 32
  | .be16 | .le16 | .swap16 => 16
  | .be32 | .le32 | .swap32 => 32
  | .be64 | .le64 | .swap64 => 64
  | .neg => 0

/-- The value of an `Atomic::Op`. -/
def AtomicOp.code : AtomicOp → BitVec 32
  | .add => 0x00
  | .or => 0x40
  | .and => 0x50
  | .xor => 0xa0
  | .xchg => 0xe0
  | .cmpxchg => 0xf0

namespace Marshal

/-- `makeLddw`. -/
def makeLddw (dst : Reg) (type : BitVec 4) (imm nextImm : BitVec 32) : List EbpfInst :=
  [⟨0x18, dst.toField, type, 0, imm⟩, ⟨0, 0, 0, 0, nextImm⟩]

/-- The class of an arithmetic instruction. -/
def alu (is64 : Bool) : BitVec 8 := if is64 then 0x07 else 0x04

def bin (b : Bin) : Except EncodeError (List EbpfInst) :=
  if b.lddw then
    match b.v with
    | .inr imm => .ok (makeLddw b.dst 0 (imm.toBitVec.extractLsb' 0 32) (imm.toBitVec.extractLsb' 32 32))
    | .inl _ => .error .assertion
  else
    let opcode := alu b.is64 ||| b.op.code <<< 4
    match b.v with
    | .inl right => .ok [⟨opcode ||| 0x08, b.dst.toField, right.toField, b.op.offset, 0⟩]
    | .inr right => do return [⟨opcode, b.dst.toField, 0, b.op.offset, ← narrowImm right⟩]

def un (u : Un) : List EbpfInst :=
  match u.op with
  | .neg => [⟨alu u.is64 ||| 0x80, u.dst.toField, 0, 0, 0⟩]
  | .le16 | .le32 | .le64 => [⟨0x04 ||| 0x00 ||| 0xd0, u.dst.toField, 0, 0, u.op.immEndian⟩]
  | .be16 | .be32 | .be64 => [⟨0x04 ||| 0x08 ||| 0xd0, u.dst.toField, 0, 0, u.op.immEndian⟩]
  | .swap16 | .swap32 | .swap64 => [⟨0x07 ||| 0xd0, u.dst.toField, 0, 0, u.op.immEndian⟩]

def mem (m : Mem) : Except EncodeError (List EbpfInst) := do
  let opcode := 0x60 ||| (← widthToOpcode m.access.width)
  let offset ← narrowOffset m.access.offset
  if m.isLoad then
    match m.value with
    | .inl r => return [⟨opcode ||| 0x01, r.toField, m.access.basereg.toField, offset, 0⟩]
    | .inr _ => .error (.ldImm m)
  else
    match m.value with
    | .inl r => return [⟨opcode ||| 0x02 ||| 0x01, m.access.basereg.toField, r.toField, offset, 0⟩]
    | .inr imm => return [⟨opcode ||| 0x02, m.access.basereg.toField, 0, offset, ← narrowImm imm⟩]

def packet (p : Packet) : Except EncodeError (List EbpfInst) := do
  let opcode ← widthToOpcode p.width
  match p.regoffset with
  | some r => return [⟨opcode ||| 0x40, 0, r.toField, 0, p.offset⟩]
  | none => return [⟨opcode ||| 0x20, 0, 0, 0, p.offset⟩]

def atomic (a : Atomic) : Except EncodeError (List EbpfInst) := do
  let imm := if a.fetch then a.op.code ||| 0x1 else a.op.code
  return [⟨0x03 ||| 0xc0 ||| (← widthToOpcode a.access.width), a.access.basereg.toField,
    a.valreg.toField, ← narrowOffset a.access.offset, imm⟩]

def jmp (pc : ℕ) (cond : Option Condition) (target : Label) : Except EncodeError (List EbpfInst) :=
  match cond with
  | some c => do
    let opcode := 0x05#8 ||| (← c.op.code) <<< 4
    let offset := labelToOffset16 pc target
    match c.right with
    | .inl right => return [⟨opcode ||| 0x08, Reg.toField c.left, Reg.toField right, offset, 0⟩]
    | .inr right => return [⟨opcode, Reg.toField c.left, 0, offset, ← narrowImm right⟩]
  | none => do
    let imm ← labelToOffset32 pc target
    if imm ≠ 0 then return [⟨0x06, 0, 0, 0, imm⟩]
    else return [⟨0x05, 0, 0, labelToOffset16 pc target, 0⟩]

end Marshal

/-- `marshal`, for one instruction. -/
def marshal (pc : ℕ) : IsaInstruction → Except EncodeError (List EbpfInst)
  | .undefined _ => .error .assertion
  | .other (.loadMapFd dst mapfd) => .ok (Marshal.makeLddw dst 1 mapfd 0)
  | .other (.loadMapAddress dst mapfd offset) => .ok (Marshal.makeLddw dst 2 mapfd offset)
  | .other (.bin b) => Marshal.bin b
  | .other (.un u) => .ok (Marshal.un u)
  | .call c _ => .ok [⟨0x85, 0, 0, 0, c.func⟩]
  | .callLocal target _ => do return [⟨0x85, 0, 1, 0, ← labelToOffset32 pc target⟩]
  | .other (.callx func) => .ok [⟨0x8d, func.toField, 0, 0, 0⟩]
  | .exit _ => .ok [⟨0x95, 0, 0, 0, 0⟩]
  | .assume _ _ => .error .assumption
  | .jmp cond target => Marshal.jmp pc cond target
  | .other (.mem m) => Marshal.mem m
  | .other (.packet p) => Marshal.packet p
  | .other (.atomic a) => Marshal.atomic a
  | .incrementLoopCounter _ => .ok []

namespace Marshal

/-- `size`. -/
def size : IsaInstruction → ℕ
  | .other (.bin b) => if b.lddw then 2 else 1
  | .other (.loadMapFd _ _) => 2
  | .other (.loadMapAddress _ _ _) => 2
  | _ => 1

/-- `get_labels`, from `pc` on. -/
def getLabels : ℕ → OrdMap Label ℕ → InstructionSeq Operation CallInfo → OrdMap Label ℕ
  | _, m, [] => m
  | pc, m, e :: rest => getLabels (pc + size e.2) (m.insert e.1 pc) rest

/-- The target of a jump as a counter. -/
def retarget (pcOfLabel : OrdMap Label ℕ) :
    IsaInstruction → Except EncodeError IsaInstruction
  | .jmp cond target =>
    match pcOfLabel.find? target with
    | none => .error (.outOfRange target)
    | some pc => if pc < 2 ^ 31 then .ok (.jmp cond (.ofIndex pc)) else .error .narrowing
  | i => .ok i

/-- The loop of `marshal`, from `pc` on. -/
def marshalFrom (pcOfLabel : OrdMap Label ℕ) :
    ℕ → InstructionSeq Operation CallInfo → Except EncodeError (List EbpfInst)
  | _, [] => .ok []
  | pc, e :: rest => do
    let words ← marshal pc (← retarget pcOfLabel e.2)
    return words ++ (← marshalFrom pcOfLabel (pc + words.length) rest)

end Marshal

/-- `marshal`, for a sequence. -/
def marshalSeq (insts : InstructionSeq Operation CallInfo) : Except EncodeError (List EbpfInst) :=
  Marshal.marshalFrom (Marshal.getLabels 0 ∅ insts) 0 insts

end Prevail
