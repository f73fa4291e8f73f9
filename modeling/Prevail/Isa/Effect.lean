import Prevail.Isa.Machine
import Prevail.Isa.Unmarshal

/-!
# What words and instructions do

`EbpfInst.effect` is the meaning of a word by the instruction set; its targets are distances from the
next word. `effect` is the meaning of a decoded instruction, by the names of its operations; its
targets are labels.
-/

namespace Prevail

open Machine

variable {M : Type}

/-- The low `n` bytes. -/
def truncate (n : ℕ) (v : BitVec 64) : BitVec 64 := (v.setWidth (8 * n)).setWidth 64

/-- The low `n` bytes in the other order. -/
def reverseBytes (n : ℕ) (v : BitVec 64) : BitVec 64 :=
  (List.range n).foldl (fun acc i => acc <<< 8 ||| (v >>> (8 * i) &&& 0xff)) 0

/-! ## Words -/

namespace EbpfInst

variable (E : Env M) (inst : EbpfInst) (s : State M)

/-- The number of bytes of a memory access. -/
def bytes : ℕ :=
  match inst.opcode &&& 0x18 with
  | 0x10 => 1
  | 0x08 => 2
  | 0x00 => 4
  | _ => 8

/-- The number of words. -/
def slots : ℕ := if inst.opcode = 0x18 then 2 else 1

/-- The second operand of arithmetic and of conditions. -/
def operand : BitVec 64 :=
  if inst.srcReg then s.regs (.ofField inst.src) else inst.imm.signExtend 64

/-- The address of a memory access from a base register. -/
def address (base : BitVec 4) : BitVec 64 := s.regs (.ofField base) + inst.offset.signExtend 64

/-- The result of arithmetic on `w` bits. -/
def aluResult {w : ℕ} (a b : BitVec w) : Option (BitVec w) :=
  match inst.opcode &&& 0xf0 with
  | 0x00 => some (a + b)
  | 0x10 => some (a - b)
  | 0x20 => some (a * b)
  | 0x30 =>
    if inst.offset = 0 then some (a / b)
    else if inst.offset = 1 then some (a.sdiv b)
    else none
  | 0x40 => some (a ||| b)
  | 0x50 => some (a &&& b)
  | 0x60 => some (a <<< (b.toNat % w))
  | 0x70 => some (a >>> (b.toNat % w))
  | 0x80 => some (-a)
  | 0x90 =>
    if inst.offset = 0 then some (a % b)
    else if inst.offset = 1 then some (a.srem b)
    else none
  | 0xa0 => some (a ^^^ b)
  | 0xb0 =>
    if inst.offset = 0 then some b
    else if inst.offset = 8 then some ((b.setWidth 8).signExtend w)
    else if inst.offset = 16 then some ((b.setWidth 16).signExtend w)
    else if inst.offset = 32 then some ((b.setWidth 32).signExtend w)
    else none
  | 0xc0 => some (a.sshiftRight (b.toNat % w))
  | _ => none

/-- The byte swaps. One class always swaps, the other one converts to the order that it names. -/
def swapResult (a : BitVec 64) : Option (BitVec 64) :=
  if inst.imm = 16 ∨ inst.imm = 32 ∨ inst.imm = 64 then
    let n := inst.imm.toNat / 8
    if inst.cls = 0x07 ∨ inst.srcReg ≠ E.bigEndian then some (reverseBytes n a)
    else some (truncate n a)
  else none

def alu : Option (BitVec 64) :=
  let a := s.regs (.ofField inst.dst)
  let b := inst.operand s
  if inst.opcode &&& 0xf0 = 0xd0 then inst.swapResult E a
  else if inst.cls = 0x07 then inst.aluResult a b
  else (inst.aluResult (a.setWidth 32) (b.setWidth 32)).map fun v => v.setWidth 64

/-- A wide load takes the high half of its immediate from the next word. -/
def wideValue (next : EbpfInst) : Option (BitVec 64) :=
  match inst.src with
  | 0 => some (next.imm ++ inst.imm)
  | 1 => some (E.mapFd inst.imm)
  | 2 => some (E.mapAddress inst.imm next.imm)
  | _ => none

/-- The new value that an atomic word stores. `CMPXCHG` compares the old one with `r0`. -/
def atomicResult {w : ℕ} (old src r0 : BitVec w) : Option (BitVec w) :=
  match inst.imm &&& ~~~0x1 with
  | 0x00 => some (old + src)
  | 0x40 => some (old ||| src)
  | 0x50 => some (old &&& src)
  | 0xa0 => some (old ^^^ src)
  | 0xe0 => some src
  | 0xf0 => some (if old = r0 then src else old)
  | _ => none

/-- The register that an atomic word fetches the old value into. -/
def fetched : Option Reg :=
  if inst.imm &&& 0x1 = 0 then none
  else if inst.imm &&& ~~~0x1 = 0xf0 then some 0
  else some (.ofField inst.src)

def atomic : Option (State M) :=
  E.exchange s (inst.address s inst.dst) inst.bytes
    (fun old => inst.atomicResult old ((s.regs (.ofField inst.src)).setWidth _)
      ((s.regs 0).setWidth _)) inst.fetched

/-- The outcome of the condition of a jump on `w` bits. -/
def holds {w : ℕ} (a b : BitVec w) : Option Bool :=
  match inst.opcode >>> 4 with
  | 0x1 => some (a = b)
  | 0x2 => some (b < a)
  | 0x3 => some (b ≤ a)
  | 0x4 => some (a &&& b ≠ 0)
  | 0x5 => some (a ≠ b)
  | 0x6 => some (b.slt a)
  | 0x7 => some (b.sle a)
  | 0xa => some (a < b)
  | 0xb => some (a ≤ b)
  | 0xc => some (a.slt b)
  | 0xd => some (a.sle b)
  | _ => none

/-- The distance that an unconditional jump goes. -/
def gotoOffset : ℤ := if inst.cls = 0x05 then inst.offset.toInt else inst.imm.toInt

/-- The words of the two classes of jumps. Old compilers put the number of the register of a call
into the immediate. -/
def jump : Effect ℤ M :=
  match inst.opcode >>> 4 with
  | 0x0 => .goto inst.gotoOffset
  | 0x8 =>
    if inst.srcReg then
      let r := if inst.imm = 0 then Reg.ofField inst.dst else UInt8.ofNat inst.imm.toNat
      .ofOption (E.helper s (s.regs r))
    else if inst.src = 1 then .call inst.imm.toInt
    else .ofOption (E.helper s (inst.imm.signExtend 64))
  | 0x9 => .exit
  | _ =>
    let a := s.regs (.ofField inst.dst)
    let b := inst.operand s
    let outcome := if inst.cls = 0x05 then inst.holds a b
      else inst.holds (a.setWidth 32) (b.setWidth 32)
    match outcome with
    | some true => .goto inst.offset.toInt
    | some false => .next s
    | none => .fault

/-- What the word does, with the word after it. -/
def effect (next? : Option EbpfInst) : Effect ℤ M :=
  match inst.cls with
  | 0x00 =>
    if inst.opcode = 0x18 then
      .ofOption ((next?.bind (inst.wideValue E)).map (s.set (.ofField inst.dst)))
    else match inst.opcode &&& 0xe0 with
      | 0x20 => .ofOption (E.packet s inst.bytes inst.imm none)
      | 0x40 => .ofOption (E.packet s inst.bytes inst.imm (some (s.regs (.ofField inst.src))))
      | _ => .fault
  | 0x01 =>
    if inst.opcode &&& 0xe0 = 0x60 then
      .ofOption (E.loadInto s (.ofField inst.dst) (inst.address s inst.src) inst.bytes)
    else .fault
  | 0x02 =>
    if inst.opcode &&& 0xe0 = 0x60 then
      .ofOption (E.storeAt s (inst.address s inst.dst) inst.bytes (inst.imm.signExtend 64))
    else .fault
  | 0x03 =>
    match inst.opcode &&& 0xe0 with
    | 0x60 => .ofOption
        (E.storeAt s (inst.address s inst.dst) inst.bytes (s.regs (.ofField inst.src)))
    | 0xc0 => .ofOption (inst.atomic E s)
    | _ => .fault
  | 0x04 | 0x07 => .ofOption ((inst.alu E s).map (s.set (.ofField inst.dst)))
  | 0x05 | 0x06 => inst.jump E s
  | _ => .fault

end EbpfInst

/-! ## Instructions -/

def BinOp.eval (op : BinOp) {w : ℕ} (a b : BitVec w) : BitVec w :=
  match op with
  | .mov => b
  | .add => a + b
  | .sub => a - b
  | .mul => a * b
  | .udiv => a / b
  | .umod => a % b
  | .or => a ||| b
  | .and => a &&& b
  | .lsh => a <<< (b.toNat % w)
  | .rsh => a >>> (b.toNat % w)
  | .arsh => a.sshiftRight (b.toNat % w)
  | .xor => a ^^^ b
  | .sdiv => a.sdiv b
  | .smod => a.srem b
  | .movsx8 => (b.setWidth 8).signExtend w
  | .movsx16 => (b.setWidth 16).signExtend w
  | .movsx32 => (b.setWidth 32).signExtend w

def Bin.eval (b : Bin) (s : State M) : BitVec 64 :=
  let x := s.regs b.dst
  let y := s.value b.v
  if b.is64 then b.op.eval x y else (b.op.eval (x.setWidth 32) (y.setWidth 32)).setWidth 64

/-- The low `n` bytes in an order of bytes. -/
def toOrder (E : Env M) (big : Bool) (n : ℕ) (v : BitVec 64) : BitVec 64 :=
  if E.bigEndian = big then truncate n v else reverseBytes n v

def Un.eval (E : Env M) (u : Un) (v : BitVec 64) : BitVec 64 :=
  match u.op with
  | .be16 => toOrder E true 2 v
  | .be32 => toOrder E true 4 v
  | .be64 => toOrder E true 8 v
  | .le16 => toOrder E false 2 v
  | .le32 => toOrder E false 4 v
  | .le64 => toOrder E false 8 v
  | .swap16 => reverseBytes 2 v
  | .swap32 => reverseBytes 4 v
  | .swap64 => reverseBytes 8 v
  | .neg => if u.is64 then -v else (-(v.setWidth 32)).setWidth 64

def AtomicOp.eval (op : AtomicOp) {w : ℕ} (old src r0 : BitVec w) : BitVec w :=
  match op with
  | .add => old + src
  | .or => old ||| src
  | .and => old &&& src
  | .xor => old ^^^ src
  | .xchg => src
  | .cmpxchg => if old = r0 then src else old

def ConditionOp.eval (op : ConditionOp) {w : ℕ} (a b : BitVec w) : Bool :=
  match op with
  | .eq => a = b
  | .ne => a ≠ b
  | .set => a &&& b ≠ 0
  | .nset => a &&& b = 0
  | .lt => a < b
  | .le => a ≤ b
  | .gt => b < a
  | .ge => b ≤ a
  | .slt => a.slt b
  | .sle => a.sle b
  | .sgt => b.slt a
  | .sge => b.sle a

def Condition.eval (c : Condition) (s : State M) : Bool :=
  let x := s.regs c.left
  let y := s.value c.right
  if c.is64 then c.op.eval x y else c.op.eval (x.setWidth 32) (y.setWidth 32)

def Deref.address (a : Deref) (s : State M) : BitVec 64 :=
  s.regs a.basereg + BitVec.ofInt 64 a.offset

/-- What the instruction does, if it has no target. A load has a register for its value. -/
def Operation.effect (E : Env M) (s : State M) : Operation → Effect Label M
  | .bin b => .next (s.set b.dst (b.eval s))
  | .un u => .next (s.set u.dst (u.eval E (s.regs u.dst)))
  | .loadMapFd dst mapfd => .next (s.set dst (E.mapFd mapfd))
  | .loadMapAddress dst mapfd offset => .next (s.set dst (E.mapAddress mapfd offset))
  | .callx func => .ofOption (E.helper s (s.regs func))
  | .mem ⟨access, .inl r, true⟩ =>
    .ofOption (E.loadInto s r (access.address s) access.width.toNat)
  | .mem ⟨_, .inr _, true⟩ => .fault
  | .mem ⟨access, v, false⟩ =>
    .ofOption (E.storeAt s (access.address s) access.width.toNat (s.value v))
  | .packet p => .ofOption (E.packet s p.width.toNat p.offset (p.regoffset.map s.regs))
  | .atomic a => .ofOption (E.exchange s (a.access.address s) a.access.width.toNat
      (fun old => some (a.op.eval old ((s.regs a.valreg).setWidth _) ((s.regs 0).setWidth _)))
      (if a.fetch then some (if a.op = .cmpxchg then 0 else a.valreg) else none))

/-- What the instruction does. The decoder makes none of the kinds of the last case. -/
def Instruction.effect (E : Env M) (s : State M) : IsaInstruction → Effect Label M
  | .other o => o.effect E s
  | .jmp none target => .goto target
  | .jmp (some cond) target => if cond.eval s then .goto target else .next s
  | .call c _ => .ofOption (E.helper s (c.func.signExtend 64))
  | .callLocal target _ => .call target
  | .exit _ => .exit
  | _ => .fault

/-- The label that a jump or a local call names. -/
def Instruction.target? : IsaInstruction → Option Label
  | .jmp _ target => some target
  | .callLocal target _ => some target
  | _ => none

theorem Instruction.target?_of_effect {E : Env M} {s : State M} {ins : IsaInstruction} {l : Label}
    (h : Instruction.effect E s ins = .goto l ∨ Instruction.effect E s ins = .call l) :
    Instruction.target? ins = some l := by
  have hop : ∀ s? : Option (State M), ¬ (Effect.ofOption s? = .goto l ∨ Effect.ofOption s? = .call l) := by
    rintro (_ | _) (h | h) <;> cases h
  cases ins with
  | jmp cond target =>
    cases cond with
    | none =>
      rcases h with h | h <;> cases h
      rfl
    | some cond =>
      unfold Instruction.effect at h
      dsimp only at h
      split_ifs at h
      · rcases h with h | h <;> cases h
        rfl
      · rcases h with h | h <;> cases h
  | callLocal target f =>
    rcases h with h | h <;> cases h
    rfl
  | call c f => exact absurd h (hop _)
  | other o =>
    cases o with
    | mem m =>
      obtain ⟨access, r | i, _ | _⟩ := m
      · exact absurd h (hop _)
      · exact absurd h (hop _)
      · exact absurd h (hop _)
      · rcases h with h | h <;> cases h
    | callx _ | packet _ | atomic _ => exact absurd h (hop _)
    | bin _ | un _ | loadMapFd _ _ | loadMapAddress _ _ _ => rcases h with h | h <;> cases h
  | undefined _ | exit _ | assume _ _ | incrementLoopCounter _ => rcases h with h | h <;> cases h

end Prevail
