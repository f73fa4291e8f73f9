import Prevail.Isa.Marshal
import Prevail.Isa.Unmarshal

/-!
# Arithmetic and memory, encoded and decoded

`IsIsa` describes the instructions that the decoder makes, `Encodable` those that the encoder does
not change: an immediate that is not the number of a non-negative `int32_t` cannot be encoded, a
condition on 32 bits is encoded as one on 64 bits, and the distance of a local call is lost if it
fits 16 bits. `RoundTrips` says that decoding the words of an instruction gives it back; here it is
shown for the instructions without a target.
-/

namespace Prevail

open DecodeError Unmarshaller

variable {P : Platform} {pc : ℕ}

/-! ## Registers and immediates -/

theorem Reg.toNat_toField {r : Reg} (h : r ≤ 10) : r.toField.toNat = r.toNat := by
  have hr : r.toNat ≤ 10 := h
  unfold Reg.toField
  rw [BitVec.toNat_ofNat, Nat.mod_eq_of_lt (by omega)]

theorem Reg.ofField_toField {r : Reg} (h : r ≤ 10) : Reg.ofField r.toField = r := by
  unfold Reg.ofField
  rw [Reg.toNat_toField h]
  exact UInt8.ofNat_toNat

theorem Reg.toField_le {r : Reg} (h : r ≤ 10) : r.toField ≤ 10 := by
  rw [BitVec.le_def, Reg.toNat_toField h]
  exact h

theorem Reg.lt_toField {r : Reg} (h : r ≤ 10) : (10#4 < r.toField) = False :=
  eq_false (BitVec.not_lt.mpr (Reg.toField_le h))

theorem Reg.toField_ne {r : Reg} (h : r ≤ 9) : r.toField ≠ 10 := by
  have hr : r.toNat ≤ 9 := h
  intro heq
  have htoNat := congrArg BitVec.toNat heq
  rw [Reg.toNat_toField (show r ≤ 10 from le_trans (b := 9) h (by decide))] at htoNat
  rw [htoNat] at hr
  exact absurd hr (by decide)

theorem toNat_signExtendImm (i : BitVec 32) : (signExtendImm i).toNat =
    if i.toNat < 2 ^ 31 then i.toNat else i.toNat + (2 ^ 64 - 2 ^ 32) := by
  have hi := i.isLt
  show (i.signExtend 64).toNat = _
  rw [BitVec.toNat_signExtend, BitVec.toNat_setWidth, Nat.mod_eq_of_lt (by omega),
    BitVec.msb_eq_decide]
  split_ifs with h₁ h₂ h₂ <;> simp only [decide_eq_true_eq] at h₁ <;> omega

theorem toNat_zeroExtendImm (i : BitVec 32) : (zeroExtendImm i).toNat = i.toNat := by
  have hi := i.isLt
  show (i.setWidth 64).toNat = _
  rw [BitVec.toNat_setWidth, Nat.mod_eq_of_lt (by omega)]

/-- An immediate is encoded when it is the number of a non-negative `int32_t`. -/
theorem narrowImm_eq {v : UInt64} {i : BitVec 32}
    (hv : v.toNat = i.toNat ∨ 2 ^ 31 ≤ v.toNat ∧ 2 ^ 31 ≤ i.toNat) :
    narrowImm v = if i.toNat < 2 ^ 31 then .ok i else .error .narrowing := by
  have hi := i.isLt
  unfold narrowImm
  rcases hv with hv | ⟨hv, hi'⟩
  · rw [hv]
    split_ifs
    · congr 1
      refine BitVec.eq_of_toNat_eq ?_
      rw [BitVec.toNat_setWidth]
      show v.toNat % _ = _
      rw [hv, Nat.mod_eq_of_lt hi]
    · rfl
  · rw [if_neg hv.not_gt, if_neg hi'.not_gt]

theorem narrowImm_signExtendImm (i : BitVec 32) :
    narrowImm (signExtendImm i) = if i.toNat < 2 ^ 31 then .ok i else .error .narrowing := by
  refine narrowImm_eq ?_
  rw [toNat_signExtendImm]
  split_ifs with h
  · exact Or.inl rfl
  · exact Or.inr ⟨by omega, by omega⟩

theorem narrowImm_zeroExtendImm (i : BitVec 32) :
    narrowImm (zeroExtendImm i) = if i.toNat < 2 ^ 31 then .ok i else .error .narrowing :=
  narrowImm_eq (Or.inl (toNat_zeroExtendImm i))

theorem mergeImm_split (v : UInt64) :
    mergeImm (v.toBitVec.extractLsb' 0 32) (v.toBitVec.extractLsb' 32 32) = v := by
  refine UInt64.toBitVec_inj.mp ?_
  show ((v.toBitVec.extractLsb' 32 32).signExtend 64 <<< 32 |||
    (v.toBitVec.extractLsb' 0 32).setWidth 64) = v.toBitVec
  refine BitVec.eq_of_getLsbD_eq fun i hi => ?_
  by_cases h : i < 32
  · simp [hi, h]
  · have hlt : i - 32 < 64 := by omega
    have hlt' : i - 32 < 32 := by omega
    have hsub : 32 + (i - 32) = i := by omega
    simp [hi, h, BitVec.getElem_signExtend, hlt', hsub]

/-! ## The instructions of the decoder -/

/-- The operations that need `divmul`. -/
def BinOp.isDivmul : BinOp → Bool
  | .mul | .udiv | .umod | .sdiv | .smod => true
  | _ => false

/-- The moves that extend the sign. -/
def BinOp.isMovsx : BinOp → Bool
  | .movsx8 | .movsx16 | .movsx32 => true
  | _ => false

inductive Bin.IsIsa (P : Platform) : Bin → Prop
  | lddw {dst : Reg} {imm : UInt64} (hg : P.supportsGroup .base64) (hd : dst ≤ 10) :
    IsIsa P ⟨.mov, dst, .inr imm, true, true⟩
  | reg {op : BinOp} {dst right : Reg} {is64 : Bool} (hg : P.supportsGroup (base is64))
    (hm : op.isDivmul → P.supportsGroup (divmul is64)) (hd : dst ≤ 9) (hr : right ≤ 10) :
    IsIsa P ⟨op, dst, .inl right, is64, false⟩
  | imm {op : BinOp} {dst : Reg} {right : BitVec 32} {is64 : Bool} (hg : P.supportsGroup (base is64))
    (hm : op.isDivmul → P.supportsGroup (divmul is64)) (hx : op.isMovsx = false) (hd : dst ≤ 9) :
    IsIsa P ⟨op, dst, .inr (signExtendImm right), is64, false⟩

/-- The group of a byte swap of a size. -/
def UnOp.group : UnOp → ConformanceGroup
  | .be64 | .le64 | .swap64 => .base64
  | _ => .base32

/-- The widths with which an operation comes. -/
def UnOp.comesWith (op : UnOp) (is64 : Bool) : Bool :=
  match op with
  | .neg => true
  | .swap16 | .swap32 | .swap64 => is64
  | _ => !is64

structure Un.IsIsa (P : Platform) (u : Un) : Prop where
  base : P.supportsGroup (base u.is64)
  group : u.op ≠ .neg → P.supportsGroup u.op.group
  width : u.op.comesWith u.is64
  dst : u.dst ≤ 9

structure Deref.IsIsa (P : Platform) (a : Deref) : Prop where
  width : a.width = 1 ∨ a.width = 2 ∨ a.width = 4 ∨ a.width = 8
  base : P.supportsGroup (base (a.width = 8))
  basereg : a.basereg ≤ 10
  offset : Number.FitsS 16 a.offset

inductive Mem.IsIsa (P : Platform) : Mem → Prop
  | load {access : Deref} {r : Reg} (ha : access.IsIsa P) (hr : r ≤ 9) :
    IsIsa P ⟨access, .inl r, true⟩
  | storeReg {access : Deref} {r : Reg} (ha : access.IsIsa P) (hr : r ≤ 10) :
    IsIsa P ⟨access, .inl r, false⟩
  | storeImm {access : Deref} {imm : BitVec 32} (ha : access.IsIsa P) :
    IsIsa P ⟨access, .inr (zeroExtendImm imm), false⟩

structure Packet.IsIsa (P : Platform) (p : Packet) : Prop where
  width : p.width = 1 ∨ p.width = 2 ∨ p.width = 4
  base : P.supportsGroup .base32
  packet : P.supportsGroup .packet
  regoffset : ∀ r, p.regoffset = some r → r ≤ 10

structure Atomic.IsIsa (P : Platform) (a : Atomic) : Prop where
  access : a.access.IsIsa P
  width : a.access.width = 4 ∨ a.access.width = 8
  group : P.supportsGroup (if a.access.width = 8 then .atomic64 else .atomic32)
  valreg : a.valreg ≤ 10
  fetch : a.op = .xchg ∨ a.op = .cmpxchg → a.fetch

/-- The condition of a jump. -/
inductive Condition.IsIsa (P : Platform) : Condition → Prop
  | reg {op : ConditionOp} {left right : Reg} {is64 : Bool} (hg : P.supportsGroup (base is64))
    (ho : op ≠ .nset) (hl : left ≤ 10) (hr : right ≤ 10) : IsIsa P ⟨op, left, .inl right, is64⟩
  | imm {op : ConditionOp} {left : Reg} {right : BitVec 32} {is64 : Bool}
    (hg : P.supportsGroup (base is64)) (ho : op ≠ .nset) (hl : left ≤ 10) :
    IsIsa P ⟨op, left, .inr (signExtendImm right), is64⟩

/-- A label of an instruction, at a distance of at most `w` bits from `pc`. -/
def Target (w pc : ℕ) (l : Label) : Prop :=
  ∃ n : ℕ, l = .ofIndex n ∧ n < 2 ^ 31 ∧ Number.FitsS w (n - pc - 1)

/-- The instructions that the decoder makes at `pc`. -/
inductive IsIsa (P : Platform) (pc : ℕ) : IsaInstruction → Prop
  | bin {b : Bin} (h : b.IsIsa P) : IsIsa P pc (.other (.bin b))
  | un {u : Un} (h : u.IsIsa P) : IsIsa P pc (.other (.un u))
  | loadMapFd {dst : Reg} {mapfd : BitVec 32} (hg : P.supportsGroup .base64) (hd : dst ≤ 10) :
    IsIsa P pc (.other (.loadMapFd dst mapfd))
  | loadMapAddress {dst : Reg} {mapfd offset : BitVec 32} (hg : P.supportsGroup .base64)
    (hd : dst ≤ 10) : IsIsa P pc (.other (.loadMapAddress dst mapfd offset))
  | callx {func : Reg} (hg : P.supportsGroup .base32) (hx : P.supportsGroup .callx)
    (hf : func ≤ 10) : IsIsa P pc (.other (.callx func))
  | mem {m : Mem} (h : m.IsIsa P) : IsIsa P pc (.other (.mem m))
  | packet {p : Packet} (h : p.IsIsa P) : IsIsa P pc (.other (.packet p))
  | atomic {a : Atomic} (h : a.IsIsa P) : IsIsa P pc (.other (.atomic a))
  | call {c : CallInfo} (hg : P.supportsGroup .base32) (hu : P.isHelperUsable c.func)
    (hc : makeCall P c.func = .ok c) : IsIsa P pc (.call c [])
  | callLocal {target : Label} (hg : P.supportsGroup .base32) (ht : Target 32 pc target) :
    IsIsa P pc (.callLocal target [])
  | exit (hg : P.supportsGroup .base32) : IsIsa P pc (.exit [])
  | goto {target : Label} (hg : P.supportsGroup .base32) (ht : Target 32 pc target) :
    IsIsa P pc (.jmp none target)
  | jmp {cond : Condition} {target : Label} (h : cond.IsIsa P) (ht : Target 16 pc target) :
    IsIsa P pc (.jmp (some cond) target)

/-! ## What is given back -/

/-- The value is a register, or a number of a non-negative `int32_t`. -/
def Value.Narrow : Value → Prop
  | .inl _ => True
  | .inr imm => imm.toNat < 2 ^ 31

/-- What the encoder does not lose. -/
def Encodable (P : Platform) (pc : ℕ) : IsaInstruction → Prop
  | .other (.bin b) => b.lddw = false → Value.Narrow b.v
  | .other (.mem m) => Value.Narrow m.value
  | .jmp (some c) _ => c.is64 = true ∧ Value.Narrow c.right
  | .jmp none target => P.supportsGroup .base64 ∨ ¬ Number.FitsS 16 (target.src - pc - 1)
  | .callLocal target _ => target.src = pc + 1 ∨ ¬ Number.FitsS 16 (target.src - pc - 1)
  | _ => True

/-- The labels that an instruction refers to. -/
def targets : IsaInstruction → List Label
  | .jmp _ target => [target]
  | .callLocal target _ => [target]
  | _ => []

/-- The word after the instruction is not merged with it: the instruction is not a left shift by 32,
    or the word is not a right shift by 32. -/
def Unmerged (P : Platform) (pc : ℕ) (ins : IsaInstruction) (next? : Option EbpfInst) : Prop :=
  ∀ dst next, ins = shift32 dst .lsh → next? = some next → next.cls = 0x07 →
    ∃ i, makeAluOp P (pc + 1) next = .ok i ∧ i ≠ shift32 dst .rsh ∧ i ≠ shift32 dst .arsh

/-- A program with the words of an instruction at `pc`. Its targets are instructions of the program,
    and the next word is not merged with it. -/
structure Around (P : Platform) (pc : ℕ) (ins : IsaInstruction) (words insts after : List EbpfInst) :
    Prop where
  words : insts.drop pc = words ++ after
  target : ∀ l ∈ targets ins, ∃ w, insts[l.src.toNat]? = some w ∧ w.opcode ≠ 0
  unmerged : Unmerged P pc ins after.head?

/-- Encoding an instruction at `pc` succeeds, and decoding its words there gives it back. -/
def RoundTrips (P : Platform) (pc : ℕ) (ins : IsaInstruction) : Prop :=
  ∃ w rest, marshal pc ins = .ok (w :: rest) ∧ ∀ insts after, Around P pc ins (w :: rest) insts after →
    decode P insts pc w (rest ++ after).head? = .ok (ins, !rest.isEmpty)

/-! ## Arithmetic -/

theorem decode_alu {insts : List EbpfInst} {w : EbpfInst} {next? : Option EbpfInst}
    {ins : IsaInstruction} (hcls : w.cls = 0x04 ∨ w.cls = 0x07) (h : makeAluOp P pc w = .ok ins)
    (hun : Unmerged P pc ins next?) : decode P insts pc w next? = .ok (ins, false) := by
  have hmerge : mergeShifts P pc w ins next? = .ok (ins, false) := by
    unfold mergeShifts
    cases next? with
    | none => rfl
    | some next =>
      dsimp only
      split_ifs with hne hcls
      · rfl
      · rfl
      · obtain ⟨i, hi, hrsh, harsh⟩ := hun _ next (not_not.mp hne) rfl (not_not.mp hcls)
        rw [hi]
        show (if i = _ then _ else _) = _
        rw [if_neg hrsh, if_neg harsh]
        rfl
  unfold decode
  rcases hcls with hcls | hcls
  · rw [hcls, h]
    exact hmerge
  · rw [hcls, h]
    exact hmerge

/-- The opcode of an operation on two operands. -/
def aluOpcode (is64 : Bool) (op : BinOp) : Bool → BitVec 8
  | true => Marshal.alu is64 ||| op.code <<< 4 ||| 0x08
  | false => Marshal.alu is64 ||| op.code <<< 4

theorem cls_aluOpcode (is64 : Bool) (op : BinOp) (isReg : Bool) :
    aluOpcode is64 op isReg &&& 0x07 = Marshal.alu is64 := by
  cases is64 <;> cases op <;> cases isReg <;> decide

theorem srcReg_aluOpcode (is64 : Bool) (op : BinOp) (isReg : Bool) :
    (aluOpcode is64 op isReg &&& 0x08 ≠ 0) ↔ isReg = true := by
  cases is64 <;> cases op <;> cases isReg <;> decide

theorem alu_eq_iff (is64 : Bool) : Marshal.alu is64 = 0x07 ↔ is64 = true := by
  cases is64 <;> decide

theorem getAluOp_bin {is64 isReg : Bool} {op : BinOp} {dst src : BitVec 4} {imm : BitVec 32}
    (hm : op.isDivmul → P.supportsGroup (divmul is64)) (hx : op.isMovsx → isReg) :
    getAluOp P pc ⟨aluOpcode is64 op isReg, dst, src, op.offset, imm⟩ = .ok (.inl op) := by
  cases isReg <;> cases is64 <;> cases op <;>
    simp [getAluOp, getDivOp, getPlainAluOp, EbpfInst.cls, EbpfInst.srcReg, BinOp.code,
      BinOp.offset, Marshal.alu, divmul, aluOpcode, BinOp.isDivmul, BinOp.isMovsx] at * <;>
    simp [hm]

theorem makeAluOp_bin {is64 isReg : Bool} {op : BinOp} {dst : Reg} {src : BitVec 4}
    {imm : BitVec 32} {v : Value} (hg : P.supportsGroup (base is64))
    (hm : op.isDivmul → P.supportsGroup (divmul is64)) (hx : op.isMovsx → isReg) (hd : dst ≤ 9)
    (hs : src ≤ 10)
    (hv : getBinValue pc ⟨aluOpcode is64 op isReg, dst.toField, src, op.offset, imm⟩ = .ok v) :
    makeAluOp P pc ⟨aluOpcode is64 op isReg, dst.toField, src, op.offset, imm⟩ =
      .ok (.other (.bin ⟨op, dst, v, is64, false⟩)) := by
  have hd' : dst ≤ 10 := le_trans (b := 9) hd (by decide)
  have hcls : (EbpfInst.cls ⟨aluOpcode is64 op isReg, dst.toField, src, op.offset, imm⟩ = 0x07) ↔
      is64 = true := by
    unfold EbpfInst.cls
    rw [cls_aluOpcode, alu_eq_iff]
  unfold makeAluOp
  simp only [hcls, Bool.decide_eq_true, hg, Bool.not_true, Bool.false_eq_true, if_false,
    if_neg (Reg.toField_ne hd), BitVec.not_lt.mpr (Reg.toField_le hd'), BitVec.not_lt.mpr hs,
    or_self, getAluOp_bin hm hx, hv, Reg.ofField_toField hd']
  rfl

theorem getBinValue_reg {opcode : BitVec 8} {dst : BitVec 4} {r : Reg} {offset : BitVec 16}
    (hop : opcode &&& 0x08 ≠ 0) (hr : r ≤ 10) :
    getBinValue pc ⟨opcode, dst, r.toField, offset, 0⟩ = .ok (.inl r) := by
  unfold getBinValue EbpfInst.srcReg
  simp only [hop, ne_eq, not_false_eq_true, decide_true, if_true, not_true, if_false,
    Reg.ofField_toField hr]

theorem getBinValue_imm {opcode : BitVec 8} {dst : BitVec 4} {offset : BitVec 16}
    {imm : BitVec 32} (hop : ¬ (opcode &&& 0x08 ≠ 0)) :
    getBinValue pc ⟨opcode, dst, 0, offset, imm⟩ = .ok (.inr (signExtendImm imm)) := by
  unfold getBinValue EbpfInst.srcReg
  simp only [hop, decide_false, Bool.false_eq_true, if_false, ne_eq, not_true]

theorem decode_lddw {insts : List EbpfInst} {w : EbpfInst} {next? : Option EbpfInst}
    {ins : IsaInstruction} (hop : w.opcode = 0x18) (h : makeLddw P pc w next? = .ok ins) :
    decode P insts pc w next? = .ok (ins, true) := by
  have hcls : w.cls = 0x00 := by
    unfold EbpfInst.cls
    rw [hop]
    rfl
  unfold decode
  rw [hcls]
  show (if w.opcode = 0x18 then _ else _) = _
  rw [if_pos hop, h]
  rfl

theorem makeLddw_imm {dst : Reg} {imm nextImm : BitVec 32} (hg : P.supportsGroup .base64)
    (hd : dst ≤ 10) : makeLddw P pc ⟨0x18, dst.toField, 0, 0, imm⟩ (some ⟨0, 0, 0, 0, nextImm⟩) =
      .ok (.other (.bin ⟨.mov, dst, .inr (mergeImm imm nextImm), true, true⟩)) := by
  simp [makeLddw, hg, Reg.ofField_toField hd]
  exact Reg.toField_le hd

theorem makeLddw_mapFd {dst : Reg} {mapfd : BitVec 32} (hg : P.supportsGroup .base64)
    (hd : dst ≤ 10) : makeLddw P pc ⟨0x18, dst.toField, 1, 0, mapfd⟩ (some ⟨0, 0, 0, 0, 0⟩) =
      .ok (.other (.loadMapFd dst mapfd)) := by
  simp [makeLddw, hg, Reg.ofField_toField hd]
  exact Reg.toField_le hd

theorem makeLddw_mapValue {dst : Reg} {mapfd offset : BitVec 32} (hg : P.supportsGroup .base64)
    (hd : dst ≤ 10) : makeLddw P pc ⟨0x18, dst.toField, 2, 0, mapfd⟩ (some ⟨0, 0, 0, 0, offset⟩) =
      .ok (.other (.loadMapAddress dst mapfd offset)) := by
  simp [makeLddw, hg, Reg.ofField_toField hd]
  exact Reg.toField_le hd

/-- The word of an arithmetic instruction is given back. -/
theorem roundTrips_alu {w : EbpfInst} {ins : IsaInstruction} (hm : marshal pc ins = .ok [w])
    (hcls : w.cls = 0x04 ∨ w.cls = 0x07) (h : makeAluOp P pc w = .ok ins) :
    RoundTrips P pc ins :=
  ⟨w, [], hm, fun _ _ ha => decode_alu hcls h ha.unmerged⟩

theorem cls_alu (is64 : Bool) (op : BinOp) (isReg : Bool) :
    aluOpcode is64 op isReg &&& 0x07 = 0x04 ∨ aluOpcode is64 op isReg &&& 0x07 = 0x07 := by
  rw [cls_aluOpcode]
  cases is64
  · exact Or.inl rfl
  · exact Or.inr rfl

theorem marshal_bin_reg (op : BinOp) (dst right : Reg) (is64 : Bool) :
    marshal pc (.other (.bin ⟨op, dst, .inl right, is64, false⟩)) =
      .ok [⟨aluOpcode is64 op true, dst.toField, right.toField, op.offset, 0⟩] := rfl

theorem marshal_bin_imm (op : BinOp) (dst : Reg) (right : BitVec 32) (is64 : Bool) :
    marshal pc (.other (.bin ⟨op, dst, .inr (signExtendImm right), is64, false⟩)) =
      if right.toNat < 2 ^ 31 then
        .ok [⟨aluOpcode is64 op false, dst.toField, 0, op.offset, right⟩]
      else .error .narrowing := by
  show (narrowImm _ >>= _) = _
  rw [narrowImm_signExtendImm]
  split_ifs <;> rfl

theorem narrow_signExtendImm (i : BitVec 32) :
    Value.Narrow (.inr (signExtendImm i)) ↔ i.toNat < 2 ^ 31 := by
  unfold Value.Narrow
  dsimp only
  rw [toNat_signExtendImm]
  split_ifs with h
  · rfl
  · omega

theorem roundTrips_bin {b : Bin} (h : b.IsIsa P) (he : Encodable P pc (.other (.bin b))) :
    RoundTrips P pc (.other (.bin b)) := by
  cases h with
  | @lddw dst imm hg hd =>
    refine ⟨_, _, rfl, fun insts after _ => decode_lddw rfl ?_⟩
    rw [List.cons_append, List.head?_cons, makeLddw_imm hg hd, mergeImm_split]
  | @reg op dst right is64 hg hm hd hr =>
    refine roundTrips_alu (marshal_bin_reg op dst right is64) (cls_alu is64 op true) ?_
    exact makeAluOp_bin hg hm (fun _ => rfl) hd (Reg.toField_le hr)
      (getBinValue_reg ((srcReg_aluOpcode is64 op true).mpr rfl) hr)
  | @imm op dst right is64 hg hm hx hd =>
    have hlt : right.toNat < 2 ^ 31 := (narrow_signExtendImm right).mp (he rfl)
    refine roundTrips_alu ((marshal_bin_imm op dst right is64).trans (if_pos hlt))
      (cls_alu is64 op false) ?_
    refine makeAluOp_bin hg hm (fun h => ?_) hd (by decide) (getBinValue_imm ?_)
    · rw [hx] at h
      cases h
    · rw [srcReg_aluOpcode]
      exact Bool.false_ne_true

/-- The opcode of an operation on one operand. -/
def unOpcode (is64 : Bool) : UnOp → BitVec 8
  | .neg => Marshal.alu is64 ||| 0x80
  | .le16 | .le32 | .le64 => 0xd4
  | .be16 | .be32 | .be64 => 0xdc
  | .swap16 | .swap32 | .swap64 => 0xd7

theorem marshal_un (op : UnOp) (dst : Reg) (is64 : Bool) :
    marshal pc (.other (.un ⟨op, dst, is64⟩)) =
      .ok [⟨unOpcode is64 op, dst.toField, 0, 0, op.immEndian⟩] := by
  cases op <;> rfl

theorem cls_unOpcode {op : UnOp} {is64 : Bool} (h : op.comesWith is64) :
    unOpcode is64 op &&& 0x07 = Marshal.alu is64 := by
  cases op <;> cases is64 <;> revert h <;> decide

theorem getAluOp_un {op : UnOp} {is64 : Bool} {dst : BitVec 4} (hw : op.comesWith is64)
    (hg : op ≠ .neg → P.supportsGroup op.group) :
    getAluOp P pc ⟨unOpcode is64 op, dst, 0, 0, op.immEndian⟩ = .ok (.inr op) := by
  cases op <;> cases is64 <;>
    simp [getAluOp, getPlainAluOp, endian, EbpfInst.cls, EbpfInst.srcReg, unOpcode, Marshal.alu,
      UnOp.immEndian, UnOp.comesWith, UnOp.group] at * <;>
    exact hg

theorem roundTrips_un {u : Un} (h : u.IsIsa P) : RoundTrips P pc (.other (.un u)) := by
  obtain ⟨op, dst, is64⟩ := u
  obtain ⟨hg, hgroup, hw, hd⟩ := h
  have hd' : dst ≤ 10 := le_trans (b := 9) hd (by decide)
  have hcls : unOpcode is64 op &&& 0x07 = Marshal.alu is64 := cls_unOpcode hw
  refine roundTrips_alu (marshal_un op dst is64) ?_ ?_
  · unfold EbpfInst.cls
    rw [hcls]
    cases is64
    · exact Or.inl rfl
    · exact Or.inr rfl
  · have hcls' : (EbpfInst.cls ⟨unOpcode is64 op, dst.toField, 0, 0, op.immEndian⟩ = 0x07) ↔
        is64 = true := by
      unfold EbpfInst.cls
      rw [hcls, alu_eq_iff]
    have hzero : ¬ (10 : BitVec 4) < 0 := by decide
    unfold makeAluOp
    simp only [hcls', Bool.decide_eq_true, hg, Bool.not_true, Bool.false_eq_true, if_false,
      if_neg (Reg.toField_ne hd), BitVec.not_lt.mpr (Reg.toField_le hd'), hzero, or_self,
      getAluOp_un hw hgroup, Reg.ofField_toField hd']
    rfl

/-! ## Maps and registers to call -/

theorem roundTrips_loadMapFd {dst : Reg} {mapfd : BitVec 32} (hg : P.supportsGroup .base64)
    (hd : dst ≤ 10) : RoundTrips P pc (.other (.loadMapFd dst mapfd)) :=
  ⟨_, _, rfl, fun _ _ _ => decode_lddw rfl (makeLddw_mapFd hg hd)⟩

theorem roundTrips_loadMapAddress {dst : Reg} {mapfd offset : BitVec 32}
    (hg : P.supportsGroup .base64) (hd : dst ≤ 10) :
    RoundTrips P pc (.other (.loadMapAddress dst mapfd offset)) :=
  ⟨_, _, rfl, fun _ _ _ => decode_lddw rfl (makeLddw_mapValue hg hd)⟩

/-! ## Memory -/

theorem decode_mem {insts : List EbpfInst} {w : EbpfInst} {next? : Option EbpfInst}
    {ins : IsaInstruction} (hcls : w.cls < 0x04) (hop : w.opcode ≠ 0x18)
    (h : makeMemOp P pc w = .ok ins) : decode P insts pc w next? = .ok (ins, false) := by
  have hcases : w.cls = 0x00 ∨ w.cls = 0x01 ∨ w.cls = 0x02 ∨ w.cls = 0x03 := by
    generalize w.cls = c at hcls
    revert c
    decide
  unfold decode
  rcases hcases with hcls | hcls | hcls | hcls
  · rw [hcls]
    show (if w.opcode = 0x18 then _ else _) = _
    rw [if_neg hop, h]
    rfl
  all_goals
    rw [hcls]
    show (makeMemOp P pc w >>= _) = _
    rw [h]
    rfl

theorem narrowOffset_eq {n : ℤ} (h : Number.FitsS 16 n) : narrowOffset n = .ok (BitVec.ofInt 16 n) :=
  if_pos h

theorem toInt_ofInt {w : ℕ} {n : ℤ} (hw : 0 < w) (h : Number.FitsS w n) :
    (BitVec.ofInt w n).toInt = n := by
  unfold Number.FitsS Number.minInt Number.maxInt at h
  exact BitVec.toInt_ofInt_eq_self hw h.1 (by omega)

/-- The code of a width. -/
inductive WidthCode : ℤ → BitVec 8 → Prop
  | byte : WidthCode 1 0x10
  | half : WidthCode 2 0x08
  | word : WidthCode 4 0x00
  | double : WidthCode 8 0x18

theorem exists_widthCode {width : ℤ} (h : width = 1 ∨ width = 2 ∨ width = 4 ∨ width = 8) :
    ∃ code, WidthCode width code ∧ widthToOpcode width = .ok code := by
  rcases h with rfl | rfl | rfl | rfl
  · exact ⟨_, .byte, rfl⟩
  · exact ⟨_, .half, rfl⟩
  · exact ⟨_, .word, rfl⟩
  · exact ⟨_, .double, rfl⟩

/-- An opcode of a load or store. -/
structure LoadStoreOpcode (opcode cls code : BitVec 8) : Prop where
  cls_eq : opcode &&& 0x07 = cls
  cls_lt : cls < 0x04
  cls_ne : cls ≠ 0x00
  mode : opcode &&& 0xe0 = 0x60
  size : opcode &&& 0x18 = code

theorem getMemWidth_eq {width : ℤ} {code : BitVec 8} (h : WidthCode width code) {w : EbpfInst}
    (hw : w.opcode &&& 0x18 = code) : getMemWidth w = width := by
  unfold getMemWidth
  rw [hw]
  cases h <;> rfl

theorem makeMemOp_loadStore {w : EbpfInst} (hb : P.supportsGroup (base (getMemWidth w = 8)))
    (hd : w.dst ≤ 10) (hs : w.src ≤ 10) (hmode : w.opcode &&& 0xe0 = 0x60) (hcls : w.cls ≠ 0x00) :
    makeMemOp P pc w = makeLoadStore pc w := by
  unfold makeMemOp
  simp only [BitVec.not_lt.mpr hd, BitVec.not_lt.mpr hs, or_self, if_false, hb, Bool.not_true,
    Bool.false_eq_true, hmode, hcls, decide_false]
  rfl

/-- The word of a load or store is given back, if its opcode and its fields are right. -/
theorem roundTrips_loadStore {access : Deref} {value : Value} {isLoad : Bool} {cls code : BitVec 8}
    {w : EbpfInst} (ha : access.IsIsa P)
    (hm : marshal pc (.other (.mem ⟨access, value, isLoad⟩)) = .ok [w])
    (hw : WidthCode access.width code) (hop : LoadStoreOpcode w.opcode cls code)
    (hd : w.dst ≤ 10) (hs : w.src ≤ 10)
    (h : makeLoadStore pc w = .ok (.other (.mem ⟨access, value, isLoad⟩))) :
    RoundTrips P pc (.other (.mem ⟨access, value, isLoad⟩)) := by
  have hcls : w.cls = cls := hop.cls_eq
  refine ⟨w, [], hm, fun insts after _ => decode_mem (hcls ▸ hop.cls_lt) (fun hlddw => ?_) ?_⟩
  · have hmode := hop.mode
    rw [hlddw] at hmode
    exact absurd hmode (by decide)
  · rw [makeMemOp_loadStore (getMemWidth_eq hw hop.size ▸ ha.base) hd hs hop.mode
      (hcls ▸ hop.cls_ne), h]

/-- The opcodes of a class, for each width. -/
theorem loadStoreOpcode {cls code : BitVec 8} {width : ℤ} (hw : WidthCode width code)
    (hcls : cls = 0x01 ∨ cls = 0x02 ∨ cls = 0x03) : LoadStoreOpcode (0x60 ||| code ||| cls) cls code := by
  rcases hcls with rfl | rfl | rfl <;> cases hw <;>
    exact ⟨by decide, by decide, by decide, by decide, by decide⟩

theorem roundTrips_load {access : Deref} {r : Reg} (ha : access.IsIsa P) (hr : r ≤ 9) :
    RoundTrips P pc (.other (.mem ⟨access, .inl r, true⟩)) := by
  obtain ⟨width, basereg, offset⟩ := access
  have hr' : r ≤ 10 := le_trans (b := 9) hr (by decide)
  have htoInt : (BitVec.ofInt 16 offset).toInt = offset := toInt_ofInt (by decide) ha.offset
  obtain ⟨code, hcode, hwidth⟩ := exists_widthCode ha.width
  have hop := loadStoreOpcode hcode (Or.inl rfl)
  refine roundTrips_loadStore (w := ⟨0x60 ||| code ||| 0x01, r.toField, basereg.toField,
    BitVec.ofInt 16 offset, 0⟩) ha ?_ hcode hop (Reg.toField_le hr') (Reg.toField_le ha.basereg) ?_
  · show (widthToOpcode width >>= _) = _
    rw [hwidth]
    show (narrowOffset offset >>= _) = _
    rw [narrowOffset_eq ha.offset]
    rfl
  · cases hcode <;>
      simp [makeLoadStore, EbpfInst.cls, getMemWidth, Reg.ofField_toField hr',
        Reg.ofField_toField ha.basereg, htoInt] <;>
      exact Reg.toField_ne hr

theorem roundTrips_storeReg {access : Deref} {r : Reg} (ha : access.IsIsa P) (hr : r ≤ 10) :
    RoundTrips P pc (.other (.mem ⟨access, .inl r, false⟩)) := by
  obtain ⟨width, basereg, offset⟩ := access
  have htoInt : (BitVec.ofInt 16 offset).toInt = offset := toInt_ofInt (by decide) ha.offset
  obtain ⟨code, hcode, hwidth⟩ := exists_widthCode ha.width
  have hop := loadStoreOpcode hcode (Or.inr (Or.inr rfl))
  refine roundTrips_loadStore (w := ⟨0x60 ||| code ||| 0x03, basereg.toField, r.toField,
    BitVec.ofInt 16 offset, 0⟩) ha ?_ hcode hop (Reg.toField_le ha.basereg) (Reg.toField_le hr) ?_
  · show (widthToOpcode width >>= _) = _
    rw [hwidth]
    show (narrowOffset offset >>= _) = _
    rw [narrowOffset_eq ha.offset]
    cases hcode <;> rfl
  · cases hcode <;>
      simp [makeLoadStore, EbpfInst.cls, getMemWidth, Reg.ofField_toField hr,
        Reg.ofField_toField ha.basereg, htoInt]

theorem marshal_storeImm {access : Deref} {code : BitVec 8} (ha : access.IsIsa P)
    (hwidth : widthToOpcode access.width = .ok code) (imm : BitVec 32) :
    marshal pc (.other (.mem ⟨access, .inr (zeroExtendImm imm), false⟩)) =
      if imm.toNat < 2 ^ 31 then .ok [⟨0x60 ||| code ||| 0x02, access.basereg.toField, 0,
        BitVec.ofInt 16 access.offset, imm⟩]
      else .error .narrowing := by
  show (widthToOpcode access.width >>= _) = _
  rw [hwidth]
  show (narrowOffset access.offset >>= _) = _
  rw [narrowOffset_eq ha.offset]
  show (narrowImm _ >>= _) = _
  rw [narrowImm_zeroExtendImm]
  split_ifs <;> rfl

theorem roundTrips_storeImm {access : Deref} {imm : BitVec 32} (ha : access.IsIsa P)
    (hlt : imm.toNat < 2 ^ 31) :
    RoundTrips P pc (.other (.mem ⟨access, .inr (zeroExtendImm imm), false⟩)) := by
  obtain ⟨code, hcode, hwidth⟩ := exists_widthCode ha.width
  have hop := loadStoreOpcode hcode (Or.inr (Or.inl rfl))
  have hmarshal : marshal pc _ = _ := (marshal_storeImm ha hwidth imm).trans (if_pos hlt)
  obtain ⟨width, basereg, offset⟩ := access
  have htoInt : (BitVec.ofInt 16 offset).toInt = offset := toInt_ofInt (by decide) ha.offset
  refine roundTrips_loadStore ha hmarshal hcode hop (Reg.toField_le ha.basereg)
    (show (0 : BitVec 4) ≤ 10 by decide) ?_
  cases hcode <;>
    simp [makeLoadStore, EbpfInst.cls, getMemWidth, Reg.ofField_toField ha.basereg, htoInt]

theorem narrow_zeroExtendImm (i : BitVec 32) :
    Value.Narrow (.inr (zeroExtendImm i)) ↔ i.toNat < 2 ^ 31 := by
  rw [← toNat_zeroExtendImm]
  rfl

theorem roundTrips_mem {m : Mem} (h : m.IsIsa P) (he : Encodable P pc (.other (.mem m))) :
    RoundTrips P pc (.other (.mem m)) := by
  cases h with
  | load ha hr => exact roundTrips_load ha hr
  | storeReg ha hr => exact roundTrips_storeReg ha hr
  | storeImm ha => exact roundTrips_storeImm ha ((narrow_zeroExtendImm _).mp he)

theorem roundTrips_packet {p : Packet} (h : p.IsIsa P) : RoundTrips P pc (.other (.packet p)) := by
  obtain ⟨width, offset, regoffset⟩ := p
  obtain ⟨hw, hb, hp, hr⟩ := h
  obtain ⟨code, hcode, hwidth⟩ := exists_widthCode (hw.imp_right (Or.imp_right Or.inl))
  cases regoffset with
  | none =>
    refine ⟨⟨code ||| 0x20, 0, 0, 0, offset⟩, [], ?_, fun insts after _ => decode_mem ?_ ?_ ?_⟩
    · show (widthToOpcode width >>= _) = _
      rw [hwidth]
      rfl
    · show (code ||| 0x20) &&& 0x07 < 0x04
      cases hcode <;> decide
    · show code ||| 0x20 ≠ 0x18
      cases hcode <;> decide
    · cases hcode <;> simp [makeMemOp, makePacket, getMemWidth, EbpfInst.cls, base, hb, hp] at hw ⊢
  | some r =>
    have hr' : r ≤ 10 := hr r rfl
    refine ⟨⟨code ||| 0x40, 0, r.toField, 0, offset⟩, [], ?_,
      fun insts after _ => decode_mem ?_ ?_ ?_⟩
    · show (widthToOpcode width >>= _) = _
      rw [hwidth]
      rfl
    · show (code ||| 0x40) &&& 0x07 < 0x04
      cases hcode <;> decide
    · show code ||| 0x40 ≠ 0x18
      cases hcode <;> decide
    · cases hcode <;>
        simp [makeMemOp, makePacket, getMemWidth, EbpfInst.cls, base, hb, hp,
          Reg.lt_toField hr', Reg.ofField_toField hr'] at hw ⊢

theorem exists_atomicImm (pc : ℕ) {op : AtomicOp} {fetch : Bool}
    (h : op = .xchg ∨ op = .cmpxchg → fetch) :
    ∃ imm : BitVec 32, (if fetch then op.code ||| 0x1 else op.code) = imm ∧
      decide (imm &&& 1#32 = 1#32) = fetch ∧
      ∀ opcode dst src offset, getAtomicOp pc ⟨opcode, dst, src, offset, imm⟩ = .ok op := by
  refine ⟨_, rfl, ?_, fun _ _ _ _ => ?_⟩
  · cases op <;> cases fetch <;> decide
  · cases op <;> cases fetch <;> simp [getAtomicOp, AtomicOp.code] at h ⊢

theorem roundTrips_atomic {a : Atomic} (h : a.IsIsa P) : RoundTrips P pc (.other (.atomic a)) := by
  obtain ⟨op, fetch, ⟨width, basereg, offset⟩, valreg⟩ := a
  obtain ⟨ha, hw, hg, hv, hf⟩ := h
  have hb := ha.base
  have hr : basereg ≤ 10 := ha.basereg
  have hv' : valreg ≤ 10 := hv
  have htoInt : (BitVec.ofInt 16 offset).toInt = offset := toInt_ofInt (by decide) ha.offset
  obtain ⟨code, hcode, hwidth⟩ := exists_widthCode ha.width
  obtain ⟨imm, himm, hfetch, hop⟩ := exists_atomicImm pc hf
  refine ⟨⟨0x03 ||| 0xc0 ||| code, basereg.toField, valreg.toField, BitVec.ofInt 16 offset, imm⟩,
    [], ?_, fun insts after _ => decode_mem ?_ ?_ ?_⟩
  · rw [← himm]
    show (widthToOpcode width >>= _) = _
    rw [hwidth]
    show (narrowOffset offset >>= _) = _
    rw [narrowOffset_eq ha.offset]
    rfl
  · show (0x03 ||| 0xc0 ||| code) &&& 0x07 < 0x04
    cases hcode <;> decide
  · show 0x03 ||| 0xc0 ||| code ≠ 0x18
    cases hcode <;> decide
  · unfold makeMemOp makeAtomic
    cases hcode <;>
      simp [getMemWidth, EbpfInst.cls, Reg.lt_toField hr, Reg.lt_toField hv', hop, hfetch, base,
        Reg.ofField_toField hr, Reg.ofField_toField hv', htoInt] at hw hb hg ⊢ <;>
      simp [hb, hg]

end Prevail
