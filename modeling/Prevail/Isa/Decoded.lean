import Prevail.Isa.RoundTrip
import Prevail.Lib.Result

/-!
# What the decoder makes

Each instruction of a decoded program is one that `IsIsa` lists at its counter, except for the move
that two shifts by 32 become (`decode_isIsa`).
-/

namespace Prevail

open DecodeError Unmarshaller

variable {P : Platform} {pc : ℕ}

/-! ## Registers -/

theorem Reg.toNat_ofField (r : BitVec 4) : (Reg.ofField r).toNat = r.toNat := by
  have hr := r.isLt
  unfold Reg.ofField
  rw [UInt8.toNat_ofNat']
  exact Nat.mod_eq_of_lt (by omega)

theorem Reg.ofField_le {r : BitVec 4} (h : ¬ 10 < r) : Reg.ofField r ≤ 10 := by
  rw [BitVec.not_lt, BitVec.le_def] at h
  rw [UInt8.le_iff_toNat_le, Reg.toNat_ofField]
  exact h

theorem Reg.ofField_le_nine {r : BitVec 4} (h : ¬ 10 < r) (hne : r ≠ 10) : Reg.ofField r ≤ 9 := by
  rw [UInt8.le_iff_toNat_le, Reg.toNat_ofField]
  rw [BitVec.not_lt, BitVec.le_def] at h
  have hne' : r.toNat ≠ 10 := fun heq => hne (BitVec.eq_of_toNat_eq heq)
  have h' : r.toNat ≤ 10 := h
  show r.toNat ≤ 9
  omega

/-! ## Arithmetic -/

/-- What `getAluOp` checks. -/
def AluOp (P : Platform) (inst : EbpfInst) : BinOp ⊕ UnOp → Prop
  | .inl op => (op.isDivmul → P.supportsGroup (divmul (inst.cls = 0x07))) ∧
      (op.isMovsx → inst.srcReg)
  | .inr op => (op ≠ .neg → P.supportsGroup op.group) ∧ op.comesWith (inst.cls = 0x07)

theorem endian_ok {inst : EbpfInst} {op16 op32 op64 : UnOp} {o : BinOp ⊕ UnOp}
    (h : endian P pc inst op16 op32 op64 = .ok o) :
    o = .inr op16 ∧ P.supportsGroup .base32 ∨ o = .inr op32 ∧ P.supportsGroup .base32 ∨
      o = .inr op64 ∧ P.supportsGroup .base64 := by
  unfold endian at h
  split_ifs at h with h₁ h₂ h₃ h₄ h₅ h₆ <;> cases h <;> simp_all

theorem getPlainAluOp_ok {inst : EbpfInst} {o : BinOp ⊕ UnOp}
    (h : getPlainAluOp P pc inst = .ok o) : AluOp P inst o := by
  unfold getPlainAluOp at h
  dsimp only at h
  obtain ⟨hoffset, h⟩ := Except.guard_eq_ok.mp h
  split at h
  case h_8 =>
    split_ifs at h
    cases h
    exact ⟨fun h => absurd rfl h, rfl⟩
  case h_11 =>
    split_ifs at h with hsrc h64 hreg hreg
    all_goals
      rcases endian_ok h with ⟨rfl, hg⟩ | ⟨rfl, hg⟩ | ⟨rfl, hg⟩
      all_goals exact ⟨fun _ => hg, by simp_all [UnOp.comesWith]⟩
  case h_3 =>
    split_ifs at h with hg
    cases h
    exact ⟨fun _ => by simpa using hg, fun h => by cases h⟩
  all_goals
    cases h
    try exact ⟨fun h => (by cases h), fun h => by cases h⟩

theorem getDivOp_ok {inst : EbpfInst} {unsigned signed : BinOp} {o : BinOp ⊕ UnOp}
    (hu : unsigned.isMovsx = false) (hs : signed.isMovsx = false)
    (h : getDivOp P pc inst unsigned signed = .ok o) : AluOp P inst o := by
  unfold getDivOp at h
  split_ifs at h with hg
  · cases h
    exact ⟨fun _ => by simpa using hg, fun h => by rw [hu] at h; cases h⟩
  · cases h
    exact ⟨fun _ => by simpa using hg, fun h => by rw [hs] at h; cases h⟩

theorem getAluOp_ok {inst : EbpfInst} {o : BinOp ⊕ UnOp} (h : getAluOp P pc inst = .ok o) :
    AluOp P inst o := by
  unfold getAluOp at h
  split at h
  · exact getDivOp_ok rfl rfl h
  · exact getDivOp_ok rfl rfl h
  · split_ifs at h with hpos h0 h8 h16 h32
    all_goals cases h
    · exact ⟨fun h => (by cases h), fun h => by cases h⟩
    all_goals
      have hreg : 0 < inst.offset.toInt → inst.srcReg = true := fun hoffset => by
        by_contra hreg
        exact hpos ⟨hoffset, by simpa using hreg⟩
    · exact ⟨fun h => (by cases h), fun _ => hreg (by rw [h8]; decide)⟩
    · exact ⟨fun h => (by cases h), fun _ => hreg (by rw [h16]; decide)⟩
    · exact ⟨fun h => (by cases h), fun _ => hreg (by rw [h32]; decide)⟩
  · exact getPlainAluOp_ok h

/-- What `makeAluOp` makes of a word. -/
theorem makeAluOp_ok {inst : EbpfInst} {ins : IsaInstruction} (h : makeAluOp P pc inst = .ok ins) :
    P.supportsGroup (base (inst.cls = 0x07)) ∧ Reg.ofField inst.dst ≤ 9 ∧
      ((∃ u : Un, u.IsIsa P ∧ ins = .other (.un u)) ∨
        ∃ b : Bin, b.IsIsa P ∧ b.lddw = false ∧ b.dst = Reg.ofField inst.dst ∧
          b.is64 = decide (inst.cls = 0x07) ∧ (inst.srcReg → ∃ r, b.v = .inl r) ∧
          ins = .other (.bin b)) := by
  unfold makeAluOp at h
  dsimp only at h
  split_ifs at h with hg hdst hregs
  have hg' : P.supportsGroup (base (inst.cls = 0x07)) := by simpa using hg
  have hdst' : Reg.ofField inst.dst ≤ 9 := Reg.ofField_le_nine (fun h => hregs (Or.inl h)) hdst
  refine ⟨hg', hdst', ?_⟩
  obtain ⟨o, hop, h⟩ := Except.bind_eq_ok.mp h
  have ho := getAluOp_ok hop
  cases o with
  | inr op =>
    cases h
    exact Or.inl ⟨_, ⟨hg', ho.1, ho.2, hdst'⟩, rfl⟩
  | inl op =>
    obtain ⟨v, hv, h⟩ := Except.bind_eq_ok.mp h
    cases h
    unfold getBinValue at hv
    refine Or.inr ⟨_, ?_, rfl, rfl, rfl, fun hreg => ?_, rfl⟩
    case refine_2 =>
      rw [if_pos hreg] at hv
      split_ifs at hv
      cases hv
      exact ⟨_, rfl⟩
    split_ifs at hv with hreg himm hsrc
    · cases hv
      exact .reg hg' ho.1 hdst' (Reg.ofField_le fun h => hregs (Or.inr h))
    · cases hv
      exact .imm hg' ho.1 (by simpa using fun h => hreg (ho.2 h)) hdst'

/-- The instruction of a word of the arithmetic classes with two operands. -/
def IsAlu : IsaInstruction → Prop
  | .other (.bin b) => b.lddw = false
  | _ => False

/-! ## Memory -/

theorem getMemWidth_cases (inst : EbpfInst) : getMemWidth inst = 1 ∨ getMemWidth inst = 2 ∨
    getMemWidth inst = 4 ∨ getMemWidth inst = 8 := by
  unfold getMemWidth
  split <;> simp

theorem fitsS_toInt {w : ℕ} (i : BitVec w) : Number.FitsS w i.toInt := by
  unfold Number.FitsS Number.minInt Number.maxInt
  have hlo := BitVec.le_toInt i
  have hhi := BitVec.toInt_lt (x := i)
  exact ⟨hlo, by omega⟩

theorem makePacket_ok {inst : EbpfInst} {regoffset : Option Reg} {ins : IsaInstruction}
    (h : makePacket pc inst regoffset = .ok ins) :
    ins = .other (.packet ⟨getMemWidth inst, inst.imm, regoffset⟩) := by
  unfold makePacket at h
  split_ifs at h
  cases h
  rfl

theorem isIsa_packet {inst : EbpfInst} {regoffset : Option Reg}
    (hb : P.supportsGroup (base (getMemWidth inst = 8))) (hw : getMemWidth inst ≠ 8)
    (hp : P.supportsGroup .packet) (hr : ∀ r, regoffset = some r → r ≤ 10) :
    IsIsa P pc (.other (.packet ⟨getMemWidth inst, inst.imm, regoffset⟩)) := by
  refine .packet ⟨?_, ?_, hp, hr⟩
  · have hcases := getMemWidth_cases inst
    dsimp only
    omega
  · rw [decide_eq_false hw] at hb
    exact hb

theorem isIsa_deref {inst : EbpfInst} {basereg : BitVec 4} (hr : ¬ 10 < basereg)
    (hb : P.supportsGroup (base (getMemWidth inst = 8))) :
    Deref.IsIsa P ⟨getMemWidth inst, .ofField basereg, inst.offset.toInt⟩ :=
  ⟨getMemWidth_cases inst, hb, Reg.ofField_le hr, fitsS_toInt inst.offset⟩

theorem makeLoadStore_ok {inst : EbpfInst} {ins : IsaInstruction}
    (hregs : ¬ (10 < inst.dst ∨ 10 < inst.src))
    (hb : P.supportsGroup (base (getMemWidth inst = 8)))
    (h : makeLoadStore pc inst = .ok ins) : IsIsa P pc ins ∧ Marshal.size ins = 1 ∧ ¬ IsAlu ins := by
  obtain ⟨hd, hs⟩ := not_or.mp hregs
  unfold makeLoadStore at h
  dsimp only at h
  split_ifs at h with hr10 hsrc himm hload himm'
  all_goals cases h
  · rw [hload]
    exact ⟨.mem (.load (isIsa_deref hs hb) (Reg.ofField_le_nine hd fun h => hr10 ⟨hload, h⟩)), rfl, id⟩
  · rw [Bool.eq_false_iff.mpr hload]
    exact ⟨.mem (.storeImm (isIsa_deref hd hb)), rfl, id⟩
  · rw [Bool.eq_false_iff.mpr hload]
    exact ⟨.mem (.storeReg (isIsa_deref hd hb) (Reg.ofField_le hs)), rfl, id⟩

theorem getAtomicOp_ok {inst : EbpfInst} {op : AtomicOp} (h : getAtomicOp pc inst = .ok op) :
    op = .xchg ∨ op = .cmpxchg → inst.imm &&& 0x1 ≠ 0 := by
  unfold getAtomicOp at h
  dsimp only at h
  split at h
  case h_1 | h_2 =>
    split_ifs at h with hfetch
    cases h
    exact fun _ => by simpa using hfetch
  all_goals
    cases h
    try exact fun h => by cases h <;> contradiction

theorem and_one_cases (i : BitVec 32) (h : i &&& 0x1 ≠ 0) : i &&& 0x1 = 0x1 := by
  have htoNat : (i &&& 0x1).toNat = i.toNat % 2 := by
    rw [BitVec.toNat_and]
    exact Nat.and_one_is_mod _
  have hne : (i &&& 0x1).toNat ≠ 0 := fun heq => h (BitVec.eq_of_toNat_eq heq)
  refine BitVec.eq_of_toNat_eq ?_
  show _ = 1
  omega

theorem makeAtomic_ok {inst : EbpfInst} {ins : IsaInstruction}
    (hregs : ¬ (10 < inst.dst ∨ 10 < inst.src))
    (hb : P.supportsGroup (base (getMemWidth inst = 8)))
    (h : makeAtomic P pc inst = .ok ins) : IsIsa P pc ins ∧ Marshal.size ins = 1 ∧ ¬ IsAlu ins := by
  obtain ⟨hd, hs⟩ := not_or.mp hregs
  unfold makeAtomic at h
  obtain ⟨hsize, h⟩ := Except.guard_eq_ok.mp h
  obtain ⟨hg, h⟩ := Except.guard_eq_ok.mp h
  obtain ⟨op, hop, h⟩ := Except.bind_eq_ok.mp h
  cases h
  have hfetch := getAtomicOp_ok hop
  have hcase : inst.opcode &&& 0x18 = 0x00 ∨ inst.opcode &&& 0x18 = 0x18 := by
    by_contra hne
    exact hsize (Or.inr (not_or.mp hne))
  refine ⟨.atomic ⟨isIsa_deref hd hb, ?_, ?_, Reg.ofField_le hs, fun h => ?_⟩, rfl, id⟩
  · unfold getMemWidth
    rcases hcase with hcase | hcase
    · exact Or.inl (by rw [hcase]; rfl)
    · exact Or.inr (by rw [hcase]; rfl)
  · have hg' : P.supportsGroup (if inst.opcode &&& 0x18 = 0x18 then .atomic64 else .atomic32) := by
      simpa using hg
    unfold getMemWidth
    rcases hcase with hcase | hcase
    · rw [hcase] at hg' ⊢
      exact hg'
    · rw [hcase] at hg' ⊢
      exact hg'
  · exact decide_eq_true (and_one_cases _ (hfetch h))

theorem makeMemOp_ok {inst : EbpfInst} {ins : IsaInstruction} (h : makeMemOp P pc inst = .ok ins) :
    IsIsa P pc ins ∧ Marshal.size ins = 1 ∧ ¬ IsAlu ins := by
  unfold makeMemOp at h
  dsimp only at h
  obtain ⟨hregs, h⟩ := Except.guard_eq_ok.mp h
  obtain ⟨hb, h⟩ := Except.guard_eq_ok.mp h
  have hb' : P.supportsGroup (base (getMemWidth inst = 8)) := by simpa using hb
  split at h
  · split_ifs at h with hp hdst hsrc
    rw [makePacket_ok h]
    simp only [not_or, Bool.not_eq_true', Bool.not_eq_false] at hp
    exact ⟨isIsa_packet hb' hp.2.2 hp.1 fun r hr => (by cases hr), rfl, id⟩
  · split_ifs at h with hp hdst hsrc
    rw [makePacket_ok h]
    simp only [not_or, Bool.not_eq_true', Bool.not_eq_false] at hp
    refine ⟨isIsa_packet hb' hp.2.2 hp.1 fun r hr => ?_, rfl, id⟩
    cases hr
    exact Reg.ofField_le hsrc
  · split_ifs at h
    exact makeLoadStore_ok hregs hb' h
  · exact makeAtomic_ok hregs hb' h
  · cases h

theorem makeLddw_ok {inst : EbpfInst} {next? : Option EbpfInst} {ins : IsaInstruction}
    (h : makeLddw P pc inst next? = .ok ins) :
    IsIsa P pc ins ∧ Marshal.size ins = 2 ∧ ¬ IsAlu ins := by
  unfold makeLddw at h
  obtain ⟨hg, h⟩ := Except.guard_eq_ok.mp h
  have hg' : P.supportsGroup .base64 := by simpa using hg
  cases next? with
  | none => cases h
  | some next =>
    obtain ⟨-, h⟩ := Except.guard_eq_ok.mp h
    obtain ⟨-, h⟩ := Except.guard_eq_ok.mp h
    obtain ⟨-, h⟩ := Except.guard_eq_ok.mp h
    obtain ⟨hdst, h⟩ := Except.guard_eq_ok.mp h
    have hdst' := Reg.ofField_le hdst
    split at h
    · cases h
      exact ⟨.bin (.lddw hg' hdst'), rfl, fun h => by cases h⟩
    · obtain ⟨-, h⟩ := Except.guard_eq_ok.mp h
      cases h
      exact ⟨.loadMapFd hg' hdst', rfl, id⟩
    · cases h
      exact ⟨.loadMapAddress hg' hdst', rfl, id⟩
    · cases h

/-! ## Calls and jumps -/

theorem makeArgs_func {name : String} {i : ℕ} {args : List ArgumentType} {res c : CallInfo}
    (h : makeArgs name i args res = .ok c) : c.func = res.func := by
  fun_induction makeArgs name i args res <;> simp_all

theorem makeCall_func {imm : BitVec 32} {c : CallInfo} (h : makeCall P imm = .ok c) :
    c.func = imm := by
  unfold makeCall at h
  dsimp only at h
  split_ifs at h
  exact makeArgs_func h

/-- A jump target is at the distance that the word holds. -/
theorem offset_of_getJumpTarget {insts : List EbpfInst} {offset : ℤ} {l : Label} {w : ℕ}
    (hpc : pc < 2 ^ 31) (hw : w ≤ 32) (hoffset : Number.FitsS w offset)
    (h : getJumpTarget offset insts pc = .ok l) :
    ∃ n : ℕ, l = .ofIndex n ∧ n < 2 ^ 31 ∧ (n : ℤ) - pc - 1 = offset ∧
      ∃ inst, insts[n]? = some inst ∧ inst.opcode ≠ 0 := by
  obtain ⟨n, inst, hn, rfl, hlt, hinst⟩ := getJumpTarget_eq_ok h
  have hpow : (2 : ℤ) ^ (w - 1) ≤ 2 ^ 31 := by
    exact_mod_cast Nat.pow_le_pow_right (by decide : 0 < 2) (by omega : w - 1 ≤ 31)
  refine ⟨n, rfl, hlt, ?_, inst, hinst⟩
  unfold Number.FitsS Number.minInt Number.maxInt at hoffset
  have hmod := Int.emod_emod_of_dvd ((pc : ℤ) + 1 + offset) (dvd_refl (2 ^ 32))
  by_cases hneg : (pc : ℤ) + 1 + offset < 0
  · -- the counter would be past those that labels have
    have hwrap : ((pc : ℤ) + 1 + offset) % 2 ^ 32 = pc + 1 + offset + 2 ^ 32 := by
      rw [← Int.add_emod_right, Int.emod_eq_of_lt (by omega) (by omega)]
    omega
  · rw [Int.emod_eq_of_lt (by omega) (by omega)] at hn
    omega

theorem target_of_getJumpTarget {insts : List EbpfInst} {offset : ℤ} {l : Label} {w : ℕ}
    (hpc : pc < 2 ^ 31) (hw : w ≤ 32) (hoffset : Number.FitsS w offset)
    (h : getJumpTarget offset insts pc = .ok l) : Target w pc l := by
  obtain ⟨n, rfl, hlt, heq, -⟩ := offset_of_getJumpTarget hpc hw hoffset h
  refine ⟨n, rfl, hlt, ?_⟩
  rw [heq]
  exact hoffset

theorem getJmpOp_ok {inst : EbpfInst} {op : ConditionOp} (h : getJmpOp pc inst = .ok op) :
    op ≠ .nset := by
  unfold getJmpOp at h
  split at h <;> cases h <;> decide

theorem makeCallLocal_ok {insts : List EbpfInst} {inst : EbpfInst} {ins : IsaInstruction}
    (hpc : pc < 2 ^ 31) (hg : P.supportsGroup .base32) (h : makeCallLocal insts pc inst = .ok ins) :
    IsIsa P pc ins ∧ Marshal.size ins = 1 ∧ ¬ IsAlu ins := by
  obtain ⟨-, h⟩ := Except.guard_eq_ok.mp h
  obtain ⟨-, h⟩ := Except.guard_eq_ok.mp h
  obtain ⟨l, hl, h⟩ := Except.bind_eq_ok.mp h
  cases h
  exact ⟨.callLocal hg (target_of_getJumpTarget hpc le_rfl (fitsS_toInt inst.imm) hl), rfl, id⟩

theorem makeCallx_ok {inst : EbpfInst} {ins : IsaInstruction} (hg : P.supportsGroup .base32)
    (hx : P.supportsGroup .callx) (h : makeCallx pc inst = .ok ins) : IsIsa P pc ins ∧ Marshal.size ins = 1 ∧ ¬ IsAlu ins := by
  obtain ⟨hdst, h⟩ := Except.guard_eq_ok.mp h
  split at h
  · obtain ⟨-, h⟩ := Except.guard_eq_ok.mp h
    obtain ⟨himm, h⟩ := Except.guard_eq_ok.mp h
    cases h
    refine ⟨.callx hg hx ?_, rfl, id⟩
    obtain ⟨hlo, hhi⟩ := not_or.mp himm
    have htoInt := BitVec.toInt_eq_toNat_cond inst.imm
    have h10 : inst.imm.toNat ≤ 10 := by
      have hlt := inst.imm.isLt
      split_ifs at htoInt <;> omega
    rw [UInt8.le_iff_toNat_le, UInt8.toNat_ofNat']
    show inst.imm.toNat % 256 ≤ 10
    omega
  · cases h
    exact ⟨.callx hg hx (Reg.ofField_le hdst), rfl, id⟩

theorem makeAnyCall_ok {insts : List EbpfInst} {inst : EbpfInst} {ins : IsaInstruction}
    (hpc : pc < 2 ^ 31) (h : makeAnyCall P insts pc inst = .ok ins) : IsIsa P pc ins ∧ Marshal.size ins = 1 ∧ ¬ IsAlu ins := by
  obtain ⟨-, h⟩ := Except.guard_eq_ok.mp h
  obtain ⟨hx, h⟩ := Except.guard_eq_ok.mp h
  obtain ⟨hg, h⟩ := Except.guard_eq_ok.mp h
  obtain ⟨-, h⟩ := Except.guard_eq_ok.mp h
  obtain ⟨-, h⟩ := Except.guard_eq_ok.mp h
  have hg' : P.supportsGroup .base32 := by simpa using hg
  split at h
  · exact makeCallLocal_ok hpc hg' h
  · split at h
    · next hreg => exact makeCallx_ok hg' (by simpa [hreg] using hx) h
    · obtain ⟨-, h⟩ := Except.guard_eq_ok.mp h
      obtain ⟨hu, h⟩ := Except.guard_eq_ok.mp h
      obtain ⟨c, hc, h⟩ := Except.bind_eq_ok.mp h
      cases h
      have hfunc := makeCall_func hc
      refine ⟨.call hg' ?_ ?_, rfl, id⟩
      · rw [hfunc]
        simpa using hu
      · rw [hfunc]
        exact hc

theorem makeExit_ok {inst : EbpfInst} {ins : IsaInstruction} (h : makeExit P pc inst = .ok ins) :
    IsIsa P pc ins ∧ Marshal.size ins = 1 ∧ ¬ IsAlu ins := by
  obtain ⟨hg, h⟩ := Except.guard_eq_ok.mp h
  iterate 5 obtain ⟨-, h⟩ := Except.guard_eq_ok.mp h
  cases h
  exact ⟨.exit (by simpa using hg), rfl, id⟩

/-- The last case of `makeJmp`, with what the goto case has checked. -/
theorem makeCondJmp_ok {insts : List EbpfInst} {inst : EbpfInst} {ins : IsaInstruction}
    (hpc : pc < 2 ^ 31)
    (hgoto : inst.opcode = 0x05 ∨ inst.opcode = 0x06 → P.supportsGroup .base32)
    (h : makeCondJmp P insts pc inst = .ok ins) : IsIsa P pc ins ∧ Marshal.size ins = 1 ∧ ¬ IsAlu ins := by
  obtain ⟨hg, h⟩ := Except.guard_eq_ok.mp h
  obtain ⟨op, hop, h⟩ := Except.bind_eq_ok.mp h
  obtain ⟨-, h⟩ := Except.guard_eq_ok.mp h
  obtain ⟨-, h⟩ := Except.guard_eq_ok.mp h
  obtain ⟨l, hl, h⟩ := Except.bind_eq_ok.mp h
  obtain ⟨hleft, h⟩ := Except.guard_eq_ok.mp h
  obtain ⟨hright, h⟩ := Except.guard_eq_ok.mp h
  cases h
  have hg' : P.supportsGroup (base (inst.cls = 0x05)) := by simpa using hg
  by_cases hop' : inst.opcode = 0x05 ∨ inst.opcode = 0x06
  · rw [if_pos (decide_eq_true hop')]
    refine ⟨.goto (hgoto hop') (target_of_getJumpTarget hpc le_rfl ?_ hl), rfl, id⟩
    split_ifs
    · exact fitsS_toInt inst.imm
    · have hfits := fitsS_toInt inst.offset
      unfold Number.FitsS Number.minInt Number.maxInt at hfits ⊢
      omega
  · rw [if_neg (by simpa using hop')]
    rw [if_neg (not_or.mp hop').2] at hl
    have hcond : (!decide (inst.opcode = 0x05 ∨ inst.opcode = 0x06)) = true := by simpa using hop'
    have hleft' : Reg.ofField inst.dst ≤ 10 := Reg.ofField_le fun hlt => hleft ⟨hcond, hlt⟩
    refine ⟨.jmp ?_ (target_of_getJumpTarget hpc (by decide) (fitsS_toInt inst.offset) hl), rfl, id⟩
    split_ifs with hreg
    · exact .reg hg' (getJmpOp_ok hop) hleft' 
        (Reg.ofField_le fun hlt => hright ⟨hcond, hreg, hlt⟩)
    · exact .imm hg' (getJmpOp_ok hop) hleft'

theorem makeGoto_ok {insts : List EbpfInst} {inst : EbpfInst} {ins : IsaInstruction}
    (hpc : pc < 2 ^ 31) (h : makeGoto P insts pc inst = .ok ins) : IsIsa P pc ins ∧ Marshal.size ins = 1 ∧ ¬ IsAlu ins := by
  obtain ⟨-, h⟩ := Except.guard_eq_ok.mp h
  obtain ⟨hg, h⟩ := Except.guard_eq_ok.mp h
  iterate 4 obtain ⟨-, h⟩ := Except.guard_eq_ok.mp h
  exact makeCondJmp_ok hpc (fun _ => by simpa using hg) h

theorem makeJmp_ok {insts : List EbpfInst} {inst : EbpfInst} {ins : IsaInstruction}
    (hpc : pc < 2 ^ 31) (h : makeJmp P insts pc inst = .ok ins) : IsIsa P pc ins ∧ Marshal.size ins = 1 ∧ ¬ IsAlu ins := by
  unfold makeJmp at h
  split at h
  · exact makeAnyCall_ok hpc h
  · exact makeExit_ok h
  · exact makeGoto_ok hpc h
  · next h₀ =>
    refine makeCondJmp_ok hpc (fun hop => ?_) h
    refine absurd ?_ h₀
    rcases hop with hop | hop
    · rw [hop]
      rfl
    · rw [hop]
      rfl

/-! ## Shifts -/

/-- Two instructions that would have been merged. -/
def Merges (i i' : IsaInstruction) : Prop :=
  ∃ dst, i = shift32 dst .lsh ∧ (i' = shift32 dst .rsh ∨ i' = shift32 dst .arsh)

/-- The move of 32 bits that a left and a right shift become. -/
def zext (dst : Reg) : IsaInstruction := .other (.bin ⟨.mov, dst, .inl dst, false, false⟩)

/-- What an instruction of a decoded program is. The platform may not support the words of `zext`. -/
def Decoded (P : Platform) (pc : ℕ) (ins : IsaInstruction) : Prop :=
  IsIsa P pc ins ∨ ∃ dst, dst ≤ 9 ∧ ins = zext dst

/-- A word is not merged with the next one, or is a left shift by 32 that becomes a move. -/
theorem mergeShifts_ok {inst : EbpfInst} {i ins : IsaInstruction} {next? : Option EbpfInst}
    {skip : Bool} (hi : makeAluOp P pc inst = .ok i)
    (h : mergeShifts P pc inst i next? = .ok (ins, skip)) :
    skip = false ∧ ins = i ∧ Unmerged P pc i next? ∨
      skip = true ∧ ∃ dst, i = shift32 dst .lsh ∧ dst ≤ 9 ∧ P.supportsGroup .base64 ∧
        (ins = zext dst ∨ ins = .other (.bin ⟨.movsx32, dst, .inl dst, true, false⟩)) := by
  obtain ⟨hg, hdst, hkind⟩ := makeAluOp_ok hi
  have hdst' : ∀ dst op, i = shift32 dst op → dst = Reg.ofField inst.dst := by
    rintro dst op rfl
    obtain ⟨u, -, heq⟩ | ⟨b, -, -, hb, -, -, heq⟩ := hkind
    · cases heq
    · cases heq
      exact hb
  unfold mergeShifts at h
  cases next? with
  | none =>
    cases h
    exact Or.inl ⟨rfl, rfl, fun _ _ _ hnext => by cases hnext⟩
  | some next =>
    dsimp only at h
    split_ifs at h with hshift hcls
    · cases h
      refine Or.inl ⟨rfl, rfl, fun dst _ heq => absurd ?_ hshift⟩
      rw [← hdst' dst _ heq]
      exact heq
    · cases h
      refine Or.inl ⟨rfl, rfl, fun dst next' _ hnext hcls' => ?_⟩
      cases hnext
      exact absurd hcls' hcls
    · rw [not_not] at hshift
      have hg' : P.supportsGroup .base64 := by
        obtain ⟨u, -, heq⟩ | ⟨b, -, -, -, hb, -, heq⟩ := hkind
        · rw [hshift] at heq
          cases heq
        · rw [hshift] at heq
          cases heq
          rw [← hb] at hg
          exact hg
      obtain ⟨i', hi', h⟩ := Except.bind_eq_ok.mp h
      split_ifs at h with hrsh harsh
      · cases h
        exact Or.inr ⟨rfl, _, hshift, hdst, hg', Or.inl rfl⟩
      · cases h
        exact Or.inr ⟨rfl, _, hshift, hdst, hg', Or.inr rfl⟩
      · cases h
        refine Or.inl ⟨rfl, rfl, fun dst next' heq hnext _ => ⟨i', ?_, ?_⟩⟩
        · cases hnext
          exact hi'
        · rw [hdst' dst _ heq]
          exact ⟨hrsh, harsh⟩

/-- A word of the other classes than the first is not that of a wide load. -/
theorem opcode_ne_of_cls {inst : EbpfInst} {c : BitVec 8} (h : inst.cls = c) (hc : c ≠ 0x00) :
    false = decide (inst.opcode = 0x18) := by
  refine (decide_eq_false fun hop => hc ?_).symm
  rw [← h]
  unfold EbpfInst.cls
  rw [hop]
  rfl

/-- An instruction is made by `makeAluOp` and merged, or it is not an arithmetic one. -/
theorem decode_ok {insts : List EbpfInst} {inst : EbpfInst} {next? : Option EbpfInst}
    {ins : IsaInstruction} {skip : Bool} (hpc : pc < 2 ^ 31)
    (h : decode P insts pc inst next? = .ok (ins, skip)) :
    (IsIsa P pc ins ∧ (Marshal.size ins = if skip then 2 else 1) ∧ ¬ IsAlu ins ∧
      skip = decide (inst.opcode = 0x18)) ∨
      ∃ i, makeAluOp P pc inst = .ok i ∧ mergeShifts P pc inst i next? = .ok (ins, skip) := by
  unfold decode at h
  split at h
  case h_1 hcls =>
    split_ifs at h with hop
    · obtain ⟨i, hi, h⟩ := Except.bind_eq_ok.mp h
      cases h
      obtain ⟨hisa, hsize, halu⟩ := makeLddw_ok hi
      exact Or.inl ⟨hisa, hsize, halu, (decide_eq_true hop).symm⟩
    · obtain ⟨i, hi, h⟩ := Except.bind_eq_ok.mp h
      cases h
      obtain ⟨hisa, hsize, halu⟩ := makeMemOp_ok hi
      exact Or.inl ⟨hisa, hsize, halu, (decide_eq_false hop).symm⟩
  case h_2 hcls | h_3 hcls | h_4 hcls =>
    obtain ⟨i, hi, h⟩ := Except.bind_eq_ok.mp h
    cases h
    obtain ⟨hisa, hsize, halu⟩ := makeMemOp_ok hi
    exact Or.inl ⟨hisa, hsize, halu, opcode_ne_of_cls hcls (by decide)⟩
  case h_5 | h_6 =>
    obtain ⟨i, hi, h⟩ := Except.bind_eq_ok.mp h
    exact Or.inr ⟨i, hi, h⟩
  case h_7 hcls | h_8 hcls =>
    obtain ⟨i, hi, h⟩ := Except.bind_eq_ok.mp h
    cases h
    obtain ⟨hisa, hsize, halu⟩ := makeJmp_ok hpc hi
    exact Or.inl ⟨hisa, hsize, halu, opcode_ne_of_cls hcls (by decide)⟩
  case h_9 => cases h

theorem isIsa_of_makeAluOp {inst : EbpfInst} {i : IsaInstruction}
    (hi : makeAluOp P pc inst = .ok i) : IsIsa P pc i := by
  obtain ⟨-, -, ⟨u, hu, rfl⟩ | ⟨b, hb, -, -, -, -, rfl⟩⟩ := makeAluOp_ok hi
  · exact .un hu
  · exact .bin hb

theorem size_of_makeAluOp {inst : EbpfInst} {i : IsaInstruction}
    (hi : makeAluOp P pc inst = .ok i) : Marshal.size i = 1 := by
  obtain ⟨-, -, ⟨u, -, rfl⟩ | ⟨b, -, hb, -, -, -, rfl⟩⟩ := makeAluOp_ok hi
  · rfl
  · show (if b.lddw then 2 else 1) = 1
    rw [hb]
    rfl

/-- Each instruction that is decoded is one of those in `IsIsa`, or `zext`. -/
theorem decode_isIsa {insts : List EbpfInst} {inst : EbpfInst} {next? : Option EbpfInst}
    {ins : IsaInstruction} {skip : Bool} (hpc : pc < 2 ^ 31)
    (h : decode P insts pc inst next? = .ok (ins, skip)) : Decoded P pc ins := by
  obtain ⟨h, -⟩ | ⟨i, hi, h⟩ := decode_ok hpc h
  · exact Or.inl h
  · obtain ⟨-, rfl, -⟩ | ⟨-, dst, -, hdst, hg, rfl | rfl⟩ := mergeShifts_ok hi h
    · exact Or.inl (isIsa_of_makeAluOp hi)
    · exact Or.inr ⟨dst, hdst, rfl⟩
    · have hdst' : dst ≤ 10 := le_trans (b := 9) hdst (by decide)
      exact Or.inl (.bin (.reg hg (fun h => by cases h) hdst hdst'))

/-- An instruction has no more words than were read. -/
theorem size_le_of_decode {insts : List EbpfInst} {inst : EbpfInst} {next? : Option EbpfInst}
    {ins : IsaInstruction} {skip : Bool} (hpc : pc < 2 ^ 31)
    (h : decode P insts pc inst next? = .ok (ins, skip)) :
    Marshal.size ins ≤ if skip then 2 else 1 := by
  obtain ⟨-, hsize, -⟩ | ⟨i, hi, h⟩ := decode_ok hpc h
  · exact hsize.le
  · obtain ⟨rfl, rfl, -⟩ | ⟨rfl, dst, -, -, -, rfl | rfl⟩ := mergeShifts_ok hi h
    · exact (size_of_makeAluOp hi).le
    · exact one_le_two
    · exact one_le_two

/-- A left shift by 32 that is not merged: the next instruction is not a right shift by 32. -/
theorem not_merges_of_decode {insts : List EbpfInst} {inst next : EbpfInst}
    {next? : Option EbpfInst} {ins ins' : IsaInstruction} {skip : Bool} (hpc : pc + 1 < 2 ^ 31)
    (h : decode P insts pc inst (some next) = .ok (ins, false))
    (h' : decode P insts (pc + 1) next next? = .ok (ins', skip)) : ¬ Merges ins ins' := by
  rintro ⟨dst, rfl, hins'⟩
  have halu : IsAlu ins' := by
    rcases hins' with rfl | rfl
    · rfl
    · rfl
  obtain ⟨-, -, hne, -⟩ | ⟨i, hi, hmerge⟩ := decode_ok (by omega) h
  · exact hne rfl
  obtain ⟨-, rfl, hun⟩ | ⟨hskip, -⟩ := mergeShifts_ok hi hmerge
  case inr => cases hskip
  obtain ⟨-, -, hne, -⟩ | ⟨i', hi', hmerge'⟩ := decode_ok hpc h'
  · exact hne halu
  obtain ⟨-, rfl, -⟩ | ⟨-, _, -, -, -, heq⟩ := mergeShifts_ok hi' hmerge'
  · have hcls : next.cls = 0x07 := by
      obtain ⟨-, -, ⟨u, -, heq⟩ | ⟨b, -, -, -, hb, -, heq⟩⟩ := makeAluOp_ok hi'
      · rcases hins' with rfl | rfl <;> cases heq
      · rcases hins' with rfl | rfl
        all_goals
          cases heq
          exact of_decide_eq_true hb.symm
    obtain ⟨i'', hi'', hrsh, harsh⟩ := hun dst next rfl rfl hcls
    cases hi''.symm.trans hi'
    exact hins'.elim hrsh harsh
  · rcases hins' with rfl | rfl <;> rcases heq with heq | heq <;> cases heq

theorem ne_lsh_of_skip {insts : List EbpfInst} {inst : EbpfInst} {next? : Option EbpfInst}
    {ins : IsaInstruction} (hpc : pc < 2 ^ 31)
    (h : decode P insts pc inst next? = .ok (ins, true)) (dst : Reg) : ins ≠ shift32 dst .lsh := by
  rintro rfl
  obtain ⟨-, -, hne, -⟩ | ⟨i, hi, hmerge⟩ := decode_ok hpc h
  · exact hne rfl
  · obtain ⟨hskip, -⟩ | ⟨-, _, -, -, -, heq | heq⟩ := mergeShifts_ok hi hmerge
    · cases hskip
    · cases heq
    · cases heq

/-! ## Programs -/

/-- A decoded program, from `pc` on: each instruction is followed by the next one at its distance. -/
inductive Decodes (P : Platform) : ℕ → InstructionSeq Operation CallInfo → Prop
  | nil {pc : ℕ} : Decodes P pc []
  | cons {pc step : ℕ} {i : IsaInstruction} {rest : InstructionSeq Operation CallInfo}
    (hpc : pc < 2 ^ 31) (hi : Decoded P pc i) (hstep : Marshal.size i ≤ step)
    (hm : ∀ e, rest.head? = some e → ¬ Merges i e.2) (hrest : Decodes P (pc + step) rest) :
    Decodes P pc ((.ofIndex pc, i) :: rest)

theorem unmarshalFrom_cons {insts : List EbpfInst} {inst : EbpfInst} {l : List EbpfInst}
    {seq : InstructionSeq Operation CallInfo} :
    unmarshalFrom P insts pc (inst :: l) = .ok seq ↔ pc < 2 ^ 31 ∧
      ∃ ins skip rest, decode P insts pc inst l.head? = .ok (ins, skip) ∧
        seq = (.ofIndex pc, ins) :: rest ∧
        unmarshalFrom P insts (pc + if skip then 2 else 1) (if skip then l.tail else l) =
          .ok rest := by
  rw [unmarshalFrom, Except.bind_eq_ok]
  constructor
  · rintro ⟨⟨ins, skip⟩, hd, h⟩
    obtain ⟨hpc, h⟩ := Except.guard_eq_ok.mp h
    refine ⟨not_le.mp hpc, ins, skip, ?_⟩
    cases l with
    | nil =>
      cases h
      refine ⟨[], hd, rfl, ?_⟩
      cases skip <;> rfl
    | cons next rest =>
      cases skip with
      | true | false =>
        obtain ⟨seq', hseq, h⟩ := Except.bind_eq_ok.mp h
        cases h
        exact ⟨seq', hd, rfl, hseq⟩
  · rintro ⟨hpc, ins, skip, rest, hd, rfl, hrest⟩
    refine ⟨_, hd, Except.guard_eq_ok.mpr ⟨not_le.mpr hpc, ?_⟩⟩
    cases l with
    | nil => cases skip <;> cases hrest <;> rfl
    | cons next l =>
      cases skip with
      | true | false => exact Except.bind_eq_ok.mpr ⟨rest, hrest, rfl⟩

theorem decodes_unmarshalFrom {insts l : List EbpfInst} {seq : InstructionSeq Operation CallInfo}
    (h : unmarshalFrom P insts pc l = .ok seq) : Decodes P pc seq := by
  induction hn : l.length using Nat.strong_induction_on generalizing pc l seq with
  | _ n ih =>
    cases l with
    | nil =>
      cases h
      exact .nil
    | cons inst l =>
      obtain ⟨hpc, ins, skip, rest, hd, rfl, hrest⟩ := unmarshalFrom_cons.mp h
      have hlt : (if skip then l.tail else l).length < n := by
        rw [← hn, List.length_cons]
        split_ifs
        · rw [List.length_tail]
          omega
        · omega
      refine .cons hpc (decode_isIsa hpc hd) (size_le_of_decode hpc hd) (fun e he => ?_)
        (ih _ hlt hrest rfl)
      cases skip with
      | true =>
        rintro ⟨dst, heq, -⟩
        exact ne_lsh_of_skip hpc hd dst heq
      | false =>
        cases l with
        | nil =>
          cases hrest
          cases he
        | cons next l =>
          obtain ⟨hpc', ins', skip', rest', hd', rfl, -⟩ := unmarshalFrom_cons.mp hrest
          cases he
          exact not_merges_of_decode hpc' hd hd'

end Prevail
