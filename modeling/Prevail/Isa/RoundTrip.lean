import Mathlib.Algebra.Order.BigOperators.Group.List
import Prevail.Isa.Encodable

/-!
# Decoding what was encoded

The jumps and calls, and the result: encoding an instruction of the decoder and decoding its words
gives the instruction back exactly when it is `Encodable` (`roundTrips_iff`).
-/

namespace Prevail

open DecodeError Unmarshaller

variable {P : Platform} {pc : ℕ}

/-! ## Calls and jumps -/

theorem decode_jmp {insts : List EbpfInst} {w : EbpfInst} {next? : Option EbpfInst}
    {ins : IsaInstruction} {skip : Bool} (hcls : w.cls = 0x05 ∨ w.cls = 0x06) :
    decode P insts pc w next? = .ok (ins, skip) ↔ makeJmp P insts pc w = .ok ins ∧ skip = false := by
  unfold decode
  rcases hcls with hcls | hcls
  all_goals
    rw [hcls]
    show (makeJmp P insts pc w >>= _) = _ ↔ _
    cases makeJmp P insts pc w with
    | error e => exact ⟨fun h => (by cases h), fun h => by cases h.1⟩
    | ok i => exact ⟨fun h => (by cases h; exact ⟨rfl, rfl⟩), fun ⟨h, hs⟩ => by cases h; cases hs; rfl⟩

theorem roundTrips_exit (hg : P.supportsGroup .base32) : RoundTrips P pc (.exit []) := by
  refine ⟨_, [], rfl, fun insts after _ => (decode_jmp (Or.inl (by simp [EbpfInst.cls]))).mpr ⟨?_, rfl⟩⟩
  simp [makeJmp, makeExit, EbpfInst.cls, EbpfInst.srcReg, hg]

theorem roundTrips_callx {func : Reg} (hg : P.supportsGroup .base32)
    (hx : P.supportsGroup .callx) (hf : func ≤ 10) : RoundTrips P pc (.other (.callx func)) := by
  refine ⟨_, [], rfl, fun insts after _ => (decode_jmp (Or.inl (by simp [EbpfInst.cls]))).mpr ⟨?_, rfl⟩⟩
  simp [makeJmp, makeAnyCall, makeCallx, EbpfInst.cls, EbpfInst.srcReg, hg, hx,
    Reg.lt_toField hf, Reg.ofField_toField hf]

theorem roundTrips_call {c : CallInfo} (hg : P.supportsGroup .base32)
    (hu : P.isHelperUsable c.func) (hc : makeCall P c.func = .ok c) :
    RoundTrips P pc (.call c []) := by
  refine ⟨_, [], rfl, fun insts after _ => (decode_jmp (Or.inl (by simp [EbpfInst.cls]))).mpr ⟨?_, rfl⟩⟩
  simp [makeJmp, makeAnyCall, EbpfInst.cls, EbpfInst.srcReg, hg, hu, hc]

theorem getJumpTarget_eq {insts : List EbpfInst} {n : ℕ} {w : EbpfInst} (hn : n < 2 ^ 31)
    (hw : insts[n]? = some w) (hop : w.opcode ≠ 0) :
    getJumpTarget (n - pc - 1) insts pc = .ok (.ofIndex n) := by
  have hpc : (((pc : ℤ) + 1 + (n - pc - 1)) % 2 ^ 32).toNat = n := by
    rw [show (pc : ℤ) + 1 + (n - pc - 1) = n by ring, Int.emod_eq_of_lt (by omega) (by omega)]
    rfl
  unfold getJumpTarget
  simp only [hpc, hw, if_neg hop, if_neg hn.not_ge]

theorem getJumpTarget_eq_ok {insts : List EbpfInst} {offset : ℤ} {l : Label}
    (h : getJumpTarget offset insts pc = .ok l) :
    ∃ (n : ℕ) (w : EbpfInst), n = (((pc : ℤ) + 1 + offset) % 2 ^ 32).toNat ∧ l = .ofIndex n ∧ n < 2 ^ 31 ∧
      insts[n]? = some w ∧ w.opcode ≠ 0 := by
  unfold getJumpTarget at h
  generalize hn : (((pc : ℤ) + 1 + offset) % 2 ^ 32).toNat = n at h
  dsimp only at h
  cases hw : insts[n]? with
  | none =>
    rw [hw] at h
    cases h
  | some w =>
    rw [hw] at h
    dsimp only at h
    split_ifs at h with hop hle
    cases h
    exact ⟨n, w, rfl, rfl, not_le.mp hle, hw, hop⟩

theorem getJumpTarget_iff {insts : List EbpfInst} {offset : ℤ} {m : ℕ} (hm : m < 2 ^ 31)
    (hlo : 0 ≤ pc + 1 + offset) (hhi : pc + 1 + offset < 2 ^ 32) :
    getJumpTarget offset insts pc = .ok (.ofIndex m) ↔
      (m : ℤ) = pc + 1 + offset ∧ ∃ w : EbpfInst, insts[m]? = some w ∧ w.opcode ≠ 0 := by
  constructor
  · intro h
    obtain ⟨n, w, hn, heq, -, hw, hop⟩ := getJumpTarget_eq_ok h
    have hmn : (m : ℤ) = n := congrArg Label.src heq
    have hmn' : m = n := by exact_mod_cast hmn
    refine ⟨?_, w, hmn' ▸ hw, hop⟩
    rw [hmn, hn, Int.toNat_of_nonneg (Int.emod_nonneg _ (by decide)), Int.emod_eq_of_lt hlo hhi]
  · rintro ⟨heq, w, hw, hop⟩
    have htarget : getJumpTarget (m - pc - 1) insts pc = .ok (.ofIndex m) := getJumpTarget_eq hm hw hop
    rw [← htarget, heq]
    congr 1
    ring

theorem makeJmp_callLocal {insts : List EbpfInst} {imm : BitVec 32} {target : Label}
    (hg : P.supportsGroup .base32) :
    makeJmp P insts pc ⟨0x85, 0, 1, 0, imm⟩ = .ok (.callLocal target []) ↔
      getJumpTarget imm.toInt insts pc = .ok target := by
  have heq : makeJmp P insts pc ⟨0x85, 0, 1, 0, imm⟩ =
      (getJumpTarget imm.toInt insts pc >>= fun l => .ok (.callLocal l [])) := by
    simp [makeJmp, makeAnyCall, makeCallLocal, EbpfInst.cls, EbpfInst.srcReg, hg]
    rfl
  rw [heq]
  cases getJumpTarget imm.toInt insts pc with
  | error e => exact ⟨fun h => (by cases h), fun h => by cases h⟩
  | ok l => exact ⟨fun h => (by cases h; rfl), fun h => by cases h; rfl⟩

/-- The distance that is encoded in 32 bits: zero if it fits 16 bits. -/
theorem toInt_labelToOffset32 {l : Label} {imm : BitVec 32} (h : labelToOffset32 pc l = .ok imm) :
    imm.toInt = if Number.FitsS 16 (l.src - pc - 1) then 0 else l.src - pc - 1 := by
  unfold labelToOffset32 at h
  dsimp only at h
  split_ifs at h with h₁₆ h₃₂
  · cases h
    rw [if_pos h₁₆]
    rfl
  · cases h
    rw [if_neg h₁₆, toInt_ofInt (by decide) h₃₂]

theorem labelToOffset32_ok {l : Label} (h : Number.FitsS 32 (l.src - pc - 1)) :
    ∃ imm, labelToOffset32 pc l = .ok imm := by
  unfold labelToOffset32
  dsimp only
  split_ifs with h₁₆
  · exact ⟨_, rfl⟩
  · exact ⟨_, rfl⟩

theorem toInt_labelToOffset16 {l : Label} (h : Number.FitsS 16 (l.src - pc - 1)) :
    (labelToOffset16 pc l).toInt = l.src - pc - 1 := by
  unfold labelToOffset16
  simp only [if_pos h]
  exact toInt_ofInt (by decide) h

/-- What a local call is decoded to. -/
theorem decode_callLocal {insts : List EbpfInst} {imm : BitVec 32} {next? : Option EbpfInst}
    {n m : ℕ} {skip : Bool} (hg : P.supportsGroup .base32) (hn : n < 2 ^ 31) (hm : m < 2 ^ 31)
    (himm : labelToOffset32 pc (.ofIndex n) = .ok imm) :
    decode P insts pc ⟨0x85, 0, 1, 0, imm⟩ next? = .ok (.callLocal (.ofIndex m) [], skip) ↔
      ((m : ℤ) = if Number.FitsS 16 ((n : ℤ) - pc - 1) then (pc : ℤ) + 1 else n) ∧
        (∃ w : EbpfInst, insts[m]? = some w ∧ w.opcode ≠ 0) ∧ skip = false := by
  have htoInt : imm.toInt = if Number.FitsS 16 ((n : ℤ) - pc - 1) then 0 else (n : ℤ) - pc - 1 :=
    toInt_labelToOffset32 himm
  have hrange : 0 ≤ (pc : ℤ) + 1 + imm.toInt ∧ (pc : ℤ) + 1 + imm.toInt < 2 ^ 32 := by
    rw [htoInt]
    unfold Number.FitsS Number.minInt Number.maxInt
    split_ifs <;> omega
  rw [decode_jmp (Or.inl (by simp [EbpfInst.cls])), makeJmp_callLocal hg,
    getJumpTarget_iff hm hrange.1 hrange.2, htoInt, and_assoc]
  refine and_congr_left' ?_
  split_ifs
  · rw [add_zero]
  · rw [show (pc : ℤ) + 1 + (n - pc - 1) = n by ring]

theorem marshal_callLocal {n : ℕ} {imm : BitVec 32} (h : labelToOffset32 pc (.ofIndex n) = .ok imm) :
    marshal pc (.callLocal (.ofIndex n) []) = .ok [⟨0x85, 0, 1, 0, imm⟩] := by
  show (labelToOffset32 pc (.ofIndex n) >>= _) = _
  rw [h]
  rfl

theorem encodable_callLocal_iff {n : ℕ} : Encodable P pc (.callLocal (.ofIndex n) []) ↔
    (n : ℤ) = if Number.FitsS 16 ((n : ℤ) - pc - 1) then (pc : ℤ) + 1 else n := by
  show ((n : ℤ) = pc + 1 ∨ ¬ Number.FitsS 16 ((n : ℤ) - pc - 1)) ↔ _
  split_ifs with h
  · exact or_iff_left (not_not.mpr h)
  · exact iff_of_true (Or.inr h) rfl

theorem Around.get {ins : IsaInstruction} {words insts after : List EbpfInst} {n : ℕ}
    (ha : Around P pc ins words insts after) (hl : Label.ofIndex n ∈ targets ins) :
    ∃ w, insts[n]? = some w ∧ w.opcode ≠ 0 := ha.target _ hl

theorem roundTrips_callLocal {target : Label} (hg : P.supportsGroup .base32)
    (ht : Target 32 pc target) (he : Encodable P pc (.callLocal target [])) :
    RoundTrips P pc (.callLocal target []) := by
  obtain ⟨n, rfl, hn, hfits⟩ := ht
  obtain ⟨imm, himm⟩ := labelToOffset32_ok (l := .ofIndex n) hfits
  exact ⟨_, _, marshal_callLocal himm, fun insts after ha => (decode_callLocal hg hn hn himm).mpr
    ⟨encodable_callLocal_iff.mp he, ha.get (List.mem_singleton_self _), rfl⟩⟩

theorem makeGoto_eq {insts : List EbpfInst} {w : EbpfInst} {l : Label}
    (hg : P.supportsGroup .base32)
    (hw : w = ⟨0x05, 0, 0, w.offset, 0⟩ ∧ P.supportsGroup .base64 ∨ w = ⟨0x06, 0, 0, 0, w.imm⟩)
    (h : getJumpTarget (if w.opcode = 0x06 then w.imm.toInt else w.offset.toInt) insts pc = .ok l) :
    makeJmp P insts pc w = .ok (.jmp none l) := by
  rcases hw with ⟨hw, hg'⟩ | hw
  · rw [hw] at h ⊢
    simp [makeJmp, makeGoto, makeCondJmp, getJmpOp, EbpfInst.cls, EbpfInst.srcReg, base, hg,
      hg'] at h ⊢
    rw [h]
    rfl
  · rw [hw] at h ⊢
    simp [makeJmp, makeGoto, makeCondJmp, getJmpOp, EbpfInst.cls, EbpfInst.srcReg, base, hg] at h ⊢
    rw [h]
    rfl

theorem makeGoto_base64 {insts : List EbpfInst} {offset : BitVec 16}
    (hg : ¬ P.supportsGroup .base64) (ins : IsaInstruction) :
    makeJmp P insts pc ⟨0x05, 0, 0, offset, 0⟩ ≠ .ok ins := by
  simp [makeJmp, makeGoto, makeCondJmp, EbpfInst.cls, EbpfInst.srcReg, base, hg]

/-- The distance of a jump fits the field that the encoder chooses. -/
theorem roundTrips_goto {target : Label} (hg : P.supportsGroup .base32)
    (ht : Target 32 pc target) (he : Encodable P pc (.jmp none target)) :
    RoundTrips P pc (.jmp none target) := by
  obtain ⟨n, rfl, hn, hfits⟩ := ht
  obtain ⟨imm, himm⟩ := labelToOffset32_ok (l := .ofIndex n) hfits
  have htoInt := toInt_labelToOffset32 himm
  have hm : marshal pc (.jmp none (.ofIndex n)) = if imm ≠ 0 then .ok [⟨0x06, 0, 0, 0, imm⟩]
      else .ok [⟨0x05, 0, 0, labelToOffset16 pc (.ofIndex n), 0⟩] := by
    show (labelToOffset32 pc (.ofIndex n) >>= _) = _
    rw [himm]
    rfl
  by_cases hzero : imm ≠ 0
  · rw [if_pos hzero] at hm
    refine ⟨_, _, hm, fun insts after ha =>
      (decode_jmp (Or.inr (by simp [EbpfInst.cls]))).mpr ⟨makeGoto_eq hg (Or.inr rfl) ?_, rfl⟩⟩
    obtain ⟨w, hw, hop⟩ := ha.get (List.mem_singleton_self _)
    show getJumpTarget imm.toInt insts pc = _
    rw [htoInt, if_neg]
    · exact getJumpTarget_eq hn hw hop
    · intro h₁₆
      rw [if_pos h₁₆] at htoInt
      exact hzero (BitVec.eq_of_toInt_eq htoInt)
  · rw [if_neg hzero] at hm
    rw [not_not] at hzero
    have h₁₆ : Number.FitsS 16 ((Label.ofIndex n).src - pc - 1) := by
      by_contra h₁₆
      rw [hzero, if_neg h₁₆] at htoInt
      exact h₁₆ (htoInt ▸ by decide)
    refine ⟨_, _, hm, fun insts after ha => (decode_jmp (Or.inl (by simp [EbpfInst.cls]))).mpr
      ⟨makeGoto_eq hg (Or.inl ⟨rfl, he.resolve_right (not_not.mpr h₁₆)⟩) ?_, rfl⟩⟩
    obtain ⟨w, hw, hop⟩ := ha.get (List.mem_singleton_self _)
    show getJumpTarget (labelToOffset16 pc (.ofIndex n)).toInt insts pc = _
    rw [toInt_labelToOffset16 h₁₆]
    exact getJumpTarget_eq hn hw hop

theorem encodable_goto {insts : List EbpfInst} {w : EbpfInst} {rest : List EbpfInst}
    {next? : Option EbpfInst} {target : Label} {ins : IsaInstruction} {skip : Bool}
    (hm : marshal pc (.jmp none target) = .ok (w :: rest))
    (hd : decode P insts pc w next? = .ok (ins, skip)) : Encodable P pc (.jmp none target) := by
  refine or_iff_not_imp_right.mpr fun h₁₆ => ?_
  rw [not_not] at h₁₆
  have himm : labelToOffset32 pc target = .ok 0 := if_pos h₁₆
  replace hm : (labelToOffset32 pc target >>= _) = Except.ok (w :: rest) := hm
  rw [himm] at hm
  cases hm
  by_contra hg
  exact makeGoto_base64 hg _ ((decode_jmp (Or.inl (by simp [EbpfInst.cls]))).mp hd).1

/-- The opcode of a condition. -/
structure CondOpcode (op : ConditionOp) (isReg : Bool) (opcode : BitVec 8) : Prop where
  cls : opcode &&& 0x07 = 0x05
  srcReg : decide (opcode &&& 0x08 ≠ 0) = isReg
  cond : opcode >>> 4 ≠ 0x8 ∧ opcode >>> 4 ≠ 0x9 ∧ opcode >>> 4 ≠ 0x0
  ne : opcode ≠ 0x00 ∧ opcode ≠ 0x05 ∧ opcode ≠ 0x06
  op : ∀ inst : EbpfInst, inst.opcode = opcode → ∀ pc, getJmpOp pc inst = .ok op

theorem exists_condCode {op : ConditionOp} (h : op ≠ .nset) : ∃ code, op.code = .ok code ∧
    CondOpcode op true (0x05#8 ||| code <<< 4 ||| 0x08) ∧ CondOpcode op false (0x05#8 ||| code <<< 4) := by
  cases op
  case nset => exact absurd rfl h
  all_goals
    refine ⟨_, rfl, ⟨by decide, by decide, by decide, by decide, fun inst heq pc => ?_⟩,
      ⟨by decide, by decide, by decide, by decide, fun inst heq pc => ?_⟩⟩
    · unfold getJmpOp
      rw [heq]
      rfl
    · unfold getJmpOp
      rw [heq]
      rfl

theorem CondOpcode.cls_inst {op : ConditionOp} {isReg : Bool} {opcode : BitVec 8}
    (h : CondOpcode op isReg opcode) (dst src : BitVec 4) (offset : BitVec 16) (imm : BitVec 32) :
    EbpfInst.cls ⟨opcode, dst, src, offset, imm⟩ = 0x05 := h.cls

/-- A condition is decoded as one on 64 bits. -/
theorem makeJmp_cond {insts : List EbpfInst} {op : ConditionOp} {isReg : Bool} {opcode : BitVec 8}
    {left src : BitVec 4} {offset : BitVec 16} {imm : BitVec 32} (hop : CondOpcode op isReg opcode)
    (hl : left ≤ 10) (hs : src ≤ 10) (hreg : isReg → imm = 0) (himm : isReg = false → src = 0) :
    makeJmp P insts pc ⟨opcode, left, src, offset, imm⟩ =
      if P.supportsGroup .base64 then getJumpTarget offset.toInt insts pc >>= fun target =>
        .ok (.jmp (some ⟨op, Reg.ofField left, if isReg then .inl (Reg.ofField src)
          else .inr (signExtendImm imm), true⟩) target)
      else .error (bad pc ⟨opcode, left, src, offset, imm⟩) := by
  have hcond : makeJmp P insts pc ⟨opcode, left, src, offset, imm⟩ =
      makeCondJmp P insts pc ⟨opcode, left, src, offset, imm⟩ := by
    obtain ⟨h₈, h₉, h₀⟩ := hop.cond
    unfold makeJmp
    split
    · next h => exact absurd h h₈
    · next h => exact absurd h h₉
    · next h => exact absurd h h₀
    · rfl
  have hgoto : (opcode = 0x05) = False := eq_false hop.ne.2.1
  have hgoto' : (opcode = 0x06) = False := eq_false hop.ne.2.2
  have hget : getJmpOp pc ⟨opcode, left, src, offset, imm⟩ = .ok op := hop.op _ rfl pc
  rw [hcond]
  unfold makeCondJmp
  simp only [EbpfInst.cls, EbpfInst.srcReg, hop.cls, hop.srcReg, hget, hgoto, hgoto',
    decide_true, or_self, decide_false, Bool.not_false, Bool.not_eq_true', if_false, base, if_true,
    Bool.false_eq_true, BitVec.not_lt.mpr hl, BitVec.not_lt.mpr hs, and_false]
  have hsrc : ¬ (isReg = false ∧ src ≠ 0) := fun h => h.2 (himm h.1)
  have himm₀ : ¬ (isReg = true ∧ imm ≠ 0) := fun h => h.2 (hreg h.1)
  cases P.supportsGroup .base64 with
  | false => rfl
  | true =>
    show (if isReg = false ∧ src ≠ 0 then _ else _) = _
    rw [if_neg hsrc, if_neg himm₀]
    rfl

theorem marshal_cond_reg {op : ConditionOp} {code : BitVec 8} (hcode : op.code = .ok code)
    (left right : Reg) (is64 : Bool) (target : Label) :
    marshal pc (.jmp (some ⟨op, left, .inl right, is64⟩) target) =
      .ok [⟨0x05#8 ||| code <<< 4 ||| 0x08, Reg.toField left, Reg.toField right,
        labelToOffset16 pc target, 0⟩] := by
  show (op.code >>= _) = _
  rw [hcode]
  rfl

theorem marshal_cond_imm {op : ConditionOp} {code : BitVec 8} (hcode : op.code = .ok code)
    (left : Reg) (right : BitVec 32) (is64 : Bool) (target : Label) :
    marshal pc (.jmp (some ⟨op, left, .inr (signExtendImm right), is64⟩) target) =
      if right.toNat < 2 ^ 31 then .ok [⟨0x05#8 ||| code <<< 4, Reg.toField left, 0,
        labelToOffset16 pc target, right⟩] else .error .narrowing := by
  show (op.code >>= _) = _
  rw [hcode]
  show (narrowImm _ >>= _) = _
  rw [narrowImm_signExtendImm]
  split_ifs <;> rfl

/-- The word of a condition on 64 bits is given back. -/
theorem roundTrips_cond {op : ConditionOp} {left : Reg} {right : Value} {isReg : Bool}
    {opcode : BitVec 8} {src : BitVec 4} {imm : BitVec 32} {target : Label}
    (hg : P.supportsGroup .base64) (hop : CondOpcode op isReg opcode) (hl : left ≤ 10)
    (hs : src ≤ 10) (hreg : isReg → imm = 0) (himm : isReg = false → src = 0)
    (hright : (if isReg then .inl (Reg.ofField src) else .inr (signExtendImm imm)) = right)
    (ht : Target 16 pc target)
    (hm : marshal pc (.jmp (some ⟨op, left, right, true⟩) target) =
      .ok [⟨opcode, left.toField, src, labelToOffset16 pc target, imm⟩]) :
    RoundTrips P pc (.jmp (some ⟨op, left, right, true⟩) target) := by
  obtain ⟨n, rfl, hn, hfits⟩ := ht
  refine ⟨_, _, hm, fun insts after ha => (decode_jmp (Or.inl (hop.cls_inst _ _ _ _))).mpr ⟨?_, rfl⟩⟩
  obtain ⟨w, hw, hop'⟩ := ha.get (List.mem_singleton_self _)
  have htarget : getJumpTarget (labelToOffset16 pc (.ofIndex n)).toInt insts pc = .ok (.ofIndex n) := by
    rw [toInt_labelToOffset16 hfits]
    exact getJumpTarget_eq hn hw hop'
  rw [makeJmp_cond hop (Reg.toField_le hl) hs hreg himm, if_pos hg, htarget,
    Reg.ofField_toField hl, hright]
  rfl

theorem roundTrips_jmp {cond : Condition} {target : Label} (h : cond.IsIsa P)
    (ht : Target 16 pc target) (he : Encodable P pc (.jmp (some cond) target)) :
    RoundTrips P pc (.jmp (some cond) target) := by
  cases h with
  | @reg op left right is64 hg ho hl hr =>
    obtain rfl : is64 = true := he.1
    obtain ⟨code, hcode, hop, -⟩ := exists_condCode ho
    have hright : (Sum.inl (Reg.ofField (Reg.toField right)) : Value) = .inl right :=
      congrArg Sum.inl (Reg.ofField_toField hr)
    exact roundTrips_cond hg hop hl (Reg.toField_le hr) (fun _ => rfl) (fun h => by cases h) hright
      ht (marshal_cond_reg hcode left right true target)
  | @imm op left right is64 hg ho hl =>
    obtain rfl : is64 = true := he.1
    obtain ⟨code, hcode, -, hop⟩ := exists_condCode ho
    have hlt : right.toNat < 2 ^ 31 := (narrow_signExtendImm right).mp he.2
    exact roundTrips_cond hg hop hl (show (0 : BitVec 4) ≤ 10 by decide) (fun h => by cases h)
      (fun _ => rfl) rfl ht ((marshal_cond_imm hcode left right true target).trans (if_pos hlt))

theorem is64_of_makeJmp {insts : List EbpfInst} {op : ConditionOp} {isReg : Bool}
    {opcode : BitVec 8} {left src : BitVec 4} {offset : BitVec 16} {imm : BitVec 32}
    {c : Condition} {target : Label} (hop : CondOpcode op isReg opcode)
    (hl : left ≤ 10) (hs : src ≤ 10) (hreg : isReg → imm = 0) (himm : isReg = false → src = 0)
    (h : makeJmp P insts pc ⟨opcode, left, src, offset, imm⟩ = .ok (.jmp (some c) target)) :
    c.is64 = true := by
  rw [makeJmp_cond hop hl hs hreg himm] at h
  by_cases hg : P.supportsGroup .base64
  case neg =>
    rw [if_neg hg] at h
    cases h
  rw [if_pos hg] at h
  cases htarget : getJumpTarget offset.toInt insts pc with
  | error e =>
    rw [htarget] at h
    cases h
  | ok l =>
    rw [htarget] at h
    cases h
    rfl

theorem encodable_jmp {insts : List EbpfInst} {w : EbpfInst} {rest : List EbpfInst}
    {next? : Option EbpfInst} {cond : Condition} {target : Label} {skip : Bool} (h : cond.IsIsa P)
    (hm : marshal pc (.jmp (some cond) target) = .ok (w :: rest))
    (hd : decode P insts pc w next? = .ok (.jmp (some cond) target, skip)) :
    Encodable P pc (.jmp (some cond) target) := by
  cases h with
  | @reg op left right is64 hg ho hl hr =>
    obtain ⟨code, hcode, hop, -⟩ := exists_condCode ho
    rw [marshal_cond_reg hcode] at hm
    cases hm
    have hjmp := ((decode_jmp (Or.inl (hop.cls_inst _ _ _ _))).mp hd).1
    exact ⟨is64_of_makeJmp hop (Reg.toField_le hl) (Reg.toField_le hr) (fun _ => rfl)
      (fun h => by cases h) hjmp, trivial⟩
  | @imm op left right is64 hg ho hl =>
    obtain ⟨code, hcode, -, hop⟩ := exists_condCode ho
    rw [marshal_cond_imm hcode] at hm
    split_ifs at hm with hlt
    cases hm
    have hjmp := ((decode_jmp (Or.inl (hop.cls_inst _ _ _ _))).mp hd).1
    exact ⟨is64_of_makeJmp hop (Reg.toField_le hl) (show (0 : BitVec 4) ≤ 10 by decide)
      (fun h => by cases h) (fun _ => rfl) hjmp, (narrow_signExtendImm right).mpr hlt⟩

/-! ## The result -/

theorem roundTrips_of_encodable {ins : IsaInstruction} (h : IsIsa P pc ins)
    (he : Encodable P pc ins) : RoundTrips P pc ins := by
  cases h with
  | bin h => exact roundTrips_bin h he
  | un h => exact roundTrips_un h
  | loadMapFd hg hd => exact roundTrips_loadMapFd hg hd
  | loadMapAddress hg hd => exact roundTrips_loadMapAddress hg hd
  | callx hg hx hf => exact roundTrips_callx hg hx hf
  | mem h => exact roundTrips_mem h he
  | packet h => exact roundTrips_packet h
  | atomic h => exact roundTrips_atomic h
  | call hg hu hc => exact roundTrips_call hg hu hc
  | callLocal hg ht => exact roundTrips_callLocal hg ht he
  | exit hg => exact roundTrips_exit hg
  | goto hg ht => exact roundTrips_goto hg ht he
  | jmp h ht => exact roundTrips_jmp h ht he

theorem narrow_of_marshal_bin {b : Bin} {words : List EbpfInst} (h : b.IsIsa P)
    (hm : marshal pc (.other (.bin b)) = .ok words) (hb : b.lddw = false) : Value.Narrow b.v := by
  cases h with
  | lddw => cases hb
  | reg => trivial
  | @imm op dst right is64 =>
    rw [marshal_bin_imm] at hm
    split_ifs at hm with hlt
    exact (narrow_signExtendImm right).mpr hlt

theorem narrow_of_marshal_mem {m : Mem} {words : List EbpfInst} (h : m.IsIsa P)
    (hm : marshal pc (.other (.mem m)) = .ok words) : Value.Narrow m.value := by
  cases h with
  | load => trivial
  | storeReg => trivial
  | @storeImm access imm ha =>
    obtain ⟨code, -, hwidth⟩ := exists_widthCode ha.width
    rw [marshal_storeImm ha hwidth] at hm
    split_ifs at hm with hlt
    exact (narrow_zeroExtendImm imm).mpr hlt

/-- An instruction that a decoded word gives back was encodable. -/
theorem encodable_of_decode {ins : IsaInstruction} {insts : List EbpfInst} {w : EbpfInst}
    {rest : List EbpfInst} {next? : Option EbpfInst} {skip : Bool} (h : IsIsa P pc ins)
    (hm : marshal pc ins = .ok (w :: rest)) (hd : decode P insts pc w next? = .ok (ins, skip)) :
    Encodable P pc ins := by
  cases h with
  | bin h => exact narrow_of_marshal_bin h hm
  | mem h => exact narrow_of_marshal_mem h hm
  | callLocal hg ht =>
    obtain ⟨n, rfl, hn, hfits⟩ := ht
    obtain ⟨imm, himm⟩ := labelToOffset32_ok (l := .ofIndex n) hfits
    rw [marshal_callLocal himm] at hm
    cases hm
    exact encodable_callLocal_iff.mpr ((decode_callLocal hg hn hn himm).mp hd).1
  | goto hg ht => exact encodable_goto hm hd
  | jmp h ht => exact encodable_jmp h hm hd
  | _ => trivial

/-- The words of an instruction begin with one that is not the second half of a wide load, and
    `size` counts them. -/
structure WordsOf (ins : IsaInstruction) (words : List EbpfInst) : Prop where
  head : ∃ w rest, words = w :: rest ∧ w.opcode ≠ 0
  length : words.length = Marshal.size ins

theorem wordsOf_single {ins : IsaInstruction} {w : EbpfInst} (hs : Marshal.size ins = 1)
    (hw : w.opcode ≠ 0) : WordsOf ins [w] :=
  ⟨⟨w, [], rfl, hw⟩, hs.symm⟩

theorem aluOpcode_ne (is64 : Bool) (op : BinOp) (isReg : Bool) : aluOpcode is64 op isReg ≠ 0 := by
  cases is64 <;> cases op <;> cases isReg <;> decide

theorem wordsOf_bin {b : Bin} {words : List EbpfInst} (h : b.IsIsa P)
    (hm : marshal pc (.other (.bin b)) = .ok words) : WordsOf (.other (.bin b)) words := by
  cases h with
  | lddw =>
    cases hm
    exact ⟨⟨_, _, rfl, show (0x18 : BitVec 8) ≠ 0 by decide⟩, rfl⟩
  | @reg op dst right is64 =>
    rw [marshal_bin_reg] at hm
    cases hm
    exact wordsOf_single rfl (aluOpcode_ne is64 op true)
  | @imm op dst right is64 =>
    rw [marshal_bin_imm] at hm
    split_ifs at hm
    cases hm
    exact wordsOf_single rfl (aluOpcode_ne is64 op false)

theorem wordsOf_un {u : Un} {words : List EbpfInst} (hm : marshal pc (.other (.un u)) = .ok words) :
    WordsOf (.other (.un u)) words := by
  obtain ⟨op, dst, is64⟩ := u
  rw [marshal_un] at hm
  cases hm
  refine wordsOf_single rfl (show unOpcode is64 op ≠ 0 from ?_)
  cases op <;> cases is64 <;> decide

theorem widthCode_of_eq {width : ℤ} {code : BitVec 8} (h : widthToOpcode width = .ok code) :
    WidthCode width code := by
  unfold widthToOpcode at h
  split_ifs at h with h₁ h₂ h₄ h₈
  all_goals
    cases h
    subst width
    constructor

theorem WidthCode.or_ne {width : ℤ} {code : BitVec 8} (h : WidthCode width code) :
    (∀ bits, 0x60 ||| code ||| bits ≠ 0) ∧ code ||| 0x40 ≠ 0 ∧ code ||| 0x20 ≠ 0 ∧
      0x03 ||| 0xc0 ||| code ≠ 0 := by
  cases h <;> decide

theorem wordsOf_mem {m : Mem} {words : List EbpfInst}
    (hm : marshal pc (.other (.mem m)) = .ok words) : WordsOf (.other (.mem m)) words := by
  obtain ⟨access, value, isLoad⟩ := m
  obtain ⟨code, hcode, hm⟩ := Except.bind_eq_ok.mp hm
  obtain ⟨offset, -, hm⟩ := Except.bind_eq_ok.mp hm
  have hne := (widthCode_of_eq hcode).or_ne.1
  cases isLoad with
  | true =>
    cases value with
    | inl r =>
      cases hm
      exact wordsOf_single rfl (hne _)
    | inr imm => cases hm
  | false =>
    cases value with
    | inl r =>
      cases hm
      refine wordsOf_single rfl (show 0x60 ||| code ||| 0x02 ||| 0x01 ≠ 0 from ?_)
      rw [BitVec.or_assoc]
      exact hne _
    | inr imm =>
      obtain ⟨i, -, hm⟩ := Except.bind_eq_ok.mp hm
      cases hm
      exact wordsOf_single rfl (hne _)

theorem wordsOf_packet {p : Packet} {words : List EbpfInst}
    (hm : marshal pc (.other (.packet p)) = .ok words) : WordsOf (.other (.packet p)) words := by
  obtain ⟨width, offset, regoffset⟩ := p
  obtain ⟨code, hcode, hm⟩ := Except.bind_eq_ok.mp hm
  have hne := (widthCode_of_eq hcode).or_ne.2
  cases regoffset with
  | none =>
    cases hm
    exact wordsOf_single rfl hne.2.1
  | some r =>
    cases hm
    exact wordsOf_single rfl hne.1

theorem wordsOf_atomic {a : Atomic} {words : List EbpfInst}
    (hm : marshal pc (.other (.atomic a)) = .ok words) : WordsOf (.other (.atomic a)) words := by
  obtain ⟨code, hcode, hm⟩ := Except.bind_eq_ok.mp hm
  obtain ⟨offset, -, hm⟩ := Except.bind_eq_ok.mp hm
  cases hm
  exact wordsOf_single rfl (widthCode_of_eq hcode).or_ne.2.2.2

theorem wordsOf_jmp {cond : Option Condition} {target : Label} {words : List EbpfInst}
    (hm : marshal pc (.jmp cond target) = .ok words) : WordsOf (.jmp cond target) words := by
  cases cond with
  | none =>
    obtain ⟨imm, -, hm⟩ := Except.bind_eq_ok.mp hm
    replace hm : (if imm ≠ 0 then _ else _) = Except.ok words := hm
    split_ifs at hm
    · cases hm
      exact wordsOf_single rfl (show (0x06 : BitVec 8) ≠ 0 by decide)
    · cases hm
      exact wordsOf_single rfl (show (0x05 : BitVec 8) ≠ 0 by decide)
  | some c =>
    obtain ⟨op, left, right, is64⟩ := c
    obtain ⟨code, hcode, hm⟩ := Except.bind_eq_ok.mp hm
    have hne : op ≠ .nset := by
      rintro rfl
      cases hcode
    obtain ⟨code', hcode', hreg, himm⟩ := exists_condCode hne
    cases hcode.symm.trans hcode'
    cases right with
    | inl right =>
      cases hm
      exact wordsOf_single rfl hreg.ne.1
    | inr right =>
      obtain ⟨i, -, hm⟩ := Except.bind_eq_ok.mp hm
      cases hm
      exact wordsOf_single rfl himm.ne.1

theorem wordsOf_marshal {ins : IsaInstruction} {words : List EbpfInst} (h : IsIsa P pc ins)
    (hm : marshal pc ins = .ok words) : WordsOf ins words := by
  cases h with
  | bin h => exact wordsOf_bin h hm
  | un h => exact wordsOf_un hm
  | loadMapFd | loadMapAddress =>
    cases hm
    exact ⟨⟨_, _, rfl, show (0x18 : BitVec 8) ≠ 0 by decide⟩, rfl⟩
  | callx =>
    cases hm
    exact wordsOf_single rfl (show (0x8d : BitVec 8) ≠ 0 by decide)
  | mem h => exact wordsOf_mem hm
  | packet h => exact wordsOf_packet hm
  | atomic h => exact wordsOf_atomic hm
  | call =>
    cases hm
    exact wordsOf_single rfl (show (0x85 : BitVec 8) ≠ 0 by decide)
  | callLocal =>
    obtain ⟨imm, -, hm⟩ := Except.bind_eq_ok.mp hm
    cases hm
    exact wordsOf_single rfl (show (0x85 : BitVec 8) ≠ 0 by decide)
  | exit =>
    cases hm
    exact wordsOf_single rfl (show (0x95 : BitVec 8) ≠ 0 by decide)
  | goto | jmp => exact wordsOf_jmp hm

/-- There is a program around the words of an instruction: the first word before and after them, as
    often as it takes for the targets. -/
theorem exists_around {ins : IsaInstruction} {w : EbpfInst} {rest : List EbpfInst}
    (hw : w.opcode ≠ 0) (hrest : targets ins ≠ [] → rest = []) :
    ∃ insts after, Around P pc ins (w :: rest) insts after := by
  by_cases ht : targets ins = []
  · refine ⟨List.replicate pc w ++ (w :: rest), [], ?_, fun l hl => ?_, fun dst next _ h => by cases h⟩
    · rw [List.drop_left' List.length_replicate, List.append_nil]
    · rw [ht] at hl
      cases hl
  · rw [hrest ht]
    let n : ℕ := ((targets ins).map fun l => l.src.toNat).sum + pc + 1
    refine ⟨List.replicate n w, List.replicate (n - pc - 1) w, ?_, fun l hl => ⟨w, ?_, hw⟩, ?_⟩
    · rw [List.drop_replicate, show n - pc = (n - pc - 1) + 1 by omega, List.replicate_succ]
      rfl
    · have hle : l.src.toNat ≤ ((targets ins).map fun l => l.src.toNat).sum :=
        List.single_le_sum (fun _ _ => Nat.zero_le _) _ (List.mem_map_of_mem hl)
      rw [List.getElem?_replicate, if_pos (by omega)]
    · rintro dst next rfl
      exact absurd rfl ht

theorem size_of_targets {ins : IsaInstruction} (h : targets ins ≠ []) : Marshal.size ins = 1 := by
  cases ins with
  | jmp | callLocal => rfl
  | _ => exact absurd rfl h

/-- Decoding gives back what was encoded exactly when the encoder loses nothing. -/
theorem roundTrips_iff {ins : IsaInstruction} (h : IsIsa P pc ins) :
    RoundTrips P pc ins ↔ Encodable P pc ins := by
  refine ⟨?_, roundTrips_of_encodable h⟩
  rintro ⟨w, rest, hm, hd⟩
  obtain ⟨⟨_, _, heq, hop⟩, hlength⟩ := wordsOf_marshal h hm
  cases heq
  have hrest : targets ins ≠ [] → rest = [] := by
    intro ht
    rw [size_of_targets ht] at hlength
    exact List.length_eq_zero_iff.mp (Nat.succ.inj hlength)
  obtain ⟨insts, after, ha⟩ := exists_around hop hrest
  exact encodable_of_decode h hm (hd insts after ha)

/-- A platform with every group of instructions, and no helper. -/
def Platform.bare : Platform where
  supportsGroup _ := true
  isHelperUsable _ := false
  getHelperPrototype _ :=
    ⟨"", .unsupported, (.dontcare, .dontcare, .dontcare, .dontcare, .dontcare), false⟩

theorem roundTrips_jmp_reg : RoundTrips .bare 7 (.jmp (some ⟨.slt, (1 : Reg), .inl (2 : Reg), true⟩)
    (.ofIndex 3)) :=
  (roundTrips_iff (.jmp (.reg rfl (by decide) (by decide) (by decide))
    ⟨3, rfl, by decide, by decide⟩)).mpr ⟨rfl, trivial⟩

/-- The decoder makes `r1 += -1`, which is not encoded. -/
theorem not_roundTrips_add :
    IsIsa .bare 0 (.other (.bin ⟨.add, 1, .inr (signExtendImm (-1)), true, false⟩)) ∧
      ¬ RoundTrips .bare 0 (.other (.bin ⟨.add, 1, .inr (signExtendImm (-1)), true, false⟩)) := by
  refine ⟨.bin (.imm rfl (fun _ => rfl) rfl (by decide)), ?_⟩
  rintro ⟨w, rest, hm, -⟩
  rw [marshal_bin_imm, if_neg (by decide)] at hm
  cases hm

end Prevail
