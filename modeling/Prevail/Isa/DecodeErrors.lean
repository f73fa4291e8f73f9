import Prevail.Isa.AcceptJmp

/-!
# The errors of the decoder

The decoder raises an `InvalidInstruction` for a word, apart from two kinds of words: a call of a helper
whose prototype `makeCall` does not take, and a jump to an instruction whose number does not fit a label
(`decode_invalid_iff`).
-/

namespace Prevail

/-- The error is an `InvalidInstruction`. -/
def DecodeError.IsInvalid : DecodeError → Prop
  | .invalid _ _ => True
  | .invalidOpcode _ _ _ => True
  | _ => False

instance (e : DecodeError) : Decidable e.IsInvalid := by
  unfold DecodeError.IsInvalid
  cases e <;> infer_instance

theorem cls_cases (inst : EbpfInst) : inst.cls = 0x00 ∨ inst.cls = 0x01 ∨ inst.cls = 0x02 ∨
    inst.cls = 0x03 ∨ inst.cls = 0x04 ∨ inst.cls = 0x05 ∨ inst.cls = 0x06 ∨ inst.cls = 0x07 := by
  have hall : ∀ op : BitVec 8, op &&& 0x07 = 0x00 ∨ op &&& 0x07 = 0x01 ∨ op &&& 0x07 = 0x02 ∨
      op &&& 0x07 = 0x03 ∨ op &&& 0x07 = 0x04 ∨ op &&& 0x07 = 0x05 ∨ op &&& 0x07 = 0x06 ∨
      op &&& 0x07 = 0x07 := by decide
  exact hall inst.opcode

namespace Unmarshaller

open DecodeError

variable {P : Platform} {pc : ℕ} {inst : EbpfInst} {insts : List EbpfInst} {next? : Option EbpfInst}

/-- The word is a call of a helper, which is decoded by `makeCall`. -/
structure IsHelperCall (P : Platform) (inst : EbpfInst) : Prop where
  opcode : inst.opcode = 0x85
  src : inst.src = 0
  dst : inst.dst = 0
  offset : inst.offset = 0
  group : P.supportsGroup .base32 = true
  usable : P.isHelperUsable inst.imm = true

/-- The word is a jump or a local call by the offset, and the fields that are looked at before its target
are right. -/
inductive Jumps (P : Platform) (inst : EbpfInst) : ℤ → Prop
  | callLocal : inst.opcode = 0x85 → P.supportsGroup .base32 = true → inst.src = 1 → inst.dst = 0 →
      inst.offset = 0 → Jumps P inst inst.imm.toInt
  | goto : inst.opcode = 0x05 → P.supportsGroup .base32 = true → P.supportsGroup .base64 = true →
      inst.src = 0 → inst.dst = 0 → inst.imm = 0 → Jumps P inst inst.offset.toInt
  | gotoLong : inst.opcode = 0x06 → P.supportsGroup .base32 = true → inst.src = 0 → inst.dst = 0 →
      inst.offset = 0 → Jumps P inst inst.imm.toInt
  | cond : inst.cls = 0x05 ∨ inst.cls = 0x06 →
      inst.opcode >>> 4 ∉ ([0x0, 0x8, 0x9, 0xe, 0xf] : List (BitVec 8)) →
        P.supportsGroup (base (inst.cls = 0x05)) = true →
          (if inst.srcReg then inst.imm = 0 else inst.src = 0) → Jumps P inst inst.offset.toInt

/-- The target is an instruction whose number does not fit a label. -/
def FarTarget (insts : List EbpfInst) (pc : ℕ) (offset : ℤ) : Prop :=
  ∃ (n : ℕ) (target : EbpfInst), (n : ℤ) = (pc + 1 + offset) % 2 ^ 32 ∧ 2 ^ 31 ≤ n ∧
    insts[n]? = some target ∧ target.opcode ≠ 0

theorem isInvalid_bad : (bad pc inst).IsInvalid := trivial

theorem isInvalid_opcodeMessage {msg : String} : (opcodeMessage pc msg inst).IsInvalid := trivial

theorem isInvalid_invalid {what : String} : (DecodeError.invalid pc what).IsInvalid := trivial

section

attribute [local simp] isInvalid_bad isInvalid_opcodeMessage isInvalid_invalid

theorem failsOnly_endian {op16 op32 op64 : UnOp} :
    (endian P pc inst op16 op32 op64).FailsOnly IsInvalid := by
  unfold endian
  split_ifs <;> simp

theorem failsOnly_getPlainAluOp : (getPlainAluOp P pc inst).FailsOnly IsInvalid := by
  unfold getPlainAluOp
  dsimp only
  split
  · simp
  · split <;> (try split_ifs) <;> first | exact failsOnly_endian | simp

theorem failsOnly_getDivOp {unsigned signed : BinOp} :
    (getDivOp P pc inst unsigned signed).FailsOnly IsInvalid := by
  unfold getDivOp
  split_ifs <;> simp

theorem failsOnly_getAluOp : (getAluOp P pc inst).FailsOnly IsInvalid := by
  unfold getAluOp
  split
  · exact failsOnly_getDivOp
  · exact failsOnly_getDivOp
  · split_ifs <;> simp
  · exact failsOnly_getPlainAluOp

theorem failsOnly_getBinValue : (getBinValue pc inst).FailsOnly IsInvalid := by
  unfold getBinValue
  split_ifs <;> simp

theorem failsOnly_makeAluOp : (makeAluOp P pc inst).FailsOnly IsInvalid := by
  unfold makeAluOp
  dsimp only
  split_ifs
  · simp
  · simp
  · simp
  · refine failsOnly_getAluOp.bind fun o _ => ?_
    cases o with
    | inr op => simp
    | inl op => exact failsOnly_getBinValue.bind fun v _ => by simp

theorem failsOnly_makePacket {regoffset : Option Reg} :
    (makePacket pc inst regoffset).FailsOnly IsInvalid := by
  unfold makePacket
  split_ifs <;> simp

theorem failsOnly_makeLoadStore : (makeLoadStore pc inst).FailsOnly IsInvalid := by
  unfold makeLoadStore
  dsimp only
  split_ifs <;> simp

theorem failsOnly_getAtomicOp : (getAtomicOp pc inst).FailsOnly IsInvalid := by
  unfold getAtomicOp
  dsimp only
  split <;> (try split_ifs) <;> simp

theorem failsOnly_makeAtomic : (makeAtomic P pc inst).FailsOnly IsInvalid := by
  unfold makeAtomic
  refine .guard isInvalid_bad (.guard isInvalid_bad ?_)
  exact failsOnly_getAtomicOp.bind fun _ _ => by simp

theorem failsOnly_makeMemOp : (makeMemOp P pc inst).FailsOnly IsInvalid := by
  unfold makeMemOp
  dsimp only
  split
  · simp
  split
  · simp
  split
  · split_ifs <;> first | exact failsOnly_makePacket | simp
  · split_ifs <;> first | exact failsOnly_makePacket | simp
  · split_ifs <;> first | exact failsOnly_makeLoadStore | simp
  · exact failsOnly_makeAtomic
  · simp

theorem failsOnly_makeLddw : (makeLddw P pc inst next?).FailsOnly IsInvalid := by
  unfold makeLddw
  split
  · simp
  split
  · simp
  refine .guard isInvalid_invalid (.guard isInvalid_bad (.guard isInvalid_opcodeMessage
    (.guard isInvalid_invalid ?_)))
  split
  · simp
  · split_ifs <;> simp
  · simp
  · simp

theorem failsOnly_makeCallx : (makeCallx pc inst).FailsOnly IsInvalid := by
  unfold makeCallx
  split_ifs <;> simp

theorem failsOnly_makeExit : (makeExit P pc inst).FailsOnly IsInvalid := by
  unfold makeExit
  split_ifs <;> simp

theorem failsOnly_getJmpOp : (getJmpOp pc inst).FailsOnly IsInvalid := by
  unfold getJmpOp
  split <;> simp

theorem failsOnly_mergeShifts {i : IsaInstruction} :
    (mergeShifts P pc inst i next?).FailsOnly IsInvalid := by
  unfold mergeShifts
  dsimp only
  split
  · simp
  split
  · simp
  split
  · simp
  refine failsOnly_makeAluOp.bind fun i' _ => ?_
  split_ifs <;> simp

end

/-! ## Jumps -/

/-- A jump fails with an error that is not returned just when its target is far. -/
theorem failsOnly_getJumpTarget {offset : ℤ} :
    (getJumpTarget offset insts pc).FailsOnly IsInvalid ↔ ¬ FarTarget insts pc offset := by
  have hmod : 0 ≤ ((pc : ℤ) + 1 + offset) % 2 ^ 32 := Int.emod_nonneg _ (by decide)
  have hn : ∀ n : ℕ, (n : ℤ) = (pc + 1 + offset) % 2 ^ 32 ↔
      n = ((pc + 1 + offset) % 2 ^ 32 : ℤ).toNat := by
    omega
  unfold getJumpTarget FarTarget
  simp only [hn]
  generalize ((pc + 1 + offset) % 2 ^ 32 : ℤ).toNat = newPc
  cases hget : insts[newPc]? with
  | none => simp [hget, isInvalid_invalid]
  | some target =>
    dsimp only
    by_cases hop : target.opcode = 0
    · rw [if_pos hop]
      simp [hop, hget, isInvalid_invalid]
    · rw [if_neg hop]
      by_cases hfar : 2 ^ 31 ≤ newPc
      · rw [if_pos hfar, Except.failsOnly_error]
        exact iff_of_false id fun h => h ⟨newPc, target, rfl, hfar, hget, hop⟩
      · rw [if_neg hfar]
        refine iff_of_true Except.failsOnly_ok ?_
        rintro ⟨n, -, rfl, hle, -⟩
        exact hfar hle

theorem failsOnly_getJumpTarget_bind {α : Type} {offset : ℤ} {f : Label → Except DecodeError α}
    (hf : ∀ target, (f target).FailsOnly IsInvalid) :
    (getJumpTarget offset insts pc >>= f).FailsOnly IsInvalid ↔ ¬ FarTarget insts pc offset := by
  rw [Except.failsOnly_bind, failsOnly_getJumpTarget]
  exact and_iff_left fun target _ => hf target

/-- The fields that `makeCondJmp` looks at before the target are right. -/
structure CondFields (P : Platform) (inst : EbpfInst) : Prop where
  group : P.supportsGroup (base (inst.cls = 0x05)) = true
  op : inst.opcode >>> 4 ≠ 0xe ∧ inst.opcode >>> 4 ≠ 0xf
  src : if inst.srcReg then inst.imm = 0 else inst.src = 0

theorem failsOnly_makeCondJmp : (makeCondJmp P insts pc inst).FailsOnly IsInvalid ↔
    (CondFields P inst → ¬ FarTarget insts pc
      (if inst.opcode = 0x06 then inst.imm.toInt else inst.offset.toInt)) := by
  have hsrc : (¬ (!inst.srcReg ∧ inst.src ≠ 0) ∧ ¬ (inst.srcReg ∧ inst.imm ≠ 0)) ↔
      if inst.srcReg then inst.imm = 0 else inst.src = 0 := by
    cases inst.srcReg <;> simp
  have hfields : CondFields P inst ↔ ¬ !P.supportsGroup (base (inst.cls = 0x05)) ∧
      (getJmpOp pc inst).Succeeds ∧
        ¬ (!inst.srcReg ∧ inst.src ≠ 0) ∧ ¬ (inst.srcReg ∧ inst.imm ≠ 0) := by
    rw [succeeds_getJmpOp, hsrc, Bool.not_eq_true', Bool.not_eq_false]
    exact ⟨fun h => ⟨h.group, h.op, h.src⟩, fun h => ⟨h.1, h.2.1, h.2.2⟩⟩
  unfold makeCondJmp
  dsimp only
  rw [hfields, Except.failsOnly_guard_of isInvalid_bad, Except.failsOnly_bind,
    and_iff_right failsOnly_getJmpOp, and_imp, and_imp, Except.Succeeds, forall_exists_index]
  refine imp_congr_right fun _ => forall_congr' fun op => imp_congr_right fun _ => ?_
  rw [Except.failsOnly_guard_of isInvalid_bad, Except.failsOnly_guard_of isInvalid_opcodeMessage, and_imp]
  refine imp_congr_right fun _ => imp_congr_right fun _ => failsOnly_getJumpTarget_bind fun target => ?_
  exact .guard isInvalid_invalid (.guard isInvalid_invalid Except.failsOnly_pure)

/-- The fields that `makeGoto` looks at before it goes on as for a conditional jump are right. -/
structure GotoFields (P : Platform) (inst : EbpfInst) : Prop where
  cls : inst.cls = 0x05 ∨ inst.cls = 0x06
  group : P.supportsGroup .base32 = true
  reg : inst.srcReg = false
  imm : inst.cls = 0x05 → inst.imm = 0
  offset : inst.cls = 0x06 → inst.offset = 0
  dst : inst.dst = 0

theorem failsOnly_makeGoto : (makeGoto P insts pc inst).FailsOnly IsInvalid ↔
    (GotoFields P inst → (makeCondJmp P insts pc inst).FailsOnly IsInvalid) := by
  have hfields : GotoFields P inst ↔ ¬ (inst.cls ≠ 0x05 ∧ inst.cls ≠ 0x06) ∧
      ¬ !P.supportsGroup .base32 ∧ ¬ inst.srcReg ∧ ¬ (inst.cls = 0x05 ∧ inst.imm ≠ 0) ∧
        ¬ (inst.cls = 0x06 ∧ inst.offset ≠ 0) ∧ ¬ inst.dst ≠ 0 := by
    constructor
    · rintro ⟨hcls, hgroup, hreg, himm, hoffset, hdst⟩
      simp only [hgroup, hreg, hdst]
      tauto
    · rintro ⟨hcls, hgroup, hreg, himm, hoffset, hdst⟩
      exact ⟨by tauto, by simpa using hgroup, by simpa using hreg, by tauto, by tauto, not_not.mp hdst⟩
  unfold makeGoto
  rw [hfields, Except.failsOnly_guard_of isInvalid_bad, Except.failsOnly_guard_of isInvalid_bad,
    Except.failsOnly_guard_of isInvalid_bad, Except.failsOnly_guard_of isInvalid_opcodeMessage,
    Except.failsOnly_guard_of isInvalid_opcodeMessage, Except.failsOnly_guard_of isInvalid_opcodeMessage,
    and_imp, and_imp, and_imp, and_imp, and_imp]

theorem failsOnly_makeCallLocal : (makeCallLocal insts pc inst).FailsOnly IsInvalid ↔
    (inst.srcReg = false → inst.dst = 0 → ¬ FarTarget insts pc inst.imm.toInt) := by
  unfold makeCallLocal
  rw [Except.failsOnly_guard_of isInvalid_bad, Except.failsOnly_guard_of isInvalid_opcodeMessage,
    failsOnly_getJumpTarget_bind fun _ => Except.failsOnly_pure, Bool.not_eq_true, not_not]

/-! ## Helper calls -/

theorem makeArgs_runtime {name : String} {i : ℕ} {args : List ArgumentType} {res : CallInfo} :
    (makeArgs name i args res).FailsOnly fun e => ∃ what, e = .runtime what := by
  fun_induction makeArgs name i args res <;> simp_all

theorem makeCall_runtime {imm : BitVec 32} :
    (makeCall P imm).FailsOnly fun e => ∃ what, e = .runtime what := by
  unfold makeCall
  dsimp only
  split_ifs
  · simp
  · exact makeArgs_runtime

theorem isHelperCall_of_opcode (hcls : inst.cls = 0x05) (hop : inst.opcode >>> 4 = 0x8)
    (hsrc : inst.srcReg = false) : inst.opcode = 0x85 := by
  unfold EbpfInst.cls at hcls
  unfold EbpfInst.srcReg at hsrc
  revert hcls hop hsrc
  generalize inst.opcode = op
  revert op
  decide

theorem failsOnly_makeCall (husable : P.isHelperUsable inst.imm = true) :
    (do return .call (← makeCall P inst.imm) [] : Except DecodeError IsaInstruction).FailsOnly IsInvalid ↔
      HelperFits P inst.imm := by
  rw [← succeeds_makeCall husable, Except.failsOnly_bind,
    and_iff_left fun _ _ => Except.failsOnly_pure]
  cases hcall : makeCall P inst.imm with
  | ok c => exact iff_of_true Except.failsOnly_ok Except.succeeds_ok
  | error e =>
    obtain ⟨what, rfl⟩ := makeCall_runtime e hcall
    exact iff_of_false (fun h => h _ rfl) Except.not_succeeds_error

/-- The fields that are looked at for a local call and for a call of a helper are right. -/
structure CallFields (P : Platform) (inst : EbpfInst) : Prop where
  cls : inst.cls = 0x05
  group : P.supportsGroup .base32 = true
  reg : inst.srcReg = false
  offset : inst.offset = 0
  dst : inst.dst = 0

theorem failsOnly_makeAnyCall : (makeAnyCall P insts pc inst).FailsOnly IsInvalid ↔
    (CallFields P inst → (inst.src = 1 → ¬ FarTarget insts pc inst.imm.toInt) ∧
      (inst.src = 0 → P.isHelperUsable inst.imm = true → HelperFits P inst.imm)) := by
  have hsrc : ∀ r : BitVec 4, ¬ 2 ≤ r → r ≠ 1 → r = 0 := by decide
  unfold makeAnyCall
  by_cases hfields : CallFields P inst
  · rw [if_neg (not_not.mpr hfields.cls), if_neg (by simp [hfields.reg]), if_neg (by simp [hfields.group]),
      imp_iff_right hfields, Except.failsOnly_guard_of isInvalid_bad, if_neg (not_not.mpr hfields.offset)]
    by_cases hlocal : inst.src = 1
    · rw [if_pos hlocal, hlocal, failsOnly_makeCallLocal, imp_iff_right hfields.reg,
        imp_iff_right hfields.dst]
      simp
    · rw [if_neg hlocal, if_neg (by simp [hfields.reg]), if_neg (not_not.mpr hfields.dst),
        Except.failsOnly_guard_of isInvalid_invalid, and_iff_right fun h => absurd h hlocal]
      constructor
      · intro h h0 husable
        exact (failsOnly_makeCall husable).mp (h (by rw [h0]; decide) (by simpa using husable))
      · intro h hle husable
        have husable : P.isHelperUsable inst.imm = true := by simpa using husable
        exact (failsOnly_makeCall husable).mpr (h (hsrc _ hle hlocal) husable)
  · refine iff_of_true ?_ fun h => absurd h hfields
    split_ifs with hcls hcallx hgroup hsrc' hoffset hlocal hreg hdst husable
    · exact Except.failsOnly_error.mpr isInvalid_bad
    · exact Except.failsOnly_error.mpr isInvalid_bad
    · exact Except.failsOnly_error.mpr isInvalid_bad
    · exact Except.failsOnly_error.mpr isInvalid_bad
    · exact Except.failsOnly_error.mpr isInvalid_opcodeMessage
    · refine failsOnly_makeCallLocal.mpr fun hreg hdst => absurd ?_ hfields
      exact ⟨not_not.mp hcls, by simpa using hgroup, hreg, not_not.mp hoffset, hdst⟩
    · exact failsOnly_makeCallx
    · exact Except.failsOnly_error.mpr isInvalid_opcodeMessage
    · exact Except.failsOnly_error.mpr isInvalid_invalid
    · refine absurd ?_ hfields
      exact ⟨not_not.mp hcls, by simpa using hgroup, by simpa using hreg, not_not.mp hoffset,
        not_not.mp hdst⟩

/-! ## Words -/

/-- The class, the source bit and the kind of jump of an opcode. -/
theorem opcode_parts {op : BitVec 8} (h : inst.opcode = op) :
    inst.cls = op &&& 0x07 ∧ inst.srcReg = decide (op &&& 0x08 ≠ 0) ∧ inst.opcode >>> 4 = op >>> 4 := by
  subst h
  exact ⟨rfl, rfl, rfl⟩

theorem goto_opcode (hop : inst.opcode >>> 4 = 0x0) (hreg : inst.srcReg = false) :
    (inst.cls = 0x05 → inst.opcode = 0x05) ∧ (inst.cls = 0x06 → inst.opcode = 0x06) := by
  unfold EbpfInst.cls
  unfold EbpfInst.srcReg at hreg
  revert hop hreg
  generalize inst.opcode = op
  revert op
  decide

theorem IsHelperCall.fields (h : IsHelperCall P inst) : CallFields P inst := by
  obtain ⟨hcls, hreg, -⟩ := opcode_parts h.opcode
  exact ⟨hcls, h.group, hreg, h.offset, h.dst⟩

/-- The kinds of jumps, by the upper half of the opcode. -/
theorem Jumps.cases {offset : ℤ} (h : Jumps P inst offset) :
    (inst.opcode >>> 4 = 0x8 ∧ CallFields P inst ∧ inst.src = 1 ∧ offset = inst.imm.toInt) ∨
      (inst.opcode >>> 4 = 0x0 ∧ GotoFields P inst ∧ CondFields P inst ∧
        offset = if inst.opcode = 0x06 then inst.imm.toInt else inst.offset.toInt) ∨
      (inst.opcode >>> 4 ≠ 0x8 ∧ inst.opcode >>> 4 ≠ 0x9 ∧ inst.opcode >>> 4 ≠ 0x0 ∧ CondFields P inst ∧
        offset = inst.offset.toInt) := by
  cases h with
  | callLocal hop hgroup hsrc hdst hoffset =>
    obtain ⟨hcls, hreg, hkind⟩ := opcode_parts hop
    exact Or.inl ⟨hkind, ⟨hcls, hgroup, hreg, hoffset, hdst⟩, hsrc, rfl⟩
  | goto hop hgroup hgroup' hsrc hdst himm =>
    obtain ⟨hcls, hreg, hkind⟩ := opcode_parts hop
    have hcls : inst.cls = 0x05 := hcls
    have hreg : inst.srcReg = false := hreg
    refine Or.inr (Or.inl ⟨hkind, ⟨Or.inl hcls, hgroup, hreg, fun _ => himm, ?_, hdst⟩, ⟨?_, ?_, ?_⟩, ?_⟩)
    · rw [hcls]
      exact fun h => absurd h (by decide)
    · rw [hcls]
      exact hgroup'
    · rw [hkind]
      decide
    · rw [hreg]
      exact hsrc
    · rw [hop]
      rfl
  | gotoLong hop hgroup hsrc hdst hoffset =>
    obtain ⟨hcls, hreg, hkind⟩ := opcode_parts hop
    have hcls : inst.cls = 0x06 := hcls
    have hreg : inst.srcReg = false := hreg
    refine Or.inr (Or.inl ⟨hkind, ⟨Or.inr hcls, hgroup, hreg, ?_, fun _ => hoffset, hdst⟩, ⟨?_, ?_, ?_⟩, ?_⟩)
    · rw [hcls]
      exact fun h => absurd h (by decide)
    · rw [hcls]
      exact hgroup
    · rw [hkind]
      decide
    · rw [hreg]
      exact hsrc
    · rw [if_pos hop]
  | cond hcls hkind hgroup hsrc =>
    simp only [List.mem_cons, List.not_mem_nil, or_false, not_or] at hkind
    obtain ⟨h0, h8, h9, he, hf⟩ := hkind
    exact Or.inr (Or.inr ⟨h8, h9, h0, ⟨hgroup, ⟨he, hf⟩, hsrc⟩, rfl⟩)

/-- An unconditional jump. -/
theorem GotoFields.jumps (h : GotoFields P inst) (hkind : inst.opcode >>> 4 = 0x0)
    (hfields : CondFields P inst) :
    Jumps P inst (if inst.opcode = 0x06 then inst.imm.toInt else inst.offset.toInt) := by
  obtain ⟨h5, h6⟩ := goto_opcode hkind h.reg
  have hsrc := hfields.src
  have hgroup := hfields.group
  rw [h.reg] at hsrc
  rcases h.cls with hcls | hcls
  · rw [if_neg (by rw [h5 hcls]; decide)]
    rw [hcls] at hgroup
    exact .goto (h5 hcls) h.group hgroup hsrc h.dst (h.imm hcls)
  · rw [if_pos (h6 hcls)]
    exact .gotoLong (h6 hcls) h.group hsrc h.dst (h.offset hcls)

theorem failsOnly_makeJmp (hcls : inst.cls = 0x05 ∨ inst.cls = 0x06) :
    (makeJmp P insts pc inst).FailsOnly IsInvalid ↔ (IsHelperCall P inst → HelperFits P inst.imm) ∧
      ∀ offset, Jumps P inst offset → ¬ FarTarget insts pc offset := by
  have hhelper : inst.opcode >>> 4 ≠ 0x8 → ¬ IsHelperCall P inst := fun hne hcall =>
    hne (opcode_parts hcall.opcode).2.2
  unfold makeJmp
  split
  · next hkind =>
    rw [failsOnly_makeAnyCall]
    constructor
    · refine fun h => ⟨fun hcall => (h hcall.fields).2 hcall.src hcall.usable, fun offset hjump => ?_⟩
      rcases hjump.cases with ⟨-, hfields, hsrc, rfl⟩ | ⟨h0, -⟩ | ⟨h8, -⟩
      · exact (h hfields).1 hsrc
      · exact absurd (h0.symm.trans hkind) (by decide)
      · exact absurd hkind h8
    · rintro ⟨hhelper, hjump⟩ hfields
      have hop := isHelperCall_of_opcode hfields.cls hkind hfields.reg
      exact ⟨fun hsrc => hjump _ (.callLocal hop hfields.group hsrc hfields.dst hfields.offset),
        fun hsrc husable =>
          hhelper ⟨hop, hsrc, hfields.dst, hfields.offset, hfields.group, husable⟩⟩
  · next hkind =>
    refine iff_of_true failsOnly_makeExit
      ⟨fun hcall => absurd hcall (hhelper (by rw [hkind]; decide)), fun offset hjump => ?_⟩
    rcases hjump.cases with ⟨h8, -⟩ | ⟨h0, -⟩ | ⟨-, h9, -⟩
    · exact absurd (h8.symm.trans hkind) (by decide)
    · exact absurd (h0.symm.trans hkind) (by decide)
    · exact absurd hkind h9
  · next hkind =>
    rw [failsOnly_makeGoto, failsOnly_makeCondJmp]
    constructor
    · refine fun h => ⟨fun hcall => absurd hcall (hhelper (by rw [hkind]; decide)), fun offset hjump => ?_⟩
      rcases hjump.cases with ⟨h8, -⟩ | ⟨-, hgoto, hfields, rfl⟩ | ⟨-, -, h0, -⟩
      · exact absurd (h8.symm.trans hkind) (by decide)
      · exact h hgoto hfields
      · exact absurd hkind h0
    · exact fun h hgoto hfields => h.2 _ (hgoto.jumps hkind hfields)
  · next h8 h9 h0 =>
    rw [failsOnly_makeCondJmp]
    -- a jump by the immediate has the opcode of an unconditional jump
    have hop : inst.opcode ≠ 0x06 := fun hop => h0 (opcode_parts hop).2.2
    rw [if_neg hop]
    constructor
    · refine fun h => ⟨fun hcall => absurd hcall (hhelper h8), fun offset hjump => ?_⟩
      rcases hjump.cases with ⟨hkind, -⟩ | ⟨hkind, -⟩ | ⟨-, -, -, hfields, rfl⟩
      · exact absurd hkind h8
      · exact absurd hkind h0
      · exact h hfields
    · refine fun h hfields => h.2 _ (.cond hcls ?_ hfields.group hfields.src)
      simp only [List.mem_cons, List.not_mem_nil, or_false, not_or]
      exact ⟨h0, h8, h9, hfields.op.1, hfields.op.2⟩

/-- Any other word fails with an error that is returned. -/
theorem failsOnly_decode (hcls : ¬ (inst.cls = 0x05 ∨ inst.cls = 0x06)) :
    (decode P insts pc inst next?).FailsOnly IsInvalid := by
  unfold decode
  split
  · split_ifs
    · exact failsOnly_makeLddw.bind fun _ _ => Except.failsOnly_pure
    · exact failsOnly_makeMemOp.bind fun _ _ => Except.failsOnly_pure
  · exact failsOnly_makeMemOp.bind fun _ _ => Except.failsOnly_pure
  · exact failsOnly_makeMemOp.bind fun _ _ => Except.failsOnly_pure
  · exact failsOnly_makeMemOp.bind fun _ _ => Except.failsOnly_pure
  · exact failsOnly_makeAluOp.bind fun _ _ => failsOnly_mergeShifts
  · exact failsOnly_makeAluOp.bind fun _ _ => failsOnly_mergeShifts
  · next h => exact absurd (Or.inl h) hcls
  · next h => exact absurd (Or.inr h) hcls
  · next h0 h1 h2 h3 h4 h7 h5 h6 =>
    rcases cls_cases inst with h | h | h | h | h | h | h | h
    · exact absurd h h0
    · exact absurd h h1
    · exact absurd h h2
    · exact absurd h h3
    · exact absurd h h4
    · exact absurd h h5
    · exact absurd h h6
    · exact absurd h h7

/-- A word raises only errors that are returned exactly when the prototype of the helper fits, if it is
a call of a helper, and the target is near, if it is a jump. -/
theorem decode_invalid_iff : (decode P insts pc inst next?).FailsOnly IsInvalid ↔
    (IsHelperCall P inst → HelperFits P inst.imm) ∧
      ∀ offset, Jumps P inst offset → ¬ FarTarget insts pc offset := by
  by_cases hcls : inst.cls = 0x05 ∨ inst.cls = 0x06
  · rw [← failsOnly_makeJmp hcls]
    have hdecode : decode P insts pc inst next? = (do return (← makeJmp P insts pc inst, false)) := by
      unfold decode
      rcases hcls with h | h
      · rw [h]
        rfl
      · rw [h]
        rfl
    rw [hdecode, Except.failsOnly_bind]
    exact and_iff_left fun _ _ => Except.failsOnly_pure
  · refine iff_of_true (failsOnly_decode hcls)
      ⟨fun hcall => absurd (Or.inl hcall.fields.cls) hcls, fun offset hjump => absurd ?_ hcls⟩
    cases hjump with
    | callLocal hop => exact Or.inl (opcode_parts hop).1
    | goto hop => exact Or.inl (opcode_parts hop).1
    | gotoLong hop => exact Or.inr (opcode_parts hop).1
    | cond hcls => exact hcls

end Unmarshaller

end Prevail
