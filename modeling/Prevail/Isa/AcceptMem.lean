import Prevail.Isa.Accept

/-!
# What the decoder accepts: memory

Packet accesses, loads, stores and atomic operations.
-/

namespace Prevail

open DecodeError Unmarshaller

variable {P : Platform} {insts : List EbpfInst}

/-! ## Memory -/

section Mem

variable {pc : ℕ} {inst : EbpfInst} {u : RawUnit}

theorem getMemWidth_eq_eight : getMemWidth inst = 8 ↔ inst.opcode &&& 0x18 = 0x18 := by
  have hsize : ∀ op : BitVec 8, op &&& 0x18 = 0x00 ∨ op &&& 0x18 = 0x08 ∨ op &&& 0x18 = 0x10 ∨
      op &&& 0x18 = 0x18 := by decide
  unfold getMemWidth
  rcases hsize inst.opcode with h | h | h | h <;> rw [h] <;> decide

theorem succeeds_getAtomicOp : (getAtomicOp pc inst).Succeeds ↔ inst.imm ∈ atomicImms := by
  have hsplit : inst.imm = (inst.imm &&& ~~~0x1) ||| (inst.imm &&& 0x1) := by
    rw [← BitVec.and_or_distrib_left]
    have hones : ((~~~0x1 : BitVec 32) ||| 0x1) = BitVec.allOnes 32 := by decide
    rw [hones, BitVec.and_allOnes]
  constructor
  · intro h
    have hbit : inst.imm &&& 0x1 = 0 ∨ inst.imm &&& 0x1 = 0x1 := by
      by_cases h0 : inst.imm &&& 0x1 = 0
      · exact Or.inl h0
      · exact Or.inr (and_one_cases inst.imm h0)
    unfold getAtomicOp at h
    rw [hsplit]
    dsimp only at h
    rcases hbit with hbit | hbit <;> rw [hbit] at h ⊢ <;> split at h <;>
      first
      | exact absurd h Except.not_succeeds_error
      | next hop => rw [hop]; decide
  · intro h
    unfold atomicImms at h
    simp only [List.mem_cons, List.not_mem_nil, or_false] at h
    unfold getAtomicOp
    rcases h with h | h | h | h | h | h | h | h | h | h <;> rw [h] <;> exact Except.succeeds_ok

theorem makeMemOp_abs (h : inst.opcode &&& 0xe0 = 0x20) : (makeMemOp P pc inst).Succeeds ↔
    inst.dst = 0 ∧ inst.src = 0 ∧ inst.offset = 0 ∧ P.supportsGroup (base (getMemWidth inst = 8)) ∧
      P.supportsGroup .packet ∧ inst.cls = 0x00 ∧ getMemWidth inst ≠ 8 := by
  have h' : inst.opcode &&& 224#8 = 32#8 := h
  have hzero : ∀ r : BitVec 4, r = 0#4 → r ≤ 10#4 := by decide
  have hpos : 0#4 < inst.src ↔ ¬ inst.src = 0#4 := BitVec.pos_iff_ne_zero _
  simp [makeMemOp, makePacket, h', hpos]
  have := hzero inst.dst
  have := hzero inst.src
  tauto

theorem makeMemOp_ind (h : inst.opcode &&& 0xe0 = 0x40) : (makeMemOp P pc inst).Succeeds ↔
    inst.dst = 0 ∧ inst.src ≤ 10 ∧ inst.offset = 0 ∧
      P.supportsGroup (base (getMemWidth inst = 8)) ∧ P.supportsGroup .packet ∧ inst.cls = 0x00 ∧
      getMemWidth inst ≠ 8 := by
  have h' : inst.opcode &&& 224#8 = 64#8 := h
  have hzero : ∀ r : BitVec 4, r = 0#4 → r ≤ 10#4 := by decide
  simp [makeMemOp, makePacket, h']
  have := hzero inst.dst
  tauto

theorem makeMemOp_mem (h : inst.opcode &&& 0xe0 = 0x60) : (makeMemOp P pc inst).Succeeds ↔
    inst.dst ≤ 10 ∧ inst.src ≤ 10 ∧ P.supportsGroup (base (getMemWidth inst = 8)) ∧
      inst.cls ≠ 0x00 ∧ ¬ (inst.cls = 0x01 ∧ inst.dst = 10) ∧
      (if inst.opcode &&& 1 = 0 then inst.src = 0 else inst.imm = 0) := by
  have h' : inst.opcode &&& 224#8 = 96#8 := h
  simp [makeMemOp, makeLoadStore, h']
  split_ifs <;> tauto

theorem makeMemOp_atomic (h : inst.opcode &&& 0xe0 = 0xc0) : (makeMemOp P pc inst).Succeeds ↔
    inst.dst ≤ 10 ∧ inst.src ≤ 10 ∧ P.supportsGroup (base (getMemWidth inst = 8)) ∧
      inst.cls = 0x03 ∧ (inst.opcode &&& 0x18 = 0x00 ∨ inst.opcode &&& 0x18 = 0x18) ∧
      P.supportsGroup (if inst.opcode &&& 0x18 = 0x18 then .atomic64 else .atomic32) ∧
      inst.imm ∈ atomicImms := by
  have h' : inst.opcode &&& 224#8 = 192#8 := h
  simp [makeMemOp, makeAtomic, h', succeeds_getAtomicOp]
  tauto

theorem makeMemOp_other (h20 : inst.opcode &&& 0xe0 ≠ 0x20) (h40 : inst.opcode &&& 0xe0 ≠ 0x40)
    (h60 : inst.opcode &&& 0xe0 ≠ 0x60) (hc0 : inst.opcode &&& 0xe0 ≠ 0xc0) :
    ¬ (makeMemOp P pc inst).Succeeds := by
  unfold makeMemOp
  simp only [Except.succeeds_guard]
  rintro ⟨-, -, h⟩
  split at h <;> first | contradiction | exact Except.not_succeeds_error h

theorem exists_atomic_fits {group : ConformanceGroup} (hwide : u.inst.opcode ≠ 0x18) :
    (∃ t ∈ atomicImms.map fun n =>
      (⟨u.inst.opcode, .dst, .src, .memOffset, .value n, group⟩ : EbpfInstructionTemplate),
      t.Fits P insts u) ↔
      u.inst.dst ≤ 10 ∧ u.inst.src ≤ 10 ∧ u.inst.imm ∈ atomicImms ∧ P.supportsGroup group := by
  simp only [List.mem_map, exists_exists_and_eq_and]
  constructor
  · rintro ⟨n, hn, hfit⟩
    obtain ⟨-, hdst, hsrc, -, himm, -, hgroup⟩ := EbpfInstructionTemplate.fits_iff.mp hfit
    obtain rfl := ImmField.fits_value.mp himm
    exact ⟨hdst, hsrc, hn, hgroup⟩
  · rintro ⟨hdst, hsrc, hn, hgroup⟩
    exact ⟨u.inst.imm, hn, rfl, hdst, hsrc, trivial, rfl, fun h => absurd h hwide, hgroup⟩

/-- The words of the memory classes that are accepted. -/
theorem makeMemOp_succeeds (insts : List EbpfInst) (hwide : u.inst.opcode ≠ 0x18)
    (hcls : u.inst.cls = 0x00 ∨ u.inst.cls = 0x01 ∨ u.inst.cls = 0x02 ∨ u.inst.cls = 0x03) :
    (makeMemOp P u.pc u.inst).Succeeds ↔ P.supportsGroup (base (getMemWidth u.inst = 8)) ∧
      (u.inst.cls = 0x01 → u.inst.dst ≠ 10) ∧
      ∃ t ∈ memTemplates u.inst.opcode, t.Fits P insts u := by
  have hwide' : u.inst.opcode ≠ 24#8 := hwide
  have hc : u.inst.opcode &&& 0x07 = u.inst.cls := rfl
  have hodd : u.inst.opcode &&& 1 = u.inst.cls &&& 1 := by
    rw [EbpfInst.cls, BitVec.and_assoc]
    rfl
  unfold memTemplates
  rw [hc]
  dsimp only
  split
  case h_1 h =>
    rw [makeMemOp_abs h]
    split_ifs with hif
    · have h8 : ¬ getMemWidth u.inst = 8 := fun h => hif.2 (getMemWidth_eq_eight.mp h)
      simp [EbpfInstructionTemplate.fits_iff, hwide', hif.1, h8]
      tauto
    · simp only [List.not_mem_nil, false_and, exists_false, and_false, iff_false]
      rintro ⟨-, -, -, -, -, hcls, h8⟩
      exact hif ⟨hcls, fun h => h8 (getMemWidth_eq_eight.mpr h)⟩
  case h_2 h =>
    rw [makeMemOp_ind h]
    split_ifs with hif
    · have h8 : ¬ getMemWidth u.inst = 8 := fun h => hif.2 (getMemWidth_eq_eight.mp h)
      simp [EbpfInstructionTemplate.fits_iff, hwide', hif.1, h8]
      tauto
    · simp only [List.not_mem_nil, false_and, exists_false, and_false, iff_false]
      rintro ⟨-, -, -, -, -, hcls, h8⟩
      exact hif ⟨hcls, fun h => h8 (getMemWidth_eq_eight.mpr h)⟩
  case h_3 h =>
    rw [makeMemOp_mem h, hodd]
    simp only [← getMemWidth_eq_eight]
    rcases hcls with hcls | hcls | hcls | hcls
    · simp [hcls]
    · simp [hcls, EbpfInstructionTemplate.fits_iff, hwide']
      tauto
    · have hsrc : u.inst.src = 0#4 → u.inst.src ≤ 10#4 := fun h => by rw [h]; decide
      simp [hcls, EbpfInstructionTemplate.fits_iff, hwide']
      tauto
    · simp [hcls, EbpfInstructionTemplate.fits_iff, hwide']
      tauto
  case h_4 h =>
    rw [makeMemOp_atomic h]
    by_cases hif : u.inst.cls = 0x03 ∧
      (u.inst.opcode &&& 0x18 = 0x00 ∨ u.inst.opcode &&& 0x18 = 0x18)
    · rw [if_pos hif, exists_atomic_fits hwide]
      have hne : u.inst.cls = 0x01 → u.inst.dst ≠ 10 := fun h => by
        rw [hif.1] at h
        exact absurd h (by decide)
      tauto
    · rw [if_neg hif]
      simp only [List.not_mem_nil, false_and, exists_false, and_false, iff_false]
      exact fun h => hif ⟨h.2.2.2.1, h.2.2.2.2.1⟩
  case h_5 h20 h40 h60 hc0 =>
    simp [makeMemOp_other h20 h40 h60 hc0]

end Mem

end Prevail
