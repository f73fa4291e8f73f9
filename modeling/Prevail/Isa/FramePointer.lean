import Prevail.Isa.Decoded

/-!
# The frame pointer in decoded programs

Each routine of the decoder checks by itself that `r10` is not the target. Two of them forget it:
`makeLddw` takes `r10` for the target of a wide load, and `makeAtomic` takes it for the register that
is fetched. A decoded program keeps `r10` just when no word is one of these (`keepsR10_iff`).
-/

namespace Prevail

open DecodeError Unmarshaller

variable {P : Platform} {pc : ℕ}

/-- The registers that an instruction sets. A local call opens a frame of its own, which its exit
closes; neither sets a register of the frame that it is in. -/
def writtenRegs : IsaInstruction → List Reg
  | .other (.bin b) => [b.dst]
  | .other (.un u) => [u.dst]
  | .other (.loadMapFd dst _) | .other (.loadMapAddress dst _ _) => [dst]
  | .other (.mem ⟨_, .inl r, true⟩) => [r]
  | .other (.atomic a) => if a.fetch then [if a.op = .cmpxchg then 0 else a.valreg] else []
  | .other (.packet _) | .other (.callx _) | .call _ _ => [0, 1, 2, 3, 4, 5]
  | _ => []

/-- An atomic instruction that fetches into the register in `src`; `CMPXCHG` fetches into `r0`. -/
def EbpfInst.FetchesSrc (inst : EbpfInst) : Prop :=
  inst.cls = 0x03 ∧ inst.opcode &&& 0xe0 = 0xc0 ∧ inst.imm &&& 0x1 ≠ 0 ∧ inst.imm ≠ 0xf1

/-- The words that set `r10`: a wide load into it, and an atomic instruction that fetches into it. -/
def EbpfInst.SetsR10 (inst : EbpfInst) : Prop :=
  inst.opcode = 0x18 ∧ inst.dst = 10 ∨ inst.FetchesSrc ∧ inst.src = 10

theorem Reg.ofField_eq_ten {r : BitVec 4} : Reg.ofField r = 10 ↔ r = 10 := by
  constructor
  · intro h
    apply BitVec.eq_of_toNat_eq
    rw [← Reg.toNat_ofField, h]
    rfl
  · rintro rfl
    rfl

theorem ten_ne_of_le_nine {r : Reg} (h : r ≤ 9) : 10 ≠ r := by
  rintro rfl
  exact absurd h (by decide)

/-! ## Words that keep `r10` -/

theorem makeAluOp_keeps {inst : EbpfInst} {ins : IsaInstruction}
    (h : makeAluOp P pc inst = .ok ins) : 10 ∉ writtenRegs ins := by
  obtain ⟨-, hdst, ⟨u, hu, rfl⟩ | ⟨b, -, -, hb, -, -, rfl⟩⟩ := makeAluOp_ok h
  · show 10 ∉ [u.dst]
    rw [List.mem_singleton]
    exact ten_ne_of_le_nine hu.dst
  · show 10 ∉ [b.dst]
    rw [List.mem_singleton, hb]
    exact ten_ne_of_le_nine hdst

theorem mergeShifts_keeps {inst : EbpfInst} {i ins : IsaInstruction} {next? : Option EbpfInst}
    {skip : Bool} (hi : makeAluOp P pc inst = .ok i)
    (h : mergeShifts P pc inst i next? = .ok (ins, skip)) : 10 ∉ writtenRegs ins := by
  obtain ⟨-, rfl, -⟩ | ⟨-, dst, -, hdst, -, rfl | rfl⟩ := mergeShifts_ok hi h
  · exact makeAluOp_keeps hi
  · exact fun hmem => ten_ne_of_le_nine hdst (List.mem_singleton.mp hmem)
  · exact fun hmem => ten_ne_of_le_nine hdst (List.mem_singleton.mp hmem)

/-- The second word of two shifts that are merged is one of the 64-bit arithmetic class. -/
theorem next_of_mergeShifts {inst : EbpfInst} {i ins : IsaInstruction} {next? : Option EbpfInst}
    (h : mergeShifts P pc inst i next? = .ok (ins, true)) :
    ∃ next, next? = some next ∧ next.cls = 0x07 := by
  unfold mergeShifts at h
  cases next? with
  | none => cases h
  | some next =>
    dsimp only at h
    split_ifs at h with hshift hcls
    · cases h
    · cases h
    · exact ⟨next, rfl, not_not.mp hcls⟩

theorem makeCondJmp_keeps {insts : List EbpfInst} {inst : EbpfInst} {ins : IsaInstruction}
    (h : makeCondJmp P insts pc inst = .ok ins) : 10 ∉ writtenRegs ins := by
  obtain ⟨-, h⟩ := Except.guard_eq_ok.mp h
  obtain ⟨op, -, h⟩ := Except.bind_eq_ok.mp h
  iterate 2 obtain ⟨-, h⟩ := Except.guard_eq_ok.mp h
  obtain ⟨l, -, h⟩ := Except.bind_eq_ok.mp h
  iterate 2 obtain ⟨-, h⟩ := Except.guard_eq_ok.mp h
  cases h
  exact List.not_mem_nil

theorem makeAnyCall_keeps {insts : List EbpfInst} {inst : EbpfInst} {ins : IsaInstruction}
    (h : makeAnyCall P insts pc inst = .ok ins) : 10 ∉ writtenRegs ins := by
  iterate 5 obtain ⟨-, h⟩ := Except.guard_eq_ok.mp h
  split at h
  · -- a local call
    iterate 2 obtain ⟨-, h⟩ := Except.guard_eq_ok.mp h
    obtain ⟨l, -, h⟩ := Except.bind_eq_ok.mp h
    cases h
    exact List.not_mem_nil
  split at h
  · -- a call through a register
    obtain ⟨-, h⟩ := Except.guard_eq_ok.mp h
    split at h
    · iterate 2 obtain ⟨-, h⟩ := Except.guard_eq_ok.mp h
      cases h
      show (10 : Reg) ∉ [0, 1, 2, 3, 4, 5]
      decide
    · cases h
      show (10 : Reg) ∉ [0, 1, 2, 3, 4, 5]
      decide
  · iterate 2 obtain ⟨-, h⟩ := Except.guard_eq_ok.mp h
    obtain ⟨c, -, h⟩ := Except.bind_eq_ok.mp h
    cases h
    show (10 : Reg) ∉ [0, 1, 2, 3, 4, 5]
    decide

theorem makeJmp_keeps {insts : List EbpfInst} {inst : EbpfInst} {ins : IsaInstruction}
    (h : makeJmp P insts pc inst = .ok ins) : 10 ∉ writtenRegs ins := by
  unfold makeJmp at h
  split at h
  · exact makeAnyCall_keeps h
  · iterate 6 obtain ⟨-, h⟩ := Except.guard_eq_ok.mp h
    cases h
    exact List.not_mem_nil
  · iterate 6 obtain ⟨-, h⟩ := Except.guard_eq_ok.mp h
    exact makeCondJmp_keeps h
  · exact makeCondJmp_keeps h

/-! ## Words that may set it -/

theorem makeLoadStore_keeps {inst : EbpfInst} {ins : IsaInstruction}
    (hregs : ¬ (10 < inst.dst ∨ 10 < inst.src))
    (h : makeLoadStore pc inst = .ok ins) : 10 ∉ writtenRegs ins := by
  unfold makeLoadStore at h
  dsimp only at h
  obtain ⟨hr10, h⟩ := Except.guard_eq_ok.mp h
  obtain ⟨-, h⟩ := Except.guard_eq_ok.mp h
  obtain ⟨-, h⟩ := Except.guard_eq_ok.mp h
  obtain rfl := Except.ok.inj h
  by_cases hload : inst.cls = 0x00 ∨ inst.cls = 0x01
  · rw [decide_eq_true hload, if_pos rfl, if_pos rfl]
    intro hmem
    refine ten_ne_of_le_nine (Reg.ofField_le_nine (fun h => hregs (Or.inl h)) fun h => ?_)
      (List.mem_singleton.mp hmem)
    exact hr10 ⟨decide_eq_true hload, h⟩
  · rw [decide_eq_false hload]
    split_ifs <;> exact List.not_mem_nil

/-- The operation of an atomic instruction that fetches is `CMPXCHG` for one immediate only. -/
theorem getAtomicOp_cmpxchg {inst : EbpfInst} {op : AtomicOp} (h : getAtomicOp pc inst = .ok op)
    (hfetch : inst.imm &&& 0x1 = 0x1) : op = .cmpxchg ↔ inst.imm = 0xf1 := by
  have hsplit : inst.imm = (inst.imm &&& ~~~0x1) ||| (inst.imm &&& 0x1) := by
    rw [← BitVec.and_or_distrib_left]
    have hones : ((~~~0x1 : BitVec 32) ||| 0x1) = BitVec.allOnes 32 := by decide
    rw [hones, BitVec.and_allOnes]
  unfold getAtomicOp at h
  dsimp only at h
  split at h
  case h_2 hop =>
    obtain ⟨-, h⟩ := Except.guard_eq_ok.mp h
    cases h
    rw [hop, hfetch] at hsplit
    exact ⟨fun _ => hsplit, fun _ => rfl⟩
  case h_1 hop =>
    obtain ⟨-, h⟩ := Except.guard_eq_ok.mp h
    cases h
    exact ⟨fun h => (by cases h), fun himm => by rw [himm] at hop; exact absurd hop (by decide)⟩
  case h_7 => cases h
  all_goals
    next hop =>
      cases h
      exact ⟨fun h => (by cases h), fun himm => by rw [himm] at hop; exact absurd hop (by decide)⟩

theorem makeAtomic_sets {inst : EbpfInst} {ins : IsaInstruction}
    (h : makeAtomic P pc inst = .ok ins) :
    inst.cls = 0x03 ∧ (10 ∈ writtenRegs ins ↔
      (inst.imm &&& 0x1 ≠ 0 ∧ inst.imm ≠ 0xf1) ∧ inst.src = 10) := by
  unfold makeAtomic at h
  obtain ⟨hsize, h⟩ := Except.guard_eq_ok.mp h
  obtain ⟨-, h⟩ := Except.guard_eq_ok.mp h
  obtain ⟨op, hop, h⟩ := Except.bind_eq_ok.mp h
  cases h
  refine ⟨not_not.mp (not_or.mp hsize).1, ?_⟩
  show 10 ∈ (if decide (inst.imm &&& 0x1 = 0x1) then
    [if op = .cmpxchg then 0 else Reg.ofField inst.src] else []) ↔ _
  by_cases hfetch : inst.imm &&& 0x1 = 0
  · rw [if_neg (by rw [hfetch]; decide)]
    exact iff_of_false List.not_mem_nil fun h => h.1.1 hfetch
  · have hone := and_one_cases inst.imm hfetch
    rw [if_pos (decide_eq_true hone), List.mem_singleton]
    by_cases hcmp : inst.imm = 0xf1
    · rw [if_pos ((getAtomicOp_cmpxchg hop hone).mpr hcmp)]
      exact iff_of_false (by decide) fun h => h.1.2 hcmp
    · rw [if_neg fun h => hcmp ((getAtomicOp_cmpxchg hop hone).mp h), eq_comm,
        Reg.ofField_eq_ten]
      exact ⟨fun h => ⟨⟨hfetch, hcmp⟩, h⟩, fun h => h.2⟩

theorem makeMemOp_sets {inst : EbpfInst} {ins : IsaInstruction} (h : makeMemOp P pc inst = .ok ins) :
    10 ∈ writtenRegs ins ↔ inst.FetchesSrc ∧ inst.src = 10 := by
  unfold makeMemOp at h
  dsimp only at h
  obtain ⟨hregs, h⟩ := Except.guard_eq_ok.mp h
  obtain ⟨-, h⟩ := Except.guard_eq_ok.mp h
  have hmode : ∀ m : BitVec 8, inst.opcode &&& 0xe0 = m → m ≠ 0xc0 → ¬ inst.FetchesSrc :=
    fun m hm hne hf => hne (hm.symm.trans hf.2.1)
  have hcall : (10 : Reg) ∉ ([0, 1, 2, 3, 4, 5] : List Reg) := by decide
  split at h
  case h_1 hop =>
    iterate 3 obtain ⟨-, h⟩ := Except.guard_eq_ok.mp h
    rw [makePacket_ok h]
    exact iff_of_false hcall fun hf => hmode _ hop (by decide) hf.1
  case h_2 hop =>
    iterate 3 obtain ⟨-, h⟩ := Except.guard_eq_ok.mp h
    rw [makePacket_ok h]
    exact iff_of_false hcall fun hf => hmode _ hop (by decide) hf.1
  case h_3 hop =>
    obtain ⟨-, h⟩ := Except.guard_eq_ok.mp h
    exact iff_of_false (makeLoadStore_keeps hregs h) fun hf => hmode _ hop (by decide) hf.1
  case h_4 hop =>
    obtain ⟨hcls, hiff⟩ := makeAtomic_sets h
    rw [hiff]
    exact ⟨fun h => ⟨⟨hcls, hop, h.1⟩, h.2⟩, fun h => ⟨h.1.2.2, h.2⟩⟩
  case h_5 => cases h

theorem makeLddw_sets {inst : EbpfInst} {next? : Option EbpfInst} {ins : IsaInstruction}
    (h : makeLddw P pc inst next? = .ok ins) :
    (10 ∈ writtenRegs ins ↔ inst.dst = 10) ∧ ∃ next, next? = some next ∧ next.opcode = 0 := by
  unfold makeLddw at h
  obtain ⟨-, h⟩ := Except.guard_eq_ok.mp h
  cases next? with
  | none => cases h
  | some next =>
    obtain ⟨hnext, h⟩ := Except.guard_eq_ok.mp h
    iterate 3 obtain ⟨-, h⟩ := Except.guard_eq_ok.mp h
    refine ⟨?_, next, rfl, not_not.mp (not_or.mp hnext).1⟩
    have hmem : 10 ∈ [Reg.ofField inst.dst] ↔ inst.dst = 10 := by
      rw [List.mem_singleton, eq_comm, Reg.ofField_eq_ten]
    split at h
    · cases h
      exact hmem
    · obtain ⟨-, h⟩ := Except.guard_eq_ok.mp h
      cases h
      exact hmem
    · cases h
      exact hmem
    · cases h

/-! ## Programs -/

theorem fetchesSrc_cls {inst : EbpfInst} {c : BitVec 8} (hcls : inst.cls = c) (hc : c ≠ 0x03) :
    ¬ inst.FetchesSrc := fun h => hc (hcls.symm.trans h.1)

theorem not_setsR10_of_cls {inst : EbpfInst} {c : BitVec 8} (hcls : inst.cls = c) (h0 : c ≠ 0x00)
    (h3 : c ≠ 0x03) : ¬ inst.SetsR10 := by
  rintro (⟨hop, -⟩ | ⟨hf, -⟩)
  · exact of_decide_eq_false (opcode_ne_of_cls hcls h0).symm hop
  · exact fetchesSrc_cls hcls h3 hf

/-- One turn of the loop: the instruction sets `r10` just when the word says so, and the second word
of an instruction never does. -/
theorem decode_sets {insts : List EbpfInst} {inst : EbpfInst} {next? : Option EbpfInst}
    {ins : IsaInstruction} {skip : Bool} (h : decode P insts pc inst next? = .ok (ins, skip)) :
    (10 ∈ writtenRegs ins ↔ inst.SetsR10) ∧
      (skip → ∃ next, next? = some next ∧ ¬ next.SetsR10) := by
  unfold decode at h
  split at h
  case h_1 hcls =>
    have hnf := fetchesSrc_cls hcls (by decide)
    split_ifs at h with hop
    · obtain ⟨i, hi, h⟩ := Except.bind_eq_ok.mp h
      cases h
      obtain ⟨hiff, next, hnext, hop'⟩ := makeLddw_sets hi
      refine ⟨?_, fun _ => ⟨next, hnext, ?_⟩⟩
      · rw [hiff]
        exact ⟨fun h => Or.inl ⟨hop, h⟩, fun h => h.elim (fun h => h.2) fun h => absurd h.1 hnf⟩
      · have hcls' : next.cls = 0x00 := by rw [EbpfInst.cls, hop']; rfl
        rintro (⟨hop'', -⟩ | ⟨hf, -⟩)
        · rw [hop'] at hop''
          exact absurd hop'' (by decide)
        · exact fetchesSrc_cls hcls' (by decide) hf
    · obtain ⟨i, hi, h⟩ := Except.bind_eq_ok.mp h
      cases h
      refine ⟨?_, fun h => by cases h⟩
      rw [makeMemOp_sets hi]
      exact ⟨Or.inr, fun h => h.resolve_left fun h => hop h.1⟩
  case h_2 hcls | h_3 hcls | h_4 hcls =>
    obtain ⟨i, hi, h⟩ := Except.bind_eq_ok.mp h
    cases h
    refine ⟨?_, fun h => by cases h⟩
    rw [makeMemOp_sets hi]
    have hop := of_decide_eq_false (opcode_ne_of_cls hcls (by decide)).symm
    exact ⟨Or.inr, fun h => h.resolve_left fun h => hop h.1⟩
  case h_5 hcls | h_6 hcls =>
    obtain ⟨i, hi, h⟩ := Except.bind_eq_ok.mp h
    refine ⟨iff_of_false (mergeShifts_keeps hi h)
      (not_setsR10_of_cls hcls (by decide) (by decide)), ?_⟩
    rintro rfl
    obtain ⟨next, hnext, hcls'⟩ := next_of_mergeShifts h
    exact ⟨next, hnext, not_setsR10_of_cls hcls' (by decide) (by decide)⟩
  case h_7 hcls | h_8 hcls =>
    obtain ⟨i, hi, h⟩ := Except.bind_eq_ok.mp h
    cases h
    exact ⟨iff_of_false (makeJmp_keeps hi) (not_setsR10_of_cls hcls (by decide) (by decide)),
      fun h => by cases h⟩
  case h_9 => cases h

/-- No instruction of the program sets the frame pointer. -/
def KeepsR10 (seq : InstructionSeq Operation CallInfo) : Prop :=
  ∀ e ∈ seq, 10 ∉ writtenRegs e.2

theorem keepsR10_unmarshalFrom {insts l : List EbpfInst} {seq : InstructionSeq Operation CallInfo}
    (h : unmarshalFrom P insts pc l = .ok seq) : KeepsR10 seq ↔ ∀ inst ∈ l, ¬ inst.SetsR10 := by
  induction hn : l.length using Nat.strong_induction_on generalizing pc l seq with
  | _ n ih =>
    cases l with
    | nil =>
      cases h
      exact ⟨fun _ _ h => absurd h List.not_mem_nil, fun _ _ h => absurd h List.not_mem_nil⟩
    | cons inst l =>
      obtain ⟨-, ins, skip, rest, hd, rfl, hrest⟩ := unmarshalFrom_cons.mp h
      obtain ⟨hiff, hskip⟩ := decode_sets hd
      have hhead : KeepsR10 ((.ofIndex pc, ins) :: rest) ↔ ¬ inst.SetsR10 ∧ KeepsR10 rest := by
        unfold KeepsR10
        rw [List.forall_mem_cons, hiff]
      rw [hhead, List.forall_mem_cons]
      refine and_congr_right fun _ => ?_
      cases skip with
      | false =>
        refine ih _ ?_ hrest rfl
        rw [← hn, List.length_cons]
        exact Nat.lt_succ_self _
      | true =>
        obtain ⟨next, hnext, hkeep⟩ := hskip rfl
        obtain ⟨l', rfl⟩ : ∃ l', l = next :: l' := List.head?_eq_some_iff.mp hnext
        rw [List.forall_mem_cons, and_iff_right hkeep]
        refine ih _ ?_ hrest rfl
        rw [← hn, List.length_cons, List.length_cons]
        show l'.length < _
        omega

/-- A decoded program keeps the frame pointer just when no word loads a wide immediate or a map into
`r10`, and none fetches into it. -/
theorem keepsR10_iff {insts : List EbpfInst} {seq : InstructionSeq Operation CallInfo}
    (h : unmarshal P insts = .ok seq) : KeepsR10 seq ↔ ∀ inst ∈ insts, ¬ inst.SetsR10 :=
  keepsR10_unmarshalFrom (Except.guard_eq_ok.mp h).2

theorem keepsR10_iff_load : KeepsR10 [(.ofIndex 0, .other (.bin ⟨.mov, 1, .inr 7, true, true⟩)),
      (.ofIndex 2, .exit [])] ↔
    ∀ inst ∈ [(⟨0x18, 1, 0, 0, 7⟩ : EbpfInst), ⟨0, 0, 0, 0, 0⟩, ⟨0x95, 0, 0, 0, 0⟩],
      ¬ inst.SetsR10 :=
  @keepsR10_iff .bare [⟨0x18, 1, 0, 0, 7⟩, ⟨0, 0, 0, 0, 0⟩, ⟨0x95, 0, 0, 0, 0⟩] _ (by decide)

/-- A wide load into `r10`, and an atomic addition that fetches into it, are decoded. -/
theorem not_keepsR10_load : ∃ seq, unmarshal .bare [⟨0x18, 10, 0, 0, 7⟩, ⟨0, 0, 0, 0, 0⟩,
    ⟨0xdb, 1, 10, 0, 1⟩, ⟨0x95, 0, 0, 0, 0⟩] = .ok seq ∧ ¬ KeepsR10 seq := by
  refine ⟨[(.ofIndex 0, .other (.bin ⟨.mov, 10, .inr 7, true, true⟩)),
    (.ofIndex 2, .other (.atomic ⟨.add, true, ⟨8, 1, 0⟩, 10⟩)), (.ofIndex 3, .exit [])],
    by decide, fun h => ?_⟩
  exact h _ List.mem_cons_self (List.mem_singleton.mpr rfl)

end Prevail
