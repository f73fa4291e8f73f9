import Prevail.Isa.AcceptJmp
import Prevail.Isa.DecodeErrors

/-!
# Conformance of the decoder

A program is decoded just when each of its units is (`unmarshal_succeeds`), and a unit just when a
template fits it (`decodeUnit_succeeds`). This is not quite the table: the decoder takes a form that is
not there, it forgets the frame pointer in two places, and it asks for more groups than that of the
template. These are all the differences (`unmarshal_iff_matches`).
-/

namespace Prevail

open DecodeError Unmarshaller

variable {P : Platform} {insts : List EbpfInst} {u : RawUnit}

/-! ## Units -/

/-- What the decoder makes of a unit, before shifts are merged. -/
def decodeUnit (P : Platform) (insts : List EbpfInst) (u : RawUnit) :
    Except DecodeError IsaInstruction :=
  match u.inst.cls with
  | 0x00 =>
    if u.inst.opcode = 0x18 then makeLddw P u.pc u.inst u.next? else makeMemOp P u.pc u.inst
  | 0x01 | 0x02 | 0x03 => makeMemOp P u.pc u.inst
  | 0x04 | 0x07 => makeAluOp P u.pc u.inst
  | _ => makeJmp P insts u.pc u.inst

/-- The groups that a word needs by its class and its width, whatever its template. -/
def EbpfInst.baseGroups (inst : EbpfInst) : List ConformanceGroup :=
  match inst.cls with
  | 0x00 | 0x01 | 0x02 | 0x03 => [base (getMemWidth inst = 8)]
  | 0x04 | 0x07 => [base (inst.cls = 0x07)]
  | _ => jmpGroups inst

/-- The words for which the decoder checks that `r10` is not the target. -/
def EbpfInst.ChecksR10 (inst : EbpfInst) : Prop :=
  inst.cls = 0x01 ∨ inst.cls = 0x04 ∨ inst.cls = 0x07

theorem exists_fits_iff :
    (∃ t ∈ acceptedTemplate, t.Fits P insts u) ↔ ∃ t ∈ templates u.inst.opcode, t.Fits P insts u := by
  constructor
  · rintro ⟨t, ht, hfit⟩
    refine ⟨t, ?_, hfit⟩
    rw [hfit.opcode]
    exact mem_templates t ht
  · rintro ⟨t, ht, hfit⟩
    exact ⟨t, mem_of_mem_templates _ t ht, hfit⟩

theorem makeLddw_succeeds (insts : List EbpfInst) (hwide : u.inst.opcode = 0x18) :
    (makeLddw P u.pc u.inst u.next?).Succeeds ↔ P.supportsGroup .base64 ∧
      ∃ t ∈ lddwTemplates, t.Fits P insts u := by
  have hsrc : ∀ r : BitVec 4, ¬ 2 < r ↔ r = 0 ∨ r = 1 ∨ r = 2 := by decide
  have hexists : (∃ t ∈ lddwTemplates, t.Fits P insts u) ↔ P.supportsGroup .base64 ∧
      u.inst.dst ≤ 10 ∧ (u.inst.src = 0 ∨ u.inst.src = 1 ∨ u.inst.src = 2) ∧ u.inst.offset = 0 ∧
        u.NextFits := by
    simp [lddwTemplates, EbpfInstructionTemplate.fits_iff, hwide]
    tauto
  rw [hexists]
  unfold makeLddw RawUnit.NextFits
  rw [Except.succeeds_guard, Bool.not_eq_true', Bool.not_eq_false]
  refine and_congr_right fun hg => ?_
  rw [and_iff_right hg]
  cases u.next? with
  | none => simp
  | some next =>
    simp only [Except.succeeds_guard, hsrc, not_or, not_not, BitVec.not_lt]
    constructor
    · rintro ⟨hnext, hmode, hoffset, hdst, h⟩
      refine ⟨hdst, hmode, hoffset, next, rfl, hnext.1, hnext.2.1, hnext.2.2.1, hnext.2.2.2, ?_⟩
      intro h1
      rw [h1] at h
      simpa using h
    · rintro ⟨hdst, hmode, hoffset, _, ⟨rfl⟩, hop, hd, hs, ho, himm⟩
      refine ⟨⟨hop, hd, hs, ho⟩, hmode, hoffset, hdst, ?_⟩
      rcases hmode with h | h | h
      · rw [h]
        exact Except.succeeds_ok
      · rw [h]
        exact Except.succeeds_guard.mpr ⟨not_not.mpr (himm h), Except.succeeds_ok⟩
      · rw [h]
        exact Except.succeeds_ok

/-- The parts of a word of the memory classes. -/
theorem decodeUnit_mem (insts : List EbpfInst) (hwide : u.inst.opcode ≠ 0x18)
    (hcls : u.inst.cls = 0x00 ∨ u.inst.cls = 0x01 ∨ u.inst.cls = 0x02 ∨ u.inst.cls = 0x03) :
    decodeUnit P insts u = makeMemOp P u.pc u.inst ∧
      u.inst.baseGroups = [base (getMemWidth u.inst = 8)] ∧
      templates u.inst.opcode = memTemplates u.inst.opcode := by
  have hc : u.inst.opcode &&& 7#8 = u.inst.cls := rfl
  have hwide' : u.inst.opcode ≠ 24#8 := hwide
  rcases hcls with hcls | hcls | hcls | hcls <;>
    simp [decodeUnit, EbpfInst.baseGroups, templates, hc, hcls, hwide']

theorem decodeUnit_alu (insts : List EbpfInst)
    (hcls : u.inst.cls = 0x04 ∨ u.inst.cls = 0x07) :
    decodeUnit P insts u = makeAluOp P u.pc u.inst ∧
      u.inst.baseGroups = [base (u.inst.cls = 0x07)] ∧
      templates u.inst.opcode = aluTemplates u.inst.opcode := by
  have hc : u.inst.opcode &&& 7#8 = u.inst.cls := rfl
  rcases hcls with hcls | hcls <;>
    simp [decodeUnit, EbpfInst.baseGroups, templates, hc, hcls]

theorem decodeUnit_jmp (insts : List EbpfInst)
    (hcls : u.inst.cls = 0x05 ∨ u.inst.cls = 0x06) :
    decodeUnit P insts u = makeJmp P insts u.pc u.inst ∧ u.inst.baseGroups = jmpGroups u.inst ∧
      templates u.inst.opcode = jmpTemplates u.inst.opcode := by
  have hc : u.inst.opcode &&& 7#8 = u.inst.cls := rfl
  rcases hcls with hcls | hcls <;>
    simp [decodeUnit, EbpfInst.baseGroups, templates, hc, hcls]

theorem decodeUnit_lddw (insts : List EbpfInst) (hwide : u.inst.opcode = 0x18) :
    decodeUnit P insts u = makeLddw P u.pc u.inst u.next? ∧
      u.inst.baseGroups = [.base64] ∧ templates u.inst.opcode = lddwTemplates := by
  unfold decodeUnit EbpfInst.baseGroups EbpfInst.cls templates getMemWidth
  rw [hwide]
  exact ⟨rfl, rfl, rfl⟩

/-- The units that are decoded: a template fits, the decoder sees no `r10`, and the groups are
supported. -/
theorem decodeUnit_succeeds (hlen : insts.length ≤ 2 ^ 31) (hpc : u.pc < insts.length) :
    (decodeUnit P insts u).Succeeds ↔ (∀ g ∈ u.inst.baseGroups, P.supportsGroup g) ∧
      (u.inst.ChecksR10 → u.inst.dst ≠ 10) ∧ ∃ t ∈ acceptedTemplate, t.Fits P insts u := by
  have hchecks : ∀ c : BitVec 8, u.inst.cls = c → (u.inst.ChecksR10 ↔ c = 0x01 ∨ c = 0x04 ∨ c = 0x07) := by
    rintro c rfl
    exact Iff.rfl
  rw [exists_fits_iff]
  by_cases hwide : u.inst.opcode = 0x18
  · obtain ⟨hd, hb, ht⟩ := decodeUnit_lddw (P := P) insts hwide
    have hcls : u.inst.cls = 0x00 := by rw [EbpfInst.cls, hwide]; rfl
    rw [hd, hb, ht, makeLddw_succeeds insts hwide, List.forall_mem_singleton, hchecks _ hcls]
    simp
  rcases cls_cases u.inst with hcls | hcls | hcls | hcls | hcls | hcls | hcls | hcls
  case inl | inr.inl | inr.inr.inl | inr.inr.inr.inl =>
    obtain ⟨hd, hb, ht⟩ := decodeUnit_mem (P := P) insts hwide (by simp [hcls])
    rw [hd, hb, ht, makeMemOp_succeeds insts hwide (by simp [hcls]), List.forall_mem_singleton,
      hchecks _ hcls]
    simp [hcls]
  case inr.inr.inr.inr.inl | inr.inr.inr.inr.inr.inr.inr =>
    obtain ⟨hd, hb, ht⟩ := decodeUnit_alu (P := P) (u := u) insts (by simp [hcls])
    rw [hd, hb, ht, makeAluOp_succeeds insts (by simp [hcls]), List.forall_mem_singleton,
      hchecks _ hcls]
    simp
  case inr.inr.inr.inr.inr.inl | inr.inr.inr.inr.inr.inr.inl =>
    obtain ⟨hd, hb, ht⟩ := decodeUnit_jmp (P := P) (u := u) insts (by simp [hcls])
    rw [hd, hb, ht, makeJmp_succeeds hlen hpc (by simp [hcls]), hchecks _ hcls]
    simp

/-! ## Programs -/

theorem units_cons {pc : ℕ} {inst : EbpfInst} {l : List EbpfInst} :
    units pc (inst :: l) =
      if inst.opcode = 0x18 then ⟨pc, inst, l.head?⟩ :: units (pc + 2) l.tail
      else ⟨pc, inst, none⟩ :: units (pc + 1) l := by
  cases l with
  | nil =>
    unfold units
    split_ifs <;> rfl
  | cons next rest =>
    rw [units]
    rfl

theorem pc_of_mem_units {l : List EbpfInst} : ∀ {pc : ℕ}, u ∈ units pc l →
    pc ≤ u.pc ∧ u.pc < pc + l.length := by
  induction hn : l.length using Nat.strong_induction_on generalizing l with
  | _ n ih =>
    intro pc hu
    cases l with
    | nil => cases hu
    | cons inst l =>
      rw [List.length_cons] at hn
      rw [units_cons] at hu
      split_ifs at hu
      · rcases List.mem_cons.mp hu with rfl | hu
        · exact ⟨le_rfl, Nat.lt_add_of_pos_right (by omega)⟩
        · have htail : l.tail.length ≤ l.length := by rw [List.length_tail]; omega
          have h := ih _ (by omega) rfl hu
          have hne : l.tail.length < l.length := by
            cases l with
            | nil => cases hu
            | cons next rest => exact Nat.lt_succ_self _
          exact ⟨by omega, by omega⟩
      · rcases List.mem_cons.mp hu with rfl | hu
        · exact ⟨le_rfl, Nat.lt_add_of_pos_right (by omega)⟩
        · have h := ih _ (by omega) rfl hu
          exact ⟨by omega, by omega⟩

/-- Merging fails only where the next word is not decoded, and skips only a word that is. -/
theorem mergeShifts_cases (pc : ℕ) (inst : EbpfInst) (i : IsaInstruction)
    (next? : Option EbpfInst) :
    (∃ ins, mergeShifts P pc inst i next? = .ok (ins, false)) ∨
      ∃ next, next? = some next ∧ next.cls = 0x07 ∧
        ((makeAluOp P (pc + 1) next).Succeeds ∧
            (∃ ins, mergeShifts P pc inst i next? = .ok (ins, true)) ∨
          ¬ (makeAluOp P (pc + 1) next).Succeeds ∧ ¬ (mergeShifts P pc inst i next?).Succeeds) := by
  cases next? with
  | none => exact Or.inl ⟨i, rfl⟩
  | some next =>
    unfold mergeShifts
    dsimp only
    split_ifs with hshift hcls
    · exact Or.inl ⟨i, rfl⟩
    · exact Or.inl ⟨i, rfl⟩
    · cases hnext : makeAluOp P (pc + 1) next with
      | error e =>
        refine Or.inr ⟨next, rfl, not_not.mp hcls, Or.inr ⟨?_, Except.not_succeeds_error⟩⟩
        rw [hnext]
        exact Except.not_succeeds_error
      | ok nextIns =>
        by_cases hr : nextIns = shift32 (.ofField inst.dst) .rsh
        · exact Or.inr ⟨next, rfl, not_not.mp hcls, Or.inl ⟨⟨_, hnext⟩, _, if_pos hr⟩⟩
        · by_cases ha : nextIns = shift32 (.ofField inst.dst) .arsh
          · exact Or.inr ⟨next, rfl, not_not.mp hcls,
              Or.inl ⟨⟨_, hnext⟩, _, (if_neg hr).trans (if_pos ha)⟩⟩
          · exact Or.inl ⟨i, (if_neg hr).trans (if_neg ha)⟩

theorem decode_eq_lddw {pc : ℕ} {inst : EbpfInst} {next? : Option EbpfInst}
    (h : inst.opcode = 0x18) :
    decode P insts pc inst next? = (do return (← decodeUnit P insts ⟨pc, inst, next?⟩, true)) := by
  unfold decode decodeUnit EbpfInst.cls
  rw [h]
  rfl

/-- A wide load at the end of the program is not decoded. -/
theorem not_decodeUnit_lddw {pc : ℕ} {inst : EbpfInst} (h : inst.opcode = 0x18) :
    ¬ (decodeUnit P insts ⟨pc, inst, none⟩).Succeeds := by
  rw [(decodeUnit_lddw insts h).1]
  unfold makeLddw
  rw [Except.succeeds_guard]
  exact fun h => Except.not_succeeds_error h.2

theorem decode_eq_alu {pc : ℕ} {inst : EbpfInst} {next? : Option EbpfInst}
    (h : inst.cls = 0x04 ∨ inst.cls = 0x07) :
    decode P insts pc inst next? =
      decodeUnit P insts ⟨pc, inst, none⟩ >>= fun i => mergeShifts P pc inst i next? := by
  rw [(decodeUnit_alu insts h).1]
  unfold decode
  rcases h with h | h
  · rw [h]
    rfl
  · rw [h]
    rfl

theorem decode_eq_unit {pc : ℕ} {inst : EbpfInst} {next? : Option EbpfInst}
    (h : inst.opcode ≠ 0x18) (h4 : inst.cls ≠ 0x04) (h7 : inst.cls ≠ 0x07) :
    decode P insts pc inst next? = (do return (← decodeUnit P insts ⟨pc, inst, none⟩, false)) := by
  unfold decode
  rcases cls_cases inst with hcls | hcls | hcls | hcls | hcls | hcls | hcls | hcls
  case inr.inr.inr.inr.inl => exact absurd hcls h4
  case inr.inr.inr.inr.inr.inr.inr => exact absurd hcls h7
  case inr.inr.inr.inr.inr.inl | inr.inr.inr.inr.inr.inr.inl =>
    rw [(decodeUnit_jmp insts (by simp [hcls])).1, hcls]
    rfl
  all_goals
    rw [(decodeUnit_mem insts h (by simp [hcls])).1, hcls]
    first | rfl | exact if_neg h

theorem succeeds_unmarshalFrom_cons {pc : ℕ} {inst : EbpfInst} {l : List EbpfInst} :
    (unmarshalFrom P insts pc (inst :: l)).Succeeds ↔ pc < 2 ^ 31 ∧
      ∃ ins skip, decode P insts pc inst l.head? = .ok (ins, skip) ∧
        (unmarshalFrom P insts (pc + if skip then 2 else 1) (if skip then l.tail else l)).Succeeds := by
  unfold Except.Succeeds
  simp only [unmarshalFrom_cons]
  constructor
  · rintro ⟨seq, hpc, ins, skip, rest, hd, -, hrest⟩
    exact ⟨hpc, ins, skip, hd, rest, hrest⟩
  · rintro ⟨hpc, ins, skip, hd, rest, hrest⟩
    exact ⟨_, hpc, ins, skip, rest, hd, rfl, hrest⟩

/-- The rest of a program is decoded just when each of its units is. -/
theorem unmarshalFrom_succeeds (hlen : insts.length ≤ 2 ^ 31) {l : List EbpfInst} {pc : ℕ}
    (hl : pc + l.length = insts.length) : (unmarshalFrom P insts pc l).Succeeds ↔
      ∀ u ∈ units pc l, (decodeUnit P insts u).Succeeds := by
  induction hn : l.length using Nat.strong_induction_on generalizing l pc with
  | _ n ih =>
    cases l with
    | nil => exact iff_of_true Except.succeeds_ok fun u hu => absurd hu List.not_mem_nil
    | cons inst l =>
      rw [List.length_cons] at hl hn
      rw [succeeds_unmarshalFrom_cons, and_iff_right (by omega : pc < 2 ^ 31), units_cons]
      have hnext : (unmarshalFrom P insts (pc + 1) l).Succeeds ↔
          ∀ u ∈ units (pc + 1) l, (decodeUnit P insts u).Succeeds := ih _ (by omega) (by omega) rfl
      by_cases hwide : inst.opcode = 0x18
      · rw [if_pos hwide, List.forall_mem_cons, decode_eq_lddw hwide]
        have htail : l ≠ [] → ((unmarshalFrom P insts (pc + 2) l.tail).Succeeds ↔
            ∀ u ∈ units (pc + 2) l.tail, (decodeUnit P insts u).Succeeds) := fun hne => by
          have hpos := List.length_pos_of_ne_nil hne
          have hsub : l.tail.length = l.length - 1 := List.length_tail
          exact ih _ (by omega) (by omega) rfl
        constructor
        · rintro ⟨ins, skip, hd, hrest⟩
          obtain ⟨i, hi, heq⟩ := Except.bind_eq_ok.mp hd
          cases heq
          refine ⟨⟨ins, hi⟩, (htail ?_).mp hrest⟩
          rintro rfl
          exact not_decodeUnit_lddw hwide ⟨ins, hi⟩
        · rintro ⟨⟨i, hi⟩, hrest⟩
          refine ⟨i, true, Except.bind_eq_ok.mpr ⟨i, hi, rfl⟩, (htail ?_).mpr hrest⟩
          rintro rfl
          exact not_decodeUnit_lddw hwide ⟨i, hi⟩
      rw [if_neg hwide, List.forall_mem_cons, ← hnext]
      by_cases halu : inst.cls = 0x04 ∨ inst.cls = 0x07
      · rw [decode_eq_alu halu]
        -- where the shifts are merged, the units of the rest begin with the second one
        have hmerged : ∀ next, l.head? = some next → next.cls = 0x07 →
            ((unmarshalFrom P insts (pc + 1) l).Succeeds ↔ (makeAluOp P (pc + 1) next).Succeeds ∧
              (unmarshalFrom P insts (pc + 2) l.tail).Succeeds) := by
          intro next hhead hcls
          obtain ⟨l', rfl⟩ := List.head?_eq_some_iff.mp hhead
          have hop := of_decide_eq_false (opcode_ne_of_cls hcls (by decide)).symm
          rw [List.length_cons] at hl hn
          rw [hnext, units_cons, if_neg hop, List.forall_mem_cons,
            (decodeUnit_alu insts (Or.inr hcls)).1]
          exact and_congr_right fun _ => (ih _ (by omega) (by omega) rfl).symm
        constructor
        · rintro ⟨ins, skip, hd, hrest⟩
          obtain ⟨i, hi, hmerge⟩ := Except.bind_eq_ok.mp hd
          refine ⟨⟨i, hi⟩, ?_⟩
          obtain ⟨_, heq⟩ | ⟨next, hhead, hcls, ⟨hsucc, _, heq⟩ | ⟨-, hfail⟩⟩ :=
            mergeShifts_cases (P := P) pc inst i l.head?
          · cases heq.symm.trans hmerge
            exact hrest
          · cases heq.symm.trans hmerge
            exact (hmerged next hhead hcls).mpr ⟨hsucc, hrest⟩
          · exact absurd ⟨_, hmerge⟩ hfail
        · rintro ⟨⟨i, hi⟩, hrest⟩
          obtain ⟨ins, heq⟩ | ⟨next, hhead, hcls, ⟨-, ins, heq⟩ | ⟨hfail, -⟩⟩ :=
            mergeShifts_cases (P := P) pc inst i l.head?
          · exact ⟨ins, false, Except.bind_eq_ok.mpr ⟨i, hi, heq⟩, hrest⟩
          · exact ⟨ins, true, Except.bind_eq_ok.mpr ⟨i, hi, heq⟩,
              ((hmerged next hhead hcls).mp hrest).2⟩
          · exact absurd ((hmerged next hhead hcls).mp hrest).1 hfail
      · obtain ⟨h4, h7⟩ := not_or.mp halu
        rw [decode_eq_unit hwide h4 h7]
        constructor
        · rintro ⟨ins, skip, hd, hrest⟩
          obtain ⟨i, hi, heq⟩ := Except.bind_eq_ok.mp hd
          cases heq
          exact ⟨⟨ins, hi⟩, hrest⟩
        · rintro ⟨⟨i, hi⟩, hrest⟩
          exact ⟨i, false, Except.bind_eq_ok.mpr ⟨i, hi, rfl⟩, hrest⟩

/-- A program is decoded just when it has a word and each of its units is decoded. -/
theorem unmarshal_succeeds (hlen : insts.length ≤ 2 ^ 31) :
    (unmarshal P insts).Succeeds ↔
      insts ≠ [] ∧ ∀ u ∈ units 0 insts, (decodeUnit P insts u).Succeeds := by
  unfold unmarshal
  rw [Except.succeeds_guard, List.isEmpty_iff]
  exact and_congr_right fun _ => unmarshalFrom_succeeds hlen (Nat.zero_add _)

/-! ## Differences from the table -/

/-- The units for which the decoder and the table differ: a legal form that sets `r10`, or a 32-bit
sign extension of 32 bits, is decoded; a legal instruction is not, for want of the group that its
class or width needs. -/
def Slips (P : Platform) (insts : List EbpfInst) (u : RawUnit) : Prop :=
  (∀ g ∈ u.inst.baseGroups, P.supportsGroup g) ∧
      ((∃ t ∈ instructionTemplate ++ legacyTemplate, t.Fits P insts u) ∧ u.inst.SetsR10 ∨
        (∃ t ∈ movsx32Template, t.Fits P insts u) ∧ u.inst.dst ≠ 10) ∨
    Matches P insts u ∧ ∃ g ∈ u.inst.baseGroups, ¬ P.supportsGroup g

/-- Where a template fits, `r10` is the target just when the decoder sees it or forgets it. -/
theorem targetsR10_iff {t : EbpfInstructionTemplate}
    (ht : t ∈ instructionTemplate ++ legacyTemplate) (hfit : t.Fits P insts u) :
    u.inst.TargetsR10 ↔ u.inst.ChecksR10 ∧ u.inst.dst = 10 ∨ u.inst.SetsR10 := by
  -- the packet accesses have a zero there
  have hclass : ∀ t ∈ instructionTemplate ++ legacyTemplate, t.opcode &&& 0x07 = 0x00 →
      t.opcode = 0x18 ∨ t.dst = 0 := by decide +kernel
  have h0 : u.inst.cls = 0x00 → u.inst.dst = 10 → u.inst.opcode = 0x18 := by
    intro hcls hdst
    rw [EbpfInst.cls, hfit.opcode] at hcls
    rw [hfit.opcode]
    refine (hclass t ht hcls).resolve_right fun h => ?_
    have hd := hfit.dst
    rw [h, hdst] at hd
    exact absurd (show (10 : BitVec 4) = 0 from hd) (by decide)
  have h18 : u.inst.opcode = 0x18 → u.inst.cls = 0x00 := fun h => by rw [EbpfInst.cls, h]; rfl
  unfold EbpfInst.TargetsR10 EbpfInst.ChecksR10 EbpfInst.SetsR10
  constructor
  · rintro (⟨hcls | hcls, hdst⟩ | hf)
    · exact Or.inr (Or.inl ⟨h0 hcls hdst, hdst⟩)
    · exact Or.inl ⟨hcls, hdst⟩
    · exact Or.inr (Or.inr hf)
  · rintro (⟨hcls, hdst⟩ | ⟨hop, hdst⟩ | hf)
    · exact Or.inl ⟨Or.inr hcls, hdst⟩
    · exact Or.inl ⟨Or.inl (h18 hop), hdst⟩
    · exact Or.inr hf

/-- The decoder does not check for `r10` where it would set it. -/
theorem EbpfInst.SetsR10.not_checksR10 {inst : EbpfInst} (h : inst.SetsR10) : ¬ inst.ChecksR10 := by
  have hcls : inst.cls = 0x00 ∨ inst.cls = 0x03 := by
    obtain ⟨hop, -⟩ | ⟨hf, -⟩ := h
    · exact Or.inl (by rw [EbpfInst.cls, hop]; rfl)
    · exact Or.inr hf.1
  unfold EbpfInst.ChecksR10
  rcases hcls with hcls | hcls
  · rw [hcls]
    decide
  · rw [hcls]
    decide

/-- The additional form is that of no template. -/
theorem not_fits_of_movsx32 {t : EbpfInstructionTemplate}
    (ht : t ∈ instructionTemplate ++ legacyTemplate) {t' : EbpfInstructionTemplate}
    (ht' : t' ∈ movsx32Template) (hfit' : t'.Fits P insts u) : ¬ t.Fits P insts u := by
  have hoffset : ∀ t ∈ instructionTemplate ++ legacyTemplate, t.opcode = 0xbc →
      t.offset = 0 ∨ t.offset = 8 ∨ t.offset = 16 := by decide +kernel
  intro hfit
  obtain rfl := List.mem_singleton.mp ht'
  have hop : t.opcode = 0xbc := hfit.opcode.symm.trans hfit'.opcode
  have h32 : u.inst.offset = 32 := hfit'.offset
  have ho := hfit.offset
  rw [h32] at ho
  rcases hoffset t ht hop with h | h | h
  · rw [h] at ho
    exact absurd (show (32 : BitVec 16) = 0 from ho) (by decide)
  · rw [h] at ho
    exact absurd (show (32 : BitVec 16) = 8 from ho) (by decide)
  · rw [h] at ho
    exact absurd (show (32 : BitVec 16) = 16 from ho) (by decide)

theorem decodeUnit_iff_matches (hlen : insts.length ≤ 2 ^ 31) (hpc : u.pc < insts.length) :
    ((decodeUnit P insts u).Succeeds ↔ Matches P insts u) ↔ ¬ Slips P insts u := by
  rw [decodeUnit_succeeds hlen hpc]
  unfold Slips Matches
  have haccepted : (∃ t ∈ acceptedTemplate, t.Fits P insts u) ↔
      (∃ t ∈ instructionTemplate ++ legacyTemplate, t.Fits P insts u) ∨
        ∃ t ∈ movsx32Template, t.Fits P insts u := by
    unfold acceptedTemplate
    simp only [List.mem_append, or_and_right, exists_or]
  rw [haccepted]
  have hgroups : (∃ g ∈ u.inst.baseGroups, ¬ P.supportsGroup g) ↔
      ¬ ∀ g ∈ u.inst.baseGroups, P.supportsGroup g := by
    simp only [not_forall, exists_prop]
  rw [hgroups]
  have hr10 : (∃ t ∈ instructionTemplate ++ legacyTemplate, t.Fits P insts u) →
      (u.inst.TargetsR10 ↔ u.inst.ChecksR10 ∧ u.inst.dst = 10 ∨ u.inst.SetsR10) :=
    fun ⟨t, ht, hfit⟩ => targetsR10_iff ht hfit
  have hnot : (∃ t ∈ instructionTemplate ++ legacyTemplate, t.Fits P insts u) →
      ¬ ∃ t ∈ movsx32Template, t.Fits P insts u :=
    fun ⟨t, ht, hfit⟩ ⟨t', ht', hfit'⟩ => not_fits_of_movsx32 ht ht' hfit' hfit
  have hchecks : (∃ t ∈ movsx32Template, t.Fits P insts u) → u.inst.ChecksR10 := by
    rintro ⟨t, ht, hfit⟩
    obtain rfl := List.mem_singleton.mp ht
    refine Or.inr (Or.inl ?_)
    rw [EbpfInst.cls, hfit.opcode]
    rfl
  have hsets := @EbpfInst.SetsR10.not_checksR10 u.inst
  clear haccepted hgroups
  generalize (∃ t ∈ instructionTemplate ++ legacyTemplate, t.Fits P insts u) = legal at *
  generalize (∃ t ∈ movsx32Template, t.Fits P insts u) = extra at *
  generalize (∀ g ∈ u.inst.baseGroups, P.supportsGroup g = true) = hasGroups
  by_cases legal
  · by_cases u.inst.SetsR10 <;> simp_all
  · by_cases extra <;> simp_all

/-- Where the other units are decoded, a program is decoded just when the unit is legal, unless it is
one of those in `Slips`. -/
theorem unmarshal_iff_matches (hlen : insts.length ≤ 2 ^ 31) (hu : u ∈ units 0 insts)
    (hothers : ∀ v ∈ units 0 insts, v ≠ u → (decodeUnit P insts v).Succeeds) :
    ((unmarshal P insts).Succeeds ↔ Matches P insts u) ↔ ¬ Slips P insts u := by
  have hne : insts ≠ [] := by
    rintro rfl
    cases hu
  have hpc := (pc_of_mem_units hu).2
  rw [Nat.zero_add] at hpc
  rw [← decodeUnit_iff_matches hlen hpc, unmarshal_succeeds hlen, and_iff_right hne]
  have hall : (∀ v ∈ units 0 insts, (decodeUnit P insts v).Succeeds) ↔
      (decodeUnit P insts u).Succeeds := by
    constructor
    · exact fun h => h u hu
    · intro h v hv
      by_cases heq : v = u
      · rw [heq]
        exact h
      · exact hothers v hv heq
  rw [hall]

theorem unmarshal_iff_matches_mov :
    ((unmarshal .bare [⟨0xb7, 0, 0, 0, 0⟩, ⟨0x95, 0, 0, 0, 0⟩]).Succeeds ↔
        Matches .bare [⟨0xb7, 0, 0, 0, 0⟩, ⟨0x95, 0, 0, 0, 0⟩] ⟨0, ⟨0xb7, 0, 0, 0, 0⟩, none⟩) ↔
      ¬ Slips .bare [⟨0xb7, 0, 0, 0, 0⟩, ⟨0x95, 0, 0, 0, 0⟩] ⟨0, ⟨0xb7, 0, 0, 0, 0⟩, none⟩ := by
  refine unmarshal_iff_matches (by decide) (by decide) fun v hv hne => ?_
  have hmem : v = ⟨0, ⟨0xb7, 0, 0, 0, 0⟩, none⟩ ∨ v = ⟨1, ⟨0x95, 0, 0, 0, 0⟩, none⟩ := by
    simpa [units] using hv
  obtain rfl := hmem.resolve_left hne
  exact ⟨.exit [], by decide⟩

/-- A platform with the first group only. -/
def Platform.base32 : Platform := { Platform.bare with supportsGroup := (· = .base32) }

/-- A sign extension that is in no template is decoded, and a jump that is in one is not. -/
theorem not_unmarshal_iff_matches :
    (unmarshal .bare [⟨0xbc, 1, 2, 32, 0⟩, ⟨0x95, 0, 0, 0, 0⟩]).Succeeds ∧
      ¬ Matches .bare [⟨0xbc, 1, 2, 32, 0⟩, ⟨0x95, 0, 0, 0, 0⟩] ⟨0, ⟨0xbc, 1, 2, 32, 0⟩, none⟩ ∧
    ¬ (unmarshal .base32 [⟨0x05, 0, 0, 0, 0⟩, ⟨0x95, 0, 0, 0, 0⟩]).Succeeds ∧
      Matches .base32 [⟨0x05, 0, 0, 0, 0⟩, ⟨0x95, 0, 0, 0, 0⟩] ⟨0, ⟨0x05, 0, 0, 0, 0⟩, none⟩ := by
  refine ⟨⟨[(.ofIndex 0, .other (.bin ⟨.movsx32, 1, .inl 2, false, false⟩)), (.ofIndex 1, .exit [])],
    by decide⟩, ?_, ?_, ?_⟩
  · rintro ⟨⟨t, ht, hfit⟩, -⟩
    refine not_fits_of_movsx32 ht (List.mem_singleton.mpr rfl) ?_ hfit
    exact EbpfInstructionTemplate.fits_iff.mpr
      ⟨rfl, show (1 : BitVec 4) ≤ 10 by decide, show (2 : BitVec 4) ≤ 10 by decide, rfl, rfl,
        fun h => absurd h (by decide), rfl⟩
  · have herror : unmarshal .base32 [⟨0x05, 0, 0, 0, 0⟩, ⟨0x95, 0, 0, 0, 0⟩] =
        .error (bad 0 ⟨0x05, 0, 0, 0, 0⟩) := by decide
    rw [herror]
    exact Except.not_succeeds_error
  · refine ⟨⟨⟨0x05, 0, 0, .jmpOffset, 0, .base32⟩, by decide, ?_⟩, ?_⟩
    · exact EbpfInstructionTemplate.fits_iff.mpr ⟨rfl, rfl, rfl, ⟨1, _, by decide, rfl, by decide⟩,
        rfl, fun h => absurd h (by decide), rfl⟩
    · unfold EbpfInst.TargetsR10 EbpfInst.FetchesSrc
      decide

end Prevail
