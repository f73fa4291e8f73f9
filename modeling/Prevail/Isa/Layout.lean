import Prevail.Isa.Turn

/-!
# The layout of decoded programs

Every position of the raw program holds the first word of an instruction or the second one
(`DecodedFrom.covers`). So all targets are labels just when no jump goes to the second shift of a pair
(`closed_iff`).
-/

namespace Prevail

open Unmarshaller

variable {P : Platform} {pc : ℕ} {insts : List EbpfInst}
  {seq : InstructionSeq Operation CallInfo}

/-- The instructions for the words from `pc` to the end. -/
inductive DecodedFrom (P : Platform) (insts : List EbpfInst) :
    ℕ → InstructionSeq Operation CallInfo → Prop
  | nil : DecodedFrom P insts insts.length []
  | cons {pc : ℕ} {inst : EbpfInst} {ins : IsaInstruction} {skip : Bool}
    {rest : InstructionSeq Operation CallInfo} (hpc : pc < 2 ^ 31) (hinst : insts[pc]? = some inst)
    (hd : decode P insts pc inst insts[pc + 1]? = .ok (ins, skip))
    (hrest : DecodedFrom P insts (pc + if skip then 2 else 1) rest) :
    DecodedFrom P insts pc ((.ofIndex pc, ins) :: rest)

theorem decodedFrom_of_unmarshalFrom (hle : pc ≤ insts.length)
    (h : unmarshalFrom P insts pc (insts.drop pc) = .ok seq) : DecodedFrom P insts pc seq := by
  induction hn : insts.length - pc using Nat.strong_induction_on generalizing pc seq with
  | _ n ih =>
    rcases Nat.eq_or_lt_of_le hle with rfl | hlt
    · rw [List.drop_length] at h
      cases h
      exact .nil
    · rw [List.drop_eq_getElem_cons hlt] at h
      obtain ⟨hpc, ins, skip, rest, hd, rfl, hrest⟩ := unmarshalFrom_cons.mp h
      rw [List.head?_drop] at hd
      refine .cons hpc (List.getElem?_eq_getElem hlt) hd ?_
      cases skip with
      | false => exact ih _ (by simp only [Bool.false_eq_true, if_false]; omega) hlt hrest rfl
      | true =>
        obtain ⟨next, hnext⟩ : ∃ next, insts[pc + 1]? = some next := by
          cases turn_of_decode hpc hd with
          | wide next _ hnext => exact ⟨next, hnext⟩
          | merged next hnext => exact ⟨next, hnext⟩
        have hlt' := (List.getElem?_eq_some_iff.mp hnext).1
        rw [if_pos rfl, if_pos rfl, List.tail_drop] at hrest
        exact ih _ (by simp only [if_true]; omega) hlt' hrest rfl

namespace DecodedFrom

/-- The labels go up. -/
theorem le_label (h : DecodedFrom P insts pc seq) {n : ℕ} {ins : IsaInstruction}
    (hmem : (Label.ofIndex n, ins) ∈ seq) : pc ≤ n := by
  induction h with
  | nil => exact absurd hmem List.not_mem_nil
  | @cons pc inst ins' skip rest hpc hinst hd hrest ih =>
    rcases List.mem_cons.mp hmem with heq | hmem
    · have h := congrArg Label.src (Prod.mk.inj heq).1
      exact (Int.ofNat.inj h).ge
    · have := ih hmem
      omega

/-- An instruction is decoded at its label, and the second word has none. -/
theorem of_mem (h : DecodedFrom P insts pc seq) {e : Label × IsaInstruction} (hmem : e ∈ seq) :
    ∃ (n : ℕ) (inst : EbpfInst) (skip : Bool), n < 2 ^ 31 ∧ e.1 = .ofIndex n ∧
      insts[n]? = some inst ∧ decode P insts n inst insts[n + 1]? = .ok (e.2, skip) ∧
      (skip → ∀ ins, (Label.ofIndex (n + 1 : ℕ), ins) ∉ seq) := by
  induction h with
  | nil => exact absurd hmem List.not_mem_nil
  | @cons pc inst ins skip rest hpc hinst hd hrest ih =>
    rcases List.mem_cons.mp hmem with rfl | hmem
    · refine ⟨pc, inst, skip, hpc, rfl, hinst, hd, fun hskip ins' hmem' => ?_⟩
      rcases List.mem_cons.mp hmem' with heq | hmem'
      · have h : ((pc + 1 : ℕ) : ℤ) = pc := congrArg Label.src (Prod.mk.inj heq).1
        omega
      · have := hrest.le_label hmem'
        rw [if_pos hskip] at this
        omega
    · obtain ⟨n, inst', skip', hn, hlabel, hinst', hd', hskip'⟩ := ih hmem
      refine ⟨n, inst', skip', hn, hlabel, hinst', hd', fun h ins' hmem' => ?_⟩
      rcases List.mem_cons.mp hmem' with heq | hmem'
      · have h : ((n + 1 : ℕ) : ℤ) = pc := congrArg Label.src (Prod.mk.inj heq).1
        have hmem'' : (Label.ofIndex n, e.2) ∈ rest := by
          rw [← hlabel]
          exact hmem
        have hle := hrest.le_label hmem''
        split_ifs at hle <;> omega
      · exact hskip' h ins' hmem'

/-- A position is a label, or the second word of an instruction. -/
theorem covers (h : DecodedFrom P insts pc seq) {p : ℕ} (hle : pc ≤ p) (hlt : p < insts.length) :
    (∃ ins, (Label.ofIndex p, ins) ∈ seq) ∨
      ∃ (n : ℕ) (inst next : EbpfInst), p = n + 1 ∧ insts[n]? = some inst ∧ insts[p]? = some next ∧
        (next.opcode = 0 ∨ inst.ShiftPair next) := by
  induction h with
  | nil => omega
  | @cons pc inst ins skip rest hpc hinst hd hrest ih =>
    rcases Nat.eq_or_lt_of_le hle with rfl | hlt'
    · exact Or.inl ⟨ins, List.mem_cons_self⟩
    by_cases hp : pc + (if skip then 2 else 1) ≤ p
    · rcases ih hp with ⟨ins', hmem⟩ | hsecond
      · exact Or.inl ⟨ins', List.mem_cons_of_mem _ hmem⟩
      · exact Or.inr hsecond
    · cases skip with
      | false =>
        simp only [Bool.false_eq_true, if_false] at hp
        omega
      | true =>
        rw [if_pos rfl] at hp
        obtain rfl : p = pc + 1 := by omega
        refine Or.inr ⟨pc, inst, ?_⟩
        cases turn_of_decode hpc hd with
        | wide next _ hnext hop => exact ⟨next, rfl, hinst, hnext, Or.inl hop⟩
        | merged next hnext hpair => exact ⟨next, rfl, hinst, hnext, Or.inr hpair⟩

end DecodedFrom

theorem decodedFrom_of_unmarshal (h : unmarshal P insts = .ok seq) : DecodedFrom P insts 0 seq :=
  decodedFrom_of_unmarshalFrom (Nat.zero_le _) (Except.guard_eq_ok.mp h).2

/-! ## Targets -/

/-- Every target is the label of an instruction. -/
def ClosedTargets (seq : InstructionSeq Operation CallInfo) : Prop :=
  ∀ e ∈ seq, ∀ l, Instruction.target? e.2 = some l → ∃ e' ∈ seq, e'.1 = l

/-- The words at `i` and after it are two shifts that are merged. -/
def ShiftPairAt (insts : List EbpfInst) (i : ℕ) : Prop :=
  ∃ inst next, insts[i]? = some inst ∧ insts[i + 1]? = some next ∧ inst.ShiftPair next

/-- A jump or a local call goes to the second one of two shifts that are merged. -/
def JumpsIntoPair (insts : List EbpfInst) : Prop :=
  ∃ (j i : ℕ) (inst : EbpfInst), insts[j]? = some inst ∧ inst.jumpOffset = some ((i : ℤ) - j) ∧
    ShiftPairAt insts i

/-- The second word of an instruction is not a jump, and not the first one of two shifts. -/
theorem EbpfInst.ShiftPair.jumpOffset_right {inst next : EbpfInst} (h : inst.ShiftPair next) :
    next.jumpOffset = none := jumpOffset_of_cls h.cls.2 (by decide) (by decide)

theorem EbpfInst.ShiftPair.not_left {inst next next' : EbpfInst} (h : inst.ShiftPair next) :
    ¬ next.ShiftPair next' := by
  rintro ⟨dst', hleft, -⟩
  obtain ⟨dst, -, rfl | rfl⟩ := h
  · cases hleft
  · cases hleft

theorem cls_of_opcode_zero {inst : EbpfInst} (h : inst.opcode = 0) : inst.cls = 0x00 := by
  unfold EbpfInst.cls
  rw [h]
  rfl

theorem closed_iff (h : DecodedFrom P insts 0 seq) : ClosedTargets seq ↔ ¬ JumpsIntoPair insts := by
  constructor
  · rintro hclosed ⟨j, i, inst, hj, hoffset, first, second, hi, hi', hpair⟩
    obtain ⟨hj', -⟩ := List.getElem?_eq_some_iff.mp hj
    obtain ⟨hilt, -⟩ := List.getElem?_eq_some_iff.mp hi
    -- the jump is an instruction
    obtain ⟨ins, hmem⟩ | ⟨n, w, w', rfl, hw, hw', hsecond⟩ := h.covers (Nat.zero_le j) hj'
    case inr =>
      cases hj.symm.trans hw'
      rcases hsecond with hop | hpair'
      · rw [jumpOffset_of_cls (cls_of_opcode_zero hop) (by decide) (by decide)] at hoffset
        cases hoffset
      · rw [hpair'.jumpOffset_right] at hoffset
        cases hoffset
    -- and so is the first shift
    obtain ⟨ins', hmem'⟩ | ⟨n, w, w', rfl, hw, hw', hsecond⟩ := h.covers (Nat.zero_le i) hilt
    case inr =>
      cases hi.symm.trans hw'
      rcases hsecond with hop | hpair'
      · exact absurd (hpair.cls.1.symm.trans (cls_of_opcode_zero hop)) (by decide)
      · exact hpair'.not_left hpair
    obtain ⟨j', w, skip, hj31, hlabel, hw, hd, -⟩ := h.of_mem hmem
    obtain rfl : j = j' := Int.ofNat.inj (congrArg Label.src hlabel)
    cases hj.symm.trans hw
    obtain ⟨i', w', skip', hi31, hlabel', hw', hd', hsecond⟩ := h.of_mem hmem'
    obtain rfl : i = i' := Int.ofNat.inj (congrArg Label.src hlabel')
    cases hi.symm.trans hw'
    have hskip : skip' = true := by
      cases turn_of_decode hi31 hd' with
      | single _ hno => exact absurd hpair (hno _ hi')
      | wide => rfl
      | merged => rfl
    have htarget := sameTarget_of_decode hj31 hd
    unfold SameTarget at htarget
    cases hl : Instruction.target? ins with
    | none =>
      rw [hl] at htarget
      rw [hoffset] at htarget
      cases htarget
    | some l =>
      rw [hl] at htarget
      obtain ⟨n, next, hoffset', rfl, -⟩ := htarget
      rw [hoffset] at hoffset'
      obtain rfl : n = i + 1 := by
        have := Option.some.inj hoffset'
        omega
      obtain ⟨e', hmem'', hlabel''⟩ := hclosed _ hmem _ hl
      obtain ⟨l', ins''⟩ := e'
      cases hlabel''
      exact hsecond hskip ins'' hmem''
  · intro hno e hmem l hl
    obtain ⟨j, inst, skip, hj31, hlabel, hj, hd, -⟩ := h.of_mem hmem
    have htarget := sameTarget_of_decode hj31 hd
    unfold SameTarget at htarget
    rw [hl] at htarget
    obtain ⟨n, next, hoffset, rfl, hnext, hop⟩ := htarget
    obtain ⟨hn, -⟩ := List.getElem?_eq_some_iff.mp hnext
    obtain ⟨ins, hmem'⟩ | ⟨i, w, w', rfl, hw, hw', hsecond⟩ := h.covers (Nat.zero_le n) hn
    · exact ⟨_, hmem', rfl⟩
    · cases hnext.symm.trans hw'
      refine absurd ⟨j, i, inst, hj, ?_, w, next, hw, hw', hsecond.resolve_left hop⟩ hno
      rw [hoffset]
      congr 1
      push_cast
      ring

end Prevail
