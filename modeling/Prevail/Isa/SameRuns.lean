import Mathlib.Order.Fin.Basic
import Prevail.Isa.Layout

/-!
# Raw and decoded programs run in the same way

A raw program runs on the positions of its words, a decoded one on the places of its instructions.
`position` takes the places to the positions. Where every target is a label and no word stores eight
bytes of a negative immediate, the two have the same runs (`sameBehaviour_iff`).
-/

namespace Prevail

open Unmarshaller Machine

variable {M : Type}

/-- A step of a raw program. Running off its end is a fault. -/
def rawStep (E : Env M) (insts : List EbpfInst) (c : Config ℕ M) : Config ℕ M ⊕ Outcome M :=
  match insts[c.pc]? with
  | none => .inr .faulted
  | some inst => c.perform E (c.pc + inst.slots) (fun offset => Int.toNat? (c.pc + 1 + offset))
      (inst.effect E c.state insts[c.pc + 1]?)

/-- The places of a program, with the one after the last instruction. -/
abbrev Place (seq : InstructionSeq Operation CallInfo) := Fin (seq.length + 1)

/-- The place of a label. -/
def place (seq : InstructionSeq Operation CallInfo) (l : Label) : Option (Place seq) :=
  (seq.findFinIdx? fun e => e.1 = l).map Fin.castSucc

/-- A step of a decoded program. -/
def seqStep (E : Env M) (seq : InstructionSeq Operation CallInfo) (c : Config (Place seq) M) :
    Config (Place seq) M ⊕ Outcome M :=
  if h : c.pc.val < seq.length then
    c.perform E ⟨c.pc.val + 1, Nat.succ_lt_succ h⟩ (place seq)
      (Instruction.effect E c.state (seq[c.pc.val]).2)
  else .inr .faulted

/-- The position of a place in a raw program of length `n`. -/
def position (n : ℕ) (seq : InstructionSeq Operation CallInfo) (k : Place seq) : ℕ :=
  if h : k.val < seq.length then (seq[k.val]).1.src.toNat else n

/-- The raw and the decoded program have the same runs from every configuration at a label, with all
callers at labels, for every environment. -/
def SameBehaviour (insts : List EbpfInst) (seq : InstructionSeq Operation CallInfo) : Prop :=
  ∀ (M : Type) (E : Env M), SameRuns (rawStep E insts) (seqStep E seq)
    fun c d => c = d.map (position insts.length seq)

variable {P : Platform} {pc : ℕ} {insts : List EbpfInst} {seq : InstructionSeq Operation CallInfo}

/-! ## Places -/

theorem position_zero (h : DecodedFrom P insts pc seq) : position insts.length seq 0 = pc := by
  cases h with
  | nil => rfl
  | cons => rfl

theorem position_succ (n : ℕ) (e : Label × IsaInstruction)
    (k : Place seq) : position n (e :: seq) k.succ = position n seq k := by
  unfold position
  by_cases h : k.val < seq.length
  · have h' : k.succ.val < (e :: seq).length := Nat.succ_lt_succ h
    rw [dif_pos h, dif_pos h']
    rfl
  · have h' : ¬ k.succ.val < (e :: seq).length := fun h' => h (Nat.lt_of_succ_lt_succ h')
    rw [dif_neg h, dif_neg h']

/-- An instruction is decoded at its position, and the next place is behind its words. -/
theorem DecodedFrom.get (h : DecodedFrom P insts pc seq) (k : ℕ) (hk : k < seq.length) :
    ∃ (p : ℕ) (inst : EbpfInst) (skip : Bool), p < 2 ^ 31 ∧ (seq[k]).1 = .ofIndex p ∧
      insts[p]? = some inst ∧ decode P insts p inst insts[p + 1]? = .ok ((seq[k]).2, skip) ∧
      position insts.length seq ⟨k + 1, Nat.succ_lt_succ hk⟩ = p + if skip then 2 else 1 := by
  induction h generalizing k with
  | nil => cases hk
  | @cons pc inst ins skip rest hpc hinst hd hrest ih =>
    cases k with
    | zero =>
      refine ⟨pc, inst, skip, hpc, rfl, hinst, hd, ?_⟩
      have := position_succ insts.length ((.ofIndex pc, ins) : Label × IsaInstruction) (0 : Place rest)
      rw [position_zero hrest] at this
      exact this
    | succ k =>
      obtain ⟨p, inst', skip', hp, hlabel, hinst', hd', hnext⟩ := ih k (Nat.lt_of_succ_lt_succ hk)
      refine ⟨p, inst', skip', hp, hlabel, hinst', hd', ?_⟩
      rw [← hnext]
      exact position_succ insts.length _ ⟨k + 1, _⟩

theorem position_of_lt {n : ℕ} {k : Place seq} (hk : k.val < seq.length) {p : ℕ}
    (h : (seq[k.val]).1 = .ofIndex p) : position n seq k = p := by
  unfold position
  rw [dif_pos hk, h]
  rfl

theorem position_strictMono (h : DecodedFrom P insts pc seq) :
    StrictMono (position insts.length seq) := by
  rw [Fin.strictMono_iff_lt_succ]
  intro k
  obtain ⟨p, inst, skip, -, hlabel, -, -, hnext⟩ := h.get k.val k.isLt
  rw [position_of_lt (k := k.castSucc) k.isLt hlabel]
  show p < position insts.length seq ⟨k.val + 1, _⟩
  rw [hnext]
  split_ifs <;> omega

theorem place_of_mem {l : Label} (h : ∃ e ∈ seq, e.1 = l) :
    ∃ k : Fin seq.length, place seq l = some k.castSucc ∧ (seq[k.val]).1 = l := by
  cases hk : seq.findFinIdx? fun e => e.1 = l with
  | none =>
    obtain ⟨e, hmem, he⟩ := h
    exact absurd he (by simpa using List.findFinIdx?_eq_none_iff.mp hk e hmem)
  | some k =>
    refine ⟨k, ?_, ?_⟩
    · unfold place
      rw [hk]
      rfl
    · simpa using (List.findFinIdx?_eq_some_iff.mp hk).1

/-! ## Steps -/

variable {E : Env M}

/-- The raw program jumps to the position of the place that the decoded one jumps to. -/
theorem resolve_of_effect (h : DecodedFrom P insts 0 seq) (hclosed : ClosedTargets seq)
    {e : Label × IsaInstruction} (hmem : e ∈ seq) {p : ℕ} {s : State M} {effect : Effect ℤ M}
    (heffect : Instruction.effect E s e.2 = effect.map (labelAt p)) (offset : ℤ)
    (ht : effect = .goto offset ∨ effect = .call offset) :
    Int.toNat? (p + 1 + offset) =
      (place seq (labelAt p offset)).map (position insts.length seq) := by
  have htarget : Instruction.target? e.2 = some (labelAt p offset) := by
    apply @Instruction.target?_of_effect M E s
    rw [heffect]
    rcases ht with rfl | rfl
    · exact Or.inl rfl
    · exact Or.inr rfl
  obtain ⟨k, hk, hlabel⟩ := place_of_mem (hclosed _ hmem _ htarget)
  obtain ⟨n, -, -, -, hlabel', -⟩ := h.get k.val k.isLt
  have hn : (p : ℤ) + 1 + offset = n := congrArg Label.src (hlabel.symm.trans hlabel')
  rw [hk, Option.map_some, position_of_lt (k := k.castSucc) k.isLt hlabel', hn]
  rfl

theorem rawStep_of_get {c : Config ℕ M} {inst : EbpfInst} (h : insts[c.pc]? = some inst) :
    rawStep E insts c = c.perform E (c.pc + inst.slots) (fun offset => Int.toNat? (c.pc + 1 + offset))
      (inst.effect E c.state insts[c.pc + 1]?) := by
  unfold rawStep
  rw [h]

/-- A word that is not merged: one step of both programs. -/
theorem liftRel_of_sameEffect (h : DecodedFrom P insts 0 seq) (hclosed : ClosedTargets seq)
    {d : Config (Place seq) M} (hk : d.pc.val < seq.length) {p : ℕ} {inst : EbpfInst}
    (hlabel : (seq[d.pc.val]).1 = .ofIndex p) (hinst : insts[p]? = some inst)
    (hnext : position insts.length seq ⟨d.pc.val + 1, Nat.succ_lt_succ hk⟩ = p + inst.slots)
    (heffect : SameEffect p inst insts[p + 1]? (seq[d.pc.val]).2) :
    Sum.LiftRel (fun c d => c = Config.map (position insts.length seq) d) Eq
      (rawStep E insts (d.map (position insts.length seq))) (seqStep E seq d) := by
  have hp : (d.map (position insts.length seq)).pc = p := position_of_lt hk hlabel
  rw [rawStep_of_get (by rw [hp]; exact hinst), hp, ← hnext]
  unfold seqStep
  rw [dif_pos hk, heffect M E d.state]
  exact Config.perform_map fun t ht =>
    resolve_of_effect h hclosed (List.getElem_mem hk) (heffect M E d.state) t ht

/-- Two shifts that are merged: two steps of the raw program, with no label between them. -/
theorem steps_of_sameEffects (h : DecodedFrom P insts 0 seq) {d : Config (Place seq) M}
    (hk : d.pc.val < seq.length) {p : ℕ} {inst next : EbpfInst}
    (hlabel : (seq[d.pc.val]).1 = .ofIndex p) (hinst : insts[p]? = some inst)
    (hinst' : insts[p + 1]? = some next) (hslots : inst.slots = 1) (hslots' : next.slots = 1)
    (hnext : position insts.length seq ⟨d.pc.val + 1, Nat.succ_lt_succ hk⟩ = p + 2)
    (heffect : SameEffects inst next (seq[d.pc.val]).2) :
    Steps (rawStep E insts) (seqStep E seq) (fun c d => c = d.map (position insts.length seq))
      (d.map (position insts.length seq)) d := by
  have hp : (d.map (position insts.length seq)).pc = p := position_of_lt hk hlabel
  obtain ⟨s₁, s₂, h₁, h₂, hins⟩ := heffect M E d.state
  refine Or.inr ⟨⟨p + 1, s₁, (d.map (position insts.length seq)).callers⟩, ?_, ?_, ?_⟩
  · rw [rawStep_of_get (by rw [hp]; exact hinst), hp, hinst', hslots]
    show Config.perform E _ _ _ (inst.effect E d.state (some next)) = _
    rw [h₁]
    rfl
  · intro d' hd'
    have hpc : p + 1 = position insts.length seq d'.pc := congrArg Config.pc hd'
    have hmono := position_strictMono h
    have hlt : d.pc < d'.pc := by
      rw [← hmono.lt_iff_lt, ← hpc, position_of_lt hk hlabel]
      exact Nat.lt_succ_self p
    have hge : position insts.length seq ⟨d.pc.val + 1, Nat.succ_lt_succ hk⟩ ≤
        position insts.length seq d'.pc := hmono.monotone hlt
    omega
  · rw [rawStep_of_get (c := ⟨p + 1, s₁, _⟩) hinst', hslots']
    show Sum.LiftRel _ _ (Config.perform E _ _ _ (next.effect E s₁ _)) _
    rw [h₂]
    unfold seqStep
    rw [dif_pos hk, hins]
    refine .inl ?_
    show (⟨p + 2, s₂, _⟩ : Config ℕ M) = ⟨position insts.length seq _, s₂, _⟩
    rw [hnext]
    rfl

theorem EbpfInst.ShiftPair.slots {inst next : EbpfInst} (h : inst.ShiftPair next) :
    inst.slots = 1 ∧ next.slots = 1 :=
  ⟨slots_of_cls h.cls.1 (by decide), slots_of_cls h.cls.2 (by decide)⟩

/-- Where the targets are labels and no store is negative, the steps of the programs match. -/
theorem steps_of_decodedFrom (h : DecodedFrom P insts 0 seq) (hclosed : ClosedTargets seq)
    (hneg : ∀ inst ∈ insts, ¬ inst.NegativeWideStore) (d : Config (Place seq) M) :
    Steps (rawStep E insts) (seqStep E seq) (fun c d => c = d.map (position insts.length seq))
      (d.map (position insts.length seq)) d := by
  by_cases hk : d.pc.val < seq.length
  · obtain ⟨p, inst, skip, hp, hlabel, hinst, hd, hnext⟩ := h.get d.pc.val hk
    have hmem := hneg inst (List.mem_of_getElem? hinst)
    cases turn_of_decode hp hd with
    | single hslots _ heffect =>
      refine Or.inl (liftRel_of_sameEffect h hclosed hk hlabel hinst ?_ (heffect hmem))
      rw [hnext, hslots]
      rfl
    | wide next hslots _ _ heffect =>
      refine Or.inl (liftRel_of_sameEffect h hclosed hk hlabel hinst ?_ heffect)
      rw [hnext, hslots]
      rfl
    | merged next hinst' hpair heffect =>
      exact steps_of_sameEffects h hk hlabel hinst hinst' hpair.slots.1 hpair.slots.2 hnext heffect
  · -- both run off the end
    have hend : position insts.length seq d.pc = insts.length := dif_neg hk
    refine Or.inl ?_
    unfold rawStep seqStep
    rw [dif_neg hk]
    have hnone : insts[(d.map (position insts.length seq)).pc]? = none := by
      show insts[position insts.length seq d.pc]? = none
      rw [hend]
      exact List.getElem?_eq_none le_rfl
    rw [hnone]
    exact .inr rfl

theorem sameBehaviour_of_decodedFrom (h : DecodedFrom P insts 0 seq) (hclosed : ClosedTargets seq)
    (hneg : ∀ inst ∈ insts, ¬ inst.NegativeWideStore) : SameBehaviour insts seq := by
  intro M E
  apply SameRuns.of_steps
  · rintro c d d' rfl hd'
    exact Config.map_injective (position_strictMono h).injective hd'
  · rintro c d rfl
    exact steps_of_decodedFrom h hclosed hneg d

/-! ## Stores of negative immediates -/

/-- The memory rejects the values with the sign bit. -/
def signEnv : Env Unit where
  bigEndian := false
  load _ _ _ := some 0
  store _ _ _ v := if v.msb then none else some ()
  packet s _ _ _ := some s
  helper s _ := some s
  mapFd _ := 0
  mapAddress _ _ := 0
  frame v := v

theorem mem_of_negativeWideStore {inst : EbpfInst} {next? : Option EbpfInst} {ins : IsaInstruction}
    {skip : Bool} (hneg : inst.NegativeWideStore)
    (h : decode P insts pc inst next? = .ok (ins, skip)) :
    ins = .other (.mem ⟨⟨8, .ofField inst.dst, inst.offset.toInt⟩,
      .inr (zeroExtendImm inst.imm), false⟩) := by
  have hcls : inst.cls = 0x02 := by
    unfold EbpfInst.cls
    rw [hneg.1]
    decide
  have hwidth : getMemWidth inst = 8 := by
    unfold getMemWidth
    rw [hneg.1]
    rfl
  unfold decode at h
  rw [hcls] at h
  obtain ⟨i, hi, h⟩ := Except.bind_eq_ok.mp h
  cases h
  unfold makeMemOp at hi
  iterate 2 obtain ⟨-, hi⟩ := Except.guard_eq_ok.mp hi
  rw [hneg.1] at hi
  obtain ⟨-, hi⟩ := Except.guard_eq_ok.mp hi
  unfold makeLoadStore at hi
  rw [hcls, hneg.1, hwidth] at hi
  iterate 3 obtain ⟨-, hi⟩ := Except.guard_eq_ok.mp hi
  cases hi
  rfl

theorem effect_of_negativeWideStore {inst : EbpfInst} {next? : Option EbpfInst} {s : State Unit}
    (hneg : inst.NegativeWideStore) : inst.effect signEnv s next? = .fault := by
  have hcls : inst.cls = 0x02 := by
    unfold EbpfInst.cls
    rw [hneg.1]
    decide
  have hmode : inst.opcode &&& 0xe0 = 0x60 := by
    rw [hneg.1]
    decide
  have hbytes : inst.bytes = 8 := by
    unfold EbpfInst.bytes
    rw [hneg.1]
    rfl
  have hmsb : ((inst.imm.signExtend 64).setWidth (8 * 8)).msb = true := by
    rw [BitVec.setWidth_eq, BitVec.msb_signExtend]
    exact hneg.2
  unfold EbpfInst.effect
  rw [hcls]
  show (if inst.opcode &&& 0xe0 = 0x60 then _ else _) = _
  rw [if_pos hmode, hbytes]
  have hstore : signEnv.storeAt s (inst.address s inst.dst) 8 (inst.imm.signExtend 64) = none := by
    unfold Env.storeAt
    exact congrArg (Option.map _) (if_pos hmsb)
  rw [hstore]
  rfl

/-- The decoded program goes on where the raw one fails. -/
theorem not_sameBehaviour_of_negativeWideStore (h : DecodedFrom P insts 0 seq) {inst : EbpfInst}
    (hmem : inst ∈ insts) (hneg : inst.NegativeWideStore) : ¬ SameBehaviour insts seq := by
  intro hsame
  obtain ⟨p, hp⟩ := List.mem_iff_getElem?.mp hmem
  obtain ⟨hlt, -⟩ := List.getElem?_eq_some_iff.mp hp
  have hcls : inst.cls = 0x02 := by
    unfold EbpfInst.cls
    rw [hneg.1]
    decide
  obtain ⟨ins, hins⟩ | ⟨n, w, w', rfl, hw, hw', hsecond⟩ := h.covers (Nat.zero_le p) hlt
  case inr =>
    cases hp.symm.trans hw'
    rcases hsecond with hop | hpair
    · exact absurd (hneg.1.symm.trans hop) (by decide)
    · exact absurd (hcls.symm.trans hpair.cls.2) (by decide)
  obtain ⟨k, hk, hget⟩ := List.getElem_of_mem hins
  obtain ⟨p', inst', skip, -, hlabel, hinst, hd, -⟩ := h.get k hk
  rw [hget] at hlabel hd
  obtain rfl : p = p' := Int.ofNat.inj (congrArg Label.src hlabel)
  cases hp.symm.trans hinst
  have hmem' := mem_of_negativeWideStore hneg hd
  -- the configuration at the store
  let d : Config (Place seq) Unit := ⟨⟨k, Nat.lt_succ_of_lt hk⟩, ⟨fun _ => 0, ()⟩, []⟩
  let d' : Config (Place seq) Unit := ⟨⟨k + 1, Nat.succ_lt_succ hk⟩, ⟨fun _ => 0, ()⟩, []⟩
  have hmsb : ((inst.imm.setWidth 64).setWidth (8 * 8)).msb = false := by
    rw [BitVec.setWidth_eq, BitVec.msb_setWidth, BitVec.getLsbD_of_ge _ _ (by decide), Bool.and_false]
  have hstep : seqStep signEnv seq d = .inl d' := by
    unfold seqStep
    rw [dif_pos hk]
    have hsnd : (seq[d.pc.val]).2 = ins := congrArg Prod.snd hget
    have hstore : signEnv.storeAt d.state (Deref.address ⟨8, .ofField inst.dst, inst.offset.toInt⟩
        d.state) 8 (zeroExtendImm inst.imm).toBitVec = some d.state := by
      unfold Env.storeAt
      exact congrArg (Option.map _) (if_neg (Bool.eq_false_iff.mp hmsb))
    rw [hsnd, show ins = _ from hmem']
    show Config.perform _ _ _ _ (Effect.ofOption (signEnv.storeAt _ _ 8 _)) = _
    rw [show d.state.value (.inr (zeroExtendImm inst.imm)) = (zeroExtendImm inst.imm).toBitVec from
      rfl, hstore]
    rfl
  have hpos : position insts.length seq d.pc = p :=
    position_of_lt hk (congrArg Prod.fst hget)
  have hraw : rawStep signEnv insts (d.map (position insts.length seq)) = .inr .faulted := by
    have hpc : (d.map (position insts.length seq)).pc = p := hpos
    rw [rawStep_of_get (by rw [hpc]; exact hp), effect_of_negativeWideStore hneg]
    rfl
  obtain ⟨x, hlift, hruns⟩ :=
    (hsame Unit signEnv _ d rfl).1 _ (.step hstep (.refl d'))
  cases hlift with
  | @inl c _ hc =>
    rcases hruns.eq_of_stop hraw with heq | heq
    · have hpc : position insts.length seq d'.pc = position insts.length seq d.pc :=
        congrArg Config.pc (hc.symm.trans (Sum.inl.inj heq))
      have := congrArg Fin.val ((position_strictMono h).injective hpc)
      exact absurd this (Nat.succ_ne_self k)
    · cases heq

/-! ## The decoder -/

/-- A decoded program has closed targets and the runs of the raw program just when no jump and no
local call goes to the second one of two shifts that are merged, and no word stores eight bytes of a
negative immediate. -/
theorem sameBehaviour_iff (h : unmarshal P insts = .ok seq) :
    ClosedTargets seq ∧ SameBehaviour insts seq ↔
      ¬ JumpsIntoPair insts ∧ ∀ inst ∈ insts, ¬ inst.NegativeWideStore := by
  have hfrom := decodedFrom_of_unmarshal h
  rw [← closed_iff hfrom]
  constructor
  · rintro ⟨hclosed, hsame⟩
    exact ⟨hclosed, fun inst hmem hneg =>
      not_sameBehaviour_of_negativeWideStore hfrom hmem hneg hsame⟩
  · rintro ⟨hclosed, hneg⟩
    exact ⟨hclosed, sameBehaviour_of_decodedFrom hfrom hclosed hneg⟩

/-- A branch over two shifts that are merged, a wide load and an exit. -/
def branchWords : List EbpfInst := [⟨0x15, 1, 0, 2, 0⟩, ⟨0x67, 1, 0, 0, 32⟩, ⟨0x77, 1, 0, 0, 32⟩,
  ⟨0x18, 2, 0, 0, 5⟩, ⟨0, 0, 0, 0, 1⟩, ⟨0x95, 0, 0, 0, 0⟩]

theorem not_jumpsIntoPair_branchWords : ¬ JumpsIntoPair branchWords := by
  have hjump : ∀ j < 6, ∀ inst ∈ branchWords[j]?, ∀ n, inst.jumpOffset = some n → j = 0 ∧ n = 2 := by
    decide
  rintro ⟨j, i, inst, hj, hoffset, left, right, hleft, hright, dst, hpair, -⟩
  obtain ⟨rfl, hi⟩ := hjump j (List.getElem?_eq_some_iff.mp hj).1 inst hj _ hoffset
  obtain rfl : i = 2 := by omega
  obtain rfl := Option.some.inj hleft
  cases hpair

theorem sameBehaviour_iff_branch : ∃ seq, unmarshal .bare branchWords = .ok seq ∧
    ClosedTargets seq ∧ SameBehaviour branchWords seq := by
  have hdecode : unmarshal .bare branchWords =
      .ok [(.ofIndex 0, .jmp (some ⟨.eq, 1, .inr 0, true⟩) (.ofIndex 3)), (.ofIndex 1, zext 1),
        (.ofIndex 3, .other (.bin ⟨.mov, 2, .inr 4294967301, true, true⟩)), (.ofIndex 5, .exit [])] := by
    decide
  exact ⟨_, hdecode, (sameBehaviour_iff hdecode).mpr ⟨not_jumpsIntoPair_branchWords, by decide⟩⟩

/-- A jump over the first one of two shifts is decoded, and has no instruction to go to. -/
theorem not_closedTargets_jump : ∃ seq, unmarshal .bare [⟨0x15, 1, 0, 1, 0⟩, ⟨0x67, 1, 0, 0, 32⟩,
    ⟨0x77, 1, 0, 0, 32⟩, ⟨0x95, 0, 0, 0, 0⟩] = .ok seq ∧ ¬ ClosedTargets seq := by
  refine ⟨[(.ofIndex 0, .jmp (some ⟨.eq, 1, .inr 0, true⟩) (.ofIndex 2)), (.ofIndex 1, zext 1),
    (.ofIndex 3, .exit [])], by decide, fun h => ?_⟩
  obtain ⟨e, hmem, he⟩ := h _ List.mem_cons_self _ rfl
  revert e
  decide

end Prevail
