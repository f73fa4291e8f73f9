import Prevail.Isa.Decoded

/-!
# Encoding a decoded program again

`marshalSeq` gives each instruction a new place: the words that a merged pair of shifts took fall
away, so the places move towards each other (`Layout`), and every distance still fits its field. The
program decoded from the new words has the same instructions with the targets renamed (`Reencodes`)
exactly when nothing is lost at any place (`reencodes_iff`).
-/

namespace Prevail

open Unmarshaller

variable {P : Platform} {pc : ℕ}

/-! ## Places -/

/-- The places of the labels, from `pc` on. -/
def places : ℕ → InstructionSeq Operation CallInfo → List (Label × ℕ)
  | _, [] => []
  | pc, e :: rest => (e.1, pc) :: places (pc + Marshal.size e.2) rest

theorem map_places (pc : ℕ) (seq : InstructionSeq Operation CallInfo) :
    (places pc seq).map Prod.fst = seq.map Prod.fst := by
  induction seq generalizing pc with
  | nil => rfl
  | cons e rest ih => exact congrArg _ (ih _)

theorem mem_places_of_mem {seq : InstructionSeq Operation CallInfo} {l : Label}
    (h : l ∈ seq.map Prod.fst) (pc : ℕ) : ∃ n, (l, n) ∈ places pc seq := by
  rw [← map_places pc seq] at h
  obtain ⟨⟨_, n⟩, hmem, rfl⟩ := List.mem_map.mp h
  exact ⟨n, hmem⟩

theorem find_getLabels {seq : InstructionSeq Operation CallInfo}
    (hnd : (seq.map Prod.fst).Nodup) {m : OrdMap Label ℕ} {l : Label} {n : ℕ} :
    (Marshal.getLabels pc m seq).find? l = some n ↔
      (l, n) ∈ places pc seq ∨ l ∉ seq.map Prod.fst ∧ m.find? l = some n := by
  induction seq generalizing pc m with
  | nil => exact ⟨fun h => Or.inr ⟨List.not_mem_nil, h⟩, fun h => h.elim (fun h => by cases h) And.right⟩
  | cons e rest ih =>
    obtain ⟨hne, hnd⟩ := List.nodup_cons.mp hnd
    have hfst : ∀ n pc, (e.1, n) ∉ places pc rest := fun n pc hmem =>
      hne (map_places pc rest ▸ List.mem_map_of_mem hmem)
    show (Marshal.getLabels _ (m.insert e.1 pc) rest).find? l = some n ↔ _
    rw [ih hnd, OrdMap.find?_insert, places, List.mem_cons, List.map_cons, List.mem_cons, not_or]
    by_cases heq : l = e.1
    · subst heq
      simp [hfst, hne, eq_comm]
    · simp [heq]

theorem Decodes.exists_label {seq : InstructionSeq Operation CallInfo} (h : Decodes P pc seq) :
    ∀ l ∈ seq.map Prod.fst, ∃ n : ℕ, l = .ofIndex n ∧ pc ≤ n ∧ n < 2 ^ 31 := by
  induction h with
  | nil => exact fun l hl => absurd hl List.not_mem_nil
  | @cons pc step i rest hpc hi hstep hm hrest ih =>
    intro l hl
    rcases List.mem_cons.mp hl with rfl | hl
    · exact ⟨pc, rfl, le_rfl, hpc⟩
    · obtain ⟨n, rfl, hle, hlt⟩ := ih l hl
      exact ⟨n, rfl, by omega, hlt⟩

theorem size_pos (i : IsaInstruction) : 0 < Marshal.size i := by
  unfold Marshal.size
  split
  · split_ifs <;> decide
  · decide
  · decide
  · decide

theorem Decodes.nodup {seq : InstructionSeq Operation CallInfo} (h : Decodes P pc seq) :
    (seq.map Prod.fst).Nodup := by
  induction h with
  | nil => exact List.nodup_nil
  | @cons pc step i rest hpc hi hstep hm hrest ih =>
    refine List.nodup_cons.mpr ⟨fun hmem => ?_, ih⟩
    obtain ⟨n, heq, hle, -⟩ := hrest.exists_label _ hmem
    have hn : (pc : ℤ) = n := congrArg Label.src heq
    have hpos := size_pos i
    omega

/-- The new places are not past the old ones, and not further apart. -/
theorem Decodes.place_le {seq : InstructionSeq Operation CallInfo} (h : Decodes P pc seq) {q n m : ℕ}
    (hmem : (Label.ofIndex n, m) ∈ places q seq) : pc ≤ n ∧ q ≤ m ∧ m + pc ≤ n + q := by
  induction h generalizing q with
  | nil => cases hmem
  | @cons pc step i rest hpc hi hstep hm hrest ih =>
    rcases List.mem_cons.mp hmem with heq | hmem
    · have hn : (n : ℤ) = pc := congrArg (fun x : Label × ℕ => x.1.src) heq
      have hm : m = q := congrArg Prod.snd heq
      omega
    · obtain ⟨hle, hq, hd⟩ := ih hmem
      have hpos := size_pos i
      exact ⟨by omega, by omega, by dsimp only at hd; omega⟩

theorem Decodes.place_mono {seq : InstructionSeq Operation CallInfo} (h : Decodes P pc seq)
    {q n m n' m' : ℕ} (hmem : (Label.ofIndex n, m) ∈ places q seq)
    (hmem' : (Label.ofIndex n', m') ∈ places q seq) (hle : n ≤ n') : m ≤ m' ∧ m' + n ≤ n' + m := by
  induction h generalizing q with
  | nil => cases hmem
  | @cons pc step i rest hpc hi hstep hm hrest ih =>
    have hpos := size_pos i
    rcases List.mem_cons.mp hmem with heq | hmem₁
    · have hn : (n : ℤ) = pc := congrArg (fun x : Label × ℕ => x.1.src) heq
      have hm : m = q := congrArg Prod.snd heq
      obtain ⟨-, hq, hd⟩ := (Decodes.cons hpc hi hstep ‹_› hrest).place_le hmem'
      omega
    · rcases List.mem_cons.mp hmem' with heq | hmem₂
      · have hn : (n' : ℤ) = pc := congrArg (fun x : Label × ℕ => x.1.src) heq
        obtain ⟨hlo, -⟩ := hrest.place_le hmem₁
        omega
      · exact ih hmem₁ hmem₂

/-- The labels of a decoded program with their new places. -/
structure Layout (pos : OrdMap Label ℕ) : Prop where
  le : ∀ n m : ℕ, pos.find? (.ofIndex n) = some m → m ≤ n ∧ n < 2 ^ 31
  shrink : ∀ n m n' m' : ℕ, pos.find? (.ofIndex n) = some m → pos.find? (.ofIndex n') = some m' →
    n ≤ n' → m ≤ m' ∧ m' + n ≤ n' + m

theorem find_getLabels_empty {seq : InstructionSeq Operation CallInfo} (h : Decodes P 0 seq)
    {l : Label} {n : ℕ} :
    (Marshal.getLabels 0 ∅ seq).find? l = some n ↔ (l, n) ∈ places 0 seq := by
  rw [find_getLabels h.nodup]
  exact or_iff_left fun h => by cases h.2

theorem Decodes.layout {seq : InstructionSeq Operation CallInfo} (h : Decodes P 0 seq) :
    Layout (Marshal.getLabels 0 ∅ seq) := by
  refine ⟨fun n m hfind => ?_, fun n m n' m' hfind hfind' hle => ?_⟩
  · have hmem := (find_getLabels_empty h).mp hfind
    have hlabel : Label.ofIndex n ∈ seq.map Prod.fst := map_places 0 seq ▸ List.mem_map_of_mem hmem
    obtain ⟨k, heq, -, hlt⟩ := h.exists_label _ hlabel
    have hk : (n : ℤ) = k := congrArg Label.src heq
    obtain ⟨-, -, hd⟩ := h.place_le hmem
    omega
  · exact h.place_mono ((find_getLabels_empty h).mp hfind) ((find_getLabels_empty h).mp hfind') hle

/-! ## What is lost -/

/-- What the encoder does not lose at `pc`, when the labels have the places `pos`. -/
def Reencodable (P : Platform) (pos : OrdMap Label ℕ) (pc : ℕ) : IsaInstruction → Prop
  | .other (.bin b) => P.supportsGroup (base b.is64) ∧ (b.lddw = false → Value.Narrow b.v)
  | .other (.mem m) => Value.Narrow m.value
  | .jmp (some c) target =>
    (∃ n, pos.find? target = some n) ∧ c.is64 = true ∧ Value.Narrow c.right
  | .jmp none target => ∃ n : ℕ, pos.find? target = some n ∧
      (P.supportsGroup .base64 ∨ ¬ Number.FitsS 16 ((n : ℤ) - pc - 1))
  | .callLocal target _ => ∃ n : ℕ, pos.find? target = some n ∧
      (n : ℤ) = if Number.FitsS 16 (target.src - pc - 1) then (pc : ℤ) + 1 else target.src
  | _ => True

/-- Nothing is lost from `pc` on. -/
def Lossless (P : Platform) (pos : OrdMap Label ℕ) :
    ℕ → InstructionSeq Operation CallInfo → Prop
  | _, [] => True
  | pc, e :: rest => Reencodable P pos pc e.2 ∧ Lossless P pos (pc + Marshal.size e.2) rest

/-- An instruction with other targets. -/
def mapTarget (f : Label → Label) : IsaInstruction → IsaInstruction
  | .jmp cond target => .jmp cond (f target)
  | .callLocal target frame => .callLocal (f target) frame
  | i => i

/-- The same instructions in the same order, where a target is the label of the instruction that
    corresponds to the old target. -/
def Corresponds (seq seq' : InstructionSeq Operation CallInfo) : Prop :=
  ∃ f : Label → Label, seq' = seq.map (fun e => (f e.1, mapTarget f e.2)) ∧
    ∀ e ∈ seq, ∀ l ∈ targets e.2, l ∈ seq.map Prod.fst

/-- Encoding the program and decoding the words gives a program that corresponds to it. -/
def Reencodes (P : Platform) (seq : InstructionSeq Operation CallInfo) : Prop :=
  ∃ words seq', marshalSeq seq = .ok words ∧ unmarshal P words = .ok seq' ∧ Corresponds seq seq'

/-- The label at the new place. -/
def moved (pos : OrdMap Label ℕ) (l : Label) : Label :=
  match pos.find? l with
  | some n => .ofIndex n
  | none => l

theorem moved_eq {pos : OrdMap Label ℕ} {l : Label} {n : ℕ} (h : pos.find? l = some n) :
    moved pos l = .ofIndex n := by
  unfold moved
  rw [h]

/-! ## One instruction -/

/-- An instruction at `p` whose new place is `q`. -/
structure Placed (pos : OrdMap Label ℕ) (p q : ℕ) : Prop where
  layout : Layout pos
  find : pos.find? (.ofIndex p) = some q

theorem Placed.lt {pos : OrdMap Label ℕ} {p q : ℕ} (h : Placed pos p q) : q < 2 ^ 31 := by
  obtain ⟨hle, hlt⟩ := h.layout.le p q h.find
  omega

/-- A distance fits its field at the new places. -/
theorem Placed.target {pos : OrdMap Label ℕ} {p q w m : ℕ} {l : Label} (h : Placed pos p q)
    (hl : Target w p l) (hm : pos.find? l = some m) : Target w q (.ofIndex m) := by
  obtain ⟨n, rfl, hn, hfits⟩ := hl
  obtain ⟨hle, hlt⟩ := h.layout.le n m hm
  refine ⟨m, rfl, by omega, ?_⟩
  have hpow : (1 : ℤ) ≤ 2 ^ (w - 1) := by exact_mod_cast Nat.one_le_two_pow
  unfold Number.FitsS Number.minInt Number.maxInt at hfits ⊢
  rcases le_total p n with hpn | hnp
  · obtain ⟨hqm, hd⟩ := h.layout.shrink p q n m h.find hm hpn
    omega
  · obtain ⟨hmq, hd⟩ := h.layout.shrink n m p q hm h.find hnp
    omega

/-- A local call keeps its old target. -/
theorem Placed.callTarget {pos : OrdMap Label ℕ} {p q : ℕ} {l : Label} (h : Placed pos p q)
    (hl : Target 32 p l) : Target 32 q l := by
  obtain ⟨n, rfl, hn, -⟩ := hl
  have hq := h.lt
  refine ⟨n, rfl, hn, ?_⟩
  unfold Number.FitsS Number.minInt Number.maxInt
  omega

/-- What `retarget` makes of an instruction. -/
theorem retarget_eq_ok {pos : OrdMap Label ℕ} {i i' : IsaInstruction}
    (h : Marshal.retarget pos i = .ok i') :
    (∃ cond l n, i = .jmp cond l ∧ pos.find? l = some n ∧ i' = .jmp cond (.ofIndex n)) ∨
      (∀ cond l, i ≠ .jmp cond l) ∧ i' = i := by
  cases i with
  | jmp cond l =>
    unfold Marshal.retarget at h
    dsimp only at h
    cases hfind : pos.find? l with
    | none =>
      rw [hfind] at h
      cases h
    | some n =>
      rw [hfind] at h
      dsimp only at h
      split_ifs at h
      cases h
      exact Or.inl ⟨cond, l, n, rfl, hfind, rfl⟩
  | _ =>
    cases h
    exact Or.inr ⟨fun _ _ h => (by cases h), rfl⟩

/-- An instruction of the decoder is one at its new place, too. -/
theorem Placed.decoded {pos : OrdMap Label ℕ} {p q : ℕ} {i i' : IsaInstruction}
    (h : Placed pos p q) (hi : Decoded P p i) (hr : Marshal.retarget pos i = .ok i') :
    Decoded P q i' := by
  obtain ⟨cond, l, n, rfl, hfind, rfl⟩ | ⟨hne, rfl⟩ := retarget_eq_ok hr
  · obtain hi | ⟨dst, -, heq⟩ := hi
    · cases hi with
      | goto hg ht => exact Or.inl (.goto hg (h.target ht hfind))
      | jmp hc ht => exact Or.inl (.jmp hc (h.target ht hfind))
    · cases heq
  · obtain hi | hi := hi
    · cases hi with
      | bin h => exact Or.inl (.bin h)
      | un h => exact Or.inl (.un h)
      | loadMapFd hg hd => exact Or.inl (.loadMapFd hg hd)
      | loadMapAddress hg hd => exact Or.inl (.loadMapAddress hg hd)
      | callx hg hx hf => exact Or.inl (.callx hg hx hf)
      | mem h => exact Or.inl (.mem h)
      | packet h => exact Or.inl (.packet h)
      | atomic h => exact Or.inl (.atomic h)
      | call hg hu hc => exact Or.inl (.call hg hu hc)
      | callLocal hg ht => exact Or.inl (.callLocal hg (h.callTarget ht))
      | exit hg => exact Or.inl (.exit hg)
      | goto | jmp => exact absurd rfl (hne _ _)
    · exact Or.inr hi

theorem marshal_zext (dst : Reg) : marshal pc (zext dst) =
    .ok [⟨aluOpcode false .mov true, dst.toField, dst.toField, 0, 0⟩] :=
  marshal_bin_reg .mov dst dst false

theorem Decoded.wordsOf {i : IsaInstruction} {words : List EbpfInst} (h : Decoded P pc i)
    (hm : marshal pc i = .ok words) : WordsOf i words := by
  obtain h | ⟨dst, -, rfl⟩ := h
  · exact wordsOf_marshal h hm
  · rw [marshal_zext] at hm
    cases hm
    exact wordsOf_single rfl (aluOpcode_ne false .mov true)

/-- The places are those of instructions. -/
def Present (pos : OrdMap Label ℕ) (words : List EbpfInst) : Prop :=
  ∀ l n, pos.find? l = some n → ∃ w, words[n]? = some w ∧ w.opcode ≠ 0

/-- An instruction is encoded at `q`, and comes back with its new target. -/
def Recodes (P : Platform) (pos : OrdMap Label ℕ) (q : ℕ) (i : IsaInstruction) : Prop :=
  ∃ i' w rest, Marshal.retarget pos i = .ok i' ∧ marshal q i' = .ok (w :: rest) ∧
    ∀ words after, words.drop q = w :: rest ++ after → Present pos words →
      Unmerged P q i' after.head? →
        decode P words q w (rest ++ after).head? = .ok (mapTarget (moved pos) i, !rest.isEmpty)

theorem recodes_of_isIsa {pos : OrdMap Label ℕ} {q : ℕ} {i i' : IsaInstruction}
    (hr : Marshal.retarget pos i = .ok i') (hmap : mapTarget (moved pos) i = i')
    (hi' : IsIsa P q i') (he : Encodable P q i')
    (ht : ∀ l ∈ targets i', ∃ (l' : Label) (n : ℕ), l = .ofIndex n ∧ pos.find? l' = some n) :
    Recodes P pos q i := by
  obtain ⟨w, rest, hm, hd⟩ := roundTrips_of_encodable hi' he
  refine ⟨i', w, rest, hr, hm, fun words after hdrop hp hun => ?_⟩
  rw [hmap]
  refine hd words after ⟨hdrop, fun l hl => ?_, hun⟩
  obtain ⟨l', n, rfl, hfind⟩ := ht l hl
  exact hp l' n hfind

/-- An instruction without a target stays as it is. -/
theorem recodes_same {pos : OrdMap Label ℕ} {q : ℕ} {i : IsaInstruction} (ht : targets i = [])
    (hi : IsIsa P q i) (he : Encodable P q i) : Recodes P pos q i := by
  refine recodes_of_isIsa ?_ ?_ hi he fun l hl => ?_
  · cases i with
    | jmp => cases ht
    | _ => rfl
  · cases i with
    | jmp | callLocal => cases ht
    | _ => rfl
  · rw [ht] at hl
    cases hl

theorem Placed.recodes_jmp {pos : OrdMap Label ℕ} {p q n : ℕ} {cond : Option Condition}
    {l : Label} (h : Placed pos p q) (hfind : pos.find? l = some n) (hl : ∃ w, Target w p l)
    (hi : IsIsa P q (.jmp cond (.ofIndex n))) (he : Encodable P q (.jmp cond (.ofIndex n))) :
    Recodes P pos q (.jmp cond l) := by
  obtain ⟨w, k, rfl, -, -⟩ := hl
  obtain ⟨hle, hlt⟩ := h.layout.le k n hfind
  refine recodes_of_isIsa ?_ (congrArg (Instruction.jmp cond) (moved_eq hfind)) hi he fun l' hl' => ?_
  · unfold Marshal.retarget
    dsimp only
    rw [hfind]
    exact if_pos (by omega)
  · exact ⟨_, n, List.mem_singleton.mp hl', hfind⟩

/-- A local call is encoded with its old target, so it must come out at the new one. -/
theorem Placed.recodes_callLocal {pos : OrdMap Label ℕ} {p q : ℕ} {l : Label} (h : Placed pos p q)
    (hg : P.supportsGroup .base32) (ht : Target 32 p l)
    (hre : Reencodable P pos q (.callLocal l [])) : Recodes P pos q (.callLocal l []) := by
  obtain ⟨m, hfind, hm⟩ := hre
  obtain ⟨n, rfl, hn, hfits⟩ := h.callTarget ht
  obtain ⟨imm, himm⟩ := labelToOffset32_ok (l := .ofIndex n) hfits
  obtain ⟨hle, -⟩ := h.layout.le n m hfind
  refine ⟨_, _, _, rfl, marshal_callLocal himm, fun words after _ hp _ => ?_⟩
  show decode P words q _ _ = .ok (.callLocal (moved pos (.ofIndex n)) [], _)
  rw [moved_eq hfind]
  exact (decode_callLocal hg hn (by omega) himm).mpr ⟨hm, hp _ _ hfind, rfl⟩

/-- An instruction of which nothing is lost is encoded, and comes back with its new target. -/
theorem Placed.recodes {pos : OrdMap Label ℕ} {p q : ℕ} {i : IsaInstruction} (h : Placed pos p q)
    (hi : Decoded P p i) (hre : Reencodable P pos q i) : Recodes P pos q i := by
  obtain hi | ⟨dst, hdst, rfl⟩ := hi
  case inr =>
    have hdst' : dst ≤ 10 := le_trans (b := 9) hdst (by decide)
    exact recodes_same rfl (.bin (.reg hre.1 (fun h => by cases h) hdst hdst')) hre.2
  cases hi with
  | bin h => exact recodes_same rfl (.bin h) hre.2
  | un h => exact recodes_same rfl (.un h) trivial
  | loadMapFd hg hd => exact recodes_same rfl (.loadMapFd hg hd) trivial
  | loadMapAddress hg hd => exact recodes_same rfl (.loadMapAddress hg hd) trivial
  | callx hg hx hf => exact recodes_same rfl (.callx hg hx hf) trivial
  | mem h => exact recodes_same rfl (.mem h) hre
  | packet h => exact recodes_same rfl (.packet h) trivial
  | atomic h => exact recodes_same rfl (.atomic h) trivial
  | call hg hu hc => exact recodes_same rfl (.call hg hu hc) trivial
  | exit hg => exact recodes_same rfl (.exit hg) trivial
  | callLocal hg ht => exact h.recodes_callLocal hg ht hre
  | goto hg ht =>
    obtain ⟨n, hfind, hre⟩ := hre
    exact h.recodes_jmp hfind ⟨_, ht⟩ (.goto hg (h.target ht hfind)) hre
  | jmp hc ht =>
    obtain ⟨⟨n, hfind⟩, hre⟩ := hre
    exact h.recodes_jmp hfind ⟨_, ht⟩ (.jmp hc (h.target ht hfind)) hre

theorem size_mapTarget (f : Label → Label) (i : IsaInstruction) :
    Marshal.size (mapTarget f i) = Marshal.size i := by
  cases i <;> rfl

theorem base_of_decode_zext {words : List EbpfInst} {dst : Reg} {w : EbpfInst} {q : ℕ}
    {next? : Option EbpfInst} {skip : Bool} (hq : q < 2 ^ 31) (hm : marshal q (zext dst) = .ok [w])
    (hd : decode P words q w next? = .ok (zext dst, skip)) : P.supportsGroup .base32 := by
  rw [marshal_zext] at hm
  cases hm
  obtain ⟨-, -, hne, -⟩ | ⟨i, hi, -⟩ := decode_ok hq hd
  · exact absurd rfl hne
  · have hcls : EbpfInst.cls ⟨aluOpcode false .mov true, dst.toField, dst.toField, 0, 0⟩ ≠ 0x07 := by
      show aluOpcode false .mov true &&& 0x07 ≠ 0x07
      decide
    have hbase := (makeAluOp_ok hi).1
    rw [decide_eq_false hcls] at hbase
    exact hbase

/-- Where an instruction comes back, nothing of it was lost. -/
theorem Placed.reencodable {pos : OrdMap Label ℕ} {p q : ℕ} {i i' : IsaInstruction}
    {words rest : List EbpfInst} {w : EbpfInst} {next? : Option EbpfInst} {skip : Bool}
    (h : Placed pos p q) (hi : Decoded P p i) (hr : Marshal.retarget pos i = .ok i')
    (hm : marshal q i' = .ok (w :: rest))
    (hd : decode P words q w next? = .ok (mapTarget (moved pos) i, skip))
    (ht : ∀ l ∈ targets i, ∃ n, pos.find? l = some n) : Reencodable P pos q i := by
  have hi' := h.decoded hi hr
  obtain ⟨cond, l, n, rfl, hfind, rfl⟩ | ⟨hne, rfl⟩ := retarget_eq_ok hr
  · have hback : mapTarget (moved pos) (.jmp cond l) = .jmp cond (.ofIndex n) :=
      congrArg (Instruction.jmp cond) (moved_eq hfind)
    rw [hback] at hd
    obtain hi' | ⟨dst, -, heq⟩ := hi'
    case inr => cases heq
    have he := encodable_of_decode hi' hm hd
    cases cond with
    | none => exact ⟨n, hfind, he⟩
    | some c => exact ⟨⟨n, hfind⟩, he⟩
  · obtain hi | ⟨dst, -, rfl⟩ := hi
    case inr =>
      obtain ⟨-, hlength⟩ := hi'.wordsOf hm
      have hrest : rest = [] := List.length_eq_zero_iff.mp (Nat.succ.inj hlength)
      rw [hrest] at hm
      exact ⟨base_of_decode_zext h.lt hm hd, fun _ => trivial⟩
    cases hi with
    | @bin b hb =>
      refine ⟨?_, narrow_of_marshal_bin hb hm⟩
      cases hb with
      | lddw hg | reg hg | imm hg => exact hg
    | mem hmem => exact narrow_of_marshal_mem hmem hm
    | @callLocal l hg htarget =>
      obtain ⟨m, hfind⟩ := ht l (List.mem_singleton_self l)
      refine ⟨m, hfind, ?_⟩
      obtain ⟨n, rfl, hn, hfits⟩ := h.callTarget htarget
      obtain ⟨imm, himm⟩ := labelToOffset32_ok (l := .ofIndex n) hfits
      obtain ⟨hle, -⟩ := h.layout.le n m hfind
      rw [marshal_callLocal himm] at hm
      cases hm
      replace hd : decode P words q _ _ = .ok (.callLocal (moved pos (.ofIndex n)) [], skip) := hd
      rw [moved_eq hfind] at hd
      exact ((decode_callLocal hg hn (by omega) himm).mp hd).1
    | goto | jmp => exact absurd rfl (hne _ _)
    | _ => trivial

theorem eq_other_of_mapTarget {f : Label → Label} {i : IsaInstruction} {o : Operation}
    (h : mapTarget f i = .other o) : i = .other o := by
  cases i with
  | jmp | callLocal => cases h
  | _ => exact h

/-- Decoding takes as many words as the instruction has. -/
theorem Placed.size_eq {pos : OrdMap Label ℕ} {p q : ℕ} {i i' : IsaInstruction} {f : Label → Label}
    {words rest : List EbpfInst} {w : EbpfInst} {next? : Option EbpfInst} {skip : Bool}
    (h : Placed pos p q) (hr : Marshal.retarget pos i = .ok i')
    (hm : marshal q i' = .ok (w :: rest))
    (hd : decode P words q w next? = .ok (mapTarget f i, skip)) :
    Marshal.size i = if skip then 2 else 1 := by
  rw [← size_mapTarget f i]
  obtain ⟨-, hsize, -⟩ | ⟨i₀, hi₀, hmerge⟩ := decode_ok h.lt hd
  · exact hsize
  obtain ⟨rfl, heq, -⟩ | ⟨rfl, dst, rfl, -, -, hmov⟩ := mergeShifts_ok hi₀ hmerge
  · rw [heq]
    exact size_of_makeAluOp hi₀
  · -- a move is not encoded as a left shift, so no shifts were merged
    exfalso
    obtain ⟨-, -, ⟨u, -, heq⟩ | ⟨b, -, -, -, -, hreg, heq⟩⟩ := makeAluOp_ok hi₀
    · cases heq
    cases heq
    have hsrc : w.srcReg = true → False := fun hw => by
      obtain ⟨r, hr⟩ := hreg hw
      cases hr
    rcases hmov with hmov | hmov
    all_goals
      obtain rfl := eq_other_of_mapTarget hmov
      cases hr
      rw [marshal_bin_reg] at hm
      cases hm
    · exact hsrc (decide_eq_true ((srcReg_aluOpcode false .mov true).mpr rfl))
    · exact hsrc (decide_eq_true ((srcReg_aluOpcode true .movsx32 true).mpr rfl))

/-! ## All instructions -/

theorem marshalFrom_cons {pos : OrdMap Label ℕ} {q : ℕ} {e : Label × IsaInstruction}
    {rest : InstructionSeq Operation CallInfo} {words : List EbpfInst} :
    Marshal.marshalFrom pos q (e :: rest) = .ok words ↔
      ∃ i' ws after, Marshal.retarget pos e.2 = .ok i' ∧ marshal q i' = .ok ws ∧
        Marshal.marshalFrom pos (q + ws.length) rest = .ok after ∧ words = ws ++ after := by
  rw [Marshal.marshalFrom, Except.bind_eq_ok]
  constructor
  · rintro ⟨i', hr, h⟩
    obtain ⟨ws, hm, h⟩ := Except.bind_eq_ok.mp h
    obtain ⟨after, ha, h⟩ := Except.bind_eq_ok.mp h
    cases h
    exact ⟨i', ws, after, hr, hm, ha, rfl⟩
  · rintro ⟨i', ws, after, hr, hm, ha, rfl⟩
    exact ⟨i', hr, Except.bind_eq_ok.mpr ⟨ws, hm, Except.bind_eq_ok.mpr ⟨after, ha, rfl⟩⟩⟩

/-- A part of the program whose labels have the places `pos`. -/
structure PlacedSeq (P : Platform) (pos : OrdMap Label ℕ) (p q : ℕ)
    (seq : InstructionSeq Operation CallInfo) : Prop where
  layout : Layout pos
  decodes : Decodes P p seq
  find : ∀ l n, (l, n) ∈ places q seq → pos.find? l = some n

theorem size_retarget {pos : OrdMap Label ℕ} {i i' : IsaInstruction}
    (hr : Marshal.retarget pos i = .ok i') : Marshal.size i' = Marshal.size i := by
  obtain ⟨cond, l, n, rfl, -, rfl⟩ | ⟨-, rfl⟩ := retarget_eq_ok hr
  · rfl
  · rfl

theorem Placed.length_eq {pos : OrdMap Label ℕ} {p q : ℕ} {i i' : IsaInstruction}
    {ws : List EbpfInst} (h : Placed pos p q) (hi : Decoded P p i)
    (hr : Marshal.retarget pos i = .ok i') (hm : marshal q i' = .ok ws) :
    ws.length = Marshal.size i :=
  ((h.decoded hi hr).wordsOf hm).length.trans (size_retarget hr)

theorem PlacedSeq.exists_words {pos : OrdMap Label ℕ} {p q : ℕ}
    {seq : InstructionSeq Operation CallInfo} (h : PlacedSeq P pos p q seq)
    (hl : Lossless P pos q seq) : ∃ words, Marshal.marshalFrom pos q seq = .ok words := by
  obtain ⟨hlayout, hdec, hfind⟩ := h
  induction hdec generalizing q with
  | nil => exact ⟨[], rfl⟩
  | @cons p step i rest hp hi hstep hm hrest ih =>
    have hplaced : Placed pos p q := ⟨hlayout, hfind _ _ List.mem_cons_self⟩
    obtain ⟨i', w, ws, hr, hmarshal, -⟩ := hplaced.recodes hi hl.1
    obtain ⟨after, hafter⟩ := ih hl.2 fun l n hmem => hfind l n (List.mem_cons_of_mem _ hmem)
    rw [← hplaced.length_eq hi hr hmarshal] at hafter
    exact ⟨_, marshalFrom_cons.mpr ⟨i', _, after, hr, hmarshal, hafter, rfl⟩⟩

/-- The places are those of the words. -/
theorem PlacedSeq.present {pos : OrdMap Label ℕ} {p q : ℕ}
    {seq : InstructionSeq Operation CallInfo} {ws words : List EbpfInst}
    (h : PlacedSeq P pos p q seq) (hm : Marshal.marshalFrom pos q seq = .ok ws)
    (hdrop : words.drop q = ws) {l : Label} {n : ℕ} (hmem : (l, n) ∈ places q seq) :
    ∃ w, words[n]? = some w ∧ w.opcode ≠ 0 := by
  obtain ⟨hlayout, hdec, hfind⟩ := h
  induction hdec generalizing q ws with
  | nil => cases hmem
  | @cons p step i rest hp hi hstep _ hrest ih =>
    have hplaced : Placed pos p q := ⟨hlayout, hfind _ _ List.mem_cons_self⟩
    obtain ⟨i', ws', after, hr, hmarshal, hafter, rfl⟩ := marshalFrom_cons.mp hm
    obtain ⟨⟨w, rest', rfl, hw⟩, -⟩ := (hplaced.decoded hi hr).wordsOf hmarshal
    have hlength := hplaced.length_eq hi hr hmarshal
    rcases List.mem_cons.mp hmem with heq | hmem
    · obtain rfl : n = q := congrArg Prod.snd heq
      refine ⟨w, ?_, hw⟩
      rw [← Nat.add_zero n, ← List.getElem?_drop, hdrop]
      rfl
    · rw [hlength] at hafter
      refine ih hafter ?_ hmem fun l n hmem => hfind l n (List.mem_cons_of_mem _ hmem)
      rw [← List.drop_drop, hdrop, ← hlength, List.drop_left]

theorem makeAluOp_of_decode {words : List EbpfInst} {q : ℕ} {w : EbpfInst}
    {next? : Option EbpfInst} {i : IsaInstruction} {skip : Bool} (hcls : w.cls = 0x07)
    (h : decode P words q w next? = .ok (i, skip)) :
    ∃ i₀, makeAluOp P q w = .ok i₀ ∧ mergeShifts P q w i₀ next? = .ok (i, skip) := by
  unfold decode at h
  rw [hcls] at h
  exact Except.bind_eq_ok.mp h

/-- The next word of a left shift by 32 is not a right shift by 32, as in the old program. -/
theorem unmerged_of_decode {words : List EbpfInst} {q : ℕ} {i e : IsaInstruction} {w : EbpfInst}
    {next? : Option EbpfInst} {f : Label → Label} {skip : Bool} (hm : ¬ Merges i e)
    (hd : decode P words (q + 1) w next? = .ok (mapTarget f e, skip)) :
    Unmerged P q i (some w) := by
  rintro dst _ rfl ⟨⟩ hcls
  obtain ⟨i₀, hi₀, hmerge⟩ := makeAluOp_of_decode hcls hd
  have hne : ∀ op, op ≠ .lsh → i₀ = shift32 dst op → e = shift32 dst op := by
    rintro op hop rfl
    obtain ⟨-, heq, -⟩ | ⟨-, _, heq, -⟩ := mergeShifts_ok hi₀ hmerge
    · exact eq_other_of_mapTarget heq
    · cases heq
      exact absurd rfl hop
  exact ⟨i₀, hi₀, fun heq => hm ⟨dst, rfl, Or.inl (hne _ (by decide) heq)⟩,
    fun heq => hm ⟨dst, rfl, Or.inr (hne _ (by decide) heq)⟩⟩

theorem size_le_two (i : IsaInstruction) : Marshal.size i ≤ 2 := by
  unfold Marshal.size
  split
  · split_ifs <;> decide
  · decide
  · decide
  · decide

/-- Decoding the new words gives the instructions with the new labels. -/
theorem PlacedSeq.unmarshalFrom {pos : OrdMap Label ℕ} {p q : ℕ}
    {seq : InstructionSeq Operation CallInfo} {ws words : List EbpfInst}
    (h : PlacedSeq P pos p q seq) (hl : Lossless P pos q seq) (hp : Present pos words)
    (hm : Marshal.marshalFrom pos q seq = .ok ws) (hdrop : words.drop q = ws) :
    Unmarshaller.unmarshalFrom P words q ws =
      .ok (seq.map fun e => (moved pos e.1, mapTarget (moved pos) e.2)) := by
  obtain ⟨hlayout, hdec, hfind⟩ := h
  induction hdec generalizing q ws with
  | nil =>
    cases hm
    rfl
  | @cons p step i rest hp' hi hstep hmerges hrest ih =>
    have hplaced : Placed pos p q := ⟨hlayout, hfind _ _ List.mem_cons_self⟩
    obtain ⟨i', w, ws', hr, hmarshal, hd⟩ := hplaced.recodes hi hl.1
    obtain ⟨i'', ws'', after, hr', hmarshal', hafter, rfl⟩ := marshalFrom_cons.mp hm
    cases hr.symm.trans hr'
    cases hmarshal.symm.trans hmarshal'
    have hlength := hplaced.length_eq hi hr hmarshal
    rw [hlength] at hafter
    have hdrop' : words.drop (q + Marshal.size i) = after := by
      rw [← List.drop_drop, hdrop, ← hlength, List.drop_left]
    have htail := ih hl.2 hafter hdrop' fun l n hmem => hfind l n (List.mem_cons_of_mem _ hmem)
    have hun : Unmerged P q i' after.head? := by
      rintro dst next heq hnext hcls
      obtain rfl : i = shift32 dst .lsh := by
        obtain ⟨cond, l, n, rfl, -, rfl⟩ | ⟨-, rfl⟩ := retarget_eq_ok hr
        · cases heq
        · exact heq
      cases after with
      | nil => cases hnext
      | cons next' l =>
        cases hnext
        obtain ⟨-, e', skip, rest', hd', heq', -⟩ := unmarshalFrom_cons.mp htail
        cases rest with
        | nil => cases heq'
        | cons e rest =>
          obtain rfl : mapTarget (moved pos) e.2 = e' :=
            congrArg Prod.snd (List.cons.inj heq').1
          exact unmerged_of_decode (hmerges e rfl) hd' dst next rfl rfl hcls
    have hskip : (q + if !ws'.isEmpty then 2 else 1) = q + Marshal.size i ∧
        (if !ws'.isEmpty then (ws' ++ after).tail else ws' ++ after) = after := by
      have hle := size_le_two i
      rw [← hlength] at hle ⊢
      match ws', hle with
      | [], _ => exact ⟨rfl, rfl⟩
      | [_], _ => exact ⟨rfl, rfl⟩
      | _ :: _ :: _, hle => exact absurd hle (by simp)
    refine unmarshalFrom_cons.mpr
      ⟨hplaced.lt, _, _, _, hd words after hdrop hp hun, ?_, (hskip.1 ▸ hskip.2 ▸ htail :)⟩
    rw [List.map_cons, moved_eq hplaced.find]

theorem PlacedSeq.of_decodes {seq : InstructionSeq Operation CallInfo} (h : Decodes P 0 seq) :
    PlacedSeq P (Marshal.getLabels 0 ∅ seq) 0 0 seq :=
  ⟨h.layout, h, fun _ _ hmem => (find_getLabels_empty h).mpr hmem⟩

theorem Reencodable.find {pos : OrdMap Label ℕ} {q : ℕ} {i : IsaInstruction} {l : Label}
    (h : Reencodable P pos q i) (hl : l ∈ targets i) : ∃ n, pos.find? l = some n := by
  cases i with
  | jmp cond target =>
    obtain rfl := List.mem_singleton.mp hl
    cases cond with
    | none =>
      obtain ⟨n, hfind, -⟩ := h
      exact ⟨n, hfind⟩
    | some c => exact h.1
  | callLocal target frame =>
    obtain rfl := List.mem_singleton.mp hl
    obtain ⟨n, hfind, -⟩ := h
    exact ⟨n, hfind⟩
  | _ => cases hl

theorem Lossless.reencodable {pos : OrdMap Label ℕ} {q : ℕ}
    {seq : InstructionSeq Operation CallInfo} (h : Lossless P pos q seq) :
    ∀ e ∈ seq, ∃ q', Reencodable P pos q' e.2 := by
  induction seq generalizing q with
  | nil => exact fun e he => absurd he List.not_mem_nil
  | cons e rest ih =>
    intro e' he'
    rcases List.mem_cons.mp he' with rfl | he'
    · exact ⟨q, h.1⟩
    · exact ih h.2 e' he'

/-- Where nothing is lost, the program comes back. -/
theorem reencodes_of_lossless {seq : InstructionSeq Operation CallInfo} (h : Decodes P 0 seq)
    (hne : seq ≠ []) (hl : Lossless P (Marshal.getLabels 0 ∅ seq) 0 seq) : Reencodes P seq := by
  have hplaced := PlacedSeq.of_decodes h
  obtain ⟨words, hm⟩ := hplaced.exists_words hl
  have hp : Present (Marshal.getLabels 0 ∅ seq) words := fun l n hfind =>
    hplaced.present hm rfl ((find_getLabels_empty h).mp hfind)
  have hun := hplaced.unmarshalFrom hl hp hm rfl
  have hwords : words.isEmpty = false := by
    cases words with
    | nil =>
      have hnil : seq.map (fun e => (moved _ e.1, mapTarget (moved _) e.2)) = [] :=
        Except.ok.inj hun.symm
      exact absurd (List.map_eq_nil_iff.mp hnil) hne
    | cons => rfl
  refine ⟨words, _, hm, (if_neg (by rw [hwords]; exact Bool.false_ne_true)).trans hun, _, rfl,
    fun e he l hlt => ?_⟩
  obtain ⟨q, hre⟩ := hl.reencodable e he
  obtain ⟨n, hfind⟩ := hre.find hlt
  rw [← map_places 0 seq]
  exact List.mem_map_of_mem ((find_getLabels_empty h).mp hfind)

/-- The first instruction of a program that comes back, and the others. -/
theorem Placed.of_unmarshalFrom {pos : OrdMap Label ℕ} {p q : ℕ} {i : IsaInstruction}
    {rest : InstructionSeq Operation CallInfo} {ws words : List EbpfInst} {f : Label → Label}
    (h : Placed pos p q) (hi : Decoded P p i)
    (hm : Marshal.marshalFrom pos q ((.ofIndex p, i) :: rest) = .ok ws)
    (hd : Unmarshaller.unmarshalFrom P words q ws =
      .ok (((.ofIndex p, i) :: rest).map fun e => (f e.1, mapTarget f e.2))) :
    f (.ofIndex p) = .ofIndex q ∧
      (∃ i' w rest' next? skip, Marshal.retarget pos i = .ok i' ∧
        marshal q i' = .ok (w :: rest') ∧
        decode P words q w next? = .ok (mapTarget f i, skip)) ∧
      ∃ after, Marshal.marshalFrom pos (q + Marshal.size i) rest = .ok after ∧
        Unmarshaller.unmarshalFrom P words (q + Marshal.size i) after =
          .ok (rest.map fun e => (f e.1, mapTarget f e.2)) := by
  obtain ⟨i', ws', after, hr, hmarshal, hafter, rfl⟩ := marshalFrom_cons.mp hm
  obtain ⟨⟨w, rest', rfl, -⟩, -⟩ := (h.decoded hi hr).wordsOf hmarshal
  have hlength := h.length_eq hi hr hmarshal
  obtain ⟨-, ins, skip, seq', hd', heq, hrest⟩ := unmarshalFrom_cons.mp hd
  obtain ⟨hhead, rfl⟩ := List.cons.inj heq
  obtain ⟨hlabel, rfl⟩ := Prod.mk.inj hhead
  have hsize := h.size_eq hr hmarshal hd'
  have hafter' : (if skip then (rest' ++ after).tail else rest' ++ after) = after := by
    rw [hsize, List.length_cons] at hlength
    cases skip with
    | false =>
      obtain rfl : rest' = [] := List.length_eq_zero_iff.mp (Nat.succ.inj hlength)
      rfl
    | true =>
      obtain ⟨x, rfl⟩ := List.length_eq_one_iff.mp (Nat.succ.inj hlength)
      rfl
  rw [hlength] at hafter
  rw [← hsize] at hrest
  replace hrest : Unmarshaller.unmarshalFrom P words (q + Marshal.size i)
    (if skip then (rest' ++ after).tail else rest' ++ after) = _ := hrest
  rw [hafter'] at hrest
  exact ⟨hlabel, ⟨i', w, rest', _, skip, hr, hmarshal, hd'⟩, after, hafter, hrest⟩

/-- The labels of the program that comes back are the new places. -/
theorem PlacedSeq.label_eq {pos : OrdMap Label ℕ} {p q : ℕ}
    {seq : InstructionSeq Operation CallInfo} {ws words : List EbpfInst} {f : Label → Label}
    (h : PlacedSeq P pos p q seq) (hm : Marshal.marshalFrom pos q seq = .ok ws)
    (hd : Unmarshaller.unmarshalFrom P words q ws =
      .ok (seq.map fun e => (f e.1, mapTarget f e.2))) {l : Label} {n : ℕ}
    (hmem : (l, n) ∈ places q seq) : f l = .ofIndex n := by
  obtain ⟨hlayout, hdec, hfind⟩ := h
  induction hdec generalizing q ws with
  | nil => cases hmem
  | @cons p step i rest hp hi hstep _ hrest ih =>
    have hplaced : Placed pos p q := ⟨hlayout, hfind _ _ List.mem_cons_self⟩
    obtain ⟨hlabel, -, after, hafter, hd'⟩ := hplaced.of_unmarshalFrom hi hm hd
    rcases List.mem_cons.mp hmem with heq | hmem
    · cases heq
      exact hlabel
    · exact ih hafter hd' hmem fun l n hmem => hfind l n (List.mem_cons_of_mem _ hmem)

theorem PlacedSeq.lossless {pos : OrdMap Label ℕ} {p q : ℕ}
    {seq : InstructionSeq Operation CallInfo} {ws words : List EbpfInst}
    (h : PlacedSeq P pos p q seq) (hm : Marshal.marshalFrom pos q seq = .ok ws)
    (hd : Unmarshaller.unmarshalFrom P words q ws =
      .ok (seq.map fun e => (moved pos e.1, mapTarget (moved pos) e.2)))
    (ht : ∀ e ∈ seq, ∀ l ∈ targets e.2, ∃ n, pos.find? l = some n) : Lossless P pos q seq := by
  obtain ⟨hlayout, hdec, hfind⟩ := h
  induction hdec generalizing q ws with
  | nil => trivial
  | @cons p step i rest hp hi hstep _ hrest ih =>
    have hplaced : Placed pos p q := ⟨hlayout, hfind _ _ List.mem_cons_self⟩
    obtain ⟨-, ⟨i', w, rest', next?, skip, hr, hmarshal, hdec'⟩, after, hafter, hd'⟩ :=
      hplaced.of_unmarshalFrom hi hm hd
    exact ⟨hplaced.reencodable hi hr hmarshal hdec' (ht _ List.mem_cons_self),
      ih hafter hd' (fun e he => ht e (List.mem_cons_of_mem _ he))
        fun l n hmem => hfind l n (List.mem_cons_of_mem _ hmem)⟩

theorem mapTarget_congr {f g : Label → Label} {i : IsaInstruction}
    (h : ∀ l ∈ targets i, f l = g l) : mapTarget f i = mapTarget g i := by
  cases i with
  | jmp cond target => exact congrArg (Instruction.jmp cond) (h target (List.mem_singleton_self _))
  | callLocal target frame =>
    exact congrArg (Instruction.callLocal · frame) (h target (List.mem_singleton_self _))
  | _ => rfl

/-- Where the program comes back, nothing was lost. -/
theorem lossless_of_reencodes {seq : InstructionSeq Operation CallInfo} (h : Decodes P 0 seq)
    (hre : Reencodes P seq) : Lossless P (Marshal.getLabels 0 ∅ seq) 0 seq := by
  obtain ⟨words, seq', hm, hd, f, rfl, ht⟩ := hre
  obtain ⟨-, hd⟩ := Except.guard_eq_ok.mp hd
  have hplaced := PlacedSeq.of_decodes h
  have hfind : ∀ l ∈ seq.map Prod.fst, ∃ n, (Marshal.getLabels 0 ∅ seq).find? l = some n ∧
      f l = moved (Marshal.getLabels 0 ∅ seq) l := by
    intro l hl
    obtain ⟨n, hmem⟩ := mem_places_of_mem hl 0
    have hfind := (find_getLabels_empty h).mpr hmem
    exact ⟨n, hfind, (hplaced.label_eq hm hd hmem).trans (moved_eq hfind).symm⟩
  have hmap : (seq.map fun e => (f e.1, mapTarget f e.2)) = seq.map fun e =>
      (moved (Marshal.getLabels 0 ∅ seq) e.1, mapTarget (moved (Marshal.getLabels 0 ∅ seq)) e.2) := by
    refine List.map_congr_left fun e he => ?_
    obtain ⟨-, -, hlabel⟩ := hfind e.1 (List.mem_map_of_mem he)
    rw [hlabel, mapTarget_congr fun l hl => ?_]
    obtain ⟨-, -, htarget⟩ := hfind l (ht e he l hl)
    exact htarget
  rw [hmap] at hd
  refine hplaced.lossless hm hd fun e he l hl => ?_
  obtain ⟨n, hn, -⟩ := hfind l (ht e he l hl)
  exact ⟨n, hn⟩

/-- A decoded program comes back from its encoding exactly when nothing is lost at any place. -/
theorem reencodes_iff {insts : List EbpfInst} {seq : InstructionSeq Operation CallInfo}
    (h : unmarshal P insts = .ok seq) :
    Reencodes P seq ↔ Lossless P (Marshal.getLabels 0 ∅ seq) 0 seq := by
  obtain ⟨hne, h⟩ := Except.guard_eq_ok.mp h
  have hdec := decodes_unmarshalFrom h
  refine ⟨lossless_of_reencodes hdec, reencodes_of_lossless hdec ?_⟩
  rintro rfl
  cases insts with
  | nil => exact hne rfl
  | cons inst l =>
    obtain ⟨-, _, _, _, -, heq, -⟩ := unmarshalFrom_cons.mp h
    cases heq

/-- The shifts of a branch become one move, and the jump over them gets shorter. -/
theorem reencodes_shifts : Reencodes .bare [
    (.ofIndex 0, .jmp (some ⟨.eq, (1 : Reg), .inl (2 : Reg), true⟩) (.ofIndex 3)),
    (.ofIndex 1, zext 1), (.ofIndex 3, .exit [])] := by
  have h : unmarshal .bare [⟨0x1d, 1, 2, 2, 0⟩, ⟨0x67, 1, 0, 0, 32⟩, ⟨0x77, 1, 0, 0, 32⟩,
    ⟨0x95, 0, 0, 0, 0⟩] = .ok _ := rfl
  exact (reencodes_iff h).mpr
    ⟨⟨⟨2, rfl⟩, rfl, trivial⟩, ⟨rfl, fun _ => trivial⟩, trivial, trivial⟩

/-- A local call over one instruction comes back as a call of that instruction. -/
theorem not_reencodes_callLocal : ∃ seq,
    unmarshal .bare [⟨0x85, 0, 1, 0, 1⟩, ⟨0x95, 0, 0, 0, 0⟩, ⟨0x95, 0, 0, 0, 0⟩] = .ok seq ∧
      ¬ Reencodes .bare seq := by
  have h : unmarshal .bare [⟨0x85, 0, 1, 0, 1⟩, ⟨0x95, 0, 0, 0, 0⟩, ⟨0x95, 0, 0, 0, 0⟩] = .ok
      [(.ofIndex 0, .callLocal (.ofIndex 2) []), (.ofIndex 1, .exit []), (.ofIndex 2, .exit [])] := rfl
  refine ⟨_, h, fun hre => ?_⟩
  obtain ⟨-, h⟩ := Except.guard_eq_ok.mp h
  obtain ⟨⟨n, hfind, hn⟩, -⟩ := lossless_of_reencodes (decodes_unmarshalFrom h) hre
  have hfind' : some 2 = some n := hfind
  cases hfind'
  exact absurd hn (by decide)

end Prevail
