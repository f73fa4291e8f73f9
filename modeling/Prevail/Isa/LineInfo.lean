import Mathlib.Logic.Relation
import Prevail.Isa.DecodeErrors

/-!
# Line information and errors that escape

The decoder looks up the line information of an instruction when its position is less than the number of
entries, as if the entries had no gaps. `unmarshal` returns the text of an `InvalidInstruction` and lets
every other exception through. `reportsAll_iff` says for which programs this is enough.
-/

namespace Prevail

/-- `btf_line_info_t`. -/
structure BtfLineInfo where
  fileName : String
  sourceLine : String
  lineNumber : ℕ
  columnNumber : ℕ
  deriving DecidableEq

/-- `line_info` of a `ProgramInfo`. -/
abbrev LineInfo := OrdMap ℕ BtfLineInfo

/-- `LabeledInstruction`. -/
abbrev LabeledInstruction := Label × IsaInstruction × Option BtfLineInfo

/-- What is thrown while a program is decoded. -/
inductive UnmarshalException where
  | decode (e : DecodeError)
  | outOfRange
  deriving DecidableEq

/-- `make_opcode_message`. -/
def makeOpcodeMessage (msg : String) (opcode : BitVec 8) : String :=
  msg ++ " op 0x" ++ String.ofList (Nat.toDigits 16 opcode.toNat)

/-- The text that is returned for an `InvalidInstruction`. -/
def DecodeError.report? : DecodeError → Option String
  | .invalid pc what => some (toString pc ++ ": " ++ what ++ "\n")
  | .invalidOpcode pc msg opcode => some (toString pc ++ ": " ++ makeOpcodeMessage msg opcode ++ "\n")
  | _ => none

namespace Unmarshaller

/-- `current_line_info`, with the exception of `map::at`. -/
def currentLineInfo (info : LineInfo) (pc : ℕ) : Except UnmarshalException (Option BtfLineInfo) :=
  if pc < info.entries.length then
    match info.find? pc with
    | some line => .ok (some line)
    | none => .error .outOfRange
  else .ok none

variable (P : Platform) (info : LineInfo)

/-- The loop of `unmarshal` with the line information, from `pc` on. -/
def unmarshalLinesFrom (insts : List EbpfInst) :
    ℕ → List EbpfInst → Except UnmarshalException (List LabeledInstruction)
  | _, [] => .ok []
  | pc, inst :: rest => do
    let (newIns, skip) ← (decode P insts pc inst rest.head?).mapError .decode
    let line ← currentLineInfo info pc
    if 2 ^ 31 ≤ pc then .error (.decode .narrowing)
    else
      match rest with
      | [] => return [(.ofIndex pc, newIns, line)]
      | next :: rest =>
        if skip then
          return (.ofIndex pc, newIns, line) :: (← unmarshalLinesFrom insts (pc + 2) rest)
        else
          return (.ofIndex pc, newIns, line) :: (← unmarshalLinesFrom insts (pc + 1) (next :: rest))

/-- `Unmarshaller::unmarshal`. -/
def unmarshalLines (insts : List EbpfInst) : Except UnmarshalException (List LabeledInstruction) :=
  if insts.isEmpty then .error (.decode .zeroLength) else unmarshalLinesFrom P info insts 0 insts

/-- `unmarshal`, which returns a sequence or a text, or throws. -/
def unmarshalRaw (insts : List EbpfInst) :
    Except UnmarshalException (Except String (List LabeledInstruction)) :=
  match unmarshalLines P info insts with
  | .ok seq => .ok (.ok seq)
  | .error e =>
    match e with
    | .decode e =>
      match e.report? with
      | some text => .ok (.error text)
      | none => .error (.decode e)
    | .outOfRange => .error .outOfRange

variable {P info} {insts l : List EbpfInst} {inst : EbpfInst} {pc : ℕ} {seq : List LabeledInstruction}

/-! ## One turn -/

/-- The exception is returned as a text. -/
def Returned (e : UnmarshalException) : Prop := ∃ d, e = .decode d ∧ d.IsInvalid

theorem unmarshalLinesFrom_cons : unmarshalLinesFrom P info insts pc (inst :: l) = (do
    let r ← (decode P insts pc inst l.head?).mapError .decode
    let line ← currentLineInfo info pc
    if 2 ^ 31 ≤ pc then .error (.decode .narrowing)
    else do
      let rest ← unmarshalLinesFrom P info insts (pc + if r.2 then 2 else 1) (if r.2 then l.tail else l)
      return (.ofIndex pc, r.1, line) :: rest) := by
  rw [unmarshalLinesFrom]
  congr 1
  funext ⟨newIns, skip⟩
  dsimp only
  congr 1
  funext line
  split_ifs
  · rfl
  · cases l <;> rfl
  · cases l <;> rfl

/-- The line information of the instruction, once its position is not out of range. -/
def lineAt (info : LineInfo) (pc : ℕ) : Option BtfLineInfo :=
  if pc < info.entries.length then info.find? pc else none

/-- An entry is where the position is looked up. -/
def Listed (info : LineInfo) (pc : ℕ) : Prop := pc < info.entries.length → info.contains pc = true

theorem currentLineInfo_eq_ok {line : Option BtfLineInfo} :
    currentLineInfo info pc = .ok line ↔ Listed info pc ∧ line = lineAt info pc := by
  unfold currentLineInfo Listed lineAt OrdMap.contains
  split_ifs with hpc
  · cases info.find? pc with
    | none => simp [hpc]
    | some line' =>
      rw [Except.ok.injEq]
      exact ⟨fun h => ⟨fun _ => rfl, h.symm⟩, fun h => h.2.symm⟩
  · rw [Except.ok.injEq]
    exact ⟨fun h => ⟨fun h => absurd h hpc, h.symm⟩, fun h => h.2.symm⟩

theorem failsOnly_currentLineInfo : (currentLineInfo info pc).FailsOnly Returned ↔ Listed info pc := by
  unfold currentLineInfo Listed OrdMap.contains
  split_ifs with hpc
  · cases info.find? pc with
    | none => simp [Returned, hpc]
    | some line => simp
  · exact iff_of_true Except.failsOnly_ok fun h => absurd h hpc

/-- The loop goes on at the position behind the instruction. -/
theorem unmarshalLinesFrom_eq_ok : unmarshalLinesFrom P info insts pc (inst :: l) = .ok seq ↔
    ∃ r rest, decode P insts pc inst l.head? = .ok r ∧ Listed info pc ∧ pc < 2 ^ 31 ∧
      unmarshalLinesFrom P info insts (pc + if r.2 then 2 else 1) (if r.2 then l.tail else l) =
        .ok rest ∧ seq = (.ofIndex pc, r.1, lineAt info pc) :: rest := by
  rw [unmarshalLinesFrom_cons, Except.bind_eq_ok]
  constructor
  · rintro ⟨r, hr, h⟩
    obtain ⟨line, hline, h⟩ := Except.bind_eq_ok.mp h
    obtain ⟨hpc, h⟩ := Except.guard_eq_ok.mp h
    obtain ⟨rest, hrest, h⟩ := Except.bind_eq_ok.mp h
    obtain ⟨hlisted, rfl⟩ := currentLineInfo_eq_ok.mp hline
    exact ⟨r, rest, Except.mapError_eq_ok.mp hr, hlisted, not_le.mp hpc, hrest, (Except.ok.inj h).symm⟩
  · rintro ⟨r, rest, hr, hlisted, hpc, hrest, rfl⟩
    refine ⟨r, Except.mapError_eq_ok.mpr hr, ?_⟩
    refine Except.bind_eq_ok.mpr ⟨_, currentLineInfo_eq_ok.mpr ⟨hlisted, rfl⟩, ?_⟩
    exact Except.guard_eq_ok.mpr ⟨not_le.mpr hpc, Except.bind_eq_ok.mpr ⟨rest, hrest, rfl⟩⟩

/-- The sequence without the line information is that of `unmarshalFrom`. -/
theorem unmarshalFrom_of_lines (h : unmarshalLinesFrom P info insts pc l = .ok seq) :
    unmarshalFrom P insts pc l = .ok (seq.map fun e => (e.1, e.2.1)) := by
  induction hn : l.length using Nat.strong_induction_on generalizing pc l seq with
  | _ n ih =>
    cases l with
    | nil =>
      obtain rfl := Except.ok.inj h
      rfl
    | cons inst l =>
      obtain ⟨r, rest, hr, -, hpc, hrest, rfl⟩ := unmarshalLinesFrom_eq_ok.mp h
      have hlt : (if r.2 then l.tail else l).length < n := by
        rw [← hn, List.length_cons]
        split_ifs
        · rw [List.length_tail]
          omega
        · omega
      exact unmarshalFrom_cons.mpr ⟨hpc, r.1, r.2, _, hr, rfl, ih _ hlt hrest rfl⟩

/-- When the loop throws only what is returned. -/
theorem failsOnly_unmarshalLinesFrom :
    (unmarshalLinesFrom P info insts pc (inst :: l)).FailsOnly Returned ↔
      (decode P insts pc inst l.head?).FailsOnly DecodeError.IsInvalid ∧
        ∀ r, decode P insts pc inst l.head? = .ok r → Listed info pc ∧ pc < 2 ^ 31 ∧
          (unmarshalLinesFrom P info insts (pc + if r.2 then 2 else 1)
            (if r.2 then l.tail else l)).FailsOnly Returned := by
  rw [unmarshalLinesFrom_cons, Except.failsOnly_bind, Except.failsOnly_mapError]
  refine and_congr ?_ (forall_congr' fun r => ?_)
  · refine forall_congr' fun e => imp_congr_right fun _ => ?_
    simp [Returned]
  · rw [Except.mapError_eq_ok]
    refine imp_congr_right fun _ => ?_
    rw [Except.failsOnly_bind, failsOnly_currentLineInfo]
    refine and_congr_right fun hlisted => ?_
    simp only [currentLineInfo_eq_ok, hlisted, true_and, forall_eq]
    rw [Except.failsOnly_guard (by simp [Returned, DecodeError.IsInvalid]), not_le]
    refine and_congr_right fun _ => ?_
    rw [Except.failsOnly_bind]
    exact and_iff_left fun _ _ => Except.failsOnly_pure

/-- The text of an `InvalidInstruction` is returned. -/
theorem isSome_report? {e : DecodeError} : e.report?.isSome = true ↔ e.IsInvalid := by
  cases e <;> simp [DecodeError.report?, DecodeError.IsInvalid]

theorem unmarshalRaw_succeeds : (unmarshalRaw P info insts).Succeeds ↔
    (unmarshalLines P info insts).FailsOnly Returned := by
  unfold unmarshalRaw
  cases unmarshalLines P info insts with
  | ok seq => simp
  | error e =>
    rw [Except.failsOnly_error]
    cases e with
    | outOfRange => simp [Returned]
    | decode e =>
      have hiff := isSome_report? (e := e)
      simp only [Returned, UnmarshalException.decode.injEq, exists_eq_left', ← hiff]
      cases e.report? with
      | none => simp
      | some text => simp

theorem unmarshalRaw_ok : unmarshalRaw P info insts = .ok (.ok seq) ↔
    unmarshalLines P info insts = .ok seq := by
  unfold unmarshalRaw
  cases unmarshalLines P info insts with
  | ok seq' => simp
  | error e =>
    refine iff_of_false (fun h => ?_) fun h => by cases h
    cases e with
    | outOfRange => cases h
    | decode e =>
      dsimp only at h
      split at h <;> cases h

/-! ## The positions of the loop -/

/-- The loop goes on at `pc'` after the instruction at `pc`. -/
def Follows (P : Platform) (insts : List EbpfInst) (pc pc' : ℕ) : Prop :=
  ∃ inst r, insts[pc]? = some inst ∧ decode P insts pc inst insts[pc + 1]? = .ok r ∧
    pc' = pc + if r.2 then 2 else 1

abbrev Reaches (P : Platform) (insts : List EbpfInst) : ℕ → ℕ → Prop :=
  Relation.ReflTransGen (Follows P insts)

/-- The loop is at an instruction. -/
structure At (P : Platform) (insts : List EbpfInst) (start pc : ℕ) (inst : EbpfInst) : Prop where
  reaches : Reaches P insts start pc
  inst : insts[pc]? = some inst

/-- The instruction at `pc` throws nothing that is not returned: the prototype of a helper fits, the
target of a jump has a number that fits a label, and so has a word that is decoded, with its line. -/
structure Quiet (P : Platform) (info : LineInfo) (insts : List EbpfInst) (pc : ℕ) (inst : EbpfInst) :
    Prop where
  helper : IsHelperCall P inst → HelperFits P inst.imm
  near : ∀ offset, Jumps P inst offset → ¬ FarTarget insts pc offset
  place : (decode P insts pc inst insts[pc + 1]?).Succeeds → Listed info pc ∧ pc < 2 ^ 31

theorem forall_at_cons {Q : ℕ → EbpfInst → Prop} (hinst : insts[pc]? = some inst) :
    (∀ pc' inst', At P insts pc pc' inst' → Q pc' inst') ↔ Q pc inst ∧
      ∀ r, decode P insts pc inst insts[pc + 1]? = .ok r →
        ∀ pc' inst', At P insts (pc + if r.2 then 2 else 1) pc' inst' → Q pc' inst' := by
  constructor
  · intro h
    refine ⟨h pc inst ⟨.refl, hinst⟩, fun r hr pc' inst' hat => h pc' inst' ⟨?_, hat.inst⟩⟩
    exact .head ⟨inst, r, hinst, hr, rfl⟩ hat.reaches
  · rintro ⟨hself, hrest⟩ pc' inst' ⟨hreaches, hinst'⟩
    rcases Relation.ReflTransGen.cases_head hreaches with rfl | ⟨next, hnext, hreaches⟩
    · obtain rfl := Option.some.inj (hinst.symm.trans hinst')
      exact hself
    · obtain ⟨inst'', r, hinst'', hr, rfl⟩ := hnext
      obtain rfl := Option.some.inj (hinst.symm.trans hinst'')
      exact hrest r hr pc' inst' ⟨hreaches, hinst'⟩

/-- The rest of the program at a position. -/
theorem drop_cases (insts : List EbpfInst) (pc : ℕ) :
    (insts[pc]? = none ∧ insts.drop pc = []) ∨
      ∃ inst l, insts[pc]? = some inst ∧ insts.drop pc = inst :: l ∧ insts[pc + 1]? = l.head? ∧
        ∀ b : Bool, (if b then l.tail else l) = insts.drop (pc + if b then 2 else 1) := by
  cases hd : insts.drop pc with
  | nil => exact Or.inl ⟨List.getElem?_eq_none (List.drop_eq_nil_iff.mp hd), rfl⟩
  | cons inst l =>
    have hl : insts.drop (pc + 1) = l := by
      rw [← List.drop_drop, hd]
      rfl
    refine Or.inr ⟨inst, l, ?_, rfl, ?_, fun b => ?_⟩
    · rw [← List.head?_drop, hd]
      rfl
    · rw [← hl, List.head?_drop]
    · cases b with
      | false => exact hl.symm
      | true =>
        show l.tail = insts.drop (pc + 1 + 1)
        rw [← hl, List.tail_drop]

theorem lt_of_drop_cons (hinst : insts[pc]? = some inst) (b : Bool) :
    insts.length - (pc + if b then 2 else 1) < insts.length - pc := by
  have hlt := (List.getElem?_eq_some_iff.mp hinst).1
  split_ifs <;> omega

theorem not_at_of_none {pc' : ℕ} (hnone : insts[pc]? = none) : ¬ At P insts pc pc' inst := by
  rintro ⟨hreaches, hinst⟩
  rcases Relation.ReflTransGen.cases_head hreaches with rfl | ⟨next, ⟨inst', r, hinst', -⟩, -⟩
  · rw [hnone] at hinst
    cases hinst
  · rw [hnone] at hinst'
    cases hinst'

/-- The loop throws only what is returned when every instruction it comes to is quiet. -/
theorem failsOnly_iff_quiet (pc : ℕ) : (unmarshalLinesFrom P info insts pc (insts.drop pc)).FailsOnly
    Returned ↔ ∀ pc' inst, At P insts pc pc' inst → Quiet P info insts pc' inst := by
  induction hn : insts.length - pc using Nat.strong_induction_on generalizing pc with
  | _ n ih =>
    rcases drop_cases insts pc with ⟨hnone, hnil⟩ | ⟨inst, l, hinst, hd, hnext, htail⟩
    · rw [hnil]
      exact iff_of_true Except.failsOnly_ok fun _ _ hat => absurd hat (not_at_of_none hnone)
    · have hrest : ∀ b : Bool, (unmarshalLinesFrom P info insts (pc + if b then 2 else 1)
          (if b then l.tail else l)).FailsOnly Returned ↔
          ∀ pc' inst, At P insts (pc + if b then 2 else 1) pc' inst → Quiet P info insts pc' inst :=
        fun b => by
          rw [htail b]
          exact ih _ (hn ▸ lt_of_drop_cons hinst b) _ rfl
      rw [hd, failsOnly_unmarshalLinesFrom, forall_at_cons hinst, ← hnext, decode_invalid_iff]
      constructor
      · rintro ⟨⟨hhelper, hnear⟩, hok⟩
        refine ⟨⟨hhelper, hnear, ?_⟩, fun r hr => (hrest r.2).mp (hok r hr).2.2⟩
        rintro ⟨r, hr⟩
        exact ⟨(hok r hr).1, (hok r hr).2.1⟩
      · rintro ⟨⟨hhelper, hnear, hplace⟩, hok⟩
        refine ⟨⟨hhelper, hnear⟩, fun r hr => ?_⟩
        obtain ⟨hlisted, hpc⟩ := hplace ⟨r, hr⟩
        exact ⟨hlisted, hpc, (hrest r.2).mpr (hok r hr)⟩

/-- Every instruction that the loop comes to is decoded. -/
def DecodesAll (P : Platform) (insts : List EbpfInst) (start : ℕ) : Prop :=
  ∀ pc inst, At P insts start pc inst → (decode P insts pc inst insts[pc + 1]?).Succeeds

/-- A sequence has the instructions that the loop comes to. -/
theorem mem_of_unmarshalLinesFrom (pc : ℕ)
    (h : unmarshalLinesFrom P info insts pc (insts.drop pc) = .ok seq) :
    DecodesAll P insts pc ∧
      (∀ pc' inst, At P insts pc pc' inst → ∃ i, (.ofIndex pc', i, lineAt info pc') ∈ seq) ∧
      ∀ e ∈ seq, ∃ pc' inst, At P insts pc pc' inst ∧ e.1 = .ofIndex pc' ∧ e.2.2 = lineAt info pc' := by
  induction hn : insts.length - pc using Nat.strong_induction_on generalizing pc seq with
  | _ n ih =>
    rcases drop_cases insts pc with ⟨hnone, hnil⟩ | ⟨inst, l, hinst, hd, hnext, htail⟩
    · rw [hnil] at h
      obtain rfl := Except.ok.inj h
      exact ⟨fun _ _ hat => absurd hat (not_at_of_none hnone),
        fun _ _ hat => absurd hat (not_at_of_none hnone), by simp⟩
    · rw [hd, unmarshalLinesFrom_eq_ok, ← hnext] at h
      obtain ⟨r, rest, hr, -, -, hrest, rfl⟩ := h
      rw [htail r.2] at hrest
      obtain ⟨hall, hmem, hat⟩ := ih _ (hn ▸ lt_of_drop_cons hinst r.2) _ hrest rfl
      refine ⟨(forall_at_cons hinst).mpr ⟨⟨r, hr⟩, fun r' hr' => ?_⟩,
        (forall_at_cons hinst).mpr ⟨⟨r.1, List.mem_cons_self⟩, fun r' hr' pc' inst' hat' => ?_⟩,
        fun e he => ?_⟩
      · obtain rfl := Except.ok.inj (hr.symm.trans hr')
        exact hall
      · obtain rfl := Except.ok.inj (hr.symm.trans hr')
        obtain ⟨i, hi⟩ := hmem pc' inst' hat'
        exact ⟨i, List.mem_cons_of_mem _ hi⟩
      · rcases List.mem_cons.mp he with rfl | he
        · exact ⟨pc, inst, ⟨.refl, hinst⟩, rfl, rfl⟩
        · obtain ⟨pc', inst', hat', h⟩ := hat e he
          exact ⟨pc', inst', ⟨.head ⟨inst, r, hinst, hr, rfl⟩ hat'.reaches, hat'.inst⟩, h⟩

/-- When all is quiet and every instruction is decoded, there is a sequence. -/
theorem unmarshalLinesFrom_succeeds (pc : ℕ)
    (hquiet : ∀ pc' inst, At P insts pc pc' inst → Quiet P info insts pc' inst)
    (hall : DecodesAll P insts pc) :
    (unmarshalLinesFrom P info insts pc (insts.drop pc)).Succeeds := by
  induction hn : insts.length - pc using Nat.strong_induction_on generalizing pc with
  | _ n ih =>
    rcases drop_cases insts pc with ⟨hnone, hnil⟩ | ⟨inst, l, hinst, hd, hnext, htail⟩
    · rw [hnil]
      exact Except.succeeds_ok
    · obtain ⟨hself, hquiet⟩ := (forall_at_cons hinst).mp hquiet
      obtain ⟨⟨r, hr⟩, hall⟩ := (forall_at_cons hinst).mp hall
      obtain ⟨hlisted, hpc⟩ := hself.place ⟨r, hr⟩
      obtain ⟨rest, hrest⟩ := ih _ (hn ▸ lt_of_drop_cons hinst r.2) _ (hquiet r hr) (hall r hr) rfl
      rw [hd]
      refine ⟨_, unmarshalLinesFrom_eq_ok.mpr ⟨r, rest, hnext ▸ hr, hlisted, hpc, ?_, rfl⟩⟩
      rw [htail r.2]
      exact hrest

/-! ## Reports -/

/-- The result is a sequence or a text, and in a sequence each instruction has the line information of
its position. -/
structure ReportsAll (P : Platform) (info : LineInfo) (insts : List EbpfInst) : Prop where
  returns : (unmarshalRaw P info insts).Succeeds
  lines : ∀ seq, unmarshalRaw P info insts = .ok (.ok seq) → ∀ (pc : ℕ) (i : IsaInstruction)
    (line : Option BtfLineInfo), (.ofIndex pc, i, line) ∈ seq → line = info.find? pc

/-- The instructions that the loop comes to are quiet, and in a program that is decoded none has line
information behind a gap. -/
structure Tidy (P : Platform) (info : LineInfo) (insts : List EbpfInst) : Prop where
  nonempty : insts ≠ []
  quiet : ∀ pc inst, At P insts 0 pc inst → Quiet P info insts pc inst
  dense : DecodesAll P insts 0 → ∀ pc inst, At P insts 0 pc inst → info.contains pc = true →
    pc < info.entries.length

theorem ofIndex_inj {m n : ℕ} (h : Label.ofIndex m = Label.ofIndex n) : m = n :=
  Int.ofNat_inj.mp (congrArg Label.src h)

theorem unmarshalLines_eq (hne : insts ≠ []) :
    unmarshalLines P info insts = unmarshalLinesFrom P info insts 0 (insts.drop 0) := by
  unfold unmarshalLines
  rw [if_neg (by simpa using hne), List.drop_zero]

theorem ne_nil_of_returned (h : (unmarshalLines P info insts).FailsOnly Returned) : insts ≠ [] := by
  rintro rfl
  obtain ⟨d, hd, hinvalid⟩ := h (.decode .zeroLength) rfl
  obtain rfl := UnmarshalException.decode.inj hd
  exact hinvalid

theorem tidy_of_reportsAll (h : ReportsAll P info insts) : Tidy P info insts := by
  have hreturned := unmarshalRaw_succeeds.mp h.returns
  have hne := ne_nil_of_returned hreturned
  rw [unmarshalLines_eq hne] at hreturned
  have hquiet := (failsOnly_iff_quiet 0).mp hreturned
  refine ⟨hne, hquiet, fun hall pc inst hat hcontains => ?_⟩
  obtain ⟨seq, hseq⟩ := unmarshalLinesFrom_succeeds 0 hquiet hall
  obtain ⟨i, hi⟩ := (mem_of_unmarshalLinesFrom 0 hseq).2.1 pc inst hat
  have hline := h.lines seq (unmarshalRaw_ok.mpr ((unmarshalLines_eq hne).trans hseq)) pc i _ hi
  by_contra hlt
  unfold lineAt at hline
  rw [if_neg hlt] at hline
  unfold OrdMap.contains at hcontains
  rw [← hline] at hcontains
  cases hcontains

theorem reportsAll_of_tidy (h : Tidy P info insts) : ReportsAll P info insts := by
  refine ⟨unmarshalRaw_succeeds.mpr ?_, fun seq hseq pc i line hmem => ?_⟩
  · rw [unmarshalLines_eq h.nonempty]
    exact (failsOnly_iff_quiet 0).mpr h.quiet
  · rw [unmarshalRaw_ok, unmarshalLines_eq h.nonempty] at hseq
    obtain ⟨hall, -, hfrom⟩ := mem_of_unmarshalLinesFrom 0 hseq
    obtain ⟨pc', inst, hat, hlabel, hline⟩ := hfrom _ hmem
    obtain rfl := ofIndex_inj hlabel
    refine Eq.trans hline ?_
    unfold lineAt
    split_ifs with hlt
    · rfl
    · cases hfind : info.find? pc with
      | none => rfl
      | some line' =>
        have hcontains : info.contains pc = true := by
          unfold OrdMap.contains
          rw [hfind]
          rfl
        exact absurd (h.dense hall pc inst hat hcontains) hlt

/-- Every malformed program is reported through the result, and every line is right, exactly when the
program is tidy. -/
theorem reportsAll_iff : ReportsAll P info insts ↔ Tidy P info insts :=
  ⟨tidy_of_reportsAll, reportsAll_of_tidy⟩

/-- `r0 = 0; exit`, where the line of the second instruction is known. -/
def gapInsts : List EbpfInst := [⟨0xb7, 0, 0, 0, 0⟩, ⟨0x95, 0, 0, 0, 0⟩]

def gapInfo : LineInfo := (∅ : LineInfo).insert 1 ⟨"a.c", "return 0;", 3, 1⟩

/-- The lookup of the first line throws. -/
theorem not_reportsAll_gap : unmarshalRaw .bare gapInfo gapInsts = .error .outOfRange ∧
    ¬ ReportsAll .bare gapInfo gapInsts := by
  have hthrows : unmarshalRaw .bare gapInfo gapInsts = .error .outOfRange := by
    obtain ⟨e, he, heq⟩ := Except.exists_of_failsWith (show (unmarshalRaw .bare gapInfo gapInsts).failsWith
      (· = .outOfRange) from by decide)
    rw [he, of_decide_eq_true heq]
  refine ⟨hthrows, fun h => ?_⟩
  have hreturns := h.returns
  rw [hthrows] at hreturns
  exact Except.not_succeeds_error hreturns

end Unmarshaller

end Prevail
