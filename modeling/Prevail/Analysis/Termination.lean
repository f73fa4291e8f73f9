import Prevail.Analysis.FwdRun
import Prevail.Ir.Assertions
import Prevail.Lib.Marks

/-!
# Programs that end

The loop counters are variables of the analysis, not of the program. `BaseStep` is the step of the
program, which goes over a counter without a change, and `CountedStep` is the step with the counters, by
which the analysis goes. The assertion of a counter bounds it, so that an analysis without a failure has
bounded the turns of each loop that is counted. A program whose cycles are all counted ends
(`walk_length_le`).
-/

namespace Prevail

variable {O C A B E D : Type}

/-- The loop that the instruction counts. -/
def Instruction.counter? : Instruction O C → Option Label
  | .incrementLoopCounter name => some name
  | _ => none

namespace Program

/-- The loop that is counted at the label. -/
def counterAt (prog : Program O C A) (l : Label) : Option Label :=
  (prog.instructions.find? l).bind Instruction.counter?

/-- The loops that are counted. -/
def counters (prog : Program O C A) : List Label := prog.cfg.labels.filterMap prog.counterAt

/-- Every cycle of the graph has a counter. -/
def CountsLoops (prog : Program O C A) : Prop :=
  ∀ l, ¬ Relation.TransGen
    (fun v u => v ∈ prog.cfg.succs u ∧ prog.counterAt u = none ∧ prog.counterAt v = none) l l

/-- A graph whose edges without counters go up has no cycle without a counter. -/
theorem countsLoops_of_rank {prog : Program O C A} (rank : Label → ℕ) (hrank : ∀ u v,
    v ∈ prog.cfg.succs u → prog.counterAt u = none → prog.counterAt v = none → rank u < rank v) :
    prog.CountsLoops := by
  intro l hl
  have hlt : ∀ v u, Relation.TransGen
      (fun v u => v ∈ prog.cfg.succs u ∧ prog.counterAt u = none ∧ prog.counterAt v = none) v u →
      rank u < rank v := by
    intro v u h
    induction h with
    | single h => exact hrank _ _ h.1 h.2.1 h.2.2
    | tail _ h ih => exact (hrank _ _ h.1 h.2.1 h.2.2).trans ih
  exact lt_irrefl _ (hlt l l hl)

variable {getAssertions : Instruction O C → Label → List A} {fuel : ℕ} {insts : InstructionSeq O C}
  {mustHaveExit checkForTermination : Bool} {prog : Program O C A} {l : Label} {i : Instruction O C}

/-- The assertions of a label are those of its instruction. -/
theorem assertionsAt_of_fromSequence
    (h : fromSequence getAssertions fuel insts mustHaveExit checkForTermination = .ok prog)
    (hl : l ∈ prog.cfg.labels) (hi : prog.instructionAt l = .ok i) :
    prog.assertionsAt l = .ok (getAssertions i l) := by
  obtain ⟨b₀, h₀, h⟩ := Except.bind_eq_ok.mp h
  obtain ⟨b, hb, h⟩ := Except.bind_eq_ok.mp h
  obtain ⟨as, has, h⟩ := Except.bind_eq_ok.mp h
  obtain rfl := Except.ok.inj h
  have hfind : ∀ l ∈ b.cfg.labels, ∀ i, b.instructions.find? l = some i →
      as.find? l = some (getAssertions i l) := by
    refine Except.foldlM_induction (fun done (m : OrdMap Label (List A)) => ∀ l ∈ done, ∀ i,
      b.instructions.find? l = some i → m.find? l = some (getAssertions i l)) has (by simp) ?_
    intro done x m m' _ ih hm l hl i hi
    obtain ⟨j, hj, hm⟩ := Except.bind_eq_ok.mp hm
    obtain rfl := Except.ok.inj hm
    rw [OrdMap.find?_insert]
    split_ifs with hlx
    · subst hlx
      have hj := liftBuild_eq_ok.mp hj
      unfold CfgBuilder.instructionAt at hj
      rw [hi] at hj
      rw [Except.ok.inj hj]
    · exact ih l ((List.mem_append.mp hl).resolve_right fun hx => hlx (List.mem_singleton.mp hx)) i hi
  have hi : b.instructions.find? l = some i := by
    unfold instructionAt at hi
    split at hi
    · next hfind => rw [hfind, Except.ok.inj hi]
    · cases hi
  unfold assertionsAt
  rw [hfind l hl i hi]

end Program

namespace FwdAnalyzer

/-- A step of the program, which does nothing at a counter. -/
def BaseStep (step : Instruction O C → B → B → Prop) (i : Instruction O C) (b b' : B) : Prop :=
  match i.counter? with
  | some _ => b' = b
  | none => step i b b'

/-- A step with the counters of the loops. -/
def CountedStep (step : Instruction O C → B → B → Prop) (i : Instruction O C)
    (σ σ' : B × (Label → ℤ)) : Prop :=
  BaseStep step i σ.1 σ'.1 ∧ σ'.2 = match i.counter? with
    | some name => Function.update σ.2 name (σ.2 name + 1)
    | none => σ.2

/-- A counter is set. -/
def startCounter (σ : B × (Label → ℤ)) (name : Label) : B × (Label → ℤ) :=
  (σ.1, Function.update σ.2 name 0)

/-- The runs of a program, with the labels that have been left, the last of them first. -/
inductive Walk (prog : Program O C A) (step : Instruction O C → B → B → Prop) (start : B → Prop) :
    List Label → Label → B → Prop
  | start {b : B} (h : start b) : Walk prog step start [] .entry b
  | step {ls : List Label} {u l : Label} {b b' : B} (h : Walk prog step start ls u b)
      (hstep : StepAt prog (BaseStep step) u b b') (hedge : l ∈ prog.cfg.succs u) :
      Walk prog step start (u :: ls) l b'

/-- How often the loop has been counted. -/
def turns (prog : Program O C A) (ls : List Label) (name : Label) : ℕ :=
  ls.countP (prog.counterAt · = some name)

section

variable {dom : FwdDomain O C A E D} {prog : Program O C A} {γ : D → B × (Label → ℤ) → Prop}
  {step : Instruction O C → B → B → Prop} {start : B → Prop} {S : B × (Label → ℤ) → Prop}
  {ls : List Label} {u l name : Label} {b : B} {i : Instruction O C}

theorem counterAt_of_instructionAt (hi : prog.instructionAt u = .ok i) :
    prog.counterAt u = i.counter? := by
  unfold Program.instructionAt at hi
  unfold Program.counterAt
  split at hi
  · next hfind => rw [hfind, Except.ok.inj hi, Option.bind_some]
  · cases hi

theorem turns_cons : turns prog (u :: ls) name =
    turns prog ls name + if prog.counterAt u = some name then 1 else 0 := by
  unfold turns
  rw [List.countP_cons]
  simp only [decide_eq_true_eq]

/-- The labels of a run follow each other. -/
theorem Walk.isChain (h : Walk prog step start ls l b) :
    (l :: ls).IsChain fun v u => v ∈ prog.cfg.succs u := by
  induction h with
  | start _ => exact List.isChain_singleton _
  | step _ _ hedge ih => exact List.isChain_cons_cons.mpr ⟨hedge, ih⟩

theorem Walk.reachable (h : Walk prog step start ls l b) :
    ∀ x ∈ l :: ls, prog.cfg.Reachable x := by
  induction h with
  | start _ =>
    intro x hx
    obtain rfl := List.mem_singleton.mp hx
    exact .refl
  | step _ _ hedge ih =>
    intro x hx
    rcases List.mem_cons.mp hx with rfl | hx
    · exact (ih _ List.mem_cons_self).tail hedge
    · exact ih x hx

/-- A run of the program, seen with the counters. -/
theorem Walk.exec (hstart : ∀ b, start b → S (b, fun _ => 0)) (h : Walk prog step start ls l b) :
    Exec prog (CountedStep step) S l (b, fun name => (turns prog ls name : ℤ)) := by
  induction h with
  | start hb => exact .start (hstart _ hb)
  | @step ls u l b b' _ hstep hedge ih =>
    obtain ⟨i, hi, hb⟩ := hstep
    refine .step ih ⟨i, hi, hb, ?_⟩ hedge
    funext name
    show ((turns prog (u :: ls) name : ℕ) : ℤ) = _
    rw [turns_cons, counterAt_of_instructionAt hi]
    cases i.counter? with
    | none => simp
    | some name' =>
      show _ = Function.update (fun name => (turns prog ls name : ℤ)) name' _ name
      by_cases hname : name = name'
      · subst hname
        rw [Function.update_self, if_pos rfl]
        push_cast
        rfl
      · rw [Function.update_of_ne hname, if_neg fun h => hname (Option.some.inj h).symm, Nat.add_zero]

end

/-! ## The verdict -/

section

variable {dom : FwdDomain O C A E D} {prog : Program O C A} {γ : D → B × (Label → ℤ) → Prop}
  {step : Instruction O C → B → B → Prop} {holds : A → B × (Label → ℤ) → Prop}
  {s : FwdAnalyzer E D} {fuel : ℕ} {entryInv : D} {ls : List Label} {l name : Label} {b : B}

/-- When an analysis without a failure has checked for termination, the assertions of a counter hold
whenever an execution arrives there. -/
theorem holds_of_run (hd : dom.Sound γ (CountedStep step) holds startCounter)
    (hp : prog.WellFormed true) (hrun : run dom prog true fuel entryInv = .ok s)
    (hok : s.result.failed = false) {σ : B × (Label → ℤ)}
    (h : Exec prog (CountedStep step) (Starts prog γ startCounter true entryInv) l σ)
    (hcounter : prog.counterAt l = some name) {as : List A} {a : A}
    (has : prog.assertionsAt l = .ok as) (ha : a ∈ as) : holds a σ := by
  obtain ⟨wto, hw, hrun⟩ := Except.bind_eq_ok.mp hrun
  have hw' := wto_eq_ok hw
  obtain ⟨inv, hinv, hrun⟩ := Except.bind_eq_ok.mp hrun
  obtain ⟨s₀, h₀, hrun⟩ := Except.bind_eq_ok.mp hrun
  obtain ⟨s₁, h₁, hrun⟩ := Except.bind_eq_ok.mp hrun
  obtain ⟨hok₁, -, hcheck⟩ := finish_spec hrun hok
  obtain ⟨i, hi, hpre⟩ := setPre_find h₀
  have hsound : SoundAt prog γ (CountedStep step) holds s₁ l σ :=
    visit_order_sound hd hp.linked (Wto.valid_of_ofCfg hp.linked.toClosed hw')
      (fun u _ => hp.noBack u) (setPre_changes h₀).skip
      ((setPre_keeps h₀).clean clean_init) h₁ hok₁ hi
      (fun σ hσ => hpre ▸ initializeLoopCounters_sound hd hw' hinv hσ) h
  obtain ⟨j, hj, hσ⟩ := hsound.pre
  obtain ⟨ins, hins, -⟩ := hsound.checked
  have hincrement : ins.isIncrementLoopCounter = true := by
    rw [counterAt_of_instructionAt hins] at hcounter
    cases ins <;> first | rfl | cases hcounter
  rcases hcheck rfl (l, j) (OrdMap.mem_entries.mpr hj) with hbot | hnone
  · exact absurd hσ (hd.isBottom hbot)
  · exact holds_of_checkLoopBound hd hnone hins hincrement has ha hσ

theorem foldl_startCounter (b : B) (heads : List Label) :
    heads.foldl startCounter (b, fun _ => 0) = (b, fun _ => 0) := by
  induction heads with
  | nil => rfl
  | cons name heads ih =>
    have hstart : startCounter (b, fun _ => 0) name = (b, fun _ => 0) := by
      show (b, Function.update (fun _ => (0 : ℤ)) name 0) = _
      rw [Function.update_eq_self name (fun _ => (0 : ℤ))]
    rw [List.foldl_cons, hstart]
    exact ih

/-- A run starts with all counters zero, whether they are set or not. -/
theorem starts_of_run (hrun : run dom prog true fuel entryInv = .ok s)
    (hb : γ entryInv (b, fun _ => 0)) :
    Starts prog γ startCounter true entryInv (b, fun _ => 0) := by
  obtain ⟨wto, hw, hrun⟩ := Except.bind_eq_ok.mp hrun
  obtain ⟨inv, hinv, -⟩ := Except.bind_eq_ok.mp hrun
  obtain ⟨heads, hheads, -⟩ := Except.bind_eq_ok.mp hinv
  have hheads : WtoPartition.loopHeads wto.components = .ok heads := by
    unfold liftWto at hheads
    split at hheads
    · next heads' heq => rw [heq, Except.ok.inj hheads]
    · cases hheads
  refine ⟨(b, fun _ => 0), fuel, wto, heads, hb, wto_eq_ok hw, hheads, ?_⟩
  rw [if_pos rfl, foldl_startCounter]

/-- The assertions of the counter of a loop bound it. -/
def Bounds (prog : Program O C A) (holds : A → B × (Label → ℤ) → Prop) (l name : Label) : Prop :=
  ∃ as, prog.assertionsAt l = .ok as ∧ ∃ a ∈ as, ∀ σ, holds a σ → σ.2 name ≤ boundedLoopLimit

/-- No run counts a loop more often than is allowed. -/
theorem turns_le (hd : dom.Sound γ (CountedStep step) holds startCounter) (hp : prog.WellFormed true)
    (hbounds : ∀ l name, l ∈ prog.cfg.labels → prog.counterAt l = some name → Bounds prog holds l name)
    (hrun : run dom prog true fuel entryInv = .ok s) (hok : s.result.failed = false)
    (h : Walk prog step (fun b => γ entryInv (b, fun _ => 0)) ls l b) (name : Label) :
    (turns prog ls name : ℤ) ≤ boundedLoopLimit + 1 := by
  have hstart : ∀ b, γ entryInv (b, fun _ => 0) →
      Starts prog γ startCounter true entryInv (b, fun _ => 0) := fun _ hb => starts_of_run hrun hb
  induction h with
  | start _ => exact show (0 : ℤ) ≤ boundedLoopLimit + 1 by decide
  | @step ls u l b b' hu hstep hedge ih =>
    rw [turns_cons]
    by_cases hcounter : prog.counterAt u = some name
    · have hmem := (hu.reachable u List.mem_cons_self).mem_labels hp.linked.toClosed
      obtain ⟨as, has, a, ha, hle⟩ := hbounds u name hmem hcounter
      have hturns := hle _ (holds_of_run hd hp hrun hok (hu.exec hstart) hcounter has ha)
      rw [if_pos hcounter]
      push_cast
      exact Int.add_le_add_right hturns 1
    · rw [if_neg hcounter]
      exact ih

/-- A program that is built with its loops counted and that passes the analysis ends, when the counters
are on all of its cycles: no run has more steps than this. -/
theorem walk_length_le {getAssertions : Instruction O C → Label → List A} {insts : InstructionSeq O C}
    {mustHaveExit : Bool} {fuel' : ℕ} (hd : dom.Sound γ (CountedStep step) holds startCounter)
    (hinsts : insts.Proper)
    (hprog : Program.fromSequence getAssertions fuel' insts mustHaveExit true = .ok prog)
    (hbound : ∀ name l, ∃ a ∈ getAssertions (.incrementLoopCounter name) l,
      ∀ σ, holds a σ → σ.2 name ≤ boundedLoopLimit)
    (hcycles : prog.CountsLoops) (hrun : run dom prog true fuel entryInv = .ok s)
    (hok : s.result.failed = false)
    (h : Walk prog step (fun b => γ entryInv (b, fun _ => 0)) ls l b) :
    ls.length ≤ prog.counters.length * (boundedLoopLimit.toNat + 1) * (prog.cfg.labels.length + 1) +
      prog.cfg.labels.length := by
  have hp := Program.wellFormed_of_fromSequence hinsts hprog
  have hmem : ∀ x ∈ ls, x ∈ prog.cfg.labels := fun x hx =>
    (h.reachable x (List.mem_cons_of_mem _ hx)).mem_labels hp.linked.toClosed
  have hbounds : ∀ l name, l ∈ prog.cfg.labels → prog.counterAt l = some name →
      Bounds prog holds l name := by
    intro l name hl hcounter
    obtain ⟨i, hi, hcount⟩ := Option.bind_eq_some_iff.mp hcounter
    obtain rfl : i = .incrementLoopCounter name := by
      cases i <;> first | exact congrArg _ (Option.some.inj hcount) | cases hcount
    have hins : prog.instructionAt l = .ok (.incrementLoopCounter name) := by
      unfold Program.instructionAt
      rw [hi]
    exact ⟨_, Program.assertionsAt_of_fromSequence hprog hl hins, hbound name l⟩
  refine Marks.length_le_of_marks h.isChain.tail hcycles hmem (f := prog.counterAt)
    (fun x hx name hname => List.mem_filterMap.mpr ⟨x, hmem x hx, hname⟩) fun name => ?_
  have hturns := turns_le hd hp hbounds hrun hok h name
  unfold turns at hturns
  omega

end

/-! ## A counted loop -/

/-- An upper bound of the state and the turns of the loop at `0` together. -/
def turnDomain : FwdDomain ℕ Unit Label Unit ℤ where
  bottom := 0
  isBottom _ := false
  le a b := a ≤ b
  join := max
  meet := min
  widen a b _ := max a b
  narrow := min
  getR0 _ := .top
  getLoopCountUpperBound d := .fin d
  transform d
    | .other _ => d - 1
    | .incrementLoopCounter name => if name = .ofIndex 0 then d + 1 else d
    | _ => d
  check d name _ := if name = .ofIndex 0 ∧ d ≤ boundedLoopLimit then none else some ()
  initializeLoopCounter d _ := d

/-- The loop goes on as long as the state can be made smaller. -/
def CountDown (i : Instruction ℕ Unit) (n n' : ℕ) : Prop :=
  n = match i with
    | .other _ => n' + 1
    | _ => n'

theorem turnDomain_sound : turnDomain.Sound
    (fun d σ => σ.1 + σ.2 (.ofIndex 0) ≤ d ∧ 0 ≤ σ.2 (.ofIndex 0)) (CountedStep CountDown)
    (fun name σ => σ.2 name ≤ boundedLoopLimit) startCounter where
  join_left h := ⟨h.1.trans (le_max_left _ _), h.2⟩
  join_right h := ⟨h.1.trans (le_max_right _ _), h.2⟩
  meet h h' := ⟨le_min h.1 h'.1, h.2⟩
  narrow h h' := ⟨le_min h.1 h'.1, h.2⟩
  le h h' := ⟨h'.1.trans (of_decide_eq_true h), h'.2⟩
  isBottom h := absurd h Bool.false_ne_true
  transform {d i σ σ'} h hstep := by
    obtain ⟨hbase, hcount⟩ := hstep
    cases i with
    | incrementLoopCounter name =>
      have hbase : σ'.1 = σ.1 := hbase
      have hcount : σ'.2 = Function.update σ.2 name (σ.2 name + 1) := hcount
      show _ ≤ (if name = .ofIndex 0 then d + 1 else d) ∧ _
      rw [hbase, hcount]
      split_ifs with hname
      · subst hname
        rw [Function.update_self]
        omega
      · rw [Function.update_of_ne (Ne.symm hname)]
        exact h
    | other n =>
      have hbase : σ.1 = σ'.1 + 1 := hbase
      have hcount : σ'.2 = σ.2 := hcount
      show _ ≤ d - 1 ∧ _
      rw [hcount]
      omega
    | _ =>
      have hbase : σ.1 = σ'.1 := hbase
      have hcount : σ'.2 = σ.2 := hcount
      show _ ≤ d ∧ _
      rw [← hbase, hcount]
      exact h
  check {d name l σ} h hσ := by
    unfold turnDomain at h
    dsimp only at h
    split_ifs at h with hcond
    obtain ⟨rfl, hle⟩ := hcond
    omega
  initializeLoopCounter {d name σ} h := by
    show (σ.1 : ℤ) + Function.update σ.2 name 0 (.ofIndex 0) ≤ d ∧ _
    by_cases hname : .ofIndex 0 = name
    · subst hname
      simp only [startCounter, Function.update_self]
      omega
    · simp only [startCounter, Function.update_of_ne hname]
      exact h

def countedProgram : Except ProgramError (Program ℕ Unit Label) :=
  Program.fromSequence (fun i _ => i.counter?.toList) 100 loopInsts true true

/-- An order of the labels in which each edge without a counter goes up. -/
def countedRank (l : Label) : ℕ :=
  if l = .exit then 3 else if l.dst ≠ -1 then 1 else if l.src = 0 ∨ l.src = 2 then 2 else 0

/-- The analysis succeeds, and the cycle has a counter. -/
def countedTest (prog : Program ℕ Unit Label) : Bool :=
  (run turnDomain prog true 100 2).okWith (fun s => !s.result.failed) &&
    prog.cfg.labels.all fun u => (prog.cfg.succs u).all fun v => (prog.counterAt u).isSome ||
      (prog.counterAt v).isSome || countedRank u < countedRank v

/-- The loop that counts down from two ends. -/
theorem walk_length_le_counted : ∃ prog, countedProgram = .ok prog ∧ ∀ ls l n,
    Walk prog CountDown (fun n => (n : ℤ) + 0 ≤ 2 ∧ (0 : ℤ) ≤ 0) ls l n →
      ls.length ≤ prog.counters.length * (boundedLoopLimit.toNat + 1) * (prog.cfg.labels.length + 1) +
        prog.cfg.labels.length := by
  obtain ⟨prog, hprog, htest⟩ :=
    Except.exists_of_okWith (show countedProgram.okWith countedTest from by decide +kernel)
  obtain ⟨hrun, hrank⟩ := Bool.and_eq_true_iff.mp htest
  obtain ⟨s, hs, hok⟩ := Except.exists_of_okWith hrun
  have hcycles : prog.CountsLoops := by
    refine Program.countsLoops_of_rank countedRank fun u v hv hu hv' => ?_
    have hmem : u ∈ prog.cfg.labels := by
      unfold Cfg.succs at hv
      split at hv
      · next n hfind => exact OrdMap.mem_keys.mpr ⟨n, hfind⟩
      · cases hv
    have hrank := List.all_eq_true.mp (List.all_eq_true.mp hrank u hmem) v hv
    simpa [hu, hv'] using hrank
  refine ⟨prog, hprog, fun ls l n h => ?_⟩
  exact walk_length_le turnDomain_sound proper_loopInsts hprog
    (fun name _ => ⟨name, List.mem_singleton_self _, fun _ h => h⟩) hcycles hs (by simpa using hok) h

end FwdAnalyzer

end Prevail
