import Prevail.Analysis.FwdSound
import Prevail.Ir.ProgramShape

/-!
# Soundness of the whole analysis

`run_sound`: an analysis that ends without a failure has described every state of every execution,
and no assertion fails. The join at the entry does not look at its predecessors, and the assertions
of loop counters are checked only together with termination, so that this rests on two facts about
programs (`Program.WellFormed`): no edge leads to the entry, and there are loop counters only if
termination is checked. `Program.wellFormed_of_fromSequence` shows that programs are built so.
-/

namespace Prevail

/-! ## Programs that are built -/

theorem CfgBuilder.Consistent.linked {O C : Type} {b : CfgBuilder O C} (hb : b.Consistent)
    (he : b.Has .entry) : b.cfg.Linked where
  toClosed := hb.closed he
  parent x y hy := by
    obtain ⟨n, hn, hx⟩ := (hb.parent x y).mpr (mem_succs.mp hy)
    refine ⟨n.parents.keys, ?_, mem_set.mpr hx⟩
    unfold Cfg.parentsOf
    rw [getNode_eq_ok.mpr hn]
    rfl

/-- What the analysis needs of a program. -/
structure Program.WellFormed {O C A : Type} (prog : Program O C A) (checkForTermination : Bool) :
    Prop where
  linked : prog.cfg.Linked
  noBack : ∀ u, .entry ∉ prog.cfg.succs u
  counter : ∀ l i, prog.instructionAt l = .ok i → i.isIncrementLoopCounter = true →
    checkForTermination = true

/-- What is built from a sequence is well formed. -/
theorem Program.wellFormed_of_fromSequence {O C A : Type}
    {getAssertions : Instruction O C → Label → List A} {fuel : ℕ} {insts : InstructionSeq O C}
    {mustHaveExit checkForTermination : Bool} {prog : Program O C A} (hp : insts.Proper)
    (h : fromSequence getAssertions fuel insts mustHaveExit checkForTermination = .ok prog) :
    prog.WellFormed checkForTermination := by
  obtain ⟨b, hinstr, hcfg, hb⟩ := fromSequence_wellBuilt hp h
  refine ⟨hcfg ▸ hb.consistent.linked hb.entry, fun u hu => ?_, fun l i hi hc => ?_⟩
  · rw [hcfg] at hu
    exact hb.noBack u (CfgBuilder.mem_succs.mp hu)
  · refine hb.counter l i ?_ hc
    unfold instructionAt at hi
    rw [← hinstr]
    split at hi
    · next hfind => rw [hfind, Except.ok.inj hi]
    · cases hi

namespace FwdAnalyzer

variable {O C A E D S : Type} {dom : FwdDomain O C A E D} {prog : Program O C A}
  {γ : D → S → Prop} {step : Instruction O C → S → S → Prop} {holds : A → S → Prop}
  {initCounter : S → Label → S} {s s' : FwdAnalyzer E D} {l : Label} {σ : S} {wto : Wto}
  {fuel : ℕ} {checkForTermination : Bool} {entryInv : D}

/-- The executions that start at the entry in a state of `start`. -/
inductive Exec (prog : Program O C A) (step : Instruction O C → S → S → Prop) (start : S → Prop) :
    Label → S → Prop
  | start {σ : S} (h : start σ) : Exec prog step start .entry σ
  | step {u l : Label} {σ σ' : S} (h : Exec prog step start u σ) (hstep : StepAt prog step u σ σ')
      (hedge : l ∈ prog.cfg.succs u) : Exec prog step start l σ'

/-- The states of the entry invariant, with the counters of the loop heads set. -/
def Starts (prog : Program O C A) (γ : D → S → Prop) (initCounter : S → Label → S)
    (checkForTermination : Bool) (entryInv : D) (σ : S) : Prop :=
  ∃ σ₀ fuel wto heads, γ entryInv σ₀ ∧ Wto.ofCfg fuel prog.cfg = .ok wto ∧
    WtoPartition.loopHeads wto.components = .ok heads ∧
    σ = if checkForTermination then heads.foldl initCounter σ₀ else σ₀

theorem Exec.reachable {start : S → Prop} (h : Exec prog step start l σ) :
    prog.cfg.Reachable l := by
  induction h with
  | start => exact .refl
  | step _ _ hedge ih => exact ih.tail hedge

theorem foldl_initializeLoopCounter (hd : dom.Sound γ step holds initCounter) (heads : List Label)
    {d : D} (hσ : γ d σ) :
    γ (heads.foldl dom.initializeLoopCounter d) (heads.foldl initCounter σ) := by
  induction heads generalizing d σ with
  | nil => exact hσ
  | cons l heads ih => exact ih (hd.initializeLoopCounter hσ)

theorem initializeLoopCounters_sound (hd : dom.Sound γ step holds initCounter) {d : D}
    (hw : Wto.ofCfg fuel prog.cfg = .ok wto)
    (h : initializeLoopCounters dom wto checkForTermination entryInv = .ok d)
    (hσ : Starts prog γ initCounter checkForTermination entryInv σ) : γ d σ := by
  obtain ⟨σ₀, fuel', wto', heads, hσ₀, hw', hheads, rfl⟩ := hσ
  obtain rfl := Wto.ofCfg_unique hw hw'
  unfold initializeLoopCounters at h
  cases checkForTermination with
  | false =>
    obtain rfl := Except.ok.inj h
    exact hσ₀
  | true =>
    unfold liftWto at h
    rw [hheads] at h
    obtain rfl := Except.ok.inj h
    exact foldl_initializeLoopCounter hd heads hσ₀

/-! ## Before the components -/

theorem clean_init : Clean (init dom prog) := by
  have key : ∀ (ls : List Label) (m : OrdMap Label (InvariantMapPair E D)),
      (∀ l i, m.find? l = some i → i.error = none) → ∀ l i,
      (ls.foldl (fun m l => m.emplace l ⟨dom.bottom, none, dom.bottom⟩) m).find? l = some i →
      i.error = none := by
    intro ls
    induction ls with
    | nil => exact fun m hm => hm
    | cons x ls ih =>
      refine fun m hm => ih _ fun l i hi => ?_
      rw [OrdMap.find?_emplace] at hi
      split_ifs at hi with hl
      · cases hfind : m.find? x with
        | none =>
          rw [hfind] at hi
          exact Option.some.inj hi ▸ rfl
        | some j =>
          rw [hfind] at hi
          exact Option.some.inj hi ▸ hm x j hfind
      · exact hm l i hi
  intro l i hi he
  rw [key prog.cfg.labels ∅ (fun _ _ h => by cases h) l i hi] at he
  cases he

/-- The visit of the entry, at which the analysis starts. -/
theorem visitLabel_entry (hs : s.skip = true) (h : s.visitLabel dom prog .entry = .ok s')
    {i : InvariantMapPair E D} (hi : s.find? .entry = some i) :
    ∃ s₁, ({ s with skip := false } : FwdAnalyzer E D).setPre .entry i.pre = .ok s₁ ∧
      s₁.transformToPost dom prog .entry i.pre = .ok s' := by
  unfold visitLabel at h
  simp only [hs, Bool.true_and, decide_true, if_true, Bool.false_eq_true, if_false] at h
  obtain ⟨pre, hpre, h⟩ := Except.bind_eq_ok.mp h
  obtain ⟨s₁, h₁, h⟩ := Except.bind_eq_ok.mp h
  unfold joinAllPrevs at hpre
  rw [if_pos rfl] at hpre
  obtain ⟨j, hj, rfl⟩ := getPre_eq_ok hpre
  obtain rfl := Option.some.inj (hi.symm.trans hj)
  exact ⟨s₁, h₁, h⟩

/-- The order starts with the entry, which is not in a cycle. -/
theorem exists_rest (hw : wto.Valid prog.cfg)
    (hentry : ∀ u, prog.cfg.Reachable u → .entry ∉ prog.cfg.succs u) :
    ∃ rest, wto.components = .vertex .entry rest := by
  have hfirst := hw.first
  have hheaded := hw.headed
  have hlooped := hw.looped
  cases hP : wto.components with
  | nil =>
    rw [hP] at hfirst
    cases hfirst
  | vertex a rest =>
    rw [hP] at hfirst
    exact ⟨rest, by rw [Option.some.inj hfirst]⟩
  | component body rest =>
    rw [hP] at hfirst hheaded hlooped
    cases body with
    | nil => cases hheaded.1
    | component _ _ => cases hheaded.1
    | vertex h body =>
      obtain rfl := Option.some.inj hfirst
      obtain ⟨u, hu, hedge⟩ := hlooped .entry List.mem_cons_self
      exact absurd hedge (hentry u hu)

/-- After the visit of the whole order the tables are right about every execution. -/
theorem visit_order_sound (hd : dom.Sound γ step holds initCounter) (hg : prog.cfg.Linked)
    (hw : wto.Valid prog.cfg) (hentry : ∀ u, prog.cfg.Reachable u → .entry ∉ prog.cfg.succs u)
    (hs : s.skip = true) (hc : Clean s)
    (hv : visit dom prog wto fuel wto.components none s = .ok s')
    (hok : s'.result.failed = false) {start : S → Prop}
    {i : InvariantMapPair E D} (hi : s.find? .entry = some i) (hstart : ∀ σ, start σ → γ i.pre σ)
    (h : Exec prog step start l σ) : SoundAt prog γ step holds s' l σ := by
  obtain ⟨rest, hrest⟩ := exists_rest hw hentry
  have hordered : wto.components.Ordered fun u l => l ∈ prog.cfg.succs u :=
    WeakOrder.ordered_of_forward hw.headed hw.nodup fun u hu v _ he =>
      hw.forward u v ((hw.mem u).mp hu) he
  have hnodup := hw.nodup
  rw [hrest] at hv hordered hnodup
  obtain ⟨hnot, hnr⟩ := List.nodup_cons.mp hnodup
  cases hordered with
  | vertex _ hor =>
    rw [visit_vertex] at hv
    obtain ⟨s₂, h₂, hv⟩ := Except.bind_eq_ok.mp hv
    obtain ⟨s₁, h₁, ht⟩ := visitLabel_entry hs h₂ hi
    have hk₁ := setPre_keeps h₁
    have hk₂ := hk₁.trans (transformToPost_keeps ht)
    have hskip : s₂.skip = false := hk₂.skip rfl
    have hk := visit_keeps hor hnr hskip hv
    have hself : ∀ σ, start σ → SoundAt prog γ step holds s₂ .entry σ := by
      intro σ hσ
      obtain ⟨j, hj, hpre⟩ := setPre_find h₁
      obtain ⟨j', hj', hpre'⟩ := transformToPost_pre ht j hj
      obtain ⟨hpost, hcheck⟩ := transformToPost_sound hd (hk₁.clean hc) ht (hk.not_failed hok)
        (hstart σ hσ)
      exact ⟨⟨j', hj', by rw [hpre', hpre]; exact hstart σ hσ⟩, hpost, hcheck⟩
    have hvisit : VisitsSoundly dom prog γ step holds (visit dom prog wto fuel rest none)
        (· ∈ rest.vertices) := visit_sound hd hg hor hnr hnot
    have hmem : ∀ l, prog.cfg.Reachable l → l ≠ .entry → l ∈ rest.vertices := by
      intro l hl hle
      have := (hw.mem l).mpr hl
      rw [hrest] at this
      exact (List.mem_cons.mp this).resolve_left hle
    -- an execution is at the entry, or it arrives in the rest
    have harrive : ∀ l σ, Exec prog step start l σ →
        l = .entry ∧ start σ ∨ Arrives prog γ step s₂ (· ∈ rest.vertices) l σ := by
      intro l σ h
      induction h with
      | start hσ => exact Or.inl ⟨rfl, hσ⟩
      | @step u l σ σ' hu hstep hedge ih =>
        have hl : l ∈ rest.vertices := by
          refine hmem l (hu.reachable.tail hedge) ?_
          rintro rfl
          exact hentry u hu.reachable hedge
        rcases ih with ⟨rfl, hσ⟩ | hflow
        · exact Or.inr (.enter hl ⟨.entry, hnot, hedge, (hself σ hσ).post σ' hstep⟩)
        · exact Or.inr (.step hflow hstep hedge hl)
    rcases harrive l σ h with ⟨rfl, hσ⟩ | hflow
    · exact (hself σ hσ).congr (hk.find .entry hnot)
    · exact hvisit.sound s₂ s' hskip (hk₂.clean hc) hv hok l σ hflow

/-! ## After the components -/

/-- The search for termination errors has found none. -/
theorem findTerminationErrors_spec (h : s.findTerminationErrors dom prog = .ok s')
    (hok : s'.result.failed = false) : s' = s ∧ ∀ e ∈ s.result.invariants.entries,
      dom.isBottom e.2.pre = true ∨ checkLoopBound dom prog e.1 e.2.pre = .ok none := by
  have key : s'.result.failed ∨ s' = s ∧ ∀ e ∈ s.result.invariants.entries,
      dom.isBottom e.2.pre = true ∨ checkLoopBound dom prog e.1 e.2.pre = .ok none := by
    refine Except.foldlM_induction (fun done st => st.result.failed ∨ st = s ∧ ∀ e ∈ done,
      dom.isBottom e.2.pre = true ∨ checkLoopBound dom prog e.1 e.2.pre = .ok none) h
      (Or.inr ⟨rfl, by simp⟩) fun done e st st' _ ih hst => ?_
    split_ifs at hst with hbot
    · obtain rfl := Except.ok.inj hst
      refine ih.imp_right fun ⟨hs, hdone⟩ => ⟨hs, fun x hx => ?_⟩
      rcases List.mem_append.mp hx with hx | hx
      · exact hdone x hx
      · exact Or.inl (List.mem_singleton.mp hx ▸ hbot)
    · obtain ⟨r, hr, hst⟩ := Except.bind_eq_ok.mp hst
      cases r with
      | some error => exact Or.inl (setError_spec hst).1
      | none =>
        obtain rfl := Except.ok.inj hst
        refine ih.imp_right fun ⟨hs, hdone⟩ => ⟨hs, fun x hx => ?_⟩
        rcases List.mem_append.mp hx with hx | hx
        · exact hdone x hx
        · exact Or.inr (List.mem_singleton.mp hx ▸ hr)
  refine key.resolve_left fun hf => ?_
  rw [hok] at hf
  cases hf

/-- What is done at the end does not change the tables, and it checks the counters. -/
theorem finish_spec (h : s.finish dom prog checkForTermination = .ok s')
    (hok : s'.result.failed = false) : s.result.failed = false ∧
      (∀ l, s'.find? l = s.find? l) ∧
      (checkForTermination = true → ∀ e ∈ s.result.invariants.entries,
        dom.isBottom e.2.pre = true ∨ checkLoopBound dom prog e.1 e.2.pre = .ok none) := by
  obtain ⟨s₁, h₁, h⟩ := Except.bind_eq_ok.mp h
  obtain ⟨p, -, h⟩ := Except.bind_eq_ok.mp h
  obtain rfl := Except.ok.inj h
  have hok₁ : s₁.result.failed = false := hok
  unfold checkTermination at h₁
  split_ifs at h₁ with hcond
  · obtain ⟨hfail, hcheck⟩ := Bool.and_eq_true_iff.mp hcond
    obtain ⟨s₂, h₂, h₁⟩ := Except.bind_eq_ok.mp h₁
    split_ifs at h₁ with hf₂
    · obtain rfl := Except.ok.inj h₁
      rw [hok₁] at hf₂
      cases hf₂
    · obtain rfl := Except.ok.inj h₁
      obtain ⟨rfl, hentries⟩ := findTerminationErrors_spec h₂ hok₁
      exact ⟨hok₁, fun _ => rfl, fun _ => hentries⟩
  · obtain rfl := Except.ok.inj h₁
    refine ⟨hok₁, fun _ => rfl, fun hcheck => ?_⟩
    rw [hok₁, hcheck] at hcond
    exact absurd rfl hcond

/-- The assertion of a loop counter has been checked. -/
theorem holds_of_checkLoopBound (hd : dom.Sound γ step holds initCounter) {d : D}
    (h : checkLoopBound dom prog l d = .ok none) {ins : Instruction O C} {as : List A} {a : A}
    (hins : prog.instructionAt l = .ok ins) (hcounter : ins.isIncrementLoopCounter = true)
    (has : prog.assertionsAt l = .ok as) (ha : a ∈ as) (hσ : γ d σ) : holds a σ := by
  unfold checkLoopBound at h
  rw [hins] at h
  obtain ⟨ins', hins', h⟩ := Except.bind_eq_ok.mp h
  obtain rfl := Except.ok.inj hins'
  rw [if_pos hcounter, has] at h
  obtain ⟨as', has', h⟩ := Except.bind_eq_ok.mp h
  obtain rfl := Except.ok.inj has'
  split at h
  · obtain rfl := List.mem_singleton.mp ha
    exact hd.check (Except.ok.inj h) hσ
  · cases h

theorem wto_eq_ok (h : prog.wto fuel = .ok wto) : Wto.ofCfg fuel prog.cfg = .ok wto := by
  unfold Program.wto at h
  cases hofCfg : Wto.ofCfg fuel prog.cfg with
  | error e =>
    rw [hofCfg] at h
    cases h
  | ok w =>
    rw [hofCfg] at h
    rw [Except.ok.inj h]

/-- An analysis without a failure describes every execution, and no assertion fails. -/
theorem run_sound (hd : dom.Sound γ step holds initCounter)
    (hp : prog.WellFormed checkForTermination)
    (hrun : run dom prog checkForTermination fuel entryInv = .ok s)
    (hok : s.result.failed = false)
    (h : Exec prog step (Starts prog γ initCounter checkForTermination entryInv) l σ) :
    (∃ i, s.find? l = some i ∧ γ i.pre σ) ∧
      ∀ as, prog.assertionsAt l = .ok as → ∀ a ∈ as, holds a σ := by
  obtain ⟨wto, hw, hrun⟩ := Except.bind_eq_ok.mp hrun
  have hw' := wto_eq_ok hw
  obtain ⟨inv, hinv, hrun⟩ := Except.bind_eq_ok.mp hrun
  obtain ⟨s₀, h₀, hrun⟩ := Except.bind_eq_ok.mp hrun
  obtain ⟨s₁, h₁, hrun⟩ := Except.bind_eq_ok.mp hrun
  obtain ⟨hok₁, hfind, hcheck⟩ := finish_spec hrun hok
  obtain ⟨i, hi, hpre⟩ := setPre_find h₀
  have hskip : s₀.skip = true := (setPre_changes h₀).skip
  have hsound : SoundAt prog γ step holds s₁ l σ :=
    visit_order_sound hd hp.linked (Wto.valid_of_ofCfg hp.linked.toClosed hw')
      (fun u _ => hp.noBack u) hskip
      ((setPre_keeps h₀).clean clean_init) h₁ hok₁ hi
      (fun σ hσ => hpre ▸ initializeLoopCounters_sound hd hw' hinv hσ) h
  obtain ⟨j, hj, hσ⟩ := hsound.pre
  refine ⟨⟨j, (hfind l).trans hj, hσ⟩, fun as has a ha => ?_⟩
  obtain ⟨ins, hins, hchecked⟩ := hsound.checked
  cases hcounter : ins.isIncrementLoopCounter with
  | false => exact hchecked hcounter as has a ha
  | true =>
    have hentry' : (l, j) ∈ s₁.result.invariants.entries := OrdMap.mem_entries.mpr hj
    rcases hcheck (hp.counter l ins hins hcounter) _ hentry' with hbot | hnone
    · exact absurd hσ (hd.isBottom hbot)
    · exact holds_of_checkLoopBound hd hnone hins hcounter has ha hσ

/-! ## A loop -/

/-- The numbers up to `d - 1`. The instruction `other n` sets the state to `n`. -/
def capDomain : FwdDomain ℕ Unit Unit Unit ℕ where
  bottom := 0
  isBottom d := d = 0
  le a b := a ≤ b
  join := max
  meet := min
  widen a b _ := a + b
  narrow := min
  getR0 d := .ofBounds (.fin 0) (.fin (d - 1))
  getLoopCountUpperBound _ := .fin 0
  transform d
    | .other n => if d = 0 then 0 else n + 1
    | _ => d
  check d _ _ := if d ≤ 2 then none else some ()
  initializeLoopCounter d _ := d

/-- `n := 1` in a loop that may be left. -/
def loopInsts : InstructionSeq ℕ Unit :=
  [(.ofIndex 0, .other 1), (.ofIndex 1, .jmp (some ⟨.eq, 0, .inr 0, true⟩) (.ofIndex 0)),
    (.ofIndex 2, .exit [])]

def loopProgram : Except ProgramError (Program ℕ Unit Unit) :=
  Program.fromSequence (fun i _ => if i.isIncrementLoopCounter then [()] else []) 100 loopInsts true
    true

/-- The analysis succeeds, and the way from the entry to the jump goes over the counter. -/
def loopTest (prog : Program ℕ Unit Unit) : Bool :=
  (run capDomain prog true 100 1).okWith (fun s => !s.result.failed) &&
    ((Wto.ofCfg 100 prog.cfg).okWith fun w =>
      (WtoPartition.loopHeads w.components).okWith fun _ => true) &&
    decide (prog.instructions.find? .entry = some (.undefined 0) ∧
      prog.instructions.find? (.ofIndex 0) = some (.other 1) ∧
      prog.instructions.find? (Label.ofIndex 0).makeIncrementCounter =
        some (.incrementLoopCounter (.ofIndex 0)) ∧
      .ofIndex 0 ∈ prog.cfg.succs .entry ∧
      (Label.ofIndex 0).makeIncrementCounter ∈ prog.cfg.succs (.ofIndex 0) ∧
      .ofIndex 1 ∈ prog.cfg.succs (Label.ofIndex 0).makeIncrementCounter)

/-- The step of an instruction of the loop. -/
def LoopStep (i : Instruction ℕ Unit) (n n' : ℕ) : Prop :=
  n' = match i with
    | .other m => m
    | _ => n

theorem capDomain_sound :
    capDomain.Sound (fun d n => n < d) LoopStep (fun _ n => n < 2) fun n _ => n where
  join_left h := lt_max_of_lt_left h
  join_right h := lt_max_of_lt_right h
  meet h h' := lt_min h h'
  narrow h h' := lt_min h h'
  le h h' := h'.trans_le (of_decide_eq_true h)
  isBottom h h' := by
    rw [of_decide_eq_true h] at h'
    exact absurd h' (Nat.not_lt_zero _)
  transform {d i n n'} h hstep := by
    obtain rfl := hstep
    unfold capDomain
    dsimp only
    split
    · rw [if_neg (Nat.ne_zero_of_lt h)]
      exact Nat.lt_succ_self _
    · exact h
  check {d _ _ n} h h' := by
    unfold capDomain at h
    dsimp only at h
    split_ifs at h with hd
    exact h'.trans_le hd
  initializeLoopCounter h := h

theorem proper_loopInsts : loopInsts.Proper where
  label := by decide
  target := by
    have hne : Label.ofIndex 0 ≠ .entry := by decide
    intro e he c
    simp only [loopInsts, List.mem_cons, List.not_mem_nil, or_false] at he
    rcases he with rfl | rfl | rfl <;> simp [hne]
  counter := by decide

/-- The analysis of the loop describes the state at the jump. -/
theorem run_sound_loop : ∃ prog s, loopProgram = .ok prog ∧ run capDomain prog true 100 1 = .ok s ∧
    ∃ i, s.find? (.ofIndex 1) = some i ∧ 1 < i.pre := by
  obtain ⟨prog, hprog, htest⟩ :=
    Except.exists_of_okWith (show loopProgram.okWith loopTest from by decide +kernel)
  unfold loopTest at htest
  simp only [Bool.and_eq_true, decide_eq_true_eq] at htest
  obtain ⟨⟨hrun, hheads⟩, hentry, hzero, hcounter, h₁, h₂, h₃⟩ := htest
  obtain ⟨s, hs, hok⟩ := Except.exists_of_okWith hrun
  obtain ⟨w, hw, hheads⟩ := Except.exists_of_okWith hheads
  obtain ⟨heads, hheads, -⟩ := Except.exists_of_okWith hheads
  have hinstr : ∀ {l : Label} {i : Instruction ℕ Unit}, prog.instructions.find? l = some i →
      prog.instructionAt l = .ok i := by
    intro l i h
    unfold Program.instructionAt
    rw [h]
  have hstart : Exec prog LoopStep (Starts prog (fun d n => n < d) (fun n _ => n) true 1) .entry 0 :=
    .start ⟨0, 100, w, heads, Nat.zero_lt_one, hw, hheads, by simp⟩
  have hstep := Exec.step (Exec.step (Exec.step hstart ⟨_, hinstr hentry, rfl⟩ h₁)
    ⟨_, hinstr hzero, rfl⟩ h₂) ⟨_, hinstr hcounter, rfl⟩ h₃
  exact ⟨prog, s, hprog, hs, (run_sound capDomain_sound
    (Program.wellFormed_of_fromSequence proper_loopInsts hprog) hs (by simpa using hok) hstep).1⟩

end FwdAnalyzer

end Prevail
