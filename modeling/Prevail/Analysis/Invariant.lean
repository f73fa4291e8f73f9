import Prevail.Analysis.Verdict

/-!
# The invariants that an analysis computes

The iterator makes states by the operations of the domain only. A property of states that they keep
(`FwdDomain.Keeps`) stays true of all the tables through visits, cycles and the final checks, so it is true of
every invariant of a run when it is true of the entry invariant (`states_of_run`). In particular every
invariant is made from the entry invariant by transfer functions of the program's instructions, joins,
meets, widenings and narrowings (`made_of_run`).
-/

namespace Prevail

variable {O C A E D : Type}

/-- The operations of the domain keep the property, as far as an analysis of the program uses them. -/
structure FwdDomain.Keeps (dom : FwdDomain O C A E D) (prog : Program O C A) (P : D → Prop) : Prop where
  bottom : P dom.bottom
  join {a b : D} (ha : P a) (hb : P b) : P (dom.join a b)
  meet {a b : D} (ha : P a) (hb : P b) : P (dom.meet a b)
  widen {a b : D} (ha : P a) (hb : P b) (toConstants : Bool) : P (dom.widen a b toConstants)
  narrow {a b : D} (ha : P a) (hb : P b) : P (dom.narrow a b)
  transform {d : D} (hd : P d) {l : Label} {i : Instruction O C} (hi : prog.instructionAt l = .ok i) :
    P (dom.transform d i)
  initializeLoopCounter {d : D} (hd : P d) (l : Label) : P (dom.initializeLoopCounter d l)

/-- The states that the operations of the domain make from the entry invariant. -/
inductive FwdDomain.Made (dom : FwdDomain O C A E D) (prog : Program O C A) (entryInv : D) : D → Prop
  | entry : Made dom prog entryInv entryInv
  | bottom : Made dom prog entryInv dom.bottom
  | join {a b : D} (ha : Made dom prog entryInv a) (hb : Made dom prog entryInv b) :
    Made dom prog entryInv (dom.join a b)
  | meet {a b : D} (ha : Made dom prog entryInv a) (hb : Made dom prog entryInv b) :
    Made dom prog entryInv (dom.meet a b)
  | widen {a b : D} (ha : Made dom prog entryInv a) (hb : Made dom prog entryInv b) (toConstants : Bool) :
    Made dom prog entryInv (dom.widen a b toConstants)
  | narrow {a b : D} (ha : Made dom prog entryInv a) (hb : Made dom prog entryInv b) :
    Made dom prog entryInv (dom.narrow a b)
  | transform {d : D} (hd : Made dom prog entryInv d) {l : Label} {i : Instruction O C}
    (hi : prog.instructionAt l = .ok i) : Made dom prog entryInv (dom.transform d i)
  | initializeLoopCounter {d : D} (hd : Made dom prog entryInv d) (l : Label) :
    Made dom prog entryInv (dom.initializeLoopCounter d l)

theorem FwdDomain.keeps_made (dom : FwdDomain O C A E D) (prog : Program O C A) (entryInv : D) :
    dom.Keeps prog (dom.Made prog entryInv) where
  bottom := .bottom
  join := .join
  meet := .meet
  widen := .widen
  narrow := .narrow
  transform := .transform
  initializeLoopCounter := .initializeLoopCounter

namespace FwdAnalyzer

variable {dom : FwdDomain O C A E D} {prog : Program O C A} {P : D → Prop} {s s' : FwdAnalyzer E D}
  {l : Label} {d : D}

/-- Every invariant in the tables has the property. -/
def States (P : D → Prop) (s : FwdAnalyzer E D) : Prop :=
  ∀ l i, s.find? l = some i → P i.pre ∧ P i.post

theorem Changes.states {f : InvariantMapPair E D → InvariantMapPair E D} (h : Changes f l s s')
    (hs : States P s) (hf : ∀ i, P i.pre ∧ P i.post → P (f i).pre ∧ P (f i).post) : States P s' := by
  intro x j hj
  by_cases hx : x = l
  · subst hx
    obtain ⟨i, hi, hi'⟩ := h.self
    obtain rfl := Option.some.inj (hi'.symm.trans hj)
    exact hf i (hs x i hi)
  · exact hs x j ((h.other x hx).symm.trans hj)

theorem states_setPre (h : s.setPre l d = .ok s') (hs : States P s) (hd : P d) : States P s' :=
  (setPre_changes h).states hs fun _ hi => ⟨hd, hi.2⟩

theorem states_setPost (h : s.setPost l d = .ok s') (hs : States P s) (hd : P d) : States P s' :=
  (setPost_changes h).states hs fun _ hi => ⟨hi.1, hd⟩

theorem states_setError {e : E} (h : s.setError l e = .ok s') (hs : States P s) : States P s' :=
  (modify_changes h).states hs fun _ hi => hi

section Visit

variable (hd : dom.Keeps prog P)
include hd

theorem states_transformToPost (h : s.transformToPost dom prog l d = .ok s') (hs : States P s)
    (hpre : P d) : States P s' := by
  obtain ⟨ins, hins, h⟩ := Except.bind_eq_ok.mp h
  split_ifs at h
  · exact states_setPost h hs (hd.transform hpre hins)
  · obtain ⟨b, -, h⟩ := Except.bind_eq_ok.mp h
    cases b with
    | true =>
      obtain rfl := Except.ok.inj h
      exact hs
    | false =>
      obtain ⟨as, -, h⟩ := Except.bind_eq_ok.mp h
      split at h
      · exact states_setError h hs
      · exact states_setPost h hs (hd.transform hpre hins)

theorem joinPost_of_states {a b : D} (hs : States P s) (ha : P a)
    (h : dom.join a <$> s.getPost l = .ok b) : P b := by
  obtain ⟨v, hv, rfl⟩ := Except.map_eq_ok.mp h
  obtain ⟨i, hi, rfl⟩ := getPost_eq_ok hv
  exact hd.join ha (hs l i hi).2

theorem joinAllPrevs_of_states (hs : States P s) (h : s.joinAllPrevs dom prog l = .ok d) : P d := by
  unfold joinAllPrevs at h
  split_ifs at h
  · obtain ⟨i, hi, rfl⟩ := getPre_eq_ok h
    exact (hs l i hi).1
  · obtain ⟨parents, -, h⟩ := Except.bind_eq_ok.mp h
    exact Except.foldlM_induction (fun _ d => P d) h hd.bottom fun _ _ _ _ _ ha hstep =>
      joinPost_of_states hd hs ha hstep

theorem states_visitLabel (h : s.visitLabel dom prog l = .ok s') (hs : States P s) : States P s' := by
  unfold visitLabel at h
  set s₁ := if (s.skip && decide (l = .entry)) = true then { s with skip := false } else s with hs₁
  have hs₁ : States P s₁ := by
    rw [hs₁]
    split_ifs
    · exact hs
    · exact hs
  dsimp only at h
  split_ifs at h
  · obtain rfl := Except.ok.inj h
    exact hs₁
  · obtain ⟨pre, hpre, h⟩ := Except.bind_eq_ok.mp h
    obtain ⟨s₂, h₂, h⟩ := Except.bind_eq_ok.mp h
    have hpre := joinAllPrevs_of_states hd hs₁ hpre
    exact states_transformToPost hd h (states_setPre h₂ hs₁ hpre) hpre

/-! ## Cycles -/

theorem extrapolate_of_keeps {a b : D} (ha : P a) (hb : P b) (iteration : ℕ) :
    P (extrapolate dom a b iteration) := by
  unfold extrapolate
  split_ifs
  · exact hd.join ha hb
  · exact hd.widen ha hb _

theorem refine_of_keeps {a b : D} (ha : P a) (hb : P b) (iteration : ℕ) :
    P (FwdAnalyzer.refine dom a b iteration) := by
  unfold FwdAnalyzer.refine
  split_ifs
  · exact hd.meet ha hb
  · exact hd.narrow ha hb

section Cycle

variable {visitBody : FwdAnalyzer E D → Except AnalysisError (FwdAnalyzer E D)} {head : Label}
  {fuel iteration : ℕ} {invariant : D}
  (hbody : ∀ s s', visitBody s = .ok s' → States P s → States P s')
include hbody

theorem states_increase {r : D × FwdAnalyzer E D}
    (h : increase dom prog visitBody head fuel iteration invariant s = .ok r) (hs : States P s)
    (hinv : P invariant) : States P r.2 ∧ P r.1 := by
  induction fuel generalizing iteration invariant s with
  | zero => cases h
  | succ fuel ih =>
    obtain ⟨s₁, h₁, h⟩ := Except.bind_eq_ok.mp h
    obtain ⟨s₂, h₂, h⟩ := Except.bind_eq_ok.mp h
    obtain ⟨s₃, h₃, h⟩ := Except.bind_eq_ok.mp h
    obtain ⟨newPre, hnew, h⟩ := Except.bind_eq_ok.mp h
    have hs₂ := states_transformToPost hd h₂ (states_setPre h₁ hs hinv) hinv
    have hs₃ := hbody s₂ s₃ h₃ hs₂
    have hnew := joinAllPrevs_of_states hd hs₃ hnew
    split_ifs at h
    · obtain ⟨s₄, h₄, h⟩ := Except.bind_eq_ok.mp h
      obtain rfl := Except.ok.inj h
      exact ⟨states_setPre h₄ hs₃ hnew, hnew⟩
    · exact ih h hs₃ (extrapolate_of_keeps hd hinv hnew iteration)

theorem states_decrease (h : decrease dom prog visitBody head fuel iteration invariant s = .ok s')
    (hs : States P s) (hinv : P invariant) : States P s' := by
  induction fuel generalizing iteration invariant s with
  | zero => cases h
  | succ fuel ih =>
    obtain ⟨s₁, h₁, h⟩ := Except.bind_eq_ok.mp h
    obtain ⟨s₂, h₂, h⟩ := Except.bind_eq_ok.mp h
    obtain ⟨newPre, hnew, h⟩ := Except.bind_eq_ok.mp h
    have hs₂ := hbody s₁ s₂ h₂ (states_transformToPost hd h₁ hs hinv)
    have hnew := joinAllPrevs_of_states hd hs₂ hnew
    split_ifs at h
    · obtain rfl := Except.ok.inj h
      exact hs₂
    · obtain rfl := Except.ok.inj h
      exact hs₂
    · obtain ⟨s₃, h₃, h⟩ := Except.bind_eq_ok.mp h
      have hinv := refine_of_keeps hd hinv hnew iteration
      exact ih h (states_setPre h₃ hs₂ hinv) hinv

end Cycle

variable {wto : Wto} {fuel : ℕ} {body Q : WtoPartition} {skipped : Option Label}

theorem initialInvariant_of_states (hs : States P s)
    (h : s.initialInvariant dom prog wto fuel l = .ok d) : P d := by
  obtain ⟨nesting, -, h⟩ := Except.bind_eq_ok.mp h
  obtain ⟨parents, -, h⟩ := Except.bind_eq_ok.mp h
  refine Except.foldlM_induction (fun _ d => P d) h hd.bottom fun _ prev a b _ ha hstep => ?_
  obtain ⟨heads, -, hstep⟩ := Except.bind_eq_ok.mp hstep
  split_ifs at hstep
  · obtain rfl := Except.ok.inj hstep
    exact ha
  · exact joinPost_of_states hd hs ha hstep

/-- A cycle from an invariant that has the property. -/
theorem states_cycle {visitBody : FwdAnalyzer E D → Except AnalysisError (FwdAnalyzer E D)}
    (hbody : ∀ s s', visitBody s = .ok s' → States P s → States P s') {x : Except AnalysisError D}
    (h : (x >>= fun invariant => increase dom prog visitBody l fuel 1 invariant s >>= fun res =>
      decrease dom prog visitBody l fuel 1 res.1 res.2) = .ok s') (hx : ∀ d, x = .ok d → P d)
    (hs : States P s) : States P s' := by
  obtain ⟨invariant, hinv, h⟩ := Except.bind_eq_ok.mp h
  obtain ⟨r, hr, h⟩ := Except.bind_eq_ok.mp h
  obtain ⟨hs, hinv⟩ := states_increase hd hbody hr hs (hx invariant hinv)
  exact states_decrease hd hbody h hs hinv

theorem states_visitCycle
    {visitBody : Label → FwdAnalyzer E D → Except AnalysisError (FwdAnalyzer E D)}
    (hbody : ∀ head s s', visitBody head s = .ok s' → States P s → States P s')
    (h : s.visitCycle dom prog wto fuel body visitBody = .ok s') (hs : States P s) : States P s' := by
  obtain ⟨head, -, h⟩ := Except.bind_eq_ok.mp h
  have hentry : ∀ d, s.getPre .entry = .ok d → P d := by
    intro d hget
    obtain ⟨i, hi, rfl⟩ := getPre_eq_ok hget
    exact (hs .entry i hi).1
  dsimp only at h
  split_ifs at h
  · obtain rfl := Except.ok.inj h
    exact hs
  · exact states_cycle hd (hbody head) h hentry hs
  · exact states_cycle hd (hbody head) h (fun _ => initialInvariant_of_states hd hs) hs
  · exact states_cycle hd (hbody head) h hentry hs
  · exact states_cycle hd (hbody head) h (fun _ => initialInvariant_of_states hd hs) hs

theorem states_visit (h : visit dom prog wto fuel Q skipped s = .ok s') (hs : States P s) :
    States P s' := by
  induction Q generalizing skipped s s' with
  | nil =>
    obtain rfl := Except.ok.inj h
    exact hs
  | vertex l rest ih =>
    rw [visit] at h
    split_ifs at h
    · exact ih h hs
    · obtain ⟨s₁, h₁, h⟩ := Except.bind_eq_ok.mp h
      exact ih h (states_visitLabel hd h₁ hs)
  | component body rest ihb ih =>
    rw [visit] at h
    obtain ⟨s₁, h₁, h⟩ := Except.bind_eq_ok.mp h
    exact ih h (states_visitCycle hd (fun _ _ _ hv hs => ihb hv hs) h₁ hs)

end Visit

/-! ## The whole analysis -/

theorem states_findTerminationErrors (h : s.findTerminationErrors dom prog = .ok s')
    (hs : States P s) : States P s' := by
  refine Except.foldlM_induction (fun _ s => States P s) h hs fun _ e s₁ s₂ _ hs hstep => ?_
  split_ifs at hstep
  · obtain rfl := Except.ok.inj hstep
    exact hs
  · obtain ⟨r, -, hstep⟩ := Except.bind_eq_ok.mp hstep
    cases r with
    | none =>
      obtain rfl := Except.ok.inj hstep
      exact hs
    | some error => exact states_setError hstep hs

theorem states_finish {checkForTermination : Bool} (h : s.finish dom prog checkForTermination = .ok s')
    (hs : States P s) : States P s' := by
  obtain ⟨s₁, h₁, h⟩ := Except.bind_eq_ok.mp h
  obtain ⟨p, -, h⟩ := Except.bind_eq_ok.mp h
  have hs₁ : States P s₁ := by
    unfold checkTermination at h₁
    split_ifs at h₁
    · obtain ⟨s₂, h₂, h₁⟩ := Except.bind_eq_ok.mp h₁
      have hs₂ := states_findTerminationErrors h₂ hs
      split_ifs at h₁
      · exact Except.ok.inj h₁ ▸ hs₂
      · rw [← Except.ok.inj h₁]
        exact hs₂
    · rw [← Except.ok.inj h₁]
      exact hs
  rw [← Except.ok.inj h]
  exact hs₁

theorem states_init (hd : dom.Keeps prog P) : States P (init dom prog : FwdAnalyzer E D) := by
  have key : ∀ (ls : List Label) (m : OrdMap Label (InvariantMapPair E D)),
      (∀ l i, m.find? l = some i → P i.pre ∧ P i.post) → ∀ l i,
      (ls.foldl (fun m l => m.emplace l ⟨dom.bottom, none, dom.bottom⟩) m).find? l = some i →
      P i.pre ∧ P i.post := by
    intro ls
    induction ls with
    | nil => exact fun m hm => hm
    | cons x ls ih =>
      refine fun m hm => ih _ fun l i hi => ?_
      rw [OrdMap.find?_emplace] at hi
      split_ifs at hi with hl
      · cases hfind : m.find? x with
        | none =>
          rw [hfind] at hi
          exact Option.some.inj hi ▸ ⟨hd.bottom, hd.bottom⟩
        | some j =>
          rw [hfind] at hi
          exact Option.some.inj hi ▸ hm x j hfind
      · exact hm l i hi
  exact key _ ∅ fun _ _ h => by cases h

theorem initializeLoopCounters_of_keeps (hd : dom.Keeps prog P) {wto : Wto} {checkForTermination : Bool}
    {entryInv : D} (h : initializeLoopCounters dom wto checkForTermination entryInv = .ok d)
    (hentry : P entryInv) : P d := by
  unfold initializeLoopCounters at h
  split_ifs at h
  · obtain ⟨heads, -, h⟩ := Except.bind_eq_ok.mp h
    rw [← Except.ok.inj h]
    exact List.foldlRecOn (motive := P) heads _ hentry fun d hP l _ => hd.initializeLoopCounter hP l
  · rw [← Except.ok.inj h]
    exact hentry

/-- What the operations of the domain keep is true of each invariant that the analysis computes. -/
theorem states_of_run (hd : dom.Keeps prog P) {checkForTermination : Bool} {fuel : ℕ} {entryInv : D}
    (hentry : P entryInv) (h : run dom prog checkForTermination fuel entryInv = .ok s) :
    States P s := by
  obtain ⟨wto, -, h⟩ := Except.bind_eq_ok.mp h
  obtain ⟨inv, hinv, h⟩ := Except.bind_eq_ok.mp h
  obtain ⟨s₀, h₀, h⟩ := Except.bind_eq_ok.mp h
  obtain ⟨s₁, h₁, h⟩ := Except.bind_eq_ok.mp h
  have hs₀ := states_setPre h₀ (states_init hd) (initializeLoopCounters_of_keeps hd hinv hentry)
  exact states_finish h (states_visit hd h₁ hs₀)

/-- Each invariant of a run is made from the entry invariant by the operations of the domain. -/
theorem made_of_run {checkForTermination : Bool} {fuel : ℕ} {entryInv : D}
    (h : run dom prog checkForTermination fuel entryInv = .ok s) :
    States (dom.Made prog entryInv) s :=
  states_of_run (dom.keeps_made prog entryInv) .entry h

end FwdAnalyzer

end Prevail
