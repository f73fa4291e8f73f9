import Prevail.Analysis.FwdAnalyzer
import Prevail.Cfg.WtoValid

/-!
# What a visit changes

A visit of some labels changes the tables at these labels only, and it does not forget a failure
(`Keeps`). While nothing has failed, an error is recorded nowhere (`Clean`).
-/

namespace Prevail

namespace FwdAnalyzer

variable {O C A E D : Type} {dom : FwdDomain O C A E D} {prog : Program O C A}
  {s s' s'' : FwdAnalyzer E D} {l x : Label} {d : D} {e : E} {i : InvariantMapPair E D}
  {R R' : Label → Prop}

def find? (s : FwdAnalyzer E D) (l : Label) : Option (InvariantMapPair E D) :=
  s.result.invariants.find? l

/-- Errors are recorded only with a failure. -/
def Clean (s : FwdAnalyzer E D) : Prop :=
  ∀ l i, s.find? l = some i → i.error.isSome → s.result.failed

/-- The tables change at the labels of `R` only. -/
structure Keeps (R : Label → Prop) (s s' : FwdAnalyzer E D) : Prop where
  find : ∀ l, ¬ R l → s'.find? l = s.find? l
  failed : s.result.failed → s'.result.failed
  clean : Clean s → Clean s'
  skip : s.skip = false → s'.skip = false

namespace Keeps

theorem refl (R : Label → Prop) (s : FwdAnalyzer E D) : Keeps R s s :=
  ⟨fun _ _ => rfl, id, id, id⟩

theorem trans (h : Keeps R s s') (h' : Keeps R s' s'') : Keeps R s s'' where
  find l hl := (h'.find l hl).trans (h.find l hl)
  failed hf := h'.failed (h.failed hf)
  clean hc := h'.clean (h.clean hc)
  skip hk := h'.skip (h.skip hk)

theorem mono (h : Keeps R s s') (hR : ∀ l, R l → R' l) : Keeps R' s s' where
  find l hl := h.find l fun hr => hl (hR l hr)
  failed := h.failed
  clean := h.clean
  skip := h.skip

theorem not_failed (h : Keeps R s s') (hf : s'.result.failed = false) : s.result.failed = false := by
  by_contra hne
  have := h.failed (Bool.eq_true_of_not_eq_false hne)
  rw [hf] at this
  cases this

end Keeps

theorem invariantAt_eq_ok : s.invariantAt l = .ok i ↔ s.find? l = some i := by
  unfold invariantAt find?
  cases s.result.invariants.find? l with
  | none =>
    constructor
    · intro h
      cases h
    · intro h
      cases h
  | some j => rw [Except.ok.injEq, Option.some.injEq]

theorem getPre_eq_ok (h : s.getPre l = .ok d) : ∃ i, s.find? l = some i ∧ i.pre = d := by
  obtain ⟨i, hi, hd⟩ := Except.map_eq_ok.mp h
  exact ⟨i, invariantAt_eq_ok.mp hi, hd⟩

theorem getPost_eq_ok (h : s.getPost l = .ok d) : ∃ i, s.find? l = some i ∧ i.post = d := by
  obtain ⟨i, hi, hd⟩ := Except.map_eq_ok.mp h
  exact ⟨i, invariantAt_eq_ok.mp hi, hd⟩

/-- A change at one label. -/
structure Changes (f : InvariantMapPair E D → InvariantMapPair E D) (l : Label)
    (s s' : FwdAnalyzer E D) : Prop where
  self : ∃ i, s.find? l = some i ∧ s'.find? l = some (f i)
  other : ∀ x, x ≠ l → s'.find? x = s.find? x
  failed : s'.result.failed = s.result.failed
  skip : s'.skip = s.skip

theorem modify_changes {f : InvariantMapPair E D → InvariantMapPair E D}
    (h : s.modify l f = .ok s') : Changes f l s s' := by
  obtain ⟨i, hi, h⟩ := Except.bind_eq_ok.mp h
  obtain rfl := Except.ok.inj h
  refine ⟨⟨i, invariantAt_eq_ok.mp hi, OrdMap.find?_insert_self _ _ _⟩, fun x hx => ?_, rfl, rfl⟩
  exact OrdMap.find?_insert_of_ne hx _

theorem Changes.keeps {f : InvariantMapPair E D → InvariantMapPair E D} (h : Changes f l s s')
    (hf : ∀ i, (f i).error = i.error) : Keeps (· = l) s s' where
  find x hx := h.other x hx
  failed hfail := h.failed.trans hfail
  clean hc x i hi he := by
    rw [h.failed]
    by_cases hx : x = l
    · subst hx
      obtain ⟨j, hj, hj'⟩ := h.self
      obtain rfl := Option.some.inj (hj'.symm.trans hi)
      rw [hf] at he
      exact hc x j hj he
    · rw [h.other x hx] at hi
      exact hc x i hi he
  skip hk := h.skip.trans hk

theorem setPre_changes (h : s.setPre l d = .ok s') : Changes ({ · with pre := d }) l s s' :=
  modify_changes h

theorem setPost_changes (h : s.setPost l d = .ok s') : Changes ({ · with post := d }) l s s' :=
  modify_changes h

theorem setPre_keeps (h : s.setPre l d = .ok s') : Keeps (· = l) s s' :=
  (setPre_changes h).keeps fun _ => rfl

theorem setPost_keeps (h : s.setPost l d = .ok s') : Keeps (· = l) s s' :=
  (setPost_changes h).keeps fun _ => rfl

/-- An error is a failure, and it leaves the invariants. -/
theorem setError_spec (h : s.setError l e = .ok s') :
    s'.result.failed ∧ Keeps (· = l) s s' ∧
      ∃ i, s.find? l = some i ∧ s'.find? l = some { i with error := some e } := by
  have hch := modify_changes h
  obtain ⟨i, hi, hi'⟩ := hch.self
  have hfail : s'.result.failed := hch.failed
  exact ⟨hfail, ⟨fun x hx => hch.other x hx, fun _ => hfail, fun _ _ _ _ _ => hfail,
    fun hk => hch.skip.trans hk⟩, i, hi, hi'⟩

/-! ## Visits -/

theorem transformToPost_keeps (h : s.transformToPost dom prog l d = .ok s') :
    Keeps (· = l) s s' := by
  obtain ⟨ins, -, h⟩ := Except.bind_eq_ok.mp h
  split_ifs at h
  · exact setPost_keeps h
  · obtain ⟨b, -, h⟩ := Except.bind_eq_ok.mp h
    cases b with
    | true =>
      obtain rfl := Except.ok.inj h
      exact .refl _ _
    | false =>
      obtain ⟨as, -, h⟩ := Except.bind_eq_ok.mp h
      split at h
      · exact (setError_spec h).2.1
      · exact setPost_keeps h

/-- A visit of the label, after the entry has been found. -/
theorem visitLabel_eq (hs : s.skip = false) : s.visitLabel dom prog l = (do
    let pre ← s.joinAllPrevs dom prog l
    let s ← s.setPre l pre
    s.transformToPost dom prog l pre) := by
  unfold visitLabel
  rw [hs]
  dsimp only
  rw [Bool.false_and, if_neg (Bool.false_ne_true), hs]
  rfl

theorem visitLabel_keeps (hs : s.skip = false) (h : s.visitLabel dom prog l = .ok s') :
    Keeps (· = l) s s' := by
  rw [visitLabel_eq hs] at h
  obtain ⟨pre, -, h⟩ := Except.bind_eq_ok.mp h
  obtain ⟨s₁, h₁, h⟩ := Except.bind_eq_ok.mp h
  exact (setPre_keeps h₁).trans (transformToPost_keeps h)

section Cycle

variable {visitBody : FwdAnalyzer E D → Except AnalysisError (FwdAnalyzer E D)} {head : Label}
  {fuel iteration : ℕ} {invariant : D}
  (hbody : ∀ s s', s.skip = false → visitBody s = .ok s' → Keeps R s s')
include hbody

theorem increase_keeps {r : D × FwdAnalyzer E D} (hs : s.skip = false)
    (h : increase dom prog visitBody head fuel iteration invariant s = .ok r) :
    Keeps (fun l => l = head ∨ R l) s r.2 := by
  induction fuel generalizing iteration invariant s with
  | zero => cases h
  | succ fuel ih =>
    obtain ⟨s₁, h₁, h⟩ := Except.bind_eq_ok.mp h
    obtain ⟨s₂, h₂, h⟩ := Except.bind_eq_ok.mp h
    obtain ⟨s₃, h₃, h⟩ := Except.bind_eq_ok.mp h
    obtain ⟨newPre, -, h⟩ := Except.bind_eq_ok.mp h
    have hk₂ : Keeps (· = head) s s₂ := (setPre_keeps h₁).trans (transformToPost_keeps h₂)
    have hk₃ : Keeps (fun l => l = head ∨ R l) s s₃ :=
      (hk₂.mono fun _ => Or.inl).trans ((hbody s₂ s₃ (hk₂.skip hs) h₃).mono fun _ => Or.inr)
    split_ifs at h
    · obtain ⟨s₄, h₄, h⟩ := Except.bind_eq_ok.mp h
      obtain rfl := Except.ok.inj h
      exact hk₃.trans ((setPre_keeps h₄).mono fun _ => Or.inl)
    · exact hk₃.trans (ih (hk₃.skip hs) h)

theorem decrease_keeps (hs : s.skip = false)
    (h : decrease dom prog visitBody head fuel iteration invariant s = .ok s') :
    Keeps (fun l => l = head ∨ R l) s s' := by
  induction fuel generalizing iteration invariant s with
  | zero => cases h
  | succ fuel ih =>
    obtain ⟨s₁, h₁, h⟩ := Except.bind_eq_ok.mp h
    obtain ⟨s₂, h₂, h⟩ := Except.bind_eq_ok.mp h
    obtain ⟨newPre, -, h⟩ := Except.bind_eq_ok.mp h
    have hk₁ := transformToPost_keeps h₁
    have hk₂ : Keeps (fun l => l = head ∨ R l) s s₂ :=
      (hk₁.mono fun _ => Or.inl).trans ((hbody s₁ s₂ (hk₁.skip hs) h₂).mono fun _ => Or.inr)
    split_ifs at h
    · obtain rfl := Except.ok.inj h
      exact hk₂
    · obtain rfl := Except.ok.inj h
      exact hk₂
    · obtain ⟨s₃, h₃, h⟩ := Except.bind_eq_ok.mp h
      have hk₃ := hk₂.trans ((setPre_keeps h₃).mono fun _ => Or.inl)
      exact hk₃.trans (ih (hk₃.skip hs) h)

end Cycle

variable {wto : Wto} {fuel : ℕ} {body P : WtoPartition} {h : Label}

/-- A visit of a cycle, after the entry has been found. -/
theorem visitCycle_eq_ok {visitBody : Label → FwdAnalyzer E D → Except AnalysisError (FwdAnalyzer E D)}
    (hs : s.skip = false) (hv : s.visitCycle dom prog wto fuel (.vertex h body) visitBody = .ok s') :
    ∃ invariant r, increase dom prog (visitBody h) h fuel 1 invariant s = .ok r ∧
      decrease dom prog (visitBody h) h fuel 1 r.1 r.2 = .ok s' := by
  obtain ⟨head, hhead, hv⟩ := Except.bind_eq_ok.mp hv
  obtain rfl := Except.ok.inj hhead
  simp only [hs, Bool.false_and, Bool.false_eq_true, if_false] at hv
  obtain ⟨invariant, -, hv⟩ := Except.bind_eq_ok.mp hv
  obtain ⟨r, hr, hv⟩ := Except.bind_eq_ok.mp hv
  exact ⟨invariant, r, hr, hv⟩

/-- The head is not visited with the other components of its cycle. -/
theorem visit_skipped (hP : h ∉ P.vertices) (s : FwdAnalyzer E D) :
    visit dom prog wto fuel P (some h) s = visit dom prog wto fuel P none s := by
  induction P generalizing s with
  | nil => rfl
  | vertex l rest ih =>
    have hne : ¬ (some h = some l) := by
      intro heq
      exact hP (Option.some.inj heq ▸ List.mem_cons_self)
    unfold visit
    rw [if_neg hne, if_neg (Option.some_ne_none l).symm]
    congr 1
    funext s
    exact ih (fun hmem => hP (List.mem_cons_of_mem _ hmem)) s
  | component body rest _ ih =>
    unfold visit
    congr 1
    funext s
    exact ih (fun hmem => hP (List.mem_append_right _ hmem)) s

theorem visit_vertex : visit dom prog wto fuel (.vertex l P) none s =
    s.visitLabel dom prog l >>= visit dom prog wto fuel P none := by
  rw [visit, if_neg (Option.some_ne_none l).symm]

theorem visit_head (hh : h ∉ body.vertices) :
    (fun s => visit dom prog wto fuel (.vertex h body) (some h) s) =
      visit dom prog wto fuel body none := by
  funext s
  rw [visit, if_pos rfl]
  exact visit_skipped hh s

/-- The two loops of a cycle in an order. -/
theorem visit_component_eq_ok (hs : s.skip = false) (hh : h ∉ body.vertices)
    (hv : visit dom prog wto fuel (.component (.vertex h body) P) none s = .ok s') :
    ∃ invariant r s₁, increase dom prog (visit dom prog wto fuel body none) h fuel 1 invariant s =
        .ok r ∧
      decrease dom prog (visit dom prog wto fuel body none) h fuel 1 r.1 r.2 = .ok s₁ ∧
      visit dom prog wto fuel P none s₁ = .ok s' := by
  rw [visit] at hv
  obtain ⟨s₁, h₁, hv⟩ := Except.bind_eq_ok.mp hv
  obtain ⟨invariant, r, hr, hd⟩ := visitCycle_eq_ok hs h₁
  rw [visit_head hh] at hr hd
  exact ⟨invariant, r, s₁, hr, hd, hv⟩

theorem visit_keeps {R : Label → Label → Prop} (hP : P.Ordered R) (hn : P.vertices.Nodup)
    (hs : s.skip = false) (hv : visit dom prog wto fuel P none s = .ok s') :
    Keeps (· ∈ P.vertices) s s' := by
  induction hP generalizing s s' with
  | nil =>
    obtain rfl := Except.ok.inj hv
    exact .refl _ _
  | vertex _ _ ih =>
    rw [visit_vertex] at hv
    obtain ⟨s₁, h₁, hv⟩ := Except.bind_eq_ok.mp hv
    have hk := visitLabel_keeps hs h₁
    exact (hk.mono fun x hx => hx ▸ List.mem_cons_self).trans
      ((ih (List.nodup_cons.mp hn).2 (hk.skip hs) hv).mono fun x => List.mem_cons_of_mem _)
  | @component k body rest _ _ _ ihb ih =>
    rw [WeakOrder.vertices_component] at hn
    have hbn := List.nodup_cons.mp hn.of_append_left
    obtain ⟨invariant, r, s₁, hr, hd, hv⟩ := visit_component_eq_ok hs hbn.1 hv
    have hbody : ∀ s s' : FwdAnalyzer E D, s.skip = false →
        visit dom prog wto fuel body none s = .ok s' → Keeps (· ∈ body.vertices) s s' :=
      fun s s' hs hv => ihb hbn.2 hs hv
    have hkr := increase_keeps hbody hs hr
    have hkd := hkr.trans (decrease_keeps hbody (hkr.skip hs) hd)
    refine (hkd.mono fun x hx => List.mem_append_left _ ?_).trans
      ((ih hn.of_append_right (hkd.skip hs) hv).mono fun x => List.mem_append_right _)
    exact hx.elim (fun hx => hx ▸ List.mem_cons_self) (List.mem_cons_of_mem _)

end FwdAnalyzer

end Prevail
