import Prevail.Crab.LoopFree
import Prevail.Crab.RevMap

/-!
# Runs without edges from a vertex to itself

`close_over_edge` does not close over the pairs of the new edge with one of its ends, but over all pairs of
a predecessor and a successor, which may be the same vertex. It then adds an edge from this vertex to
itself. `ClosesNoCycle` says when no vertex comes closer on both sides, and a run in which all closures are
of this kind (`Acyclic`) has no such edges.
-/

namespace Prevail

open DiffSys

namespace GraphOps

variable {g h : AdaptGraph} {ii jj s d : ℕ} {c w : ℤ}

/-- No further vertex on a cycle through the edge from `ii` to `jj` comes closer on both sides. -/
def ClosesNoCycle (g : AdaptGraph) (ii jj : ℕ) : Prop :=
  ∀ v p q, v ≠ 0 → g.Edge v ii p → g.Edge jj v q →
    (∃ w ≤ p + g.edgeVal ii jj, g.Edge v jj w) ∨ ∃ w ≤ q + g.edgeVal ii jj, g.Edge ii v w

/-- The edges of `g` are in `h`, or shorter ones. -/
def Lowers (g h : AdaptGraph) : Prop := ∀ s d w, g.Edge s d w → ∃ w' ≤ w, h.Edge s d w'

theorem Lowers.tighten {g' : AdaptGraph} (hl : Lowers g h) (ht : tighten h s w d = some g') :
    Lowers g g' ∧ ¬ ∃ w' ≤ w, g.Edge s d w' := by
  have hnot : ∀ w', h.Edge s d w' → w < w' := by
    intro w' hw'
    unfold GraphOps.tighten at ht
    rw [show h.lookup s d = some w' from hw'] at ht
    simp only at ht
    split_ifs at ht with hle
    exact not_le.mp hle
  obtain rfl := tighten_eq_some ht
  refine ⟨fun a b k hk => ?_, ?_⟩
  · obtain ⟨k', hle, hk'⟩ := hl a b k hk
    unfold AdaptGraph.Edge
    rw [AdaptGraph.lookup_setEdge]
    split_ifs with hab
    · obtain ⟨rfl, rfl⟩ := hab
      exact ⟨w, (hnot k' hk').le.trans hle, rfl⟩
    · exact ⟨k', hle, hk'⟩
  · rintro ⟨w', hle, hw'⟩
    obtain ⟨k, hk, hedge⟩ := hl s d w' hw'
    have := hnot k hedge
    omega

/-- The predecessors that are collected come closer to `jj`, and the edges out of `jj` stay. -/
theorem closeSrc_spec (hg : LoopFree g) (jj : ℕ) (c : ℤ) (preds : List (ℕ × ℤ)) :
    LoopFree (closeSrc g jj c preds).1 ∧ Lowers g (closeSrc g jj c preds).1 ∧
      (∀ t k, (closeSrc g jj c preds).1.Edge jj t k ↔ g.Edge jj t k) ∧
      ∀ e ∈ (closeSrc g jj c preds).2, e ∈ preds ∧ ¬ ∃ w ≤ e.2 + c, g.Edge e.1 jj w := by
  unfold closeSrc
  refine List.foldlRecOn (motive := fun acc : AdaptGraph × List (ℕ × ℤ) => LoopFree acc.1 ∧
    Lowers g acc.1 ∧ (∀ t k, acc.1.Edge jj t k ↔ g.Edge jj t k) ∧
    ∀ e ∈ acc.2, e ∈ preds ∧ ¬ ∃ w ≤ e.2 + c, g.Edge e.1 jj w) preds _
    ⟨hg, fun _ _ w hw => ⟨w, le_rfl, hw⟩, fun _ _ => Iff.rfl, by simp⟩ ?_
  rintro acc ⟨hloop, hlow, hout, hdec⟩ e he
  split_ifs with hej
  · exact ⟨hloop, hlow, hout, hdec⟩
  · split
    · next g' ht =>
      obtain ⟨hlow', hnot⟩ := hlow.tighten ht
      rw [tighten_eq_some ht] at hlow' ⊢
      refine ⟨hloop.setEdge hej _, hlow', fun t k => ?_, fun e' he' => ?_⟩
      · rw [← hout]
        unfold AdaptGraph.Edge
        rw [AdaptGraph.lookup_setEdge, if_neg fun hc => hej hc.1.symm]
      · rcases List.mem_append.mp he' with he' | he'
        · exact hdec e' he'
        · exact List.mem_singleton.mp he' ▸ ⟨he, hnot⟩
    · exact ⟨hloop, hlow, hout, hdec⟩

theorem closeDest_spec (hh : LoopFree h) (hl : Lowers g h) (ii : ℕ) (c : ℤ) (succs : List (ℕ × ℤ)) :
    LoopFree (closeDest h ii c succs).1 ∧ Lowers g (closeDest h ii c succs).1 ∧
      ∀ e ∈ (closeDest h ii c succs).2, e ∈ succs ∧ ¬ ∃ w ≤ e.2 + c, g.Edge ii e.1 w := by
  unfold closeDest
  refine List.foldlRecOn (motive := fun acc : AdaptGraph × List (ℕ × ℤ) => LoopFree acc.1 ∧
    Lowers g acc.1 ∧ ∀ e ∈ acc.2, e ∈ succs ∧ ¬ ∃ w ≤ e.2 + c, g.Edge ii e.1 w) succs _
    ⟨hh, hl, by simp⟩ ?_
  rintro acc ⟨hloop, hlow, hdec⟩ e he
  split_ifs with hei
  · exact ⟨hloop, hlow, hdec⟩
  · split
    · next g' ht =>
      obtain ⟨hlow', hnot⟩ := hlow.tighten ht
      rw [tighten_eq_some ht] at hlow' ⊢
      refine ⟨hloop.setEdge (Ne.symm hei) _, hlow', fun e' he' => ?_⟩
      rcases List.mem_append.mp he' with he' | he'
      · exact hdec e' he'
      · exact List.mem_singleton.mp he' ▸ ⟨he, hnot⟩
    · exact ⟨hloop, hlow, hdec⟩

theorem LoopFree.closeOverEdge (hg : LoopFree g) (hno : ClosesNoCycle g ii jj) :
    LoopFree (closeOverEdge g ii jj) := by
  obtain ⟨hsrc, hlow, hout, hpreds⟩ := closeSrc_spec hg jj (g.edgeVal ii jj)
    ((g.view.subGraph 0).ePreds ii)
  obtain ⟨hdest, -, hsuccs⟩ := closeDest_spec hsrc hlow ii (g.edgeVal ii jj)
    (((closeSrc g jj (g.edgeVal ii jj) ((g.view.subGraph 0).ePreds ii)).1.view.subGraph 0).eSuccs jj)
  unfold GraphOps.closeOverEdge
  refine List.foldlRecOn _ _ hdest fun h₁ hh₁ se hse => List.foldlRecOn _ _ hh₁ fun h₂ hh₂ de hde => ?_
  obtain ⟨hsmem, hsnot⟩ := hpreds se hse
  obtain ⟨hdmem, hdnot⟩ := hsuccs de hde
  obtain ⟨hsmem, hs0⟩ := List.mem_filter.mp hsmem
  have hs : g.Edge se.1 ii se.2 := AdaptGraph.mem_ePreds.mp hsmem
  have hd : g.Edge jj de.1 de.2 := (hout _ _).mp (AdaptGraph.mem_eSuccs.mp (List.mem_filter.mp hdmem).1)
  cases ht : GraphOps.tighten h₂ se.1 (g.edgeVal ii jj + se.2 + de.2) de.1 with
  | none => exact hh₂
  | some g' =>
    rw [Option.getD_some, tighten_eq_some ht]
    refine hh₂.setEdge (fun heq => ?_) _
    exact (hno se.1 se.2 de.2 (of_decide_eq_true hs0) hs (heq ▸ hd)).elim hsnot (heq ▸ hdnot)

end GraphOps

namespace SplitDbm

open GraphOps

variable {V : Type*} [LinearOrder V] {a b d d' : SplitDbm V} {σ : V → ℤ} {x : V}

/-! ## Operations -/

theorem loopFree_getVert {P : ℕ → Prop} (h : LoopFree d.g) (hd : d.WFWith P) (v : V) :
    LoopFree (d.getVert v).2.g := fun n w hw => h n w (((getVert_spec hd v).edge n n w).mp hw)

theorem loopFree_set_of_not_isBottom (h : LoopFree d.g) (hd : d.WF) (hσ : d.Models σ) {i : Interval}
    (hi : i.isBottom = false) : LoopFree (d.set x i).g := by
  cases htop : i.isTop with
  | true =>
    rw [set_eq, if_pos htop]
    exact loopFree_havoc h hd hσ x
  | false =>
    obtain ⟨n, hn, -⟩ := exists_value_of_not_isTop hi htop
    exact loopFree_set hd h hσ hn

theorem loopFree_normalize_of_models (h : LoopFree d.g) (hσ : d.Models σ) : LoopFree d.normalize.g :=
  let ⟨_, hν⟩ := hσ
  loopFree_normalize h hν.sat

theorem loopFree_havocs (h : LoopFree d.g) (hd : d.WF) (hσ : d.Models σ) (vars : List V) :
    LoopFree (vars.foldl (fun d v => if d.vertMap.contains v then d.havoc v else d) d).g ∧
      ∃ τ, (vars.foldl (fun d v => if d.vertMap.contains v then d.havoc v else d) d).Models τ := by
  have hall := List.foldlRecOn (motive := fun d : SplitDbm V => d.WF ∧ LoopFree d.g ∧ ∃ τ, d.Models τ)
    vars (fun d v => if d.vertMap.contains v then d.havoc v else d) ⟨hd, h, σ, hσ⟩ (by
      rintro d ⟨hd, h, τ, hτ⟩ v -
      split_ifs
      · exact ⟨wf_havoc hd v, loopFree_havoc h hd hτ v, _, models_havoc hd v hτ 0⟩
      · exact ⟨hd, h, τ, hτ⟩)
  exact hall.2

theorem loopFree_forget (h : LoopFree d.g) (hd : d.WF) (hσ : d.Models σ) (vars : List V) :
    LoopFree (d.forget vars).g := by
  unfold forget
  split_ifs
  · exact h
  · obtain ⟨hloop, τ, hτ⟩ := loopFree_havocs h hd hσ vars
    exact loopFree_normalize_of_models hloop hτ

/-- The edges of an assignment join the new vertex with vertices of variables. -/
theorem loopFree_assignDelta {P : ℕ → Prop} {vert : ℕ} (hP : P vert) (h : LoopFree d.g)
    (hd : d.WFWith P) (diffsLb diffsUb : List (V × ℤ)) :
    LoopFree (d.assignDelta vert diffsLb diffsUb).2.g ∧
      ∀ e ∈ (d.assignDelta vert diffsLb diffsUb).1, e.1 ≠ e.2.1 := by
  let Q (acc : EdgeVector × SplitDbm V) : Prop :=
    acc.2.WFWith P ∧ LoopFree acc.2.g ∧ ∀ e ∈ acc.1, e.1 ≠ e.2.1
  have hstep : ∀ (acc : EdgeVector × SplitDbm V) (v : V) (mk : ℕ → ℕ × ℕ × ℤ), Q acc →
      (∀ y, y ≠ vert → (mk y).1 ≠ (mk y).2.1) →
      Q (acc.1 ++ [mk (acc.2.getVert v).1], (acc.2.getVert v).2) := by
    rintro acc v mk ⟨hwf, hloop, hne⟩ hmk
    have hg := getVert_spec hwf v
    refine ⟨hg.wf, loopFree_getVert hloop hwf v, fun e he => ?_⟩
    rcases List.mem_append.mp he with he | he
    · exact hne e he
    · obtain rfl := List.mem_singleton.mp he
      exact hmk _ fun heq => hg.wf.extraFresh v vert hP (heq ▸ hg.self)
  have h0 : Q ([], d) := ⟨hd, h, by simp⟩
  refine (List.foldlRecOn (motive := Q) _ _
    (List.foldlRecOn (motive := Q) _ _ h0 fun acc hacc t _ => ?_) fun acc hacc t _ => ?_).2
  · exact hstep acc t.1 (fun y => (vert, y, -t.2)) hacc fun y hy => hy.symm
  · exact hstep acc t.1 (fun y => (y, vert, t.2)) hacc fun y hy => hy

theorem loopFree_updateLb {g : AdaptGraph} (h : LoopFree g) {v : ℕ} (hv : v ≠ 0) (lb : Bound) :
    LoopFree (updateLb g v lb) := by
  unfold updateLb
  split
  · exact h.updateEdge hv _
  · exact h

theorem loopFree_updateUb {g : AdaptGraph} (h : LoopFree g) {v : ℕ} (hv : v ≠ 0) (ub : Bound) :
    LoopFree (updateUb g v ub) := by
  unfold updateUb
  split
  · exact h.updateEdge hv.symm _
  · exact h

theorem loopFree_assignGraph (h : LoopFree d.g) (hd : d.WF) (lhs : V) (value : Interval) (eVal : ℤ)
    (diffsLb diffsUb : List (V × ℤ)) :
    LoopFree (d.assignGraph lhs value eVal diffsLb diffsUb).g := by
  have hf := fresh_newVertex hd
  have hstart : LoopFree (setVert { d with g := d.g.newVertex.2 } d.g.newVertex.1 lhs
      (pot d.potential 0 + eVal)).g := by
    rw [Fresh.setVert_g]
    exact fun n w hw => h n w (hf.edge_iff.mp hw)
  obtain ⟨hloop, hne⟩ := loopFree_assignDelta (Or.inr rfl) hstart
    (hf.wf_extra hd lhs (pot d.potential 0 + eVal)) diffsLb diffsUb
  refine loopFree_updateUb (loopFree_updateLb ?_ hf.pos.ne' _) hf.pos.ne' _
  refine LoopFree.applyDelta (hloop.applyDelta hne) fun e he => ?_
  have hedge : ∀ w, ¬ (AdaptGraph.view _).Edge d.g.newVertex.1 d.g.newVertex.1 w := fun w hw =>
    hloop.applyDelta hne _ w (edge_view.mp hw)
  rcases List.mem_append.mp he with he | he <;> obtain ⟨a, ha, rfl⟩ := List.mem_map.mp he
  · exact (ne_of_mem_closeAfterAssignFwd (fun w hw => hedge w (List.mem_filter.mp hw).1) a ha).symm
  · exact ne_of_mem_closeAfterAssignFwd (fun w hw => hloop.applyDelta hne _ w
      (edge_subGraph_graphRev.mp hw).1) a ha

theorem loopFree_assign (h : LoopFree d.g) (hd : d.WF) (hσ : d.Models σ) (lhs : V)
    (e : LinearExpression V) : LoopFree (d.assign lhs e).g := by
  have hmem := mem_evalInterval hσ e
  have hset := loopFree_normalize_of_models (loopFree_set (v := lhs) hd h hσ hmem)
    (models_set hd (x := lhs) hσ hmem)
  unfold assign
  simp only
  split_ifs
  · exact hset
  · exact hset
  · obtain ⟨hwf, hval⟩ := assignGraph_spec hd lhs (d.evalInterval e) (d.evalExpression e)
      (d.diffcstsOfAssign e false) (d.diffcstsOfAssign e true)
    have hlb : ∀ t ∈ d.diffcstsOfAssign e false, σ t.1 + t.2 ≤ e.eval σ := by
      intro t ht
      have := bounds_of_mem_diffcstsOfAssign hσ ht
      simp only [Bounds, sgn, Bool.false_eq_true, if_false] at this
      omega
    have hub : ∀ t ∈ d.diffcstsOfAssign e true, e.eval σ ≤ σ t.1 + t.2 := by
      intro t ht
      have := bounds_of_mem_diffcstsOfAssign hσ ht
      simp only [Bounds, sgn, if_true] at this
      omega
    obtain ⟨ν, hν, -⟩ := hval σ (e.eval σ) hσ hmem hlb hub
    have hgraph := loopFree_assignGraph h hd lhs (d.evalInterval e) (d.evalExpression e)
      (d.diffcstsOfAssign e false) (d.diffcstsOfAssign e true)
    rw [assignDiffs_eq]
    exact loopFree_normalize (loopFree_havoc_of_sat hgraph hwf hν.sat lhs) (val_havoc hwf lhs hν 0).sat

theorem loopFree_meet_of_wf (ha : a.WF) (hb : b.WF) (hla : LoopFree a.g) (hlb : LoopFree b.g)
    (h : a.meet b = some d) : LoopFree d.g := by
  cases hta : a.isTop with
  | true =>
    unfold meet at h
    rw [if_pos hta] at h
    exact Option.some.inj h ▸ hlb
  | false =>
    cases htb : b.isTop with
    | true =>
      unfold meet at h
      rw [if_neg (by simp [hta]), if_pos htb] at h
      exact Option.some.inj h ▸ hla
    | false =>
      rw [meet_of_not_top hta htb] at h
      obtain ⟨pi, hpi, rfl⟩ := Option.map_eq_some_iff.mp h
      have hn := nodup_allNames a b
      have hgraph : LoopFree (meetGraph a b) :=
        loopFree_meet (fun v w => loop_not_mem_aligned hla ha hn) fun v w => loop_not_mem_aligned hlb hb hn
      obtain ⟨φ, hφ⟩ := feasible_of_selectPotentials (closed_meetGraph ha hb _)
        (Option.isSome_iff_exists.mpr ⟨pi, hpi⟩)
      have hsat : (meetGraph a b).Edge.Sat φ := fun s t w hw => hφ s t w (edge_view.mpr hw)
      have hclosed := hgraph.closeAfterMeet (p := pot pi) hsat (a.aligned (allNames a b))
        (b.aligned (allNames a b))
      have hassign := hclosed.closeAfterAssign (p := pot pi) 0
      unfold meetState
      dsimp only
      exact hassign

/-! ## Runs -/

/-- The closure over the edge of the difference closes no cycle. -/
def DiffClosesNoCycle (d : SplitDbm V) (c : (V × V) × ℤ) : Prop :=
  let src := d.getVert c.1.2
  let dest := src.2.getVert c.1.1
  ClosesNoCycle (dest.2.g.updateEdge src.1 c.2 dest.1) src.1 dest.1

theorem kept_loopFree : Kept True (V := V) fun d => LoopFree d.g where
  getVert v hd h := loopFree_getVert h hd v
  setEdge hst h := h.setEdge hst _
  close h := h.closeAfterAssign 0
  normalize _ hp h := loopFree_normalize h (hp trivial)

theorem loopFree_addDiff {c : (V × V) × ℤ} (h : LoopFree d.g) (hd : d.WF) (hc : c.1.1 ≠ c.1.2)
    (hno : DiffClosesNoCycle d c) (hr : d.addDiff c = some d') : LoopFree d'.g := by
  obtain ⟨d₁, h₁, rfl⟩ := Option.map_eq_some_iff.mp hr
  obtain ⟨p, -, rfl⟩ := Option.map_eq_some_iff.mp h₁
  have hg := getVert_spec hd c.1.2
  have hg' := getVert_spec hg.wf c.1.1
  have hsrc := find?_getVert_of_some hg.wf c.1.1 hg.self
  have hne : (d.getVert c.1.2).1 ≠ ((d.getVert c.1.2).2.getVert c.1.1).1 := fun heq =>
    hc (hg'.wf.inj _ _ _ hg'.self (heq ▸ hsrc))
  exact ((loopFree_getVert (loopFree_getVert h hd _) hg.wf _).updateEdge hne _).closeOverEdge hno

theorem loopFree_addConstraint (h : LoopFree d.g) (hd : d.WF) (hp : d.Potent) (c : LinearConstraint V)
    (hno : AddMeets DiffClosesNoCycle d c) (hr : d.addConstraint c = some d') : LoopFree d'.g :=
  kept_loopFree.addConstraint ⟨hd, fun _ => hp, h⟩
    (fun h hc hno hr => loopFree_addDiff h.holds h.wf hc hno hr) hno hr

/-- The states that the operations build when no difference closes a cycle and the meets settle. -/
inductive Acyclic : SplitDbm V → Prop
  | top : Acyclic SplitDbm.top
  | assign {d : SplitDbm V} (hd : Acyclic d) (x : V) (e : LinearExpression V) : Acyclic (d.assign x e)
  | set {d : SplitDbm V} (hd : Acyclic d) (x : V) (i : Interval) (hi : i.isBottom = false) :
    Acyclic (d.set x i)
  | applyVar {d : SplitDbm V} (hd : Acyclic d) (op : ArithBinOp) (x y z : V) :
    Acyclic (d.applyVar op x y z)
  | applyNum {d : SplitDbm V} (hd : Acyclic d) (op : ArithBinOp) (x y : V) (k : ℤ) :
    Acyclic (d.applyNum op x y k)
  | havoc {d : SplitDbm V} (hd : Acyclic d) (x : V) : Acyclic (d.havoc x)
  | forget {d : SplitDbm V} (hd : Acyclic d) (vars : List V) : Acyclic (d.forget vars)
  | addConstraint {d d' : SplitDbm V} (hd : Acyclic d) (c : LinearConstraint V)
    (hno : AddMeets DiffClosesNoCycle d c) (h : d.addConstraint c = some d') : Acyclic d'
  | join {a b : SplitDbm V} (ha : Acyclic a) (hb : Acyclic b) : Acyclic (a.join b)
  | widen {a b : SplitDbm V} (ha : Acyclic a) (hb : Acyclic b) : Acyclic (a.widen b)
  | meet {a b d : SplitDbm V} (ha : Acyclic a) (hb : Acyclic b) (hm : Settled a b)
    (h : a.meet b = some d) : Acyclic d
  | narrow {a b : SplitDbm V} (ha : Acyclic a) (hb : Acyclic b) : Acyclic (a.narrow b)

theorem Acyclic.reachable (h : Acyclic d) : Reachable Settled d := by
  induction h with
  | top => exact .top
  | assign _ x e ih => exact .assign ih x e
  | set _ x i hi ih => exact .set ih x i hi
  | applyVar _ op x y z ih => exact .applyVar ih op x y z
  | applyNum _ op x y k ih => exact .applyNum ih op x y k
  | havoc _ x ih => exact .havoc ih x
  | forget _ vars ih => exact .forget ih vars
  | addConstraint _ c _ h ih => exact .addConstraint ih c h
  | join _ _ iha ihb => exact .join iha ihb
  | widen _ _ iha ihb => exact .widen iha ihb
  | meet _ _ hm h iha ihb => exact .meet iha ihb hm h
  | narrow _ _ iha ihb => exact .narrow iha ihb

theorem Acyclic.potent (h : Acyclic d) : d.Potent := h.reachable.potent fun _ _ => Or.inr

theorem Acyclic.models (h : Acyclic d) : d.Models d.relPot := h.potent.models h.reachable.wf

theorem Acyclic.loopFree (h : Acyclic d) : LoopFree d.g := by
  induction h with
  | top => exact loopFree_grow 1
  | assign hd x e ih => exact loopFree_assign ih hd.reachable.wf hd.models x e
  | set hd x i hi ih => exact loopFree_set_of_not_isBottom ih hd.reachable.wf hd.models hi
  | applyVar hd op x y z ih =>
    have hwf := hd.reachable.wf
    cases op with
    | mul =>
      have hmem := Interval.mem_mul (mem_getInterval hd.models y) (mem_getInterval hd.models z)
      exact loopFree_normalize_of_models (loopFree_set hwf ih hd.models hmem) (models_set hwf hd.models hmem)
    | _ =>
      exact loopFree_normalize_of_models (loopFree_assign ih hwf hd.models _ _)
        (models_assign hwf _ _ hd.models)
  | applyNum hd op x y k ih =>
    have hwf := hd.reachable.wf
    cases op <;> exact loopFree_normalize_of_models (loopFree_assign ih hwf hd.models _ _)
      (models_assign hwf _ _ hd.models)
  | havoc hd x ih => exact loopFree_havoc ih hd.reachable.wf hd.models x
  | forget hd vars ih => exact loopFree_forget ih hd.reachable.wf hd.models vars
  | addConstraint hd c hno h ih =>
    exact loopFree_addConstraint ih hd.reachable.wf hd.potent c hno h
  | join ha hb iha ihb => exact loopFree_join_of_models ha.reachable.wf hb.reachable.wf iha ihb ha.models
  | widen ha hb iha _ => exact loopFree_widen ha.reachable.wf hb.reachable.wf iha ha.models
  | meet ha hb _ h iha ihb => exact loopFree_meet_of_wf ha.reachable.wf hb.reachable.wf iha ihb h
  | narrow _ _ iha ihb =>
    unfold SplitDbm.narrow
    split_ifs
    · exact ihb
    · exact iha

/-- The maps and the edges in a run that closes no cycle. What is said about the maps and the freed vertices
does not need this condition. -/
theorem Acyclic.wellIndexed (h : Acyclic d) :
    (∀ v n, d.vertMap.find? v = some n ↔ d.revMap[n]? = some (some v)) ∧
      (∀ v, d.vertMap.find? v ≠ some 0) ∧
      (∀ n ∈ d.g.freeId, ∀ m w, ¬ d.g.Edge n m w ∧ ¬ d.g.Edge m n w) ∧
      ∀ n w, ¬ d.g.Edge n n w := by
  have hwf := h.reachable.wf
  refine ⟨fun v n => h.reachable.inverse v n not_false, fun v hv => ?_, fun n hn m w => ⟨fun hw => ?_,
    fun hw => ?_⟩, h.loopFree⟩
  · exact absurd (hwf.vert v 0 hv).1 (lt_irrefl 0)
  · exact hwf.live_not_free (hwf.ends n m w hw).1 hn
  · exact hwf.live_not_free (hwf.ends m n w hw).2 hn

theorem wellIndexed_assign :
    let d := (top.set 0 (.ofInts 0 5)).assign 1 ((LinearExpression.var (0 : ℕ)).plusConst 1)
    (∀ v n, d.vertMap.find? v = some n ↔ d.revMap[n]? = some (some v)) ∧
      (∀ v, d.vertMap.find? v ≠ some 0) ∧
      (∀ n ∈ d.g.freeId, ∀ m w, ¬ d.g.Edge n m w ∧ ¬ d.g.Edge m n w) ∧
      ∀ n w, ¬ d.g.Edge n n w :=
  Acyclic.wellIndexed (.assign (.set .top 0 (.ofInts 0 5) (by decide)) 1 _)

/-- `x0 - x1 <= 1`, `x1 - x2 <= 1` and `x2 - x0 <= 1`: the last difference brings `x1` closer to both of
its ends. -/
theorem exists_reachable_loop :
    ∃ d : SplitDbm ℕ, Reachable (fun _ _ => True) d ∧ ∃ n w, d.g.Edge n n w := by
  let diff (x y : ℕ) : LinearConstraint ℕ :=
    ((LinearExpression.var x).subtract (.var y)).le (.const 1)
  let a := (addConstraint top (diff 0 1)).get (by decide)
  let b := (a.addConstraint (diff 1 2)).get (by decide)
  have ha : Reachable (fun _ _ => True) a := .addConstraint .top (diff 0 1) (Option.some_get _).symm
  have hb : Reachable (fun _ _ => True) b := .addConstraint ha (diff 1 2) (Option.some_get _).symm
  refine ⟨(b.addConstraint (diff 2 0)).get (by decide),
    .addConstraint hb (diff 2 0) (Option.some_get _).symm, 1, 3, ?_⟩
  show AdaptGraph.lookup _ 1 1 = some 3
  decide

end SplitDbm

end Prevail
