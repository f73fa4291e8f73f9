import Prevail.Crab.JoinExact
import Prevail.Crab.WidenKept

/-!
# Edges from a vertex to itself

Only `close_over_edge` makes such edges. The other operations make none: a search keeps its source
at distance zero, so that it never lists the source, and everything else is copied from edges of
the operands.
-/

namespace Prevail

open DiffSys

namespace GraphOps

section Dijkstra

variable {M : Type} [Inhabited M] {join : M → M → M} {p : ℕ → ℤ} {g : GraphView}
  {expand : ℕ → M → List (ℕ × ℤ × M)} {src : ℕ} {mark : ℕ → M} {σ : ℕ → ℤ}

/-- The source is at distance zero, and not in the heap. -/
structure SourceFixed (src : ℕ) (st : DijkstraState M) : Prop where
  dist : st.dists.find? src = some 0
  heap : src ∉ st.heap

omit [Inhabited M] in
theorem SourceFixed.setDist {st : DijkstraState M} {d : ℕ} (h : SourceFixed src st) (hd : d ≠ src)
    (v : ℤ) (m : M) : SourceFixed src (setDist st d v m) where
  dist := by
    show (st.dists.insert d v).find? src = some 0
    rw [OrdMap.find?_insert_of_ne hd.symm]
    exact h.dist
  heap := by
    intro hmem
    unfold GraphOps.setDist at hmem
    simp only at hmem
    split_ifs at hmem with hin
    · exact h.heap (Heap.mem_decrease hin hmem)
    · exact (Heap.mem_insert hmem).elim (fun heq => hd heq.symm) h.heap

theorem SourceFixed.relaxEdge {st : DijkstraState M} {esCost : ℤ} {e : ℕ × ℤ × M}
    (h : SourceFixed src st) (he : e.1 = src → 0 ≤ esCost + e.2.1 - p src) :
    SourceFixed src (relaxEdge join p esCost st e) := by
  unfold GraphOps.relaxEdge
  simp only
  by_cases hes : e.1 = src
  · have hpos := he hes
    rw [hes, h.dist]
    simp only [not_lt.mpr hpos, if_false]
    split_ifs
    · exact ⟨h.dist, h.heap⟩
    · exact h
  · split
    · exact h.setDist hes _ _
    · split_ifs
      · exact h.setDist hes _ _
      · exact ⟨h.dist, h.heap⟩
      · exact h

/-- No path leads back to the source with a negative weight. -/
theorem SourceFixed.relaxEdges (hσ : g.Edge.Sat σ) {st : DijkstraState M} {es : ℕ} {esCost : ℤ}
    {edges : List (ℕ × ℤ × M)} (h : SourceFixed src st)
    (hes : g.Edge.Implies src es (esCost - p src)) (he : ∀ e ∈ edges, g.Edge es e.1 e.2.1) :
    SourceFixed src (edges.foldl (GraphOps.relaxEdge join p esCost) st) := by
  refine List.foldlRecOn _ _ h fun _ hst e hmem => hst.relaxEdge fun heq => ?_
  have hcycle := (hes.snoc (he e hmem)) σ hσ
  rw [heq] at hcycle
  omega

theorem ne_src_of_mem_dijkstraLoop (hσ : g.Edge.Sat σ)
    (hx : ∀ es m, (∃ s w, g.Edge s es w) → ∀ e ∈ expand es m, g.Edge es e.1 e.2.1) {fuel : ℕ}
    {st : DijkstraState M} {out : List (ℕ × ℤ)} (h : SearchInv g p src st)
    (hsrc : SourceFixed src st) (hout : ∀ a ∈ out, a.1 ≠ src) :
    ∀ a ∈ dijkstraLoop join p g expand src fuel st out, a.1 ≠ src := by
  induction fuel generalizing st out with
  | zero => exact hout
  | succ fuel ih =>
    unfold dijkstraLoop
    split
    · exact hout
    · next es heap hpop =>
      obtain ⟨hmem, hsub⟩ := Heap.mem_of_removeMin hpop
      obtain ⟨v, hv⟩ := h.heapDist es hmem
      have hes : g.Edge.Implies src es ((st.dists.find? es).getD 0 + p es - p src) := by
        rw [hv]
        exact h.implied es v hv
      have hpopped : SearchInv g p src { st with heap := heap } :=
        ⟨h.implied, fun d hd => h.heapDist d (hsub d hd), fun d hd => h.heapTarget d (hsub d hd)⟩
      have hfixed : SourceFixed src { st with heap := heap } :=
        ⟨hsrc.dist, fun hmem => hsrc.heap (hsub src hmem)⟩
      have hedges := hx es ((st.vertMarks.find? es).getD default) (h.heapTarget es hmem)
      refine ih (hpopped.relaxEdges hes hedges) (hfixed.relaxEdges hσ hes hedges) fun a ha => ?_
      rcases List.mem_append.mp ha with ha | ha
      · exact hout a ha
      · have ha1 : a.1 = es := by
          unfold improvement at ha
          split at ha
          · rw [List.mem_singleton.mp ha]
          · split_ifs at ha
            · rw [List.mem_singleton.mp ha]
            · cases ha
        rw [ha1]
        rintro rfl
        exact hsrc.heap hmem

/-- A search does not list its source. -/
theorem ne_src_of_mem_dijkstra (hσ : g.Edge.Sat σ) (hloop : ∀ w, ¬ g.Edge src src w)
    (hx : ∀ es m, (∃ s w, g.Edge s es w) → ∀ e ∈ expand es m, g.Edge es e.1 e.2.1) :
    ∀ a ∈ dijkstra join p g expand src mark, a.1 ≠ src := by
  have hinit : SourceFixed src (dijkstraInit p g src mark) := by
    refine List.foldlRecOn _ _ ⟨OrdMap.find?_insert_self _ _ _, List.not_mem_nil⟩ fun st hst e he => ?_
    refine hst.setDist (fun heq => hloop e.2 ?_) _ _
    have hmem : (e.1, e.2) ∈ g.eSuccs src := he
    rwa [heq] at hmem
  exact ne_src_of_mem_dijkstraLoop hσ hx searchInv_dijkstraInit hinit (by simp)

end Dijkstra

section Fwd

variable {g : GraphView} {p : ℕ → ℤ} {v : ℕ}

/-- The start of the search has a distance and is not queued. -/
structure StartKnown (v : ℕ) (st : FwdState) : Prop where
  dist : ∃ x, st.dists.find? v = some x
  reach : v ∉ st.reach

theorem StartKnown.fwdEdge {st : FwdState} (h : StartKnown v st) (dWt : ℤ) (e : ℕ × ℤ) :
    StartKnown v (fwdEdge dWt st e) := by
  obtain ⟨x, hx⟩ := h.dist
  have hinsert : ∀ n, ∃ x, (st.dists.insert e.1 n).find? v = some x := by
    intro n
    rw [OrdMap.find?_insert]
    split_ifs
    · exact ⟨_, rfl⟩
    · exact ⟨x, hx⟩
  unfold GraphOps.fwdEdge
  simp only
  split
  · next hnone =>
    refine ⟨hinsert _, fun hmem => ?_⟩
    rcases List.mem_append.mp hmem with hmem | hmem
    · exact h.reach hmem
    · rw [← List.mem_singleton.mp hmem, hx] at hnone
      cases hnone
  · exact ⟨hinsert _, h.reach⟩

theorem ne_of_mem_closeAfterAssignFwd (hloop : ∀ w, ¬ g.Edge v v w) :
    ∀ a ∈ closeAfterAssignFwd g p v, a.1 ≠ v := by
  have hinit : StartKnown v ⟨fwdDists g v, []⟩ := by
    refine ⟨?_, List.not_mem_nil⟩
    refine List.foldlRecOn (motive := fun m : OrdMap ℕ ℤ => ∃ x, m.find? v = some x) _ _
      ⟨0, OrdMap.find?_insert_self _ _ _⟩ fun m ⟨x, hx⟩ e _ => ?_
    rw [OrdMap.find?_insert]
    split_ifs
    · exact ⟨_, rfl⟩
    · exact ⟨x, hx⟩
  have hsearch : StartKnown v (fwdSearch g p v) :=
    List.foldlRecOn _ _ hinit fun st hst d _ => List.foldlRecOn _ _ hst fun st' hst' e _ =>
      hst'.fwdEdge _ e
  intro a ha
  obtain ⟨u, hu, rfl⟩ := List.mem_map.mp ha
  intro (huv : u = v)
  subst huv
  rcases List.mem_append.mp hu with hu | hu
  · obtain ⟨w, hw⟩ := mem_fwdAdj.mp hu
    exact hloop w hw
  · exact hsearch.reach hu

end Fwd

/-! ## Graphs without loops -/

/-- No edge leads from a vertex to itself. -/
def LoopFree (g : AdaptGraph) : Prop := ∀ v w, ¬ g.Edge v v w

section LoopFree

variable {g : AdaptGraph} {l r : GraphView} {p : ℕ → ℤ} {σ : ℕ → ℤ}

theorem loopFree_grow (n : ℕ) : LoopFree (.grow n) := fun v w hw => by
  simp [AdaptGraph.Edge] at hw

theorem LoopFree.setEdge (h : LoopFree g) {s d : ℕ} (hsd : s ≠ d) (w : ℤ) :
    LoopFree (g.setEdge s w d) := by
  intro v c hc
  unfold AdaptGraph.Edge at hc
  rw [AdaptGraph.lookup_setEdge] at hc
  split_ifs at hc with hvd
  · exact hsd (hvd.1.symm.trans hvd.2)
  · exact h v c hc

theorem LoopFree.updateEdge (h : LoopFree g) {s d : ℕ} (hsd : s ≠ d) (w : ℤ) :
    LoopFree (g.updateEdge s w d) := by
  intro v c hc
  unfold AdaptGraph.Edge at hc
  rw [AdaptGraph.lookup_updateEdge] at hc
  split_ifs at hc with hvd
  · exact hsd (hvd.1.symm.trans hvd.2)
  · exact h v c hc

theorem LoopFree.applyDelta {delta : EdgeVector} (h : LoopFree g)
    (hdelta : ∀ e ∈ delta, e.1 ≠ e.2.1) : LoopFree (applyDelta g delta) :=
  List.foldlRecOn _ _ h fun _ hg e he => hg.setEdge (hdelta e he) _

theorem loopFree_meet (hl : ∀ v w, (v, w) ∉ l.eSuccs v) (hr : ∀ v w, (v, w) ∉ r.eSuccs v) :
    LoopFree (meet l r) := fun v w hw =>
  (edge_of_meet v v w hw).elim (fun h => hl v w h.2) fun h => hr v w h.2

theorem loopFree_join (hl : ∀ v w, (v, w) ∉ l.eSuccs v) : LoopFree (join l r) := by
  refine foldl_nested LoopFree (loopFree_grow _) fun h hh s _ e he => ?_
  split
  · refine hh.setEdge (fun heq => hl s e.2 ?_) _
    have hmem : (e.1, e.2) ∈ l.eSuccs s := he
    rwa [← heq] at hmem
  · exact hh

theorem LoopFree.closeAfterAssign (h : LoopFree g) (v : ℕ) :
    LoopFree (GraphOps.applyDelta g (closeAfterAssign g.view p v)) := by
  refine h.applyDelta fun e he => ?_
  rcases List.mem_append.mp he with he | he
  · obtain ⟨a, ha, rfl⟩ := List.mem_map.mp he
    refine (ne_of_mem_closeAfterAssignFwd (fun w hw => ?_) a ha).symm
    exact h v w (edge_view.mp hw)
  · obtain ⟨a, ha, rfl⟩ := List.mem_map.mp he
    refine ne_of_mem_closeAfterAssignFwd (fun w hw => ?_) a ha
    exact h v w (edge_graphRev.mp hw)

theorem LoopFree.closeAfterWiden (h : LoopFree g) (hσ : g.Edge.Sat σ) (isStable : ℕ → Bool) :
    LoopFree (GraphOps.applyDelta g (closeAfterWiden (g.view.subGraph 0) p isStable)) := by
  refine h.applyDelta fun e he => ?_
  obtain ⟨v, -, he⟩ := List.mem_flatMap.mp he
  unfold dijkstraRecover at he
  split_ifs at he
  · cases he
  · obtain ⟨a, ha, rfl⟩ := List.mem_map.mp he
    exact (ne_src_of_mem_dijkstra (fun s d w hw => hσ s d w (edge_subGraph.mp hw).1)
      (fun w hw => h v w (edge_subGraph.mp hw).1) (fun es m _ => edge_of_mem_recoverExpand) a ha).symm

theorem LoopFree.closeAfterMeet (h : LoopFree g) (hσ : g.Edge.Sat σ) (l r : GraphView) :
    LoopFree (GraphOps.applyDelta g (closeAfterMeet (g.view.subGraph 0) p l r)) := by
  refine h.applyDelta fun e he => ?_
  obtain ⟨v, -, he⟩ := List.mem_flatMap.mp he
  obtain ⟨a, ha, rfl⟩ := List.mem_map.mp he
  exact (ne_src_of_mem_dijkstra (fun s d w hw => hσ s d w (edge_subGraph.mp hw).1)
    (fun w hw => h v w (edge_subGraph.mp hw).1) (fun es m hes => edge_of_mem_chromeExpand hes)
    a ha).symm

end LoopFree

end GraphOps

namespace SplitDbm

open GraphOps

variable {V : Type*} [LinearOrder V] {a b d : SplitDbm V} {σ : V → ℤ} {v : V} {n : ℕ}
  {x : Option V} {w : ℤ} {P : ℕ → Prop}

theorem not_csts_self (h : LoopFree d.g) : ¬ d.csts x x w := by
  rintro ⟨m, n, hm, hn, hw⟩
  obtain rfl := Option.some.inj (hm.symm.trans hn)
  exact h m w hw

theorem loopFree_of_csts (hd : d.WF) (h : ∀ x w, ¬ d.csts x x w) : LoopFree d.g := by
  intro n w hw
  obtain ⟨x, hx⟩ := exists_vertOf (hd.ends n n w hw).1
  exact h x w ⟨n, n, hx, hx, hw⟩

theorem loopFree_normalize (h : LoopFree d.g) {ν : ℕ → ℤ} (hν : d.g.Edge.Sat ν) :
    LoopFree d.normalize.g := by
  cases hd : d.unstable.isEmpty with
  | true => rwa [graph_normalize_of_stable hd]
  | false =>
    rw [graph_normalize hd]
    exact (h.closeAfterWiden hν _).closeAfterAssign 0

theorem loopFree_dropVert (h : LoopFree d.g) (hd : d.WFWith P) (hv : d.vertMap.find? v = some n) :
    LoopFree (d.dropVert v n).g := fun m w hw => h m w (edge_dropVert hd hv hw).1

theorem loopFree_havoc_of_sat (h : LoopFree d.g) (hd : d.WFWith P) {ν : ℕ → ℤ} (hν : d.g.Edge.Sat ν)
    (v : V) : LoopFree (d.havoc v).g := by
  cases hv : d.vertMap.find? v with
  | none => rwa [havoc_of_none hv]
  | some n =>
    rw [havoc_of_some hv]
    exact loopFree_normalize (loopFree_dropVert h hd hv) fun s t w hw =>
      hν s t w (edge_dropVert hd hv hw).1

theorem loopFree_havoc (h : LoopFree d.g) (hd : d.WF) (hσ : d.Models σ) (v : V) :
    LoopFree (d.havoc v).g :=
  let ⟨_, hν⟩ := hσ
  loopFree_havoc_of_sat h hd hν.sat v

theorem loopFree_set (hd : d.WF) (h : LoopFree d.g) (hσ : d.Models σ) {intv : Interval} {n : ℤ}
    (hn : n ∈ intv) : LoopFree (d.set v intv).g := by
  have hmodels := models_set (x := v) hd hσ hn
  have hhavoc := loopFree_havoc h hd hσ v
  rw [set_eq] at hmodels ⊢
  split_ifs at hmodels ⊢
  · exact hhavoc
  · have hg := getVert_spec (wf_havoc hd v) v
    have hpos := (hg.wf.vert v _ hg.self).1
    have hvert : LoopFree ((d.havoc v).getVert v).2.g := fun m w hw =>
      hhavoc m w ((hg.edge m m w).mp hw)
    rw [models_normalize] at hmodels
    obtain ⟨ν, hν⟩ := hmodels
    refine loopFree_normalize ?_ hν.sat
    have hub : LoopFree (((d.havoc v).getVert v).2.setUb ((d.havoc v).getVert v).1 intv.ub).g := by
      unfold setUb
      split
      · exact hvert.setEdge hpos.ne _
      · exact hvert
    unfold setLb
    split
    · exact hub.setEdge hpos.ne' _
    · exact hub

theorem loopFree_widen (ha : a.WF) (hb : b.WF) (h : LoopFree a.g) (hσ : a.Models σ) :
    LoopFree (a.widen b).g := by
  have hwf := wf_widenRaw ha b
  have hraw : LoopFree (widenRaw a b).g := loopFree_of_csts hwf fun x w hx =>
    not_csts_self h ((csts_widenRaw ha hb).mp hx).1
  have hmodels := models_widen_of_models ha hb (Or.inl hσ)
  rw [widen_eq_normalize, models_normalize] at hmodels
  obtain ⟨ν, hν⟩ := hmodels
  exact loopFree_normalize hraw hν.sat

/-! ## Join -/

variable {names : List V} {i : ℕ}

theorem sat_alignedSys_of_models (hd : d.WF) (hσ : d.Models σ) :
    (d.alignedSys names).Sat fun k => ext σ ((slots names)[k]?.getD none) := by
  rintro s t c ⟨u, v, hu, hv, hc⟩
  simp only [hu, hv, Option.getD_some]
  exact (models_iff hd).mp hσ u v c hc

theorem loop_not_mem_aligned (h : LoopFree a.g) (ha : a.WF) (hn : names.Nodup) :
    (i, w) ∉ (a.aligned names).eSuccs i := by
  intro hmem
  obtain ⟨x, y, hx, hy, hc⟩ := (mem_eSuccs_aligned ha hn).mp hmem
  obtain rfl := Option.some.inj (hx.symm.trans hy)
  exact not_csts_self h hc

theorem loopFree_deferred {gx gy : GraphView} (h : ∀ v w, (v, w) ∉ gy.eSuccs v) :
    LoopFree (deferred gx gy) := by
  unfold deferred
  refine foldl_nested LoopFree (loopFree_grow _) fun h₁ hh s _ e he => ?_
  split
  · refine hh.setEdge (fun heq => h s e.2 ?_) _
    have hmem : (e.1, e.2) ∈ gy.eSuccs s := (List.mem_filter.mp he).1
    rwa [← heq] at hmem
  · exact hh

theorem loopFree_withDeferred (ha : a.WF) (hb : b.WF) (hn : names.Nodup) (hla : LoopFree a.g)
    (hlb : LoopFree b.g) (hσ : a.Models σ) (p : List ℤ) :
    LoopFree (withDeferred (a.aligned names) (b.aligned names) p) := by
  have hdeferred : LoopFree (deferred (a.aligned names) (b.aligned names)) :=
    loopFree_deferred fun v w => loop_not_mem_aligned hlb hb hn
  have hmeet := loopFree_meet (fun v w => loop_not_mem_aligned hla ha hn)
    (r := (deferred (a.aligned names) (b.aligned names)).view)
    fun v w hw => hdeferred v w (edge_view.mp hw)
  have hsat := (sat_alignedSys_of_models ha hσ).of_implies
    (edgesIn_meet (viewIn_aligned ha hn) (edgesIn_deferred (b := b)).viewIn).implied
  unfold withDeferred
  exact hmeet.closeAfterMeet hsat _ _

theorem loopFree_independent {gx gy : GraphView} {ss ds : List ℕ} {g : AdaptGraph}
    (h : LoopFree g) : LoopFree (independent gx gy ss ds g) := by
  unfold independent
  refine List.foldlRecOn _ _ h fun g hg s _ => List.foldlRecOn _ _ hg fun g hg t _ => ?_
  split_ifs with hst
  · exact hg
  · exact hg.updateEdge hst _

theorem loopFree_join_of_models (ha : a.WF) (hb : b.WF) (hla : LoopFree a.g) (hlb : LoopFree b.g)
    (hσ : a.Models σ) : LoopFree (a.join b).g := by
  have hwf := (join_spec ha hb).1
  cases htb : b.isTop with
  | true =>
    unfold join
    rwa [if_pos htb]
  | false =>
    cases hta : a.isTop with
    | true =>
      unfold join
      rwa [if_neg (by simp [htb]), if_pos hta]
    | false =>
      have hn := nodup_commonNames a b
      have hwith := loopFree_withDeferred ha hb hn hla hlb hσ
        (0 :: (commonNames a b).map a.relPot)
      have hgraph : LoopFree (joinGraph a b) :=
        loopFree_independent (loopFree_independent (loopFree_join fun v w hw =>
          hwith v w (edge_view.mp hw)))
      refine loopFree_of_csts hwf fun x w hx => ?_
      obtain ⟨i, j, hi, hj, hw⟩ := (csts_join ha hta htb).mp hx
      rw [slot_inj hn hi hj] at hw
      exact hgraph j w hw

end SplitDbm

end Prevail
