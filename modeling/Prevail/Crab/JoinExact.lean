import Prevail.Crab.Reachable
import Prevail.Crab.SplitNormal

/-!
# The join is exact

Two states in split normal form show what they imply between two variables by an edge or by two
bounds. The join meets the four cases one by one: two edges are joined; an edge on one side only
meets the relation that the bounds of the other side give (`deferred`); and where both sides have
bounds only, either the joined bounds are enough or one side has the better lower bound and the
other one the better upper bound, and the relation is added explicitly (`independent`). So the
result implies whatever both operands imply (`short_joinGraph`), which also makes it split closed.

The closure of the two operands in between only sharpens edges; nothing is used of it here.
-/

namespace Prevail

open GraphOps DiffSys

theorem AdaptGraph.verts_view {g : AdaptGraph} (hfree : g.freeId = []) :
    g.view.verts = List.range g.size := by
  show g.verts = _
  unfold verts
  rw [hfree]
  simp

namespace GraphOps

variable {l r : GraphView} {g h : AdaptGraph} {s d : ℕ} {w w' : ℤ}

/-! ## Edges that stay below a weight -/

theorem AtMost.weaken (hh : AtMost s d w h) (hw : w ≤ w') : AtMost s d w' h :=
  let ⟨c, hc, he⟩ := hh
  ⟨c, hc.trans hw, he⟩

theorem AtMost.updateEdge {a b : ℕ} {c : ℤ} (hh : AtMost s d w h) :
    AtMost s d w (h.updateEdge a c b) := by
  unfold AtMost
  rw [AdaptGraph.lookup_updateEdge]
  split_ifs with hab
  · obtain ⟨rfl, rfl⟩ := hab
    obtain ⟨w', hle, hw'⟩ := hh
    refine ⟨min w' c, (min_le_left _ _).trans hle, ?_⟩
    rw [hw']
    rfl
  · exact hh

theorem atMost_updateEdge (h : AdaptGraph) (s d : ℕ) (w : ℤ) :
    AtMost s d w (h.updateEdge s w d) := by
  unfold AtMost
  rw [AdaptGraph.lookup_updateEdge, if_pos ⟨rfl, rfl⟩]
  refine ⟨_, ?_, rfl⟩
  cases h.lookup s d with
  | none => exact le_rfl
  | some w' => exact min_le_right _ _

theorem AtMost.applyDelta {delta : EdgeVector} (hh : AtMost s d w g)
    (hdelta : ∀ e ∈ delta, Sharper g e) : AtMost s d w (applyDelta g delta) := by
  obtain ⟨w', hle, hw'⟩ := hh
  exact lookup_applyDelta_le (fun c hc => ((hdelta _ hc).tight w' hw').trans hle) ⟨w', hle, hw'⟩

/-- Edges of both operands are joined. -/
theorem atMost_join (hfun : ∀ c, (d, c) ∈ l.eSuccs s → c = w) (hs : s ∈ l.verts)
    (he : (d, w) ∈ l.eSuccs s) (hr : r.lookup s d = some w') :
    AtMost s d (max w w') (GraphOps.join l r) := by
  unfold GraphOps.join
  refine foldl_reaches (P := AtMost s d (max w w')) hs (fun h => ?_) (fun h a _ hh => ?_) _
  · refine foldl_reaches (P := AtMost s d (max w w')) he (fun h => ?_) (fun h e hmem hh => ?_) h
    · simp only [hr]
      exact ⟨max w w', le_rfl, by simp [AdaptGraph.lookup_addEdge]⟩
    · split
      · next c hc =>
        refine hh.addEdge fun _ hed => ?_
        obtain rfl : e.2 = w := hfun e.2 (hed ▸ hmem)
        rw [hed] at hc
        rw [Option.some.inj (hc.symm.trans hr)]
      · exact hh
  · refine List.foldlRecOn _ _ hh fun h hh e hmem => ?_
    split
    · next c hc =>
      refine hh.addEdge fun has hed => ?_
      subst has hed
      rw [hfun e.2 hmem, Option.some.inj (hc.symm.trans hr)]
    · exact hh

theorem AtMost.join {g₁ g₂ : AdaptGraph} (hl : AtMost s d w g₁) (hs : s ∈ g₁.view.verts)
    (hr : AtMost s d w' g₂) : AtMost s d (max w w') (GraphOps.join g₁.view g₂.view) := by
  obtain ⟨c, hc, hlook⟩ := hl
  obtain ⟨c', hc', hlook'⟩ := hr
  have hmem : (d, c) ∈ g₁.view.eSuccs s := AdaptGraph.mem_eSuccs.mpr hlook
  have hfun : ∀ e, (d, e) ∈ g₁.view.eSuccs s → e = c := fun e he =>
    Option.some.inj ((AdaptGraph.mem_eSuccs.mp he).symm.trans hlook)
  exact (atMost_join hfun hs hmem hlook').weaken (max_le_max hc hc')

end GraphOps

namespace SplitDbm

variable {V : Type*} [LinearOrder V] {a b d : SplitDbm V} {σ : V → ℤ} {names : List V}
  {x y : Option V} {i j : ℕ} {w : ℤ}

/-! ## The two operands -/

theorem verts_aligned : (d.aligned names).verts = List.range (names.length + 1) := by
  simp [aligned, GraphView.graphPerm, permOf]

theorem mem_verts_aligned : i ∈ (d.aligned names).verts ↔ Slot names i := by
  rw [verts_aligned, List.mem_range]
  rfl

theorem alignedSys_unique {w' : ℤ} (h : d.alignedSys names i j w)
    (h' : d.alignedSys names i j w') : w = w' :=
  Option.some.inj ((lookup_aligned.mpr h).symm.trans (lookup_aligned.mpr h'))

theorem mem_eSuccs_iff_alignedSys (hd : d.WF) (hn : names.Nodup) :
    (j, w) ∈ (d.aligned names).eSuccs i ↔ d.alignedSys names i j w :=
  mem_eSuccs_aligned hd hn

theorem shape_deferred (gx gy : GraphView) :
    (deferred gx gy).size = gx.size ∧ (deferred gx gy).freeId = [] := by
  refine foldl_nested (fun h : AdaptGraph => h.size = gx.size ∧ h.freeId = []) ⟨rfl, rfl⟩
    fun h hh s _ e _ => ?_
  split <;> exact hh

theorem atMost_withDeferred_of_meet {p : List ℤ}
    (h : AtMost i j w (GraphOps.meet (a.aligned names)
      (deferred (a.aligned names) (b.aligned names)).view)) :
    AtMost i j w (withDeferred (a.aligned names) (b.aligned names) p) := by
  unfold withDeferred
  exact h.applyDelta sharper_closeAfterMeet

/-- An operand keeps its edges. -/
theorem atMost_withDeferred (ha : a.WF) (hn : names.Nodup) {p : List ℤ}
    (h : a.alignedSys names i j w) :
    AtMost i j w (withDeferred (a.aligned names) (b.aligned names) p) := by
  refine atMost_withDeferred_of_meet (atMost_meet_left (fun w' hw' => ?_) ?_ ?_)
  · exact (alignedSys_unique ((mem_eSuccs_iff_alignedSys ha hn).mp hw') h).le
  · exact mem_verts_aligned.mpr (slots_of_alignedSys h).1
  · exact (mem_eSuccs_iff_alignedSys ha hn).mpr h

theorem atMost_defer {h : AdaptGraph} {ws wd : ℤ} (hh : AtMost i j (ws + wd) h)
    (hs : a.alignedSys names i 0 ws) (hd : a.alignedSys names 0 j wd) (s : ℕ) (e : ℕ × ℤ) :
    AtMost i j (ws + wd) (match (a.aligned names).lookup s 0, (a.aligned names).lookup 0 e.1 with
      | some ws, some wd => h.addEdge s (ws + wd) e.1
      | _, _ => h) := by
  split
  · next c c' hc hc' =>
    refine hh.addEdge fun hsi hej => ?_
    rw [hsi] at hc
    rw [hej] at hc'
    rw [alignedSys_unique (lookup_aligned.mp hc) hs, alignedSys_unique (lookup_aligned.mp hc') hd]
  · exact hh

/-- Where the other operand has an edge, the bounds of this one become an edge. -/
theorem atMost_withDeferred_bounds (hb : b.WF) (hn : names.Nodup) {p : List ℤ} {ws wd : ℤ}
    (hi : i ≠ 0) (hj : j ≠ 0) (hs : a.alignedSys names i 0 ws) (hd : a.alignedSys names 0 j wd)
    (h : b.alignedSys names i j w) :
    AtMost i j (ws + wd) (withDeferred (a.aligned names) (b.aligned names) p) := by
  refine atMost_withDeferred_of_meet ?_
  have hdef : AtMost i j (ws + wd) (deferred (a.aligned names) (b.aligned names)) := by
    unfold deferred
    have hmem : i ∈ ((b.aligned names).subGraph 0).verts :=
      List.mem_filter.mpr ⟨mem_verts_aligned.mpr (slots_of_alignedSys h).1, by simpa using hi⟩
    have hedge : (j, w) ∈ ((b.aligned names).subGraph 0).eSuccs i :=
      List.mem_filter.mpr ⟨(mem_eSuccs_iff_alignedSys hb hn).mpr h, by simpa using hj⟩
    refine foldl_reaches (P := AtMost i j (ws + wd)) hmem (fun h => ?_) (fun h s _ hh => ?_) _
    · refine foldl_reaches (P := AtMost i j (ws + wd)) hedge (fun h => ?_)
        (fun h e _ hh => atMost_defer hh hs hd i e) h
      simp only [lookup_aligned.mpr hs, lookup_aligned.mpr hd]
      exact ⟨ws + wd, le_rfl, by simp [AdaptGraph.lookup_addEdge]⟩
    · exact List.foldlRecOn _ _ hh fun h hh e _ => atMost_defer hh hs hd s e
  obtain ⟨c, hc, hlook⟩ := hdef
  refine AtMost.weaken (w := c) (atMost_meet_right ?_ (AdaptGraph.mem_eSuccs.mpr hlook)) hc
  refine List.mem_filter.mpr ⟨List.mem_range.mpr ?_, by simp [(shape_deferred _ _).2]⟩
  rw [(shape_deferred _ _).1, size_aligned]
  exact (slots_of_alignedSys h).1

/-! ## The relations between independent bounds -/

theorem atMost_independent_of_atMost {gx gy : GraphView} {ss ds : List ℕ} {h : AdaptGraph}
    (hh : AtMost i j w h) : AtMost i j w (independent gx gy ss ds h) := by
  unfold independent
  refine List.foldlRecOn _ _ hh fun h hh s _ => List.foldlRecOn _ _ hh fun h hh t _ => ?_
  split_ifs
  · exact hh
  · exact hh.updateEdge

theorem atMost_independent {gx gy : GraphView} {ss ds : List ℕ} (hi : i ∈ ss) (hj : j ∈ ds)
    (hij : i ≠ j) (h : AdaptGraph) :
    AtMost i j (max (gx.edgeVal i 0 + gx.edgeVal 0 j) (gy.edgeVal i 0 + gy.edgeVal 0 j))
      (independent gx gy ss ds h) := by
  unfold independent
  refine foldl_reaches (P := AtMost i j _) hi (fun h => ?_) (fun h s _ hh => ?_) _
  · refine foldl_reaches (P := AtMost i j _) hj (fun h => ?_) (fun h t _ hh => ?_) _
    · rw [if_neg hij]
      exact atMost_updateEdge h i j _
    · split_ifs
      · exact hh
      · exact hh.updateEdge
  · refine List.foldlRecOn _ _ hh fun h hh t _ => ?_
    split_ifs
    · exact hh
    · exact hh.updateEdge

theorem edgeVal_aligned (h : a.alignedSys names i j w) : (a.aligned names).edgeVal i j = w := by
  unfold GraphView.edgeVal
  rw [lookup_aligned.mpr h]
  rfl

theorem mem_boundLt {gx gy : GraphView} {v : ℕ} {wx wy : ℤ} (bound : GraphView → ℕ → Option ℤ)
    (hv : v ∈ (gx.subGraph 0).verts) (hx : bound gx v = some wx) (hy : bound gy v = some wy)
    (hlt : wx < wy) : v ∈ boundLt bound gx gy := by
  refine List.mem_filter.mpr ⟨hv, ?_⟩
  simp only [hx, hy]
  exact decide_eq_true hlt

/-- A lower bound of one operand and an upper bound of the other that are the better ones. -/
theorem atMost_independent_aligned {sx sy dx dy : ℤ} {x y gx gy : SplitDbm V}
    (hi : i ≠ 0) (hj : j ≠ 0) (hij : i ≠ j)
    (hsx : x.alignedSys names i 0 sx) (hsy : y.alignedSys names i 0 sy) (hs : sx < sy)
    (hdx : x.alignedSys names 0 j dx) (hdy : y.alignedSys names 0 j dy) (hd : dy < dx)
    (h : AdaptGraph) :
    AtMost i j (max ((gx.aligned names).edgeVal i 0 + (gx.aligned names).edgeVal 0 j)
        ((gy.aligned names).edgeVal i 0 + (gy.aligned names).edgeVal 0 j))
      (independent (gx.aligned names) (gy.aligned names)
        (boundLt (fun h v => h.lookup v 0) (x.aligned names) (y.aligned names))
        (boundLt (fun h v => h.lookup 0 v) (y.aligned names) (x.aligned names)) h) := by
  have hmem : ∀ {z : SplitDbm V} {k : ℕ}, k ≠ 0 → Slot names k →
      k ∈ ((z.aligned names).subGraph 0).verts := fun hk hslot =>
    List.mem_filter.mpr ⟨mem_verts_aligned.mpr hslot, by simpa using hk⟩
  refine atMost_independent ?_ ?_ hij h
  · exact mem_boundLt (fun h v => h.lookup v 0) (hmem hi (slots_of_alignedSys hsx).1)
      (lookup_aligned.mpr hsx) (lookup_aligned.mpr hsy) hs
  · exact mem_boundLt (fun h v => h.lookup 0 v) (hmem hj (slots_of_alignedSys hdx).2)
      (lookup_aligned.mpr hdy) (lookup_aligned.mpr hdx) hd

/-! ## The joined graph -/

/-- The left operand of a join before the join proper. -/
def operand (a b : SplitDbm V) (names : List V) : AdaptGraph :=
  withDeferred (a.aligned names) (b.aligned names) (0 :: names.map a.relPot)

theorem shape_operand (a b : SplitDbm V) (names : List V) :
    (operand a b names).size = names.length + 1 ∧ (operand a b names).freeId = [] := by
  constructor
  · exact shape_withDeferred _
  · unfold operand withDeferred
    rw [freeId_applyDelta]
    exact (shape_meet _ _).2

theorem verts_operand (a b : SplitDbm V) (names : List V) :
    (operand a b names).view.verts = List.range (names.length + 1) := by
  obtain ⟨hsize, hfree⟩ := shape_operand a b names
  rw [AdaptGraph.verts_view hfree, hsize]

/-- The bounds of the operands that the two calls of `independent` look at. -/
theorem joinGraph_eq (a b : SplitDbm V) : joinGraph a b =
    independent (a.aligned (commonNames a b)) (b.aligned (commonNames a b))
      (boundLt (fun h v => h.lookup v 0) (a.aligned (commonNames a b)) (b.aligned (commonNames a b)))
      (boundLt (fun h v => h.lookup 0 v) (b.aligned (commonNames a b)) (a.aligned (commonNames a b)))
      (independent (a.aligned (commonNames a b)) (b.aligned (commonNames a b))
        (boundLt (fun h v => h.lookup v 0) (b.aligned (commonNames a b)) (a.aligned (commonNames a b)))
        (boundLt (fun h v => h.lookup 0 v) (a.aligned (commonNames a b)) (b.aligned (commonNames a b)))
        (GraphOps.join (operand a b (commonNames a b)).view
          (operand b a (commonNames a b)).view)) := rfl

/-- Edges of both operands, after bounds became edges, are edges of the result. -/
theorem atMost_joinGraph {w' : ℤ} (hi : Slot (commonNames a b) i)
    (hl : AtMost i j w (operand a b (commonNames a b)))
    (hr : AtMost i j w' (operand b a (commonNames a b))) :
    AtMost i j (max w w') (joinGraph a b) := by
  have hverts : i ∈ (operand a b (commonNames a b)).view.verts := by
    rw [verts_operand]
    exact List.mem_range.mpr hi
  rw [joinGraph_eq]
  exact atMost_independent_of_atMost (atMost_independent_of_atMost (hl.join hverts hr))

omit [LinearOrder V] in
theorem slot_of_short {E : DiffSys ℕ} (hE : ∀ s d w, E s d w → Slot names s ∧ Slot names d)
    (h : E.Short 0 i j w) : Slot names i ∧ Slot names j := by
  rcases h with ⟨_, _, he⟩ | ⟨-, -, _, _, hs, hd, -⟩
  · exact hE _ _ _ he
  · exact ⟨(hE _ _ _ hs).1, (hE _ _ _ hd).2⟩

/-- What both operands show, the result shows. -/
theorem short_joinGraph (ha : a.WF) (hb : b.WF) (hij : i ≠ j)
    (hl : (a.alignedSys (commonNames a b)).Short 0 i j w)
    (hr : (b.alignedSys (commonNames a b)).Short 0 i j w) :
    (joinGraph a b).Edge.Short 0 i j w := by
  have hn := nodup_commonNames a b
  have hslots := slot_of_short (fun _ _ _ => slots_of_alignedSys) hl
  -- an edge of each operand after the bounds became edges
  have hjoin : ∀ {c c' : ℤ}, c ≤ w → c' ≤ w → AtMost i j c (operand a b (commonNames a b)) →
      AtMost i j c' (operand b a (commonNames a b)) → (joinGraph a b).Edge.Short 0 i j w := by
    intro c c' hc hc' hl hr
    exact Or.inl ((atMost_joinGraph hslots.1 hl hr).weaken (max_le hc hc'))
  rcases hl with ⟨wa, hwa, hea⟩ | ⟨hi, hj, sa, da, hsa, hda, hsuma⟩
  · rcases hr with ⟨wb, hwb, heb⟩ | ⟨hi, hj, sb, db, hsb, hdb, hsumb⟩
    · exact hjoin hwa hwb (atMost_withDeferred ha hn hea) (atMost_withDeferred hb hn heb)
    · exact hjoin hwa hsumb (atMost_withDeferred ha hn hea)
        (atMost_withDeferred_bounds ha hn hi hj hsb hdb hea)
  · rcases hr with ⟨wb, hwb, heb⟩ | ⟨-, -, sb, db, hsb, hdb, hsumb⟩
    · exact hjoin hsuma hwb (atMost_withDeferred_bounds hb hn hi hj hsa hda heb)
        (atMost_withDeferred hb hn heb)
    · have hvals : max ((a.aligned (commonNames a b)).edgeVal i 0 +
          (a.aligned (commonNames a b)).edgeVal 0 j)
          ((b.aligned (commonNames a b)).edgeVal i 0 +
            (b.aligned (commonNames a b)).edgeVal 0 j) ≤ w := by
        rw [edgeVal_aligned hsa, edgeVal_aligned hda, edgeVal_aligned hsb, edgeVal_aligned hdb]
        exact max_le hsuma hsumb
      rw [joinGraph_eq]
      by_cases hmixed : sa < sb ∧ db < da
      · -- the left operand has the better lower bound, the right one the better upper bound
        exact Or.inl ((atMost_independent_aligned hi hj hij hsa hsb hmixed.1 hda hdb hmixed.2
          _).weaken hvals)
      · by_cases hmixed' : sb < sa ∧ da < db
        · exact Or.inl (atMost_independent_of_atMost ((atMost_independent_aligned hi hj hij hsb hsa
            hmixed'.1 hdb hda hmixed'.2 _).weaken hvals))
        · -- one operand has both bounds no worse, so that the joined bounds are enough
          rw [← joinGraph_eq]
          obtain ⟨cs, hcs, hes⟩ := atMost_joinGraph hslots.1 (atMost_withDeferred ha hn hsa)
            (atMost_withDeferred hb hn hsb)
          obtain ⟨cd, hcd, hed⟩ := atMost_joinGraph slot_zero (atMost_withDeferred ha hn hda)
            (atMost_withDeferred hb hn hdb)
          refine Or.inr ⟨hi, hj, cs, cd, hes, hed, ?_⟩
          omega

/-! ## The result implies no more -/

theorem edgesIn_join_right {E : DiffSys ℕ} {P : ℕ → Prop} {l : GraphView} {g : AdaptGraph}
    (hg : EdgesIn E P g) : EdgesIn E P (GraphOps.join l g.view) := by
  unfold GraphOps.join
  refine foldl_nested (EdgesIn E P) (edgesIn_grow _) fun h hh s _ e _ => ?_
  split
  · next w hw =>
    obtain ⟨hs, hd⟩ := hg.ends s e.1 w hw
    exact hh.setEdge ((hg.implied s e.1 w hw).weaken (le_max_right _ _)) hs hd
  · exact hh

theorem edgesIn_independent_right {ss ds : List ℕ} {gx : GraphView} {h : AdaptGraph}
    (hss : ∀ s ∈ ss, ∃ w, (b.aligned names).lookup s 0 = some w)
    (hds : ∀ d ∈ ds, ∃ w, (b.aligned names).lookup 0 d = some w)
    (hh : EdgesIn (b.alignedSys names) (Slot names) h) :
    EdgesIn (b.alignedSys names) (Slot names) (independent gx (b.aligned names) ss ds h) := by
  unfold independent
  refine List.foldlRecOn _ _ hh fun h hh s hs => List.foldlRecOn _ _ hh fun h hh t ht => ?_
  split_ifs
  · exact hh
  · obtain ⟨ws, hws⟩ := hss s hs
    obtain ⟨wt, hwt⟩ := hds t ht
    have hs' := lookup_aligned.mp hws
    have ht' := lookup_aligned.mp hwt
    rw [edgeVal_aligned hs', edgeVal_aligned ht']
    exact hh.updateEdge (((Implies.of_edge hs').snoc ht').weaken (le_max_right _ _))
      (slots_of_alignedSys hs').1 (slots_of_alignedSys ht').2

/-- The edges of the joined graph are implied by the right operand as well. -/
theorem edgesIn_joinGraph_right (a : SplitDbm V) (hb : b.WF) :
    EdgesIn (b.alignedSys (commonNames a b)) (Slot (commonNames a b)) (joinGraph a b) := by
  have hn := nodup_commonNames a b
  have hoperand : EdgesIn (b.alignedSys (commonNames a b)) (Slot (commonNames a b))
      (operand b a (commonNames a b)) := edgesIn_withDeferred hb a hn _
  have hjoin : EdgesIn (b.alignedSys (commonNames a b)) (Slot (commonNames a b))
      (GraphOps.join (operand a b (commonNames a b)).view (operand b a (commonNames a b)).view) :=
    edgesIn_join_right hoperand
  rw [joinGraph_eq]
  refine edgesIn_independent_right (fun s hs => ?_) (fun t ht => ?_)
    (edgesIn_independent_right (fun s hs => ?_) (fun t ht => ?_) hjoin)
  · exact (edge_of_mem_boundLt hs).2
  · exact (edge_of_mem_boundLt ht).1
  · exact (edge_of_mem_boundLt hs).1
  · exact (edge_of_mem_boundLt ht).2

/-! ## From the slots to the variables -/

theorem implies_csts_of_alignedSys (hx : (slots names)[i]? = some x)
    (hy : (slots names)[j]? = some y) (h : (d.alignedSys names).Implies i j w) :
    d.csts.Implies x y w := by
  intro φ hφ
  have hsat : (d.alignedSys names).Sat fun k => φ ((slots names)[k]?.getD none) := by
    rintro s t c ⟨u, v, hu, hv, hc⟩
    simp only [hu, hv, Option.getD_some]
    exact hφ u v c hc
  have hle := h _ hsat
  simpa only [hx, hy, Option.getD_some] using hle

theorem short_alignedSys (hx : (slots names)[i]? = some x)
    (hy : (slots names)[j]? = some y) (h : d.csts.Short none x y w) :
    (d.alignedSys names).Short 0 i j w := by
  have hzero : (slots names)[0]? = some none := rfl
  have hne : ∀ {k : ℕ} {u : Option V}, (slots names)[k]? = some u → u ≠ none → k ≠ 0 := by
    rintro k u hk hu rfl
    exact hu (Option.some.inj (hk.symm.trans hzero))
  rcases h with ⟨c, hc, he⟩ | ⟨hxn, hyn, s, t, hs, ht, hst⟩
  · exact Or.inl ⟨c, hc, x, y, hx, hy, he⟩
  · exact Or.inr ⟨hne hx hxn, hne hy hyn, s, t, ⟨x, none, hx, hzero, hs⟩, ⟨none, y, hzero, hy, ht⟩, hst⟩

theorem csts_numbered (hn : names.Nodup) {g : AdaptGraph} {p : List ℤ} {u : List ℕ} :
    (numbered names g p u).csts x y w ↔
      ∃ i j, (slots names)[i]? = some x ∧ (slots names)[j]? = some y ∧ g.Edge i j w := by
  have hvert : ∀ {v : Option V} {k : ℕ},
      (numbered names g p u).vertOf v = some k ↔ (slots names)[k]? = some v :=
    vertOf_alignVerts hn rfl
  unfold csts
  simp only [hvert]
  exact Iff.rfl

theorem vertOf_dropVert {v : V} {n m : ℕ} (hv : d.vertMap.find? v = some n)
    (hm : m ≠ n) : (d.dropVert v n).vertOf x = some m ↔ d.vertOf x = some m := by
  cases x with
  | none => exact Iff.rfl
  | some u =>
    show (d.vertMap.erase v).find? u = some m ↔ d.vertMap.find? u = some m
    rw [OrdMap.find?_erase]
    split_ifs with huv
    · subst huv
      rw [hv]
      simp [hm.symm]
    · exact Iff.rfl

/-- Dropping an unused vertex keeps the constraints. -/
theorem csts_dropVert (hd : d.WF) {v : V} {n : ℕ} (hv : d.vertMap.find? v = some n)
    (hn : d.Unused n) : (d.dropVert v n).csts x y w ↔ d.csts x y w := by
  have hedge : ∀ s t, (d.dropVert v n).g.Edge s t w ↔ d.g.Edge s t w := by
    intro s t
    constructor
    · exact fun h => (edge_dropVert hd hv h).1
    · intro h
      show (d.g.forget n).lookup s t = some w
      rw [AdaptGraph.lookup_forget_of_not_free (hd.vert v n hv).2.2, if_pos (hn s t w h)]
      exact h
  unfold csts
  simp only [hedge]
  refine exists_congr fun s => exists_congr fun t => ?_
  constructor
  · rintro ⟨hs, ht, hw⟩
    obtain ⟨hsn, htn⟩ := hn s t w hw
    exact ⟨(vertOf_dropVert hv hsn).mp hs, (vertOf_dropVert hv htn).mp ht, hw⟩
  · rintro ⟨hs, ht, hw⟩
    obtain ⟨hsn, htn⟩ := hn s t w hw
    exact ⟨(vertOf_dropVert hv hsn).mpr hs, (vertOf_dropVert hv htn).mpr ht, hw⟩

/-- The constraints of a join are the edges of the joined graph. -/
theorem csts_join (ha : a.WF) (hta : a.isTop = false) (htb : b.isTop = false) :
    (a.join b).csts x y w ↔ ∃ i j, (slots (commonNames a b))[i]? = some x ∧
      (slots (commonNames a b))[j]? = some y ∧ (joinGraph a b).Edge i j w := by
  have hn := nodup_commonNames a b
  obtain ⟨-, hgraph⟩ := joinGraph_spec ha b
  have hwf := wf_numbered hn hgraph (p := 0 :: (commonNames a b).map a.relPot) (by simp) []
  rw [join_eq hta htb, ← csts_numbered hn (p := 0 :: (commonNames a b).map a.relPot) (u := [])]
  exact foldl_collect_induct (P := fun d' => d'.csts x y w ↔ _)
    (fun d' v n hd' hv hunused h => (csts_dropVert hd' hv hunused).trans h)
    (List.nodup_range.filter _) hwf (revMap_joinGraph hgraph) Iff.rfl

/-- A variable that a state relates to something is one of its variables. -/
theorem vertOf_of_short (h : d.csts.Short none x y w) :
    (∃ m, d.vertOf x = some m) ∧ ∃ m, d.vertOf y = some m := by
  rcases h with ⟨_, _, he⟩ | ⟨-, -, _, _, hs, ht, -⟩
  · exact vertOf_of_csts he
  · exact ⟨(vertOf_of_csts hs).1, (vertOf_of_csts ht).2⟩

theorem exists_slot_commonNames (ha : ∃ m, a.vertOf x = some m) (hb : ∃ m, b.vertOf x = some m) :
    ∃ i : ℕ, (slots (commonNames a b))[i]? = some x := by
  cases x with
  | none =>
    have hzero : (slots (commonNames a b))[0]? = some none := rfl
    exact ⟨0, hzero⟩
  | some v =>
    have hmem : v ∈ commonNames a b :=
      List.mem_filter.mpr ⟨OrdMap.mem_keys.mpr ha, Option.isSome_iff_exists.mpr hb⟩
    have hslot : some v ∈ slots (commonNames a b) :=
      List.mem_cons_of_mem _ (List.mem_map_of_mem hmem)
    exact List.mem_iff_getElem?.mp hslot

/-- What both operands imply is shown by the join. -/
theorem short_join (ha : a.WF) (hb : b.WF) (hna : a.NormalForm) (hnb : b.NormalForm)
    (hxy : x ≠ y) (hwa : a.csts.Implies x y w) (hwb : b.csts.Implies x y w) :
    (a.join b).csts.Short none x y w := by
  have hsa := hna.short ha hxy hwa
  have hsb := hnb.short hb hxy hwb
  have hnone : ∀ {d : SplitDbm V}, d.isTop = true → ¬ d.csts.Short none x y w := by
    intro d htop h
    rcases h with ⟨_, _, he⟩ | ⟨-, -, _, _, he, -⟩
    · exact not_csts_of_isTop htop he
    · exact not_csts_of_isTop htop he
  have hta : a.isTop = false := by
    rw [← Bool.not_eq_true]
    exact fun htop => hnone htop hsa
  have htb : b.isTop = false := by
    rw [← Bool.not_eq_true]
    exact fun htop => hnone htop hsb
  have hn := nodup_commonNames a b
  obtain ⟨hax, hay⟩ := vertOf_of_short hsa
  obtain ⟨hbx, hby⟩ := vertOf_of_short hsb
  obtain ⟨i, hi⟩ := exists_slot_commonNames hax hbx
  obtain ⟨j, hj⟩ := exists_slot_commonNames hay hby
  have hij : i ≠ j := by
    rintro rfl
    exact hxy (Option.some.inj (hi.symm.trans hj))
  rcases short_joinGraph ha hb hij (short_alignedSys hi hj hsa) (short_alignedSys hi hj hsb) with
    ⟨c, hc, he⟩ | ⟨hi0, hj0, s, t, hs, ht, hst⟩
  · exact Or.inl ⟨c, hc, (csts_join ha hta htb).mpr ⟨i, j, hi, hj, he⟩⟩
  · have hzero : (slots (commonNames a b))[0]? = some none := rfl
    refine Or.inr ⟨?_, ?_, s, t, (csts_join ha hta htb).mpr ⟨i, 0, hi, hzero, hs⟩,
      (csts_join ha hta htb).mpr ⟨0, j, hzero, hj, ht⟩, hst⟩
    · rintro rfl
      exact hi0 (slot_inj hn hi hzero)
    · rintro rfl
      exact hj0 (slot_inj hn hj hzero)

/-- The constraints of the join are implied by both operands. -/
theorem implies_of_csts_join (ha : a.WF) (hb : b.WF) (h : (a.join b).csts x y w) :
    a.csts.Implies x y w ∧ b.csts.Implies x y w := by
  cases htb : b.isTop with
  | true =>
    unfold join at h
    rw [if_pos htb] at h
    exact absurd h (not_csts_of_isTop htb)
  | false =>
    cases hta : a.isTop with
    | true =>
      unfold join at h
      rw [if_neg (by simp [htb]), if_pos hta] at h
      exact absurd h (not_csts_of_isTop hta)
    | false =>
      obtain ⟨i, j, hi, hj, he⟩ := (csts_join ha hta htb).mp h
      exact ⟨implies_csts_of_alignedSys hi hj ((joinGraph_spec ha b).1.implied i j w he),
        implies_csts_of_alignedSys hi hj ((edgesIn_joinGraph_right a hb).implied i j w he)⟩

/-- The join is above both operands. -/
theorem models_join (ha : a.WF) (hb : b.WF) (h : a.Models σ ∨ b.Models σ) :
    (a.join b).Models σ := by
  rw [models_iff (join_spec ha hb).1]
  rcases h with hσ | hσ
  · exact ((models_iff ha).mp hσ).of_implies fun s t c hc => (implies_of_csts_join ha hb hc).1
  · exact ((models_iff hb).mp hσ).of_implies fun s t c hc => (implies_of_csts_join ha hb hc).2

/-- The join implies what both operands imply. -/
theorem implies_join_iff (ha : a.WF) (hb : b.WF) (hna : a.NormalForm) (hnb : b.NormalForm) :
    (a.join b).csts.Implies x y w ↔ a.csts.Implies x y w ∧ b.csts.Implies x y w := by
  constructor
  · intro h
    constructor
    · intro φ hφ
      exact h φ (hφ.of_implies fun s t c hc => (implies_of_csts_join ha hb hc).1)
    · intro φ hφ
      exact h φ (hφ.of_implies fun s t c hc => (implies_of_csts_join ha hb hc).2)
  · rintro ⟨hwa, hwb⟩
    by_cases hxy : x = y
    · subst hxy
      obtain ⟨σ, hσ⟩ := hna.models
      have hle := (implies_csts_iff ha).mp hwa σ hσ
      exact (Implies.refl _ x).weaken (by omega)
    · exact (short_join ha hb hna hnb hxy hwa hwb).derives.implies

/-- The join of two states in split normal form is in split normal form, and its bounds are the
maxima of theirs: it is the least state above both. -/
theorem join_exact (ha : a.WF) (hb : b.WF) (hna : a.NormalForm) (hnb : b.NormalForm) :
    (a.join b).NormalForm ∧
    (∀ x y w, (∀ σ, (a.join b).Models σ → ext σ y ≤ ext σ x + w) ↔
      (∀ σ, a.Models σ → ext σ y ≤ ext σ x + w) ∧ (∀ σ, b.Models σ → ext σ y ≤ ext σ x + w)) ∧
    ∀ c : SplitDbm V, c.WF → ((∀ σ, (a.join b).Models σ → c.Models σ) ↔
      (∀ σ, a.Models σ → c.Models σ) ∧ (∀ σ, b.Models σ → c.Models σ)) := by
  have hj := (join_spec ha hb).1
  have hmodels : ∀ σ, a.Models σ ∨ b.Models σ → (a.join b).Models σ := fun σ h =>
    models_join ha hb h
  refine ⟨?_, fun x y w => ?_, fun c hc => ⟨fun h => ⟨?_, ?_⟩, ?_⟩⟩
  · obtain ⟨σ, hσ⟩ := hna.models
    refine normalForm_of_csts hj ⟨σ, hmodels σ (Or.inl hσ)⟩ fun x y w hxy hp => ?_
    obtain ⟨hwa, hwb⟩ := (implies_join_iff ha hb hna hnb).mp hp.implies
    exact short_join ha hb hna hnb hxy hwa hwb
  · rw [← implies_csts_iff hj, ← implies_csts_iff ha, ← implies_csts_iff hb]
    exact implies_join_iff ha hb hna hnb
  · exact fun σ hσ => h σ (hmodels σ (Or.inl hσ))
  · exact fun σ hσ => h σ (hmodels σ (Or.inr hσ))
  · rintro ⟨hac, hbc⟩ σ hσ
    rw [models_iff hc]
    intro x y w hw
    have hwj : (a.join b).csts.Implies x y w := (implies_join_iff ha hb hna hnb).mpr
      ⟨(implies_csts_iff ha).mpr fun τ hτ => (models_iff hc).mp (hac τ hτ) x y w hw,
        (implies_csts_iff hb).mpr fun τ hτ => (models_iff hc).mp (hbc τ hτ) x y w hw⟩
    exact hwj _ ((models_iff hj).mp hσ)

/-- `x0` is below `x1` by their bounds. -/
def below : SplitDbm ℕ := (top.set 0 (.ofInts 0 5)).set 1 (.ofInts 6 10)

/-- `x1` is `x0 + 1`, in a state with other bounds. -/
def successor : SplitDbm ℕ := (top.set 0 (.ofInts 20 30)).assign 1 ((LinearExpression.var 0).plusConst 1)

theorem wf_below : below.WF := wf_set (wf_set wf_top 0 _) 1 _

theorem wf_successor : successor.WF := wf_assign (wf_set wf_top 0 _) 1 _

theorem lookup_below : below.g.lookup 0 1 = some 5 ∧ below.g.lookup 2 0 = some (-6) := by decide

theorem lookup_successor : successor.g.lookup 2 1 = some (-1) := by decide

theorem lt_of_models_below {σ : ℕ → ℤ} (h : below.Models σ) : ext σ (some 0) ≤ ext σ (some 1) + -1 := by
  have hsat := (models_iff wf_below).mp h
  have hupper : ext σ (some 0) ≤ ext σ none + 5 := hsat none (some 0) 5 ⟨0, 1, by decide, by decide, lookup_below.1⟩
  have hlower : ext σ none ≤ ext σ (some 1) + -6 :=
    hsat (some 1) none (-6) ⟨2, 0, by decide, by decide, lookup_below.2⟩
  omega

theorem lt_of_models_successor {σ : ℕ → ℤ} (h : successor.Models σ) :
    ext σ (some 0) ≤ ext σ (some 1) + -1 :=
  (models_iff wf_successor).mp h (some 1) (some 0) (-1) ⟨2, 1, by decide, by decide, lookup_successor⟩

/-- The relation that one state has through its bounds and the other one as an edge is kept. -/
theorem join_exact_relation : (below.join successor).NormalForm ∧
    ∀ σ : ℕ → ℤ, (below.join successor).Models σ → ext σ (some 0) ≤ ext σ (some 1) + -1 := by
  have h := join_exact wf_below wf_successor (normalForm_of_entries (by decide) (by decide))
    (normalForm_of_entries (by decide) (by decide))
  exact ⟨h.1, (h.2.1 (some 1) (some 0) (-1)).mpr
    ⟨fun _ hσ => lt_of_models_below hσ, fun _ hσ => lt_of_models_successor hσ⟩⟩

end SplitDbm

end Prevail
