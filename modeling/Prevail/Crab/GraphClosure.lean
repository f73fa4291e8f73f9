import Prevail.Crab.GraphOps

/-!
# The closure procedures add implied constraints

Every edge that a closure procedure returns is implied by the graph it was given, and is not
weaker than the edge it replaces. Nothing is assumed of the potentials.

`DistsImplied` is the invariant of the searches: a recorded distance is the length of a path.
-/

namespace Prevail

namespace GraphOps

open DiffSys

/-! ## Dijkstra -/

section Dijkstra

variable {M : Type} [Inhabited M] {join : M → M → M} {p : ℕ → ℤ} {g : GraphView}
  {expand : ℕ → M → List (ℕ × ℤ × M)} {src : ℕ} {mark : ℕ → M}

/-- Each distance, measured relative to the potential, is implied. -/
def DistsImplied (E : DiffSys ℕ) (p : ℕ → ℤ) (src : ℕ) (dists : OrdMap ℕ ℤ) : Prop :=
  ∀ d v, dists.find? d = some v → E.Implies src d (v + p d - p src)

/-- What holds of the search between two steps. -/
structure SearchInv (g : GraphView) (p : ℕ → ℤ) (src : ℕ) (st : DijkstraState M) : Prop where
  implied : DistsImplied g.Edge p src st.dists
  heapDist : ∀ d ∈ st.heap, ∃ v, st.dists.find? d = some v
  heapTarget : ∀ d ∈ st.heap, ∃ s w, g.Edge s d w

theorem DistsImplied.insert {E : DiffSys ℕ} {dists : OrdMap ℕ ℤ} {d : ℕ} {v : ℤ}
    (h : DistsImplied E p src dists) (hd : E.Implies src d (v + p d - p src)) :
    DistsImplied E p src (dists.insert d v) := by
  intro a b hab
  rw [OrdMap.find?_insert] at hab
  split_ifs at hab with hd'
  · obtain rfl := Option.some.inj hab
    exact hd' ▸ hd
  · exact h a b hab

omit [Inhabited M] in
theorem SearchInv.setDist {st : DijkstraState M} {d : ℕ} {v : ℤ} (m : M)
    (h : SearchInv g p src st) (hd : g.Edge.Implies src d (v + p d - p src))
    (ht : ∃ s w, g.Edge s d w) : SearchInv g p src (setDist st d v m) := by
  have hmem : ∀ a ∈ (GraphOps.setDist st d v m).heap, a = d ∨ a ∈ st.heap := by
    intro a ha
    unfold GraphOps.setDist at ha
    simp only at ha
    split_ifs at ha with hin
    · exact Or.inr (Heap.mem_decrease hin ha)
    · exact Heap.mem_insert ha
  refine ⟨h.implied.insert hd, fun a ha => ?_, fun a ha => ?_⟩
  · show ∃ b, (st.dists.insert d v).find? a = some b
    rw [OrdMap.find?_insert]
    split_ifs with had
    · exact ⟨v, rfl⟩
    · exact h.heapDist a ((hmem a ha).resolve_left had)
  · rcases hmem a ha with rfl | ha
    · exact ht
    · exact h.heapTarget a ha

theorem SearchInv.relaxEdge {st : DijkstraState M} {es : ℕ} {esCost : ℤ} {e : ℕ × ℤ × M}
    (h : SearchInv g p src st) (hes : g.Edge.Implies src es (esCost - p src))
    (he : g.Edge es e.1 e.2.1) : SearchInv g p src (relaxEdge join p esCost st e) := by
  have hd : g.Edge.Implies src e.1 (esCost + e.2.1 - p e.1 + p e.1 - p src) := by
    have h1 := hes.snoc he
    rwa [show esCost + e.2.1 - p e.1 + p e.1 - p src = esCost - p src + e.2.1 by omega]
  unfold GraphOps.relaxEdge
  simp only
  split
  · exact h.setDist _ hd ⟨es, _, he⟩
  · split_ifs
    · exact h.setDist _ hd ⟨es, _, he⟩
    · exact ⟨h.implied, h.heapDist, h.heapTarget⟩
    · exact h

theorem SearchInv.relaxEdges {es : ℕ} {esCost : ℤ} {edges : List (ℕ × ℤ × M)}
    {st : DijkstraState M} (h : SearchInv g p src st)
    (hes : g.Edge.Implies src es (esCost - p src)) (he : ∀ e ∈ edges, g.Edge es e.1 e.2.1) :
    SearchInv g p src (edges.foldl (GraphOps.relaxEdge join p esCost) st) :=
  List.foldlRecOn _ _ h fun _ hst e hmem => hst.relaxEdge hes (he e hmem)

/-- What is said of each edge a closure procedure returns: it is implied, its ends have edges,
and it is not weaker than the edge it replaces. -/
structure Improves (g : GraphView) (s : ℕ) (a : ℕ × ℤ) : Prop where
  implied : g.Edge.Implies s a.1 a.2
  source : ∃ d w, g.Edge s d w
  target : ∃ s' w, g.Edge s' a.1 w
  tight : ∀ w, g.lookup s a.1 = some w → a.2 ≤ w

theorem improves_of_mem_improvement {es : ℕ} {esVal : ℤ} {a : ℕ × ℤ}
    (hes : g.Edge.Implies src es esVal) (hs : ∃ d w, g.Edge src d w) (ht : ∃ s w, g.Edge s es w)
    (ha : a ∈ improvement g src es esVal) : Improves g src a := by
  unfold improvement at ha
  split at ha
  · next hn =>
    obtain rfl := List.mem_singleton.mp ha
    exact ⟨hes, hs, ht, fun w hw => by simp [hn] at hw⟩
  · next w hw =>
    split_ifs at ha with hlt
    · obtain rfl := List.mem_singleton.mp ha
      refine ⟨hes, hs, ht, fun w' hw' => ?_⟩
      obtain rfl := Option.some.inj (hw.symm.trans hw')
      exact hlt.le
    · simp at ha

theorem improves_of_mem_dijkstraLoop
    (hx : ∀ es m, (∃ s w, g.Edge s es w) → ∀ e ∈ expand es m, g.Edge es e.1 e.2.1)
    (hs : ∃ d w, g.Edge src d w) {fuel : ℕ} {st : DijkstraState M} {out : List (ℕ × ℤ)}
    (h : SearchInv g p src st) (hout : ∀ a ∈ out, Improves g src a) :
    ∀ a ∈ dijkstraLoop join p g expand src fuel st out, Improves g src a := by
  induction fuel generalizing st out with
  | zero => exact hout
  | succ fuel ih =>
    unfold dijkstraLoop
    split
    · exact hout
    · next es heap hpop =>
      obtain ⟨hmem, hsub⟩ := Heap.mem_of_removeMin hpop
      obtain ⟨v, hv⟩ := h.heapDist es hmem
      have hes : g.Edge.Implies src es ((st.dists.find? es).getD 0 + p es - p src) := by
        rw [hv]
        exact h.implied es v hv
      have hpopped : SearchInv g p src { st with heap := heap } :=
        ⟨h.implied, fun d hd => h.heapDist d (hsub d hd), fun d hd => h.heapTarget d (hsub d hd)⟩
      refine ih (hpopped.relaxEdges hes (hx es _ (h.heapTarget es hmem))) fun a ha => ?_
      rcases List.mem_append.mp ha with ha | ha
      · exact hout a ha
      · exact improves_of_mem_improvement hes hs (h.heapTarget es hmem) ha

omit [Inhabited M] in
theorem searchInv_dijkstraInit : SearchInv g p src (dijkstraInit p g src mark) := by
  refine List.foldlRecOn _ _ ⟨fun d v hd => ?_, by simp, by simp⟩ fun st hst e he => ?_
  · rw [OrdMap.find?_insert] at hd
    split_ifs at hd with hs
    · obtain rfl := Option.some.inj hd
      rw [hs, show (0 : ℤ) + p src - p src = 0 by omega]
      exact Implies.refl _ _
    · simp at hd
  · refine hst.setDist _ ?_ ⟨src, _, he⟩
    rw [show p src + e.2 - p e.1 + p e.1 - p src = e.2 by omega]
    exact .of_edge he

/-- A search returns implied edges only, none weaker than the edge it replaces. -/
theorem improves_of_mem_dijkstra
    (hx : ∀ es m, (∃ s w, g.Edge s es w) → ∀ e ∈ expand es m, g.Edge es e.1 e.2.1) :
    ∀ a ∈ dijkstra join p g expand src mark, Improves g src a := by
  by_cases hs : ∃ d w, g.Edge src d w
  · exact improves_of_mem_dijkstraLoop hx hs searchInv_dijkstraInit (by simp)
  · have hnil : g.eSuccs src = [] :=
      List.eq_nil_iff_forall_not_mem.mpr fun e he => hs ⟨e.1, e.2, he⟩
    have hinit : (dijkstraInit p g src mark).heap = [] := by simp [dijkstraInit, hnil]
    unfold dijkstra
    cases g.size ^ g.size with
    | zero => simp [dijkstraLoop]
    | succ n => simp [dijkstraLoop, hinit, Heap.removeMin]

end Dijkstra

/-! ## Incremental closure -/

section Fwd

variable {g : GraphView} {p : ℕ → ℤ} {v : ℕ}

/-- What holds of `close_after_assign_fwd` between two steps. -/
structure FwdInv (g : GraphView) (v : ℕ) (st : FwdState) : Prop where
  implied : ∀ u x, st.dists.find? u = some x → g.Edge.Implies v u x
  tight : ∀ u w, g.Edge v u w → ∃ x ≤ w, st.dists.find? u = some x
  reach : ∀ u ∈ st.reach, (∃ x, st.dists.find? u = some x) ∧ ∃ s w, g.Edge s u w

theorem FwdInv.fwdEdge {st : FwdState} {d : ℕ} {dWt : ℤ} {e : ℕ × ℤ} (h : FwdInv g v st)
    (hd : g.Edge.Implies v d dWt) (he : g.Edge d e.1 e.2) : FwdInv g v (fwdEdge dWt st e) := by
  have himp : g.Edge.Implies v e.1 (dWt + e.2) := hd.snoc he
  unfold GraphOps.fwdEdge
  simp only
  split
  · next hnone =>
    refine ⟨fun u x hu => ?_, fun u w hw => ?_, fun u hu => ?_⟩
    · rw [OrdMap.find?_insert] at hu
      split_ifs at hu with hue
      · obtain rfl := Option.some.inj hu
        exact hue ▸ himp
      · exact h.implied u x hu
    · obtain ⟨x, hx, hfx⟩ := h.tight u w hw
      refine ⟨x, hx, ?_⟩
      rw [OrdMap.find?_insert_of_ne _]
      · exact hfx
      · rintro rfl
        simp [hnone] at hfx
    · rcases List.mem_append.mp hu with hu | hu
      · obtain ⟨⟨x, hx⟩, ht⟩ := h.reach u hu
        refine ⟨?_, ht⟩
        rw [OrdMap.find?_insert]
        split_ifs
        · exact ⟨_, rfl⟩
        · exact ⟨x, hx⟩
      · obtain rfl := List.mem_singleton.mp hu
        exact ⟨⟨_, OrdMap.find?_insert_self _ _ _⟩, d, _, he⟩
  · next old hold =>
    refine ⟨fun u x hu => ?_, fun u w hw => ?_, fun u hu => ?_⟩
    · rw [OrdMap.find?_insert] at hu
      split_ifs at hu with hue
      · obtain rfl := Option.some.inj hu
        rw [hue]
        rcases min_choice (dWt + e.2) old with hm | hm
        · rw [hm]
          exact himp
        · rw [hm]
          exact h.implied _ _ hold
      · exact h.implied u x hu
    · obtain ⟨x, hx, hfx⟩ := h.tight u w hw
      rw [OrdMap.find?_insert]
      split_ifs with hue
      · subst hue
        obtain rfl := Option.some.inj (hold.symm.trans hfx)
        exact ⟨_, (min_le_right _ _).trans hx, rfl⟩
      · exact ⟨x, hx, hfx⟩
    · obtain ⟨⟨x, hx⟩, ht⟩ := h.reach u hu
      refine ⟨?_, ht⟩
      rw [OrdMap.find?_insert]
      split_ifs
      · exact ⟨_, rfl⟩
      · exact ⟨x, hx⟩

/-- The distances of the direct successors. -/
theorem fwdInv_init (hfun : ∀ u w w', g.Edge v u w → g.Edge v u w' → w = w') :
    FwdInv g v ⟨fwdDists g v, []⟩ := by
  have hkeys : ∀ (l : List (ℕ × ℤ)) (m : OrdMap ℕ ℤ) (u : ℕ) (x : ℤ),
      (l.foldl (fun m e => m.insert e.1 e.2) m).find? u = some x →
        (u, x) ∈ l ∨ m.find? u = some x ∧ ∀ w, (u, w) ∉ l := by
    intro l
    induction l with
    | nil => exact fun m u x hu => Or.inr ⟨hu, by simp⟩
    | cons e l ih =>
      intro m u x hu
      rcases ih _ u x hu with hin | ⟨hm, hnot⟩
      · exact Or.inl (List.mem_cons_of_mem _ hin)
      · rw [OrdMap.find?_insert] at hm
        split_ifs at hm with hue
        · obtain rfl := Option.some.inj hm
          exact Or.inl (hue ▸ List.mem_cons_self)
        · refine Or.inr ⟨hm, fun w hw => ?_⟩
          rcases List.mem_cons.mp hw with rfl | hw
          · exact hue rfl
          · exact hnot w hw
  have hsome : ∀ (l : List (ℕ × ℤ)) (m : OrdMap ℕ ℤ) (u : ℕ),
      ((∃ w, (u, w) ∈ l) ∨ ∃ x, m.find? u = some x) →
        ∃ x, (l.foldl (fun m e => m.insert e.1 e.2) m).find? u = some x := by
    intro l
    induction l with
    | nil => exact fun m u hu => hu.resolve_left (by simp)
    | cons e l ih =>
      intro m u hu
      refine ih _ u ?_
      rw [OrdMap.find?_insert]
      by_cases hue : u = e.1
      · exact Or.inr ⟨e.2, if_pos hue⟩
      · rw [if_neg hue]
        refine hu.imp_left fun ⟨w, hw⟩ => ⟨w, ?_⟩
        exact (List.mem_cons.mp hw).resolve_left fun h => hue (congrArg Prod.fst h)
  refine ⟨fun u x hu => ?_, fun u w hw => ?_, by simp⟩
  · rcases hkeys _ _ u x hu with hin | ⟨hm, -⟩
    · exact .of_edge hin
    · rw [OrdMap.find?_insert] at hm
      split_ifs at hm with huv
      · obtain rfl := Option.some.inj hm
        exact huv ▸ Implies.refl _ _
      · simp at hm
  · obtain ⟨x, hx⟩ := hsome _ ((∅ : OrdMap ℕ ℤ).insert v 0) u (Or.inl ⟨w, hw⟩)
    refine ⟨x, ?_, hx⟩
    rcases hkeys _ _ u x hx with hin | ⟨-, hnot⟩
    · exact (hfun u x w hin hw).le
    · exact absurd hw (hnot w)

theorem mem_fwdAdj {d : ℕ} : d ∈ fwdAdj g p v ↔ ∃ w, g.Edge v d w := by
  simp [fwdAdj, List.mem_insertionSort, GraphView.Edge]

theorem fwdInv_fwdSearch (hfun : ∀ u w w', g.Edge v u w → g.Edge v u w' → w = w') :
    FwdInv g v (fwdSearch g p v) := by
  refine List.foldlRecOn _ _ (fwdInv_init hfun) fun st hst d hd => ?_
  refine List.foldlRecOn _ _ hst fun st' hst' e he => hst'.fwdEdge ?_ he
  obtain ⟨w, hw⟩ := mem_fwdAdj.mp hd
  obtain ⟨x, -, hx⟩ := hst.tight d w hw
  rw [distOf, hx]
  exact hst.implied d x hx

theorem improves_of_mem_closeAfterAssignFwd
    (hl : ∀ u w, (u, w) ∈ g.eSuccs v ↔ g.lookup v u = some w) :
    ∀ a ∈ closeAfterAssignFwd g p v, Improves g v a := by
  intro a ha
  obtain ⟨u, hu, rfl⟩ := List.mem_map.mp ha
  have hinv : FwdInv g v (fwdSearch g p v) := fwdInv_fwdSearch fun u w w' h h' =>
    Option.some.inj (((hl u w).mp h).symm.trans ((hl u w').mp h'))
  -- a vertex of the queue has a distance and an incoming edge
  have hq : (∃ x, (fwdSearch g p v).dists.find? u = some x) ∧ ∃ s w, g.Edge s u w := by
    rcases List.mem_append.mp hu with hu | hu
    · obtain ⟨w, hw⟩ := mem_fwdAdj.mp hu
      obtain ⟨x, -, hx⟩ := hinv.tight u w hw
      exact ⟨⟨x, hx⟩, v, w, hw⟩
    · exact hinv.reach u hu
  obtain ⟨⟨x, hx⟩, htgt⟩ := hq
  have hsrc : ∃ d w, g.Edge v d w := by
    by_contra hno
    have hnil : fwdAdj g p v = [] :=
      List.eq_nil_iff_forall_not_mem.mpr fun d hd =>
        let ⟨w, hw⟩ := mem_fwdAdj.mp hd
        hno ⟨d, w, hw⟩
    simp [fwdSearch, hnil] at hu
  have hdist : distOf (fwdSearch g p v).dists u = x := by rw [distOf, hx]; rfl
  refine ⟨hdist ▸ hinv.implied u x hx, hsrc, htgt, fun w hw => ?_⟩
  obtain ⟨y, hy, hfy⟩ := hinv.tight u w ((hl u w).mpr hw)
  obtain rfl := Option.some.inj (hx.symm.trans hfy)
  exact hdist ▸ hy

end Fwd

/-! ## New edges on the graph -/

/-- The edge `e` may replace what `g` has between its ends: it is implied by `g`, its ends have
edges, and it is not weaker. -/
structure Sharper (g : AdaptGraph) (e : ℕ × ℕ × ℤ) : Prop where
  implied : g.Edge.Implies e.1 e.2.1 e.2.2
  source : ∃ d w, g.Edge e.1 d w
  target : ∃ s w, g.Edge s e.2.1 w
  tight : ∀ w, g.Edge e.1 e.2.1 w → e.2.2 ≤ w

section Views

variable {g : AdaptGraph} {vEx s d : ℕ} {w : ℤ} {a : ℕ × ℤ}

theorem edge_view : g.view.Edge s d w ↔ g.Edge s d w := AdaptGraph.mem_eSuccs

theorem edge_graphRev : g.view.graphRev.Edge s d w ↔ g.Edge d s w := AdaptGraph.mem_ePreds

theorem edge_subGraph : (g.view.subGraph vEx).Edge s d w ↔ g.Edge s d w ∧ d ≠ vEx := by
  simp [GraphView.Edge, GraphView.subGraph, AdaptGraph.view, AdaptGraph.mem_eSuccs,
    AdaptGraph.Edge]

theorem edge_subGraph_graphRev :
    (g.view.subGraph vEx).graphRev.Edge s d w ↔ g.Edge d s w ∧ d ≠ vEx := by
  simp [GraphView.Edge, GraphView.graphRev, GraphView.subGraph, AdaptGraph.view,
    AdaptGraph.mem_ePreds, AdaptGraph.Edge]

theorem lookup_subGraph (hs : s ≠ vEx) (hd : d ≠ vEx) :
    (g.view.subGraph vEx).lookup s d = g.lookup s d := by
  simp [GraphView.subGraph, hs, hd, AdaptGraph.view]

theorem sharper_of_view (h : Improves g.view s a) : Sharper g (s, a.1, a.2) where
  implied := h.implied.mono fun _ _ _ => edge_view.mp
  source := h.source.imp fun _ => Exists.imp fun _ => edge_view.mp
  target := h.target.imp fun _ => Exists.imp fun _ => edge_view.mp
  tight w hw := h.tight w hw

theorem sharper_of_subGraph (hs : s ≠ vEx) (h : Improves (g.view.subGraph vEx) s a) :
    Sharper g (s, a.1, a.2) where
  implied := h.implied.mono fun _ _ _ hc => (edge_subGraph.mp hc).1
  source := h.source.imp fun _ => Exists.imp fun _ hc => (edge_subGraph.mp hc).1
  target := h.target.imp fun _ => Exists.imp fun _ hc => (edge_subGraph.mp hc).1
  tight w hw := by
    obtain ⟨_, _, ht⟩ := h.target
    exact h.tight w ((lookup_subGraph hs (edge_subGraph.mp ht).2).trans hw)

theorem sharper_of_graphRev (h : Improves g.view.graphRev s a) : Sharper g (a.1, s, a.2) where
  implied := (h.implied.mono fun _ _ _ => edge_graphRev.mp).of_reverse
  source := h.target.imp fun _ => Exists.imp fun _ => edge_graphRev.mp
  target := h.source.imp fun _ => Exists.imp fun _ => edge_graphRev.mp
  tight w hw := h.tight w hw

theorem sharper_of_subGraph_graphRev (hs : s ≠ vEx)
    (h : Improves (g.view.subGraph vEx).graphRev s a) : Sharper g (a.1, s, a.2) where
  implied := (h.implied.mono fun _ _ _ hc => (edge_subGraph_graphRev.mp hc).1).of_reverse
  source := h.target.imp fun _ => Exists.imp fun _ hc => (edge_subGraph_graphRev.mp hc).1
  target := h.source.imp fun _ => Exists.imp fun _ hc => (edge_subGraph_graphRev.mp hc).1
  tight w hw := by
    obtain ⟨_, _, ht⟩ := h.target
    exact h.tight w ((lookup_subGraph (edge_subGraph_graphRev.mp ht).2 hs).trans hw)

end Views

section Delta

variable {g : AdaptGraph} {delta : EdgeVector} {p : ℕ → ℤ} {σ : ℕ → ℤ}

theorem lookup_applyDelta {s d : ℕ} {w : ℤ} (h : (applyDelta g delta).lookup s d = some w) :
    g.lookup s d = some w ∨ (s, d, w) ∈ delta := by
  induction delta generalizing g with
  | nil => exact Or.inl h
  | cons e delta ih =>
    rcases ih h with h | h
    · rw [AdaptGraph.lookup_setEdge] at h
      split_ifs at h with he
      · obtain rfl := Option.some.inj h
        obtain ⟨rfl, rfl⟩ := he
        exact Or.inr List.mem_cons_self
      · exact Or.inl h
    · exact Or.inr (List.mem_cons_of_mem _ h)

theorem lookup_applyDelta_le {s d : ℕ} {w : ℤ}
    (ht : ∀ w', (s, d, w') ∈ delta → w' ≤ w) (h : ∃ w' ≤ w, g.lookup s d = some w') :
    ∃ w' ≤ w, (applyDelta g delta).lookup s d = some w' := by
  induction delta generalizing g with
  | nil => exact h
  | cons e delta ih =>
    refine ih (fun w' hw' => ht w' (List.mem_cons_of_mem _ hw')) ?_
    rw [AdaptGraph.lookup_setEdge]
    split_ifs with he
    · obtain ⟨rfl, rfl⟩ := he
      exact ⟨_, ht _ List.mem_cons_self, rfl⟩
    · exact h

/-- Applying sharper edges keeps the solutions. -/
theorem sat_applyDelta (h : ∀ e ∈ delta, Sharper g e) :
    (applyDelta g delta).Edge.Sat σ ↔ g.Edge.Sat σ := by
  constructor
  · intro hσ s d w hw
    obtain ⟨w', hle, hw'⟩ := lookup_applyDelta_le
      (fun w' hw' => (h _ hw').tight w hw) ⟨w, le_rfl, hw⟩
    have := hσ s d w' hw'
    omega
  · intro hσ
    refine hσ.of_implies fun s d w hw => ?_
    rcases lookup_applyDelta hw with hw | hw
    · exact .of_edge hw
    · exact (h _ hw).implied

/-- The new edges run between vertices that had edges. -/
theorem ends_applyDelta {P : ℕ → Prop} (h : ∀ e ∈ delta, Sharper g e)
    (hP : ∀ s d w, g.Edge s d w → P s ∧ P d) :
    ∀ s d w, (applyDelta g delta).Edge s d w → P s ∧ P d := by
  intro s d w hw
  rcases lookup_applyDelta hw with hw | hw
  · exact hP s d w hw
  · obtain ⟨d', w₁, h₁⟩ := (h _ hw).source
    obtain ⟨s', w₂, h₂⟩ := (h _ hw).target
    exact ⟨(hP _ _ _ h₁).1, (hP _ _ _ h₂).2⟩

@[simp] theorem size_applyDelta : (applyDelta g delta).size = g.size := by
  induction delta generalizing g with
  | nil => rfl
  | cons e delta ih => exact ih

@[simp] theorem freeId_applyDelta : (applyDelta g delta).freeId = g.freeId := by
  induction delta generalizing g with
  | nil => rfl
  | cons e delta ih => exact ih

theorem sharper_closeAfterAssign (v : ℕ) :
    ∀ e ∈ closeAfterAssign g.view p v, Sharper g e := by
  intro e he
  rcases List.mem_append.mp he with he | he
  · obtain ⟨a, ha, rfl⟩ := List.mem_map.mp he
    exact sharper_of_view
      (improves_of_mem_closeAfterAssignFwd (fun _ _ => AdaptGraph.mem_eSuccs) a ha)
  · obtain ⟨a, ha, rfl⟩ := List.mem_map.mp he
    exact sharper_of_graphRev
      (improves_of_mem_closeAfterAssignFwd (fun _ _ => AdaptGraph.mem_ePreds) a ha)

theorem sharper_closeAfterAssign_subGraph {v vEx : ℕ} (hv : v ≠ vEx) :
    ∀ e ∈ closeAfterAssign (g.view.subGraph vEx) p v, Sharper g e := by
  intro e he
  rcases List.mem_append.mp he with he | he
  · obtain ⟨a, ha, rfl⟩ := List.mem_map.mp he
    refine sharper_of_subGraph hv
      (improves_of_mem_closeAfterAssignFwd (fun u w => ?_) a ha)
    by_cases hu : u = vEx
    · simp [GraphView.subGraph, hu]
    · simp [GraphView.subGraph, hu, hv, AdaptGraph.view, AdaptGraph.mem_eSuccs]
  · obtain ⟨a, ha, rfl⟩ := List.mem_map.mp he
    refine sharper_of_subGraph_graphRev hv
      (improves_of_mem_closeAfterAssignFwd (fun u w => ?_) a ha)
    by_cases hu : u = vEx
    · simp [GraphView.graphRev, GraphView.subGraph, hu]
    · simp [GraphView.graphRev, GraphView.subGraph, hu, hv, AdaptGraph.view,
        AdaptGraph.mem_ePreds]

/-- An edge that the search follows is an edge of the view, with its own weight. -/
theorem edge_of_mem_chromeExpand {l r : GraphView} {vEx es : ℕ} {m : CMark}
    (hes : ∃ s w, (g.view.subGraph vEx).Edge s es w) :
    ∀ e ∈ chromeExpand (g.view.subGraph vEx) l r es m,
      (g.view.subGraph vEx).Edge es e.1 e.2.1 := by
  intro e he
  obtain ⟨_, _, hes⟩ := hes
  unfold chromeExpand at he
  by_cases hm : m = ⟨true, true⟩
  · simp [hm] at he
  · rw [if_neg hm] at he
    obtain ⟨ed, hed, rfl⟩ := List.mem_map.mp he
    obtain ⟨⟨ed, w⟩, hw, rfl⟩ := List.mem_map.mp (List.mem_filter.mp hed).1
    obtain ⟨hw, hd⟩ := edge_subGraph.mp hw
    refine edge_subGraph.mpr ⟨?_, hd⟩
    have hl : (g.view.subGraph vEx).lookup es ed = some w :=
      (lookup_subGraph (edge_subGraph.mp hes).2 hd).trans hw
    simp only [GraphView.edgeVal, hl, Option.getD_some]
    exact hw

theorem edge_of_mem_recoverExpand {g : GraphView} {isStable : ℕ → Bool} {es : ℕ} {m : SMark} :
    ∀ e ∈ recoverExpand g isStable es m, g.Edge es e.1 e.2.1 := by
  intro e he
  unfold recoverExpand at he
  by_cases hm : m = .stable
  · simp [hm] at he
  · rw [if_neg hm] at he
    obtain ⟨e', he', rfl⟩ := List.mem_map.mp he
    exact he'

theorem sharper_closeAfterMeet {l r : GraphView} {vEx : ℕ} :
    ∀ e ∈ closeAfterMeet (g.view.subGraph vEx) p l r, Sharper g e := by
  intro e he
  obtain ⟨v, hv, he⟩ := List.mem_flatMap.mp he
  obtain ⟨a, ha, rfl⟩ := List.mem_map.mp he
  exact sharper_of_subGraph (by simpa using (List.mem_filter.mp hv).2)
    (improves_of_mem_dijkstra (fun es m hes => edge_of_mem_chromeExpand hes) a ha)

theorem improves_of_mem_closeAfterWiden {isStable : ℕ → Bool} {vEx : ℕ} {e : ℕ × ℕ × ℤ}
    (he : e ∈ closeAfterWiden (g.view.subGraph vEx) p isStable) :
    e.1 ≠ vEx ∧ Improves (g.view.subGraph vEx) e.1 e.2 := by
  obtain ⟨v, hv, he⟩ := List.mem_flatMap.mp he
  unfold dijkstraRecover at he
  split_ifs at he with hst
  · simp at he
  · obtain ⟨a, ha, rfl⟩ := List.mem_map.mp he
    have hv' : v ≠ vEx := by
      simpa using (List.mem_filter.mp (List.mem_filter.mp hv).1).2
    exact ⟨hv', improves_of_mem_dijkstra (fun es m _ => edge_of_mem_recoverExpand) a ha⟩

theorem sharper_closeAfterWiden (isStable : ℕ → Bool) (vEx : ℕ) :
    ∀ e ∈ closeAfterWiden (g.view.subGraph vEx) p isStable, Sharper g e := fun _ he =>
  have h := improves_of_mem_closeAfterWiden he
  sharper_of_subGraph h.1 h.2

end Delta

/-! ## Repair of the potential -/

section Repair

variable {g : GraphView} {p : List ℤ} {ii : ℕ}

/-- A lowered vertex has its new potential through a path from `ii`. -/
structure RepairInv (g : GraphView) (p : List ℤ) (ii : ℕ) (st : RepairState) : Prop where
  implied : ∀ u v, st.dists.find? u = some v →
    u < p.length ∧ g.Edge.Implies ii u (p.getD u 0 + v - p.getD ii 0)
  heapDist : ∀ u ∈ st.heap, ∃ v, st.dists.find? u = some v
  altLength : st.distsAlt.length = p.length

theorem RepairInv.repairEdge {st : RepairState} {es : ℕ} {e : ℕ × ℤ} (h : RepairInv g p ii st)
    (hes : g.Edge.Implies ii es (st.distsAlt.getD es 0 - p.getD ii 0)) (he : g.Edge es e.1 e.2)
    (hlen : e.1 < p.length) : RepairInv g p ii (repairEdge p es st e) := by
  unfold GraphOps.repairEdge
  simp only
  split_ifs with halt hlt hin
  all_goals try exact h
  all_goals
    refine ⟨fun u v hu => ?_, fun u hu => ?_, h.altLength⟩
    · rw [OrdMap.find?_insert] at hu
      split_ifs at hu with hue
      · obtain rfl := Option.some.inj hu
        rw [hue, halt]
        refine ⟨hlen, ?_⟩
        rw [show p.getD e.1 0 + (st.distsAlt.getD es 0 + e.2 - p.getD e.1 0) - p.getD ii 0 =
          st.distsAlt.getD es 0 - p.getD ii 0 + e.2 by omega]
        exact hes.snoc he
      · exact h.implied u v hu
    · show ∃ v, (st.dists.insert _ _).find? u = some v
      rw [OrdMap.find?_insert]
      split_ifs with hue
      · exact ⟨_, rfl⟩
      · refine h.heapDist u ?_
        first
          | exact Heap.mem_decrease hin hu
          | exact (Heap.mem_insert hu).resolve_left hue

theorem distsAlt_repairEdge (es : ℕ) (st : RepairState) (e : ℕ × ℤ) :
    (repairEdge p es st e).distsAlt = st.distsAlt := by
  unfold GraphOps.repairEdge
  simp only
  split_ifs <;> rfl

theorem RepairInv.repairLoop (hlen : ∀ s d w, g.Edge s d w → d < p.length) (fuel : ℕ)
    {st : RepairState} (h : RepairInv g p ii st) : RepairInv g p ii (repairLoop g p fuel st) := by
  induction fuel generalizing st with
  | zero => exact h
  | succ fuel ih =>
    unfold GraphOps.repairLoop
    split
    · exact h
    · next es heap hpop =>
      obtain ⟨hmem, hsub⟩ := Heap.mem_of_removeMin hpop
      obtain ⟨v, hv⟩ := h.heapDist es hmem
      obtain ⟨hlt, himp⟩ := h.implied es v hv
      refine ih ?_
      -- the new potential of `es` is not touched while its edges are relaxed
      have key : ∀ (l : List (ℕ × ℤ)) (st' : RepairState), (∀ e ∈ l, g.Edge es e.1 e.2) →
          RepairInv g p ii st' → g.Edge.Implies ii es (st'.distsAlt.getD es 0 - p.getD ii 0) →
          RepairInv g p ii (l.foldl (GraphOps.repairEdge p es) st') := by
        intro l
        induction l with
        | nil => exact fun st' _ h' _ => h'
        | cons e l ihl =>
          intro st' hl h' hes
          have he := hl e List.mem_cons_self
          refine ihl _ (fun e' he' => hl e' (List.mem_cons_of_mem _ he'))
            (h'.repairEdge hes he (hlen _ _ _ he)) ?_
          rwa [distsAlt_repairEdge]
      refine key _ _ (fun e he => he) ⟨h.implied, fun u hu => h.heapDist u (hsub u hu), ?_⟩ ?_
      · simpa using h.altLength
      · rw [List.getD_eq_getElem _ _ (by simpa [h.altLength] using hlt), List.getElem_set_self, hv]
        exact himp

theorem length_repairLoop (fuel : ℕ) (st : RepairState) :
    (repairLoop g p fuel st).distsAlt.length = st.distsAlt.length := by
  induction fuel generalizing st with
  | zero => rfl
  | succ fuel ih =>
    unfold GraphOps.repairLoop
    split
    · rfl
    · next es heap _ =>
      rw [ih]
      refine List.foldlRecOn (motive := fun st' : RepairState =>
        st'.distsAlt.length = st.distsAlt.length) _ _ List.length_set fun st' h e _ => ?_
      rwa [distsAlt_repairEdge]

theorem length_repairPotential {jj : ℕ} {p' : List ℤ} (h : repairPotential g p ii jj = some p') :
    p'.length = p.length := by
  unfold repairPotential at h
  simp only at h
  split_ifs at h
  · rw [← Option.some.inj h]
  · rw [← Option.some.inj h, length_repairLoop]

/-- When the repair gives up, the edges have no solution. -/
theorem not_sat_of_repairPotential_eq_none {jj : ℕ} {σ : ℕ → ℤ}
    (hlen : ∀ s d w, g.Edge s d w → d < p.length) (hjj : g.Edge ii jj (g.edgeVal ii jj))
    (h : repairPotential g p ii jj = none) : ¬ g.Edge.Sat σ := by
  unfold repairPotential at h
  simp only at h
  split_ifs at h with h0 hneg
  have hinit : RepairInv g p ii ⟨(∅ : OrdMap ℕ ℤ).insert jj
      (p.getD ii 0 + g.edgeVal ii jj - p.getD jj 0), p, [jj]⟩ := by
    refine ⟨fun u v hu => ?_, fun u hu => ?_, rfl⟩
    · rw [OrdMap.find?_insert] at hu
      split_ifs at hu with huj
      · obtain rfl := Option.some.inj hu
        rw [huj]
        refine ⟨hlen _ _ _ hjj, ?_⟩
        rw [show p.getD jj 0 + (p.getD ii 0 + g.edgeVal ii jj - p.getD jj 0) - p.getD ii 0 =
          g.edgeVal ii jj by omega]
        exact .of_edge hjj
      · simp at hu
    · obtain rfl := List.mem_singleton.mp hu
      exact ⟨_, OrdMap.find?_insert_self _ _ _⟩
  have hinv := hinit.repairLoop hlen g.size
  cases hd : (repairLoop g p g.size ⟨(∅ : OrdMap ℕ ℤ).insert jj
      (p.getD ii 0 + g.edgeVal ii jj - p.getD jj 0), p, [jj]⟩).dists.find? ii with
  | none =>
    rw [hd] at hneg
    exact absurd hneg (by simp)
  | some v =>
    rw [hd, Option.getD_some] at hneg
    obtain ⟨-, himp⟩ := hinv.implied ii v hd
    exact not_sat_of_implies_neg himp (by omega)

end Repair

/-! ## Closure over one edge -/

section CloseOverEdge

variable {E : DiffSys ℕ} {g : AdaptGraph} {P : ℕ → Prop}

theorem tighten_eq_some {h : AdaptGraph} {s d : ℕ} {w : ℤ} (ht : tighten g s w d = some h) :
    h = g.setEdge s w d := by
  unfold tighten at ht
  split at ht
  · split_ifs at ht
    exact (Option.some.inj ht).symm
  · exact (Option.some.inj ht).symm

/-- The edges of `h` are implied by `E` and run between vertices in `P`. -/
structure EdgesIn (E : DiffSys ℕ) (P : ℕ → Prop) (h : AdaptGraph) : Prop where
  implied : ∀ s d w, h.Edge s d w → E.Implies s d w
  ends : ∀ s d w, h.Edge s d w → P s ∧ P d

theorem EdgesIn.setEdge (h : EdgesIn E P g) {s d : ℕ} {w : ℤ} (hi : E.Implies s d w) (hs : P s)
    (hd : P d) : EdgesIn E P (g.setEdge s w d) := by
  refine ⟨AdaptGraph.implies_setEdge h.implied hi, fun a b c hc => ?_⟩
  unfold AdaptGraph.Edge at hc
  rw [AdaptGraph.lookup_setEdge] at hc
  split_ifs at hc with hab
  · exact hab.1 ▸ hab.2 ▸ ⟨hs, hd⟩
  · exact h.ends a b c hc

theorem EdgesIn.updateEdge (h : EdgesIn E P g) {s d : ℕ} {w : ℤ} (hi : E.Implies s d w)
    (hs : P s) (hd : P d) : EdgesIn E P (g.updateEdge s w d) := by
  refine ⟨AdaptGraph.implies_updateEdge h.implied hi, fun a b c hc => ?_⟩
  unfold AdaptGraph.Edge at hc
  rw [AdaptGraph.lookup_updateEdge] at hc
  split_ifs at hc with hab
  · exact hab.1 ▸ hab.2 ▸ ⟨hs, hd⟩
  · exact h.ends a b c hc

variable {ii jj : ℕ} {c : ℤ}

theorem edgesIn_closeSrc (h : EdgesIn E P g) (hc : E.Implies ii jj c) (hj : P jj)
    {preds : List (ℕ × ℤ)} (hp : ∀ e ∈ preds, P e.1 ∧ E.Implies e.1 ii e.2) :
    EdgesIn E P (closeSrc g jj c preds).1 ∧ ∀ e ∈ (closeSrc g jj c preds).2, e ∈ preds := by
  unfold closeSrc
  refine List.foldlRecOn preds _ (motive := fun acc : AdaptGraph × List (ℕ × ℤ) =>
    EdgesIn E P acc.1 ∧ ∀ e ∈ acc.2, e ∈ preds) ⟨h, by simp⟩ ?_
  rintro ⟨h', dec⟩ ⟨hh, hdec⟩ e he
  simp only
  split_ifs with hej
  · exact ⟨hh, hdec⟩
  · split
    · next g' hg' =>
      rw [tighten_eq_some hg']
      refine ⟨hh.setEdge ((hp e he).2.trans hc) (hp e he).1 hj, fun e' he' => ?_⟩
      rcases List.mem_append.mp he' with he' | he'
      · exact hdec e' he'
      · exact List.mem_singleton.mp he' ▸ he
    · exact ⟨hh, hdec⟩

theorem edgesIn_closeDest (h : EdgesIn E P g) (hc : E.Implies ii jj c) (hi : P ii)
    {succs : List (ℕ × ℤ)} (hp : ∀ e ∈ succs, P e.1 ∧ E.Implies jj e.1 e.2) :
    EdgesIn E P (closeDest g ii c succs).1 ∧ ∀ e ∈ (closeDest g ii c succs).2, e ∈ succs := by
  unfold closeDest
  refine List.foldlRecOn succs _ (motive := fun acc : AdaptGraph × List (ℕ × ℤ) =>
    EdgesIn E P acc.1 ∧ ∀ e ∈ acc.2, e ∈ succs) ⟨h, by simp⟩ ?_
  rintro ⟨h', dec⟩ ⟨hh, hdec⟩ e he
  simp only
  split_ifs with hei
  · exact ⟨hh, hdec⟩
  · split
    · next g' hg' =>
      rw [tighten_eq_some hg']
      refine ⟨hh.setEdge ?_ hi (hp e he).1, fun e' he' => ?_⟩
      · rw [add_comm]
        exact hc.trans (hp e he).2
      rcases List.mem_append.mp he' with he' | he'
      · exact hdec e' he'
      · exact List.mem_singleton.mp he' ▸ he
    · exact ⟨hh, hdec⟩

/-- Closing over an edge adds implied constraints between vertices that have edges. -/
theorem EdgesIn.closeOverEdge (h : EdgesIn E P g) (he : g.Edge ii jj (g.edgeVal ii jj)) :
    EdgesIn E P (closeOverEdge g ii jj) := by
  have hc := h.implied _ _ _ he
  obtain ⟨hi, hj⟩ := h.ends _ _ _ he
  have hpred : ∀ e ∈ (g.view.subGraph 0).ePreds ii, P e.1 ∧ E.Implies e.1 ii e.2 := by
    intro e he'
    have hedge : g.Edge e.1 ii e.2 := AdaptGraph.mem_ePreds.mp (List.mem_filter.mp he').1
    exact ⟨(h.ends _ _ _ hedge).1, h.implied _ _ _ hedge⟩
  obtain ⟨hsrc, hsrcMem⟩ := edgesIn_closeSrc h hc hj hpred
  have hsucc : ∀ e ∈ ((closeSrc g jj (g.edgeVal ii jj)
      ((g.view.subGraph 0).ePreds ii)).1.view.subGraph 0).eSuccs jj,
      P e.1 ∧ E.Implies jj e.1 e.2 := by
    intro e he'
    have hedge := AdaptGraph.mem_eSuccs.mp (List.mem_filter.mp he').1
    exact ⟨(hsrc.ends _ _ _ hedge).2, hsrc.implied _ _ _ hedge⟩
  obtain ⟨hdest, hdestMem⟩ := edgesIn_closeDest hsrc hc hi hsucc
  refine List.foldlRecOn _ _ hdest fun h₁ hh₁ se hse => ?_
  refine List.foldlRecOn _ _ hh₁ fun h₂ hh₂ de hde => ?_
  cases ht : tighten h₂ se.1 (g.edgeVal ii jj + se.2 + de.2) de.1 with
  | none => exact hh₂
  | some g' =>
    obtain ⟨hps, his⟩ := hpred se (hsrcMem se hse)
    obtain ⟨hpd, hid⟩ := hsucc de (hdestMem de hde)
    rw [Option.getD_some, tighten_eq_some ht]
    refine hh₂.setEdge ?_ hps hpd
    have h3 := (his.trans hc).trans hid
    rwa [show se.2 + g.edgeVal ii jj + de.2 = g.edgeVal ii jj + se.2 + de.2 by omega] at h3

/-- What tightening an edge keeps is kept by closing over an edge. -/
theorem closeOverEdge_induction (Q : AdaptGraph → Prop) (g : AdaptGraph) (ii jj : ℕ) (h0 : Q g)
    (htight : ∀ {h h' : AdaptGraph} {s d : ℕ} {w : ℤ}, Q h → tighten h s w d = some h' → Q h') :
    Q (GraphOps.closeOverEdge g ii jj) := by
  have hsrc : ∀ (c : ℤ) (preds : List (ℕ × ℤ)), Q (closeSrc g jj c preds).1 := by
    intro c preds
    refine List.foldlRecOn preds _ (motive := fun acc : AdaptGraph × List (ℕ × ℤ) => Q acc.1)
      h0 fun acc hacc e _ => ?_
    split_ifs
    · exact hacc
    · split
      · next ht => exact htight hacc ht
      · exact hacc
  have hdest : ∀ (h : AdaptGraph) (c : ℤ) (succs : List (ℕ × ℤ)), Q h →
      Q (closeDest h ii c succs).1 := by
    intro h c succs hh
    refine List.foldlRecOn succs _ (motive := fun acc : AdaptGraph × List (ℕ × ℤ) => Q acc.1)
      hh fun acc hacc e _ => ?_
    split_ifs
    · exact hacc
    · split
      · next ht => exact htight hacc ht
      · exact hacc
  refine List.foldlRecOn (motive := Q) _ _ (hdest _ _ _ (hsrc _ _)) fun h₁ hh₁ se _ => ?_
  refine List.foldlRecOn (motive := Q) _ _ hh₁ fun h₂ hh₂ de _ => ?_
  cases ht : tighten h₂ se.1 (g.edgeVal ii jj + se.2 + de.2) de.1 with
  | none => exact hh₂
  | some g' => exact htight hh₂ ht

theorem shape_closeOverEdge (g : AdaptGraph) (ii jj : ℕ) :
    (GraphOps.closeOverEdge g ii jj).size = g.size ∧
      (GraphOps.closeOverEdge g ii jj).freeId = g.freeId := by
  refine closeOverEdge_induction (fun h => h.size = g.size ∧ h.freeId = g.freeId) g ii jj
    ⟨rfl, rfl⟩ fun hh ht => ?_
  rw [tighten_eq_some ht]
  exact hh

end CloseOverEdge

end GraphOps

end Prevail
