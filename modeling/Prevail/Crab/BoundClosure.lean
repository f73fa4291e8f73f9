import Prevail.Crab.SplitDbmMeet

/-!
# Closure around one vertex

`close_after_assign` follows two edges from a vertex, and two edges back to it. Every path of two
edges is found (`atMost_closeAfterAssign`), whatever the potentials are: these only order the
visits, and the distance of a direct successor is at most the weight of its edge at any time.
-/

namespace Prevail

/-- A loop that reaches `P` at one element and keeps it, under an invariant. -/
theorem foldl_reaches_of_inv {α β : Type*} {I P : β → Prop} {f : β → α → β} {l : List α} {x : α}
    (hx : x ∈ l) (hI : ∀ b, I b → ∀ y ∈ l, I (f b y)) (hstep : ∀ b, I b → P (f b x))
    (hkeep : ∀ b, I b → ∀ y ∈ l, P b → P (f b y)) {b : β} (hb : I b) : P (l.foldl f b) := by
  induction l generalizing b with
  | nil => cases hx
  | cons y l ih =>
    rw [List.foldl_cons]
    have hIl : ∀ b, I b → ∀ z ∈ l, I (f b z) := fun b hb z hz => hI b hb z (List.mem_cons_of_mem _ hz)
    have hkeepl : ∀ b, I b → ∀ z ∈ l, P b → P (f b z) := fun b hb z hz =>
      hkeep b hb z (List.mem_cons_of_mem _ hz)
    by_cases hmem : x ∈ l
    · exact ih hmem hIl hkeepl (hI b hb y List.mem_cons_self)
    · obtain rfl := (List.mem_cons.mp hx).resolve_right hmem
      have hrun : I (l.foldl f (f b x)) ∧ P (l.foldl f (f b x)) :=
        List.foldlRecOn (motive := fun b => I b ∧ P b) l f
          ⟨hI b hb x List.mem_cons_self, hstep b hb⟩
          fun b h z hz => ⟨hIl b h.1 z hz, hkeepl b h.1 z hz h.2⟩
      exact hrun.2

namespace GraphOps

section Fwd

variable {g : GraphView} {p : ℕ → ℤ} {v u d e : ℕ} {a b w : ℤ} {st : FwdState}

/-- The vertex `u` has a distance of at most `w`. -/
def WithinDist (u : ℕ) (w : ℤ) (st : FwdState) : Prop := ∃ x ≤ w, st.dists.find? u = some x

/-- Vertices with a distance are the start, its successors, and those listed as reached. -/
def Listed (g : GraphView) (p : ℕ → ℤ) (v : ℕ) (st : FwdState) : Prop :=
  ∀ u x, st.dists.find? u = some x → u = v ∨ u ∈ fwdAdj g p v ∨ u ∈ st.reach

theorem WithinDist.fwdEdge {dWt : ℤ} {t : ℕ × ℤ} (h : WithinDist u w st) :
    WithinDist u w (fwdEdge dWt st t) := by
  obtain ⟨x, hx, hfx⟩ := h
  unfold GraphOps.fwdEdge WithinDist
  simp only
  split
  · next hnone =>
    refine ⟨x, hx, ?_⟩
    rw [OrdMap.find?_insert_of_ne _]
    · exact hfx
    · rintro rfl
      simp [hnone] at hfx
  · next old hold =>
    rw [OrdMap.find?_insert]
    split_ifs with hut
    · subst hut
      obtain rfl := Option.some.inj (hold.symm.trans hfx)
      exact ⟨_, (min_le_right _ _).trans hx, rfl⟩
    · exact ⟨x, hx, hfx⟩

theorem withinDist_fwdEdge (dWt : ℤ) (st : FwdState) (t : ℕ × ℤ) :
    WithinDist t.1 (dWt + t.2) (fwdEdge dWt st t) := by
  unfold GraphOps.fwdEdge WithinDist
  simp only
  split
  · exact ⟨_, le_rfl, OrdMap.find?_insert_self _ _ _⟩
  · exact ⟨_, min_le_left _ _, OrdMap.find?_insert_self _ _ _⟩

theorem WithinDist.weaken {w' : ℤ} (h : WithinDist u w st) (hw : w ≤ w') : WithinDist u w' st :=
  let ⟨x, hx, hfx⟩ := h
  ⟨x, hx.trans hw, hfx⟩

theorem Listed.fwdEdge {dWt : ℤ} {t : ℕ × ℤ} (h : Listed g p v st) :
    Listed g p v (fwdEdge dWt st t) := by
  intro u x hu
  unfold GraphOps.fwdEdge at hu ⊢
  simp only at hu ⊢
  split at hu
  · rw [OrdMap.find?_insert] at hu
    split_ifs at hu with hut
    · exact Or.inr (Or.inr (List.mem_append_right _ (List.mem_singleton.mpr hut)))
    · exact (h u x hu).imp_right fun h => h.imp_right fun h => List.mem_append_left _ h
  · next old hold =>
    rw [OrdMap.find?_insert] at hu
    split_ifs at hu with hut
    · exact hut ▸ h t.1 old hold
    · exact h u x hu

theorem listed_fwdDists : Listed g p v ⟨fwdDists g v, []⟩ := by
  have hkeys : ∀ (l : List (ℕ × ℤ)) (m : OrdMap ℕ ℤ) (u : ℕ) (x : ℤ),
      (l.foldl (fun m e => m.insert e.1 e.2) m).find? u = some x →
        (∃ w, (u, w) ∈ l) ∨ m.find? u = some x := by
    intro l
    induction l with
    | nil => exact fun m u x hu => Or.inr hu
    | cons e l ih =>
      intro m u x hu
      rcases ih _ u x hu with ⟨w, hw⟩ | hm
      · exact Or.inl ⟨w, List.mem_cons_of_mem _ hw⟩
      · rw [OrdMap.find?_insert] at hm
        split_ifs at hm with hue
        · exact Or.inl ⟨e.2, hue ▸ List.mem_cons_self⟩
        · exact Or.inr hm
  intro u x hu
  rcases hkeys _ _ u x hu with ⟨w, hw⟩ | hm
  · exact Or.inr (Or.inl (mem_fwdAdj.mpr ⟨w, hw⟩))
  · rw [OrdMap.find?_insert] at hm
    split_ifs at hm with huv
    · exact Or.inl huv
    · simp at hm

/-- The visit of one direct successor. -/
def fwdVisit (g : GraphView) (st : FwdState) (d : ℕ) : FwdState :=
  (g.eSuccs d).foldl (fwdEdge (distOf st.dists d)) st

theorem fwdSearch_eq (g : GraphView) (p : ℕ → ℤ) (v : ℕ) :
    fwdSearch g p v = (fwdAdj g p v).foldl (fwdVisit g) ⟨fwdDists g v, []⟩ := rfl

theorem WithinDist.fwdVisit (h : WithinDist u w st) : WithinDist u w (fwdVisit g st d) :=
  List.foldlRecOn _ _ h fun _ hst _ _ => hst.fwdEdge

theorem withinDist_fwdVisit (hd : WithinDist d a st) (he : g.Edge d e b) :
    WithinDist e (a + b) (fwdVisit g st d) := by
  obtain ⟨x, hx, hfx⟩ := hd
  have hdist : distOf st.dists d = x := by
    rw [distOf, hfx]
    rfl
  refine foldl_reaches (P := WithinDist e (a + b)) he (fun st' => ?_)
    (fun st' t _ hst => hst.fwdEdge) st
  rw [hdist]
  exact (withinDist_fwdEdge x st' (e, b)).weaken (by show x + b ≤ a + b; omega)

variable (hfun : ∀ u w w', g.Edge v u w → g.Edge v u w' → w = w')

include hfun

/-- Both edges of a path are followed. -/
theorem withinDist_fwdSearch (hd : g.Edge v d a) (he : g.Edge d e b) :
    WithinDist e (a + b) (fwdSearch g p v) := by
  rw [fwdSearch_eq]
  refine foldl_reaches_of_inv (I := WithinDist d a) (P := WithinDist e (a + b))
    (mem_fwdAdj.mpr ⟨a, hd⟩) (fun st hst u _ => hst.fwdVisit) (fun st hst => ?_)
    (fun st _ u _ hst => hst.fwdVisit) ?_
  · exact withinDist_fwdVisit hst he
  · exact (fwdInv_init hfun).tight d a hd

omit hfun in
theorem listed_fwdSearch : Listed g p v (fwdSearch g p v) := by
  rw [fwdSearch_eq]
  exact List.foldlRecOn _ _ listed_fwdDists fun st hst d _ =>
    List.foldlRecOn (motive := Listed g p v) _ _ hst fun _ h _ _ => h.fwdEdge

/-- A path of two edges is among the new edges, and is no longer than any of these. -/
theorem mem_closeAfterAssignFwd (hd : g.Edge v d a) (he : g.Edge d e b) (hev : e ≠ v) :
    (∃ x, (e, x) ∈ closeAfterAssignFwd g p v) ∧
      ∀ x, (e, x) ∈ closeAfterAssignFwd g p v → x ≤ a + b := by
  obtain ⟨x, hx, hfx⟩ := withinDist_fwdSearch (p := p) hfun hd he
  have hdist : distOf (fwdSearch g p v).dists e = x := by
    rw [distOf, hfx]
    rfl
  constructor
  · refine ⟨x, List.mem_map.mpr ⟨e, ?_, by rw [hdist]⟩⟩
    have hlisted := (listed_fwdSearch (p := p) e x hfx).resolve_left hev
    exact List.mem_append.mpr hlisted
  · intro y hy
    obtain ⟨e', -, heq⟩ := List.mem_map.mp hy
    obtain ⟨rfl, rfl⟩ := Prod.mk.inj heq
    rw [hdist]
    exact hx

end Fwd

/-! ## New edges -/

variable {g : AdaptGraph} {h : GraphView} {delta : EdgeVector} {p : ℕ → ℤ} {v d e s : ℕ} {a b w : ℤ}

/-- An edge of a list of new edges replaces what is there. -/
theorem atMost_applyDelta (hmem : ∃ x, (s, d, x) ∈ delta)
    (hle : ∀ x, (s, d, x) ∈ delta → x ≤ w) : AtMost s d w (applyDelta g delta) := by
  obtain ⟨x, hx⟩ := hmem
  unfold applyDelta
  refine foldl_reaches (P := AtMost s d w) hx (fun g => ?_) (fun g t ht hg => ?_) g
  · exact ⟨x, hle x hx, by simp [AdaptGraph.lookup_setEdge]⟩
  · refine hg.addEdge fun hs hd => hle t.2.2 ?_
    rw [← hs, ← hd]
    exact ht

/-- A path of two edges from `v`. -/
theorem atMost_closeAfterAssign_from (hfun : ∀ u w w', h.Edge v u w → h.Edge v u w' → w = w')
    (hd : h.Edge v d a) (he : h.Edge d e b) (hev : e ≠ v) :
    AtMost v e (a + b) (applyDelta g (closeAfterAssign h p v)) := by
  obtain ⟨⟨x, hx⟩, hle⟩ := mem_closeAfterAssignFwd (p := p) hfun hd he hev
  refine atMost_applyDelta ⟨x, List.mem_append_left _ (List.mem_map.mpr ⟨_, hx, rfl⟩)⟩
    fun y hy => ?_
  rcases List.mem_append.mp hy with hy | hy
  · obtain ⟨c, hc, heq⟩ := List.mem_map.mp hy
    obtain rfl : c = (e, y) := by simpa using heq
    exact hle y hc
  · obtain ⟨c, -, heq⟩ := List.mem_map.mp hy
    exact absurd (by simpa using congrArg (fun t => t.2.1) heq : v = e).symm hev

/-- On the whole graph. -/
theorem atMost_closeAfterAssign (hd : g.Edge v d a) (he : g.Edge d e b) (hev : e ≠ v) :
    AtMost v e (a + b) (applyDelta g (closeAfterAssign g.view p v)) :=
  atMost_closeAfterAssign_from
    (fun _ _ _ h h' => Option.some.inj ((edge_view.mp h).symm.trans (edge_view.mp h')))
    (edge_view.mpr hd) (edge_view.mpr he) hev

end GraphOps

end Prevail
