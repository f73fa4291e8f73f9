import Prevail.Crab.SlotGraph

/-!
# The weights behind the slots

`AdaptGraph`, the map from edges to weights, is what its representation means: each call on the
one is the same call on the other (`Represents.apply`). Slots that leak do no harm to that; only
clearing a graph that has free slots does.
-/

namespace Prevail

namespace SlotGraph

variable {g : SlotGraph} {a : AdaptGraph} {s d v : ℕ}

/-- The map from edges to weights of a representation. -/
structure Represents (g : SlotGraph) (a : AdaptGraph) : Prop where
  size : a.size = g.size
  freeId : a.freeId = g.freeId
  lookup : ∀ s d, a.lookup s d = (g.slots (s, d)).map fun i => g.ws.getD i 0

theorem represents_empty : Represents empty AdaptGraph.empty := ⟨rfl, rfl, fun _ _ => rfl⟩

/-- The slot of a new edge holds its weight, and no other edge has lost its own. -/
theorem getD_allot (h : WF g) (w : ℤ) :
    (g.allot w).2.1.getD (g.allot w).1 0 = w ∧
      ∀ e i, g.slots e = some i → (g.allot w).2.1.getD i 0 = g.ws.getD i 0 := by
  have htable := h.table
  unfold allot
  split
  · next idx rest hfree =>
    rw [hfree] at htable
    have hidx := htable.free_inside idx List.mem_cons_self
    refine ⟨by rw [getD_set hidx, if_pos rfl], fun e i hi => ?_⟩
    rw [getD_set hidx, if_neg]
    rintro rfl
    exact htable.disjoint e i hi List.mem_cons_self
  · refine ⟨?_, fun e i hi => List.getD_append _ _ _ _ (h.table.inside e i hi)⟩
    rw [List.getD_append_right _ _ _ _ le_rfl, Nat.sub_self]
    rfl

theorem Represents.addEdge (h : Represents g a) (hg : WF g) (hs : s < g.size) (hd : d < g.size)
    (w : ℤ) : Represents (g.addEdge s w d) (a.addEdge s w d) := by
  obtain ⟨hnew, hold⟩ := getD_allot hg w
  refine ⟨h.size.trans (size_addEdge ..).symm, h.freeId, fun b c => ?_⟩
  rw [AdaptGraph.lookup_addEdge, slots_addEdge hg hs hd, Function.update_apply, h.lookup]
  change _ = Option.map (fun i => (g.allot w).2.1.getD i 0) _
  by_cases hbc : b = s ∧ c = d
  · rw [if_pos hbc, if_pos (Prod.ext hbc.1 hbc.2), Option.map_some, hnew]
  · rw [if_neg hbc, if_neg fun heq => hbc (Prod.mk.inj heq)]
    exact Option.map_congr fun i hi => (hold (b, c) i hi).symm

/-- A change of the weight in a slot changes the edge that has it. -/
theorem Represents.setWeight (h : Represents g a) (hg : WF g) {idx : ℕ}
    (hidx : g.slots (s, d) = some idx) (w : ℤ) :
    Represents { g with ws := g.ws.set idx w } (a.setEdge s w d) := by
  refine ⟨h.size, h.freeId, fun b c => ?_⟩
  have hlt := hg.table.inside _ idx hidx
  rw [AdaptGraph.lookup_setEdge, h.lookup]
  change _ = Option.map (fun i => (g.ws.set idx w).getD i 0) (g.slots (b, c))
  by_cases hbc : b = s ∧ c = d
  · rw [if_pos hbc, hbc.1, hbc.2, hidx, Option.map_some, getD_set hlt, if_pos rfl]
  · rw [if_neg hbc]
    refine Option.map_congr fun i hi => ?_
    rw [getD_set hlt, if_neg]
    rintro rfl
    exact hbc (Prod.mk.inj (hg.table.distinct _ _ i hi hidx))

theorem Represents.setEdge (h : Represents g a) (hg : WF g) (hs : s < g.size) (hd : d < g.size)
    (w : ℤ) : Represents (g.setEdge s w d) (a.setEdge s w d) := by
  unfold SlotGraph.setEdge
  rw [hg.lookup hd]
  split
  · next idx hidx => exact h.setWeight hg hidx w
  · exact h.addEdge hg hs hd w

theorem Represents.updateEdge (h : Represents g a) (hg : WF g) (hs : s < g.size) (hd : d < g.size)
    (w : ℤ) : Represents (g.updateEdge s w d) (a.updateEdge s w d) := by
  unfold SlotGraph.updateEdge AdaptGraph.updateEdge
  rw [hg.lookup hd, h.lookup]
  cases hidx : g.slots (s, d) with
  | none => exact h.addEdge hg hs hd w
  | some idx => exact h.setWeight hg hidx _

theorem Represents.newVertex (h : Represents g a) : Represents g.newVertex a.newVertex.2 := by
  have hlook : ∀ s d, a.newVertex.2.lookup s d = a.lookup s d := by
    intro s d
    unfold AdaptGraph.newVertex
    split <;> rfl
  have hfields : a.newVertex.2.size = g.newVertex.size ∧ a.newVertex.2.freeId = g.newVertex.freeId := by
    have hsize := h.size
    unfold SlotGraph.newVertex AdaptGraph.newVertex
    cases hfree : g.freeId with
    | nil =>
      rw [h.freeId, hfree]
      exact ⟨by simpa [SlotGraph.size] using hsize, rfl⟩
    | cons v rest =>
      rw [h.freeId, hfree]
      exact ⟨hsize, rfl⟩
  refine ⟨hfields.1, hfields.2, fun s d => ?_⟩
  rw [hlook, h.lookup, (slots_newVertex g).1, (table_newVertex g).1]

theorem Represents.forget (h : Represents g a) (hg : WF g) (hv : v < g.size) :
    Represents (g.forget v) (a.forget v) := by
  cases hfree : g.isFree.getD v true with
  | true =>
    have hmem : v ∈ a.freeId := h.freeId ▸ (hg.free v).mpr ⟨hv, hfree⟩
    rwa [forget_of_free hfree, AdaptGraph.forget, if_pos hmem]
  | false =>
    have hmem : v ∉ a.freeId := fun hmem => by
      rw [h.freeId, hg.free, hfree] at hmem
      cases hmem.2
    have hf := forget_spec hg ⟨hv, hfree⟩
    refine ⟨?_, ?_, fun s d => ?_⟩
    · rw [AdaptGraph.forget, if_neg hmem, hf.size]
      exact h.size
    · rw [AdaptGraph.forget, if_neg hmem, hf.freeId, ← h.freeId]
    · rw [AdaptGraph.lookup_forget_of_not_free hmem, h.lookup, hf.slots, hf.ws]
      by_cases hgone : s = v ∨ d = v
      · have htrue : gone v (s, d) = true := decide_eq_true hgone
        simp only [htrue]
        rw [if_neg (by tauto)]
        rfl
      · have hfalse : gone v (s, d) = false := decide_eq_false hgone
        simp only [hfalse]
        rw [if_pos (not_or.mp hgone)]
        rfl

/-- The call on the map from edges to weights. -/
def Op.onMap : Op → AdaptGraph → AdaptGraph
  | .newVertex, a => a.newVertex.2
  | .addEdge s w d, a => a.addEdge s w d
  | .updateEdge s w d, a => a.updateEdge s w d
  | .setEdge s w d, a => a.setEdge s w d
  | .forget v, a => a.forget v
  | .clearEdges, a => { a with edges := ∅ }

theorem Represents.apply (h : Represents g a) (hg : WF g) {op : Op} (hop : op.Allowed g) :
    Represents (g.apply op) (op.onMap a) := by
  cases op with
  | newVertex => exact h.newVertex
  | addEdge s w d => exact h.addEdge hg hop.1.lt hop.2.1.lt w
  | updateEdge s w d => exact h.updateEdge hg hop.1.lt hop.2.lt w
  | setEdge s w d => exact h.setEdge hg hop.1.lt hop.2.lt w
  | forget v => exact h.forget hg hop
  | clearEdges =>
    refine ⟨h.size.trans (size_clearEdges hg).symm, h.freeId, fun s d => ?_⟩
    change _ = (g.clearEdges.slots (s, d)).map _
    rw [slots_clearEdges hg]
    rfl

/-- A graph is cleared only without free slots. -/
def Op.ClearsFull (g : SlotGraph) (op : Op) : Prop := op = .clearEdges → g.freeWidx = []

theorem WF.apply (h : WF g) {op : Op} (hop : op.Allowed g) (hclear : op.ClearsFull g) :
    WF (g.apply op) := by
  cases op with
  | newVertex => exact h.newVertex hop
  | addEdge s w d =>
    obtain ⟨hs, hd, hnew⟩ := hop
    unfold elem at hnew
    rw [h.lookup hd.lt] at hnew
    exact h.addEdge hs hd w (by simpa using hnew)
  | updateEdge s w d => exact h.updateEdge hop.1 hop.2 w
  | setEdge s w d => exact h.setEdge hop.1 hop.2 w
  | forget v => exact h.forget hop
  | clearEdges => exact h.clearEdges (hclear rfl)

/-- All that can be looked up is that of the map: the vertices, and each edge with its weight, from
its source and from its target. -/
structure Shows (g : SlotGraph) (a : AdaptGraph) : Prop where
  verts : ∀ v, v ∈ a.verts ↔ g.IsVert v
  succs : ∀ s, ∀ d < g.size, a.lookup s d =
    (TreeSMap.lookup (g.succsOf s) d).map fun i => g.ws.getD i 0
  preds : ∀ s < g.size, ∀ d, a.lookup s d =
    (TreeSMap.lookup (g.predsOf d) s).map fun i => g.ws.getD i 0

theorem Represents.shows (h : Represents g a) (hg : WF g) : Shows g a where
  verts v := by
    have hmem : v ∈ a.freeId ↔ v < g.size ∧ g.isFree.getD v true = true := by
      rw [h.freeId]
      exact hg.free v
    unfold AdaptGraph.verts IsVert
    rw [List.mem_filter, List.mem_range, h.size, decide_eq_true_iff, hmem, ← Bool.not_eq_true]
    exact and_congr_right fun hv => not_congr (and_iff_right hv)
  succs s d hd := by
    rw [hg.lookup hd]
    exact h.lookup s d
  preds s hs d := by
    have hkey : TreeSMap.lookup (g.predsOf d) s = g.predSlots (s, d) := by
      unfold TreeSMap.lookup predSlots
      rw [TreeSMap.key_of_lt (hs.trans hg.size_lt)]
    rw [hkey, ← hg.dual]
    exact h.lookup s d

/-- After any run that clears no graph with free slots, the representation shows the graph that the
same calls make as a map. -/
theorem shows_run {ops : List Op} (hops : Meets Op.Allowed empty ops)
    (hclear : Meets Op.ClearsFull empty ops) :
    Shows (empty.run ops) (ops.foldl (fun a op => op.onMap a) AdaptGraph.empty) := by
  suffices key : ∀ g a, WF g → Represents g a → Meets Op.Allowed g ops → Meets Op.ClearsFull g ops →
      Shows (g.run ops) (ops.foldl (fun a op => op.onMap a) a) from
    key empty AdaptGraph.empty sound_empty.toWF represents_empty hops hclear
  clear hops hclear
  induction ops with
  | nil => exact fun g a hg h _ _ => h.shows hg
  | cons op ops ih =>
    rintro g a hg h ⟨hop, hops⟩ ⟨hclear, hclears⟩
    exact ih _ _ (hg.apply hop hclear) (h.apply hg hop) hops hclears

/-- An edge whose target is forgotten, and a new edge after it. -/
theorem shows_run_forget_target :
    Shows (empty.run [.newVertex, .newVertex, .addEdge 0 5 1, .forget 1, .newVertex, .addEdge 0 7 1])
      (([.newVertex, .newVertex, .addEdge 0 5 1, .forget 1, .newVertex, .addEdge 0 7 1] : List Op).foldl
        (fun a op => op.onMap a) AdaptGraph.empty) :=
  shows_run (by decide) (by simp [Meets, Op.ClearsFull])

end SlotGraph

end Prevail
