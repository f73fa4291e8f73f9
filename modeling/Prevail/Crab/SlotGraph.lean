import Mathlib.Data.Finset.Card
import Mathlib.Data.Finset.Prod
import Prevail.Crab.AdaptGraph
import Prevail.Crab.Heap
import Prevail.Lib.SlotTable

/-!
# The weight table of the graph

How `AdaptGraph` is represented in the source: the weights are in a table, a list holds the slots
of the table that are free, and two sparse maps for each vertex, `_succs` and `_preds`, lead from
the other end of an edge to its slot.

`Sound` is the invariant that the two copies of the adjacency agree and that every slot belongs to
one edge or is free. `forget` frees the slots of the outgoing edges only, and `clear_edges`
empties the table without the list of free slots: `sound_iff` states that a run keeps the invariant
exactly when it forgets only vertices that no other vertex has an edge to, and clears only graphs
without free slots.
-/

namespace Prevail

/-- `TreeSMap`, the map from the other ends of edges to slots. Its keys have 16 bits. -/
abbrev TreeSMap := OrdMap ℕ ℕ

namespace TreeSMap

def key (v : ℕ) : ℕ := v % 2 ^ 16

def lookup (m : TreeSMap) (v : ℕ) : Option ℕ := m.find? (key v)

def remove (m : TreeSMap) (v : ℕ) : TreeSMap := m.erase (key v)

def add (m : TreeSMap) (v i : ℕ) : TreeSMap := m.insert (key v) i

theorem key_of_lt {v : ℕ} (h : v < 2 ^ 16) : key v = v := Nat.mod_eq_of_lt h

end TreeSMap

/-- `AdaptGraph` as it is represented. The back of a stack is the head of its list. -/
structure SlotGraph where
  preds : List TreeSMap
  succs : List TreeSMap
  ws : List ℤ
  edgeCount : ℕ
  isFree : List Bool
  freeId : List ℕ
  freeWidx : List ℕ

/-- Change one map of an adjacency. -/
def updateAt (l : List TreeSMap) (v : ℕ) (f : TreeSMap → TreeSMap) : List TreeSMap :=
  l.set v (f (l.getD v ∅))

namespace SlotGraph

def empty : SlotGraph := ⟨[], [], [], 0, [], [], []⟩

def size (g : SlotGraph) : ℕ := g.succs.length

def succsOf (g : SlotGraph) (v : ℕ) : TreeSMap := g.succs.getD v ∅

def predsOf (g : SlotGraph) (v : ℕ) : TreeSMap := g.preds.getD v ∅

/-- The vertices of the graph: `verts` yields those that are not free. -/
def IsVert (g : SlotGraph) (v : ℕ) : Prop := v < g.size ∧ g.isFree.getD v true = false

instance (g : SlotGraph) (v : ℕ) : Decidable (g.IsVert v) :=
  inferInstanceAs (Decidable (v < g.size ∧ g.isFree.getD v true = false))

def newVertex (g : SlotGraph) : SlotGraph :=
  match g.freeId with
  | v :: rest => { g with freeId := rest, isFree := g.isFree.set v false }
  | [] => { g with isFree := g.isFree ++ [false], succs := g.succs ++ [∅], preds := g.preds ++ [∅] }

/-- Free the slots of the outgoing edges, and remove these from the predecessors of their ends. -/
def forgetSuccs (g : SlotGraph) (v : ℕ) (es : List (ℕ × ℕ)) : SlotGraph :=
  es.foldl (fun g e => { g with
    freeWidx := e.2 :: g.freeWidx
    preds := updateAt g.preds e.1 fun m => TreeSMap.remove m v }) g

/-- Remove the incoming edges from the successors of their ends. -/
def forgetPreds (g : SlotGraph) (v : ℕ) (ks : List ℕ) : SlotGraph :=
  ks.foldl (fun g k => { g with succs := updateAt g.succs k fun m => TreeSMap.remove m v }) g

def forget (g : SlotGraph) (v : ℕ) : SlotGraph :=
  if g.isFree.getD v true then g
  else
    let g := g.forgetSuccs v (g.succsOf v).entries
    let g := { g with
      edgeCount := g.edgeCount - (g.succsOf v).entries.length
      succs := g.succs.set v ∅ }
    let g := g.forgetPreds v (g.predsOf v).keys
    { g with
      edgeCount := g.edgeCount - (g.predsOf v).entries.length
      preds := g.preds.set v ∅
      isFree := g.isFree.set v true
      freeId := v :: g.freeId }

/-- `clear_edges`. Only the maps of the vertices that are not free are cleared. -/
def clearEdges (g : SlotGraph) : SlotGraph :=
  let clear (l : List TreeSMap) := (l.zip g.isFree).map fun e => if e.2 then e.1 else ∅
  { g with ws := [], succs := clear g.succs, preds := clear g.preds, edgeCount := 0 }

def elem (g : SlotGraph) (s d : ℕ) : Bool := (TreeSMap.lookup (g.succsOf s) d).isSome

/-- The slot for a new edge, freed last or new, with the table and the free slots after it. -/
def allot (g : SlotGraph) (w : ℤ) : ℕ × List ℤ × List ℕ :=
  match g.freeWidx with
  | idx :: rest => (idx, g.ws.set idx w, rest)
  | [] => (g.ws.length, g.ws ++ [w], [])

def addEdge (g : SlotGraph) (s : ℕ) (w : ℤ) (d : ℕ) : SlotGraph :=
  let (idx, ws, freeWidx) := g.allot w
  { g with
    ws := ws
    freeWidx := freeWidx
    succs := updateAt g.succs s fun m => TreeSMap.add m d idx
    preds := updateAt g.preds d fun m => TreeSMap.add m s idx
    edgeCount := g.edgeCount + 1 }

def updateEdge (g : SlotGraph) (s : ℕ) (w : ℤ) (d : ℕ) : SlotGraph :=
  match TreeSMap.lookup (g.succsOf s) d with
  | some idx => { g with ws := g.ws.set idx (min (g.ws.getD idx 0) w) }
  | none => g.addEdge s w d

def setEdge (g : SlotGraph) (s : ℕ) (w : ℤ) (d : ℕ) : SlotGraph :=
  match TreeSMap.lookup (g.succsOf s) d with
  | some idx => { g with ws := g.ws.set idx w }
  | none => g.addEdge s w d

/-! ## Runs -/

/-- A call that changes the graph. -/
inductive Op where
  | newVertex
  | addEdge (s : ℕ) (w : ℤ) (d : ℕ)
  | updateEdge (s : ℕ) (w : ℤ) (d : ℕ)
  | setEdge (s : ℕ) (w : ℤ) (d : ℕ)
  | forget (v : ℕ)
  | clearEdges

def apply (g : SlotGraph) : Op → SlotGraph
  | .newVertex => g.newVertex
  | .addEdge s w d => g.addEdge s w d
  | .updateEdge s w d => g.updateEdge s w d
  | .setEdge s w d => g.setEdge s w d
  | .forget v => g.forget v
  | .clearEdges => g.clearEdges

def run (g : SlotGraph) (ops : List Op) : SlotGraph := ops.foldl apply g

/-- What the calls of a run rely on: fewer than `2 ^ 16` vertices, edges between vertices of the
graph, and `add_edge` on absent edges. -/
def Op.Allowed (g : SlotGraph) : Op → Prop
  | .newVertex => g.newVertex.size < 2 ^ 16
  | .addEdge s _ d => g.IsVert s ∧ g.IsVert d ∧ g.elem s d = false
  | .updateEdge s _ d => g.IsVert s ∧ g.IsVert d
  | .setEdge s _ d => g.IsVert s ∧ g.IsVert d
  | .forget v => v < g.size
  | .clearEdges => True

instance (g : SlotGraph) : (op : Op) → Decidable (op.Allowed g)
  | .newVertex => inferInstanceAs (Decidable (_ < _))
  | .addEdge _ _ _ => inferInstanceAs (Decidable (_ ∧ _ ∧ _))
  | .updateEdge _ _ _ => inferInstanceAs (Decidable (_ ∧ _))
  | .setEdge _ _ _ => inferInstanceAs (Decidable (_ ∧ _))
  | .forget _ => inferInstanceAs (Decidable (_ < _))
  | .clearEdges => .isTrue trivial

/-- Every call of the run meets `P` where it is made. -/
def Meets (P : SlotGraph → Op → Prop) : SlotGraph → List Op → Prop
  | _, [] => True
  | g, op :: ops => P g op ∧ Meets P (g.apply op) ops

instance decidableMeets {P : SlotGraph → Op → Prop} [∀ g op, Decidable (P g op)] (g : SlotGraph) :
    (ops : List Op) → Decidable (Meets P g ops)
  | [] => .isTrue trivial
  | op :: ops =>
    haveI := decidableMeets (P := P) (g.apply op) ops
    inferInstanceAs (Decidable (P g op ∧ Meets P (g.apply op) ops))

/-! ## The invariant -/

variable {g : SlotGraph} {s d u v : ℕ}

/-- The slot of an edge, by its source. -/
def slots (g : SlotGraph) (e : ℕ × ℕ) : Option ℕ := (g.succsOf e.1).find? e.2

/-- The slot of an edge, by its target. -/
def predSlots (g : SlotGraph) (e : ℕ × ℕ) : Option ℕ := (g.predsOf e.2).find? e.1

def edges (g : SlotGraph) : Finset (ℕ × ℕ) :=
  (Finset.range g.size ×ˢ Finset.range g.size).filter fun e => (g.slots e).isSome

/-- The two copies of the adjacency agree, they are counted right, and each edge has a slot of its
own, which is not free. -/
structure WF (g : SlotGraph) : Prop where
  length_preds : g.preds.length = g.size
  length_isFree : g.isFree.length = g.size
  size_lt : g.size < 2 ^ 16
  dual : g.slots = g.predSlots
  isVert : ∀ e i, g.slots e = some i → g.IsVert e.1 ∧ g.IsVert e.2
  count : g.edgeCount = g.edges.card
  table : SlotTable.Valid g.slots g.ws.length g.freeWidx
  free : ∀ v, v ∈ g.freeId ↔ v < g.size ∧ g.isFree.getD v true = true
  nodup : g.freeId.Nodup

/-- Moreover no slot leaks. -/
structure Sound (g : SlotGraph) : Prop extends WF g where
  noLeak : SlotTable.NoLeak g.slots g.ws.length g.freeWidx

theorem sound_empty : Sound empty where
  length_preds := rfl
  length_isFree := rfl
  size_lt := by decide
  dual := rfl
  isVert := nofun
  count := rfl
  table := ⟨nofun, nofun, nofun, nofun, List.nodup_nil⟩
  free := by simp [empty, size]
  nodup := List.nodup_nil
  noLeak := nofun

theorem getD_updateAt {l : List TreeSMap} (hv : v < l.length) (f : TreeSMap → TreeSMap) (u : ℕ) :
    (updateAt l v f).getD u ∅ = if u = v then f (l.getD v ∅) else l.getD u ∅ := getD_set hv _ _ _

theorem IsVert.lt (h : g.IsVert v) : v < g.size := h.1

theorem WF.lookup (h : WF g) (hd : d < g.size) (s : ℕ) :
    TreeSMap.lookup (g.succsOf s) d = g.slots (s, d) := by
  unfold TreeSMap.lookup slots
  rw [TreeSMap.key_of_lt (hd.trans h.size_lt)]

theorem mem_edges (h : WF g) {e : ℕ × ℕ} : e ∈ g.edges ↔ (g.slots e).isSome := by
  unfold edges
  rw [Finset.mem_filter, Finset.mem_product, Finset.mem_range, Finset.mem_range]
  refine ⟨fun he => he.2, fun he => ⟨?_, he⟩⟩
  obtain ⟨i, hi⟩ := Option.isSome_iff_exists.mp he
  exact ⟨(h.isVert e i hi).1.lt, (h.isVert e i hi).2.lt⟩

/-! ### Adding an edge -/

theorem slots_addEdge (h : WF g) (hs : s < g.size) (hd : d < g.size) (w : ℤ) :
    (g.addEdge s w d).slots = Function.update g.slots (s, d) (some (g.allot w).1) := by
  funext e
  have hmap : (g.addEdge s w d).succsOf e.1 =
      if e.1 = s then TreeSMap.add (g.succsOf s) d (g.allot w).1 else g.succsOf e.1 :=
    getD_updateAt hs (fun m => TreeSMap.add m d (g.allot w).1) e.1
  rw [Function.update_apply]
  unfold slots
  rw [hmap]
  by_cases he : e.1 = s
  · rw [if_pos he, TreeSMap.add, OrdMap.find?_insert, TreeSMap.key_of_lt (hd.trans h.size_lt), he]
    simp [Prod.ext_iff, he]
  · rw [if_neg he, if_neg fun heq => he (congrArg Prod.fst heq)]

theorem predSlots_addEdge (h : WF g) (hs : s < g.size) (hd : d < g.size) (w : ℤ) :
    (g.addEdge s w d).predSlots = Function.update g.predSlots (s, d) (some (g.allot w).1) := by
  funext e
  have hmap : (g.addEdge s w d).predsOf e.2 =
      if e.2 = d then TreeSMap.add (g.predsOf d) s (g.allot w).1 else g.predsOf e.2 :=
    getD_updateAt (h.length_preds ▸ hd) (fun m => TreeSMap.add m s (g.allot w).1) e.2
  rw [Function.update_apply]
  unfold predSlots
  rw [hmap]
  by_cases he : e.2 = d
  · rw [if_pos he, TreeSMap.add, OrdMap.find?_insert, TreeSMap.key_of_lt (hs.trans h.size_lt), he]
    simp [Prod.ext_iff, he]
  · rw [if_neg he, if_neg fun heq => he (congrArg Prod.snd heq)]

theorem size_addEdge (g : SlotGraph) (s : ℕ) (w : ℤ) (d : ℕ) : (g.addEdge s w d).size = g.size :=
  List.length_set

theorem valid_allot (h : WF g) (w : ℤ) (e : ℕ × ℕ) :
    SlotTable.Valid (Function.update g.slots e (some (g.allot w).1)) (g.allot w).2.1.length
      (g.allot w).2.2 := by
  have htable := h.table
  unfold allot
  split
  · next idx rest hfree =>
    rw [List.length_set]
    exact (hfree ▸ htable).take e
  · next hfree =>
    rw [List.length_append, List.length_singleton]
    exact (hfree ▸ htable).grow.take e

theorem noLeak_allot (h : Sound g) (w : ℤ) {e : ℕ × ℕ} (he : g.slots e = none) :
    SlotTable.NoLeak (Function.update g.slots e (some (g.allot w).1)) (g.allot w).2.1.length
      (g.allot w).2.2 := by
  have hleak := h.noLeak
  unfold allot
  split
  · next idx rest hfree =>
    rw [List.length_set]
    exact (hfree ▸ hleak).take he
  · next hfree =>
    rw [List.length_append, List.length_singleton]
    exact (hfree ▸ hleak).grow.take he

theorem WF.addEdge (h : WF g) (hs : g.IsVert s) (hd : g.IsVert d) (w : ℤ)
    (hnew : g.slots (s, d) = none) : WF (g.addEdge s w d) := by
  have hslots := slots_addEdge h hs.lt hd.lt w
  have hedges : (g.addEdge s w d).edges = insert (s, d) g.edges := by
    ext e
    unfold edges
    rw [hslots, size_addEdge, Finset.mem_insert, Finset.mem_filter, Finset.mem_filter,
      Function.update_apply]
    by_cases he : e = (s, d)
    · simp [he, hs.lt, hd.lt]
    · simp [he]
  have hnot : (s, d) ∉ g.edges := by
    rw [mem_edges h, hnew]
    simp
  refine ⟨?_, h.length_isFree.trans (size_addEdge ..).symm, (size_addEdge ..).trans_lt h.size_lt, ?_,
    fun e i he => ?_, ?_, ?_, ?_, h.nodup⟩
  · exact (List.length_set.trans h.length_preds).trans (size_addEdge ..).symm
  · rw [hslots, predSlots_addEdge h hs.lt hd.lt, h.dual]
  · unfold IsVert
    rw [size_addEdge]
    rw [hslots, Function.update_apply] at he
    split_ifs at he with heq
    · rw [heq]
      exact ⟨hs, hd⟩
    · exact h.isVert e i he
  · rw [hedges, Finset.card_insert_of_notMem hnot, ← h.count]
    rfl
  · rw [hslots]
    exact valid_allot h w (s, d)
  · rw [size_addEdge]
    exact h.free

theorem Sound.addEdge (h : Sound g) (hs : g.IsVert s) (hd : g.IsVert d) (w : ℤ)
    (hnew : g.slots (s, d) = none) : Sound (g.addEdge s w d) :=
  ⟨h.toWF.addEdge hs hd w hnew, by
    rw [slots_addEdge h.toWF hs.lt hd.lt]
    exact noLeak_allot h w hnew⟩

/-- A change of a weight touches no slot. -/
theorem WF.setWeight (h : WF g) (idx : ℕ) (w : ℤ) : WF { g with ws := g.ws.set idx w } where
  length_preds := h.length_preds
  length_isFree := h.length_isFree
  size_lt := h.size_lt
  dual := h.dual
  isVert := h.isVert
  count := h.count
  table := by
    simp only [List.length_set]
    exact h.table
  free := h.free
  nodup := h.nodup

theorem Sound.setWeight (h : Sound g) (idx : ℕ) (w : ℤ) : Sound { g with ws := g.ws.set idx w } where
  toWF := h.toWF.setWeight idx w
  noLeak := by
    simp only [List.length_set]
    exact h.noLeak

theorem WF.setEdge (h : WF g) (hs : g.IsVert s) (hd : g.IsVert d) (w : ℤ) : WF (g.setEdge s w d) := by
  unfold SlotGraph.setEdge
  rw [h.lookup hd.lt]
  split
  · exact h.setWeight _ _
  · next hnone => exact h.addEdge hs hd w hnone

theorem WF.updateEdge (h : WF g) (hs : g.IsVert s) (hd : g.IsVert d) (w : ℤ) :
    WF (g.updateEdge s w d) := by
  unfold SlotGraph.updateEdge
  rw [h.lookup hd.lt]
  split
  · exact h.setWeight _ _
  · next hnone => exact h.addEdge hs hd w hnone

theorem Sound.setEdge (h : Sound g) (hs : g.IsVert s) (hd : g.IsVert d) (w : ℤ) :
    Sound (g.setEdge s w d) := by
  unfold SlotGraph.setEdge
  rw [h.toWF.lookup hd.lt]
  split
  · exact h.setWeight _ _
  · next hnone => exact h.addEdge hs hd w hnone

theorem Sound.updateEdge (h : Sound g) (hs : g.IsVert s) (hd : g.IsVert d) (w : ℤ) :
    Sound (g.updateEdge s w d) := by
  unfold SlotGraph.updateEdge
  rw [h.toWF.lookup hd.lt]
  split
  · exact h.setWeight _ _
  · next hnone => exact h.addEdge hs hd w hnone

/-! ### New vertices -/

theorem getD_concat_empty (l : List TreeSMap) (v : ℕ) : (l ++ [∅]).getD v ∅ = l.getD v ∅ := by
  rw [List.getD_eq_getElem?_getD, List.getD_eq_getElem?_getD, List.getElem?_append]
  split_ifs with hlt
  · rfl
  · rw [List.getElem?_eq_none (l := l) (by omega)]
    by_cases h0 : v - l.length = 0
    · rw [h0]
      rfl
    · rw [List.getElem?_eq_none (by simp; omega)]

theorem slots_newVertex (g : SlotGraph) :
    g.newVertex.slots = g.slots ∧ g.newVertex.predSlots = g.predSlots := by
  unfold newVertex
  split
  · exact ⟨rfl, rfl⟩
  · constructor
    · funext e
      exact congrArg (OrdMap.find? · e.2) (getD_concat_empty g.succs e.1)
    · funext e
      exact congrArg (OrdMap.find? · e.1) (getD_concat_empty g.preds e.2)

theorem edges_eq {g' : SlotGraph} (h : WF g) (hslots : g'.slots = g.slots) (hsize : g.size ≤ g'.size) :
    g'.edges = g.edges := by
  ext e
  rw [mem_edges h]
  unfold edges
  rw [hslots, Finset.mem_filter, Finset.mem_product, Finset.mem_range, Finset.mem_range]
  refine ⟨fun he => he.2, fun he => ⟨?_, he⟩⟩
  obtain ⟨i, hi⟩ := Option.isSome_iff_exists.mp he
  obtain ⟨h₁, h₂⟩ := h.isVert e i hi
  exact ⟨h₁.lt.trans_le hsize, h₂.lt.trans_le hsize⟩

theorem IsVert.concat (h : g.IsVert v) : IsVert { g with
    isFree := g.isFree ++ [false], succs := g.succs ++ [∅], preds := g.preds ++ [∅] } v := by
  obtain ⟨hv, hfree⟩ := h
  refine ⟨by simpa [size] using Nat.lt_succ_of_lt hv, ?_⟩
  by_cases hlt : v < g.isFree.length
  · exact (List.getD_append _ _ _ _ hlt).trans hfree
  · rw [List.getD_eq_default _ _ (not_lt.mp hlt)] at hfree
    cases hfree

theorem WF.newVertex (h : WF g) (hsize : g.newVertex.size < 2 ^ 16) : WF g.newVertex := by
  obtain ⟨hslots, hpredSlots⟩ := slots_newVertex g
  revert hsize hslots hpredSlots
  unfold SlotGraph.newVertex
  split
  · next v rest hfree =>
    intro hsize hslots hpredSlots
    have hfree' := h.free
    have hnodup := h.nodup
    rw [hfree] at hfree' hnodup
    obtain ⟨hv, hrest⟩ := List.nodup_cons.mp hnodup
    have hlt : v < g.isFree.length := h.length_isFree ▸ ((hfree' v).mp List.mem_cons_self).1
    have hvert : ∀ u, g.IsVert u →
        IsVert { g with freeId := rest, isFree := g.isFree.set v false } u := by
      intro u hu
      refine ⟨hu.1, (getD_set hlt ..).trans ?_⟩
      split_ifs
      · rfl
      · exact hu.2
    refine ⟨h.length_preds, List.length_set.trans h.length_isFree, h.size_lt, h.dual,
      fun e i he => (h.isVert e i he).imp (hvert _) (hvert _), h.count, h.table, fun u => ?_, hrest⟩
    simp only
    rw [getD_set hlt]
    split_ifs with hu
    · simp [hu, hv]
    · exact (List.mem_cons.trans (or_iff_right hu)).symm.trans (hfree' u)
  · next hfree =>
    intro hsize hslots hpredSlots
    have hlen : g.isFree.length = g.size := h.length_isFree
    have hfree' := h.free
    rw [hfree] at hfree'
    refine ⟨?_, ?_, hsize, hslots.trans (h.dual.trans hpredSlots.symm), fun e i he => ?_, ?_,
      hslots ▸ h.table, fun u => ?_, hfree ▸ h.nodup⟩
    · simp [size, h.length_preds]
    · simp [size, h.length_isFree]
    · rw [hslots] at he
      exact (h.isVert e i he).imp IsVert.concat (IsVert.concat)
    · rw [edges_eq h hslots (by simp [size])]
      exact h.count
    · have hsize' : (g.succs ++ [(∅ : TreeSMap)]).length = g.size + 1 := by simp [size]
      change u ∈ g.freeId ↔ u < (g.succs ++ [∅]).length ∧ (g.isFree ++ [false]).getD u true = true
      rw [hsize', h.free]
      rcases lt_trichotomy u g.isFree.length with hu | rfl | hu
      · rw [List.getD_append _ _ _ _ hu]
        exact and_congr_left fun _ => by omega
      · rw [List.getD_append_right _ _ _ _ le_rfl, Nat.sub_self]
        simp [hlen]
      · exact ⟨fun hold => absurd hold.1 (by omega), fun hnew => absurd hnew.1 (by omega)⟩

theorem table_newVertex (g : SlotGraph) :
    g.newVertex.ws = g.ws ∧ g.newVertex.freeWidx = g.freeWidx := by
  unfold newVertex
  split <;> exact ⟨rfl, rfl⟩

theorem Sound.newVertex (h : Sound g) (hsize : g.newVertex.size < 2 ^ 16) : Sound g.newVertex := by
  refine ⟨h.toWF.newVertex hsize, ?_⟩
  rw [(slots_newVertex g).1, (table_newVertex g).1, (table_newVertex g).2]
  exact h.noLeak

/-! ### Removing a vertex -/

theorem find?_updateAt_remove (l : List TreeSMap) (hv : v < 2 ^ 16) (k a b : ℕ) :
    ((updateAt l k fun m => TreeSMap.remove m v).getD b ∅).find? a =
      if b = k ∧ a = v then none else (l.getD b ∅).find? a := by
  by_cases hk : k < l.length
  · rw [getD_updateAt hk]
    by_cases hb : b = k
    · rw [if_pos hb, TreeSMap.remove, TreeSMap.key_of_lt hv, OrdMap.find?_erase, hb]
      simp
    · simp [hb]
  · have hnone : (l.getD k ∅).find? a = none := by
      rw [List.getD_eq_default _ _ (not_lt.mp hk)]
      rfl
    rw [updateAt, List.set_eq_of_length_le (not_lt.mp hk)]
    split_ifs with h
    · rw [h.1, hnone]
    · rfl

theorem ite_none_ite_none {P Q R : Prop} [Decidable P] [Decidable Q] [Decidable R] {x : Option ℕ}
    (h : R ↔ P ∨ Q) : (if P then none else if Q then none else x) = if R then none else x := by
  by_cases hP : P
  · rw [if_pos hP, if_pos (h.mpr (Or.inl hP))]
  · by_cases hQ : Q
    · rw [if_neg hP, if_pos hQ, if_pos (h.mpr (Or.inr hQ))]
    · rw [if_neg hP, if_neg hQ, if_neg fun hR => (h.mp hR).elim hP hQ]

theorem forgetSuccs_spec (hv : v < 2 ^ 16) (es : List (ℕ × ℕ)) (g : SlotGraph) :
    ∃ ps, g.forgetSuccs v es =
        { g with freeWidx := (es.map Prod.snd).reverse ++ g.freeWidx, preds := ps } ∧
      ps.length = g.preds.length ∧ ∀ a b, (ps.getD b ∅).find? a =
        if b ∈ es.map Prod.fst ∧ a = v then none else (g.preds.getD b ∅).find? a := by
  induction es generalizing g with
  | nil => exact ⟨g.preds, rfl, rfl, by simp⟩
  | cons e es ih =>
    obtain ⟨ps, heq, hlen, hfind⟩ := ih { g with
      freeWidx := e.2 :: g.freeWidx
      preds := updateAt g.preds e.1 fun m => TreeSMap.remove m v }
    refine ⟨ps, heq.trans (by simp), hlen.trans List.length_set, fun a b => ?_⟩
    rw [hfind, find?_updateAt_remove _ hv]
    refine ite_none_ite_none ?_
    rw [List.map_cons, List.mem_cons, ← or_and_right, or_comm]

theorem forgetPreds_spec (hv : v < 2 ^ 16) (ks : List ℕ) (g : SlotGraph) :
    ∃ ss, g.forgetPreds v ks = { g with succs := ss } ∧ ss.length = g.succs.length ∧
      ∀ a b, (ss.getD a ∅).find? b = if a ∈ ks ∧ b = v then none else (g.succs.getD a ∅).find? b := by
  induction ks generalizing g with
  | nil => exact ⟨g.succs, rfl, rfl, by simp⟩
  | cons k ks ih =>
    obtain ⟨ss, heq, hlen, hfind⟩ := ih { g with
      succs := updateAt g.succs k fun m => TreeSMap.remove m v }
    refine ⟨ss, heq, hlen.trans List.length_set, fun a b => ?_⟩
    rw [hfind, find?_updateAt_remove _ hv]
    refine ite_none_ite_none ?_
    rw [List.mem_cons, ← or_and_right, or_comm]

/-- The edges that go with a vertex. -/
def gone (v : ℕ) (e : ℕ × ℕ) : Bool := decide (e.1 = v ∨ e.2 = v)

/-- The slots that `forget` frees, in the order in which it does. -/
def outSlots (g : SlotGraph) (v : ℕ) : List ℕ := ((g.succsOf v).entries.map Prod.snd).reverse

/-- What `forget` does to a vertex that is not free. -/
structure Forgets (g : SlotGraph) (v : ℕ) (g' : SlotGraph) : Prop where
  size : g'.size = g.size
  length_preds : g'.preds.length = g.preds.length
  slots : g'.slots = fun e => if gone v e then none else g.slots e
  predSlots : g'.predSlots = fun e => if gone v e then none else g.predSlots e
  ws : g'.ws = g.ws
  freeWidx : g'.freeWidx = g.outSlots v ++ g.freeWidx
  isFree : g'.isFree = g.isFree.set v true
  freeId : g'.freeId = v :: g.freeId
  count : g'.edgeCount + (g.edges.filter fun e => gone v e).card = g.edgeCount

theorem length_entries {m : TreeSMap} {ks : Finset ℕ} (h : ∀ k, k ∈ ks ↔ (m.find? k).isSome) :
    m.entries.length = ks.card := by
  have hks : m.keys.toFinset = ks := by
    ext k
    rw [List.mem_toFinset, OrdMap.mem_keys, h, Option.isSome_iff_exists]
  rw [← hks, List.toFinset_card_of_nodup m.nodup_keys, OrdMap.keys, List.length_map]

/-- The edges of a vertex, counted by their other ends in its two maps. -/
theorem card_gone (h : WF g) (v : ℕ) {m : TreeSMap}
    (hm : ∀ u, m.find? u = if u = v then none else g.slots (u, v)) :
    (g.edges.filter fun e => gone v e).card = (g.succsOf v).entries.length + m.entries.length := by
  have hsplit : (g.edges.filter fun e => gone v e) =
      (g.edges.filter fun e => e.1 = v) ∪ g.edges.filter fun e => e.1 ≠ v ∧ e.2 = v := by
    ext e
    simp only [Finset.mem_union, Finset.mem_filter, gone, decide_eq_true_eq]
    tauto
  have hdisj : Disjoint (g.edges.filter fun e => e.1 = v) (g.edges.filter fun e => e.1 ≠ v ∧ e.2 = v) :=
    Finset.disjoint_filter.mpr fun e _ he hne => hne.1 he
  have hout : (g.succsOf v).entries.length = (g.edges.filter fun e => e.1 = v).card := by
    rw [← Finset.card_image_of_injOn (f := Prod.snd)]
    · refine length_entries fun d => ?_
      rw [Finset.mem_image]
      constructor
      · rintro ⟨e, he, rfl⟩
        obtain ⟨hmem, hev⟩ := Finset.mem_filter.mp he
        exact hev ▸ (mem_edges h).mp hmem
      · exact fun hd => ⟨(v, d), Finset.mem_filter.mpr ⟨(mem_edges h).mpr hd, rfl⟩, rfl⟩
    · intro e he e' he' heq
      exact Prod.ext ((Finset.mem_filter.mp he).2.trans (Finset.mem_filter.mp he').2.symm) heq
  have hin : m.entries.length = (g.edges.filter fun e => e.1 ≠ v ∧ e.2 = v).card := by
    rw [← Finset.card_image_of_injOn (f := Prod.fst)]
    · refine length_entries fun u => ?_
      rw [Finset.mem_image, hm]
      constructor
      · rintro ⟨e, he, rfl⟩
        obtain ⟨hmem, hne, hev⟩ := Finset.mem_filter.mp he
        rw [if_neg hne, ← hev]
        exact (mem_edges h).mp hmem
      · intro hu
        split_ifs at hu with huv
        · cases hu
        · exact ⟨(u, v), Finset.mem_filter.mpr ⟨(mem_edges h).mpr hu, huv, rfl⟩, rfl⟩
    · intro e he e' he' heq
      exact Prod.ext heq ((Finset.mem_filter.mp he).2.2.trans (Finset.mem_filter.mp he').2.2.symm)
  rw [hsplit, Finset.card_union_of_disjoint hdisj, hout, hin]

/-- The two adjacency tables after the loops of `forget`: the one over the outgoing edges leaves `ps`,
the one over the incoming edges `ss`. -/
structure ForgetLoops (g : SlotGraph) (v : ℕ) (ps ss : List TreeSMap) : Prop where
  length_preds : ps.length = g.preds.length
  length_succs : ss.length = g.succs.length
  preds : ∀ a b, (ps.getD b ∅).find? a =
    if b ∈ (g.succsOf v).entries.map Prod.fst ∧ a = v then none else (g.preds.getD b ∅).find? a
  succs : ∀ a b, (ss.getD a ∅).find? b =
    if a ∈ (ps.getD v ∅).keys ∧ b = v then none else ((g.succs.set v ∅).getD a ∅).find? b

theorem forget_eq (h : WF g) (hv : g.IsVert v) : ∃ ps ss, ForgetLoops g v ps ss ∧ g.forget v = { g with
    succs := ss
    preds := ps.set v ∅
    freeWidx := g.outSlots v ++ g.freeWidx
    edgeCount := g.edgeCount - (g.succsOf v).entries.length - (ps.getD v ∅).entries.length
    isFree := g.isFree.set v true
    freeId := v :: g.freeId } := by
  have hv16 := hv.lt.trans h.size_lt
  obtain ⟨ps, hps, hpslen, hpsfind⟩ := forgetSuccs_spec hv16 (g.succsOf v).entries g
  obtain ⟨ss, hss, hsslen, hssfind⟩ := forgetPreds_spec hv16 (ps.getD v ∅).keys
    { g with
      freeWidx := g.outSlots v ++ g.freeWidx
      preds := ps
      edgeCount := g.edgeCount - (g.succsOf v).entries.length
      succs := g.succs.set v ∅ }
  refine ⟨ps, ss, ⟨hpslen, hsslen.trans List.length_set, hpsfind, hssfind⟩, ?_⟩
  have hfree : ¬ g.isFree.getD v true = true := by
    rw [hv.2]
    exact Bool.false_ne_true
  unfold forget
  rw [if_neg hfree]
  simp only [hps]
  exact congrArg (fun g' : SlotGraph => { g' with
    edgeCount := g'.edgeCount - (g'.predsOf v).entries.length
    preds := g'.preds.set v ∅
    isFree := g'.isFree.set v true
    freeId := v :: g'.freeId }) hss

section ForgetLoops

variable {ps ss : List TreeSMap}

/-- The loop over the outgoing edges has removed a loop at `v` from its predecessors. -/
theorem ForgetLoops.preds_self (hl : ForgetLoops g v ps ss) (h : WF g) (u : ℕ) :
    (ps.getD v ∅).find? u = if u = v then none else g.slots (u, v) := by
  rw [hl.preds, h.dual]
  by_cases huv : u = v
  · subst huv
    rw [if_pos rfl]
    split_ifs with hmem
    · rfl
    · have hnone : g.slots (u, u) = none := by
        rw [← Option.not_isSome_iff_eq_none, Option.isSome_iff_exists]
        exact fun hsome => hmem ⟨OrdMap.mem_keys.mpr hsome, rfl⟩
      exact (congrFun h.dual (u, u)).symm.trans hnone
  · rw [if_neg huv, if_neg fun hmem => huv hmem.2]
    rfl

/-- The edges that are left, by their sources. -/
theorem ForgetLoops.find?_succs (hl : ForgetLoops g v ps ss) (h : WF g) (hv : v < g.size) (e : ℕ × ℕ) :
    (ss.getD e.1 ∅).find? e.2 = if gone v e then none else g.slots e := by
  have hsucc : ((g.succs.set v ∅).getD e.1 ∅).find? e.2 = if e.1 = v then none else g.slots e := by
    rw [getD_set hv]
    split_ifs <;> rfl
  rw [hl.succs, hsucc]
  simp only [gone, decide_eq_true_eq]
  by_cases h₁ : e.1 = v
  · rw [if_pos h₁, ite_self, if_pos (Or.inl h₁)]
  · by_cases h₂ : e.2 = v
    · rw [if_neg h₁, if_pos (Or.inr h₂)]
      split_ifs with hmem
      · rfl
      · rw [← Option.not_isSome_iff_eq_none, Option.isSome_iff_exists]
        intro hsome
        refine hmem ⟨OrdMap.mem_keys.mpr ?_, h₂⟩
        rwa [hl.preds_self h, if_neg h₁, ← h₂]
    · rw [if_neg fun hk => h₂ hk.2, if_neg h₁, if_neg (not_or.mpr ⟨h₁, h₂⟩)]

/-- The edges that are left, by their targets. -/
theorem ForgetLoops.find?_preds (hl : ForgetLoops g v ps ss) (h : WF g) (hv : v < g.size) (e : ℕ × ℕ) :
    ((ps.set v ∅).getD e.2 ∅).find? e.1 = if gone v e then none else g.predSlots e := by
  have hpred : ((ps.set v ∅).getD e.2 ∅).find? e.1 =
      if e.2 = v then none else (ps.getD e.2 ∅).find? e.1 := by
    rw [getD_set (hl.length_preds.trans h.length_preds ▸ hv)]
    split_ifs <;> rfl
  rw [hpred, hl.preds]
  simp only [gone, decide_eq_true_eq]
  by_cases h₂ : e.2 = v
  · rw [if_pos h₂, if_pos (Or.inr h₂)]
  · by_cases h₁ : e.1 = v
    · rw [if_neg h₂, if_pos (Or.inl h₁)]
      split_ifs with hmem
      · rfl
      · change g.predSlots e = none
        rw [← h.dual, ← Option.not_isSome_iff_eq_none, Option.isSome_iff_exists]
        exact fun hsome => hmem ⟨OrdMap.mem_keys.mpr (h₁ ▸ hsome), h₁⟩
    · rw [if_neg h₂, if_neg fun hk => h₁ hk.2, if_neg (not_or.mpr ⟨h₁, h₂⟩)]
      rfl

end ForgetLoops

theorem forget_spec (h : WF g) (hv : g.IsVert v) : Forgets g v (g.forget v) := by
  obtain ⟨ps, ss, hl, heq⟩ := forget_eq h hv
  rw [heq]
  refine ⟨hl.length_succs, List.length_set.trans hl.length_preds, funext (hl.find?_succs h hv.lt),
    funext (hl.find?_preds h hv.lt), rfl, rfl, rfl, rfl, ?_⟩
  have hle : (g.edges.filter fun e => gone v e).card ≤ g.edgeCount :=
    h.count ▸ Finset.card_filter_le _ _
  rw [card_gone h v (hl.preds_self h)] at hle ⊢
  simp only
  omega

theorem forget_of_free (hv : g.isFree.getD v true = true) : g.forget v = g := if_pos hv

theorem mem_outSlots {i : ℕ} : i ∈ g.outSlots v ↔ ∃ d, g.slots (v, d) = some i := by
  unfold outSlots slots
  rw [List.mem_reverse, List.mem_map]
  constructor
  · rintro ⟨e, he, rfl⟩
    exact ⟨e.1, OrdMap.mem_entries.mp he⟩
  · rintro ⟨d, hd⟩
    exact ⟨(d, i), OrdMap.mem_entries.mpr hd, rfl⟩

theorem nodup_outSlots (h : WF g) (v : ℕ) : (g.outSlots v).Nodup := by
  unfold outSlots
  rw [List.nodup_reverse]
  refine List.Nodup.map_on (fun e he e' he' heq => ?_)
    (List.Nodup.of_map Prod.fst (g.succsOf v).nodup_keys)
  have hslot := OrdMap.mem_entries.mp he
  have hslot' := OrdMap.mem_entries.mp he'
  rw [← heq] at hslot'
  exact Prod.ext (Prod.mk.inj (h.table.distinct (v, e.1) (v, e'.1) e.2 hslot hslot')).2 heq

theorem gone_outSlots {i : ℕ} (hi : i ∈ g.outSlots v) : ∃ e, gone v e ∧ g.slots e = some i := by
  obtain ⟨d, hd⟩ := mem_outSlots.mp hi
  exact ⟨(v, d), by simp [gone], hd⟩

theorem Forgets.isVert_iff {g' : SlotGraph} (hf : Forgets g v g') (h : WF g) (hv : v < g.size) (u : ℕ) :
    g'.IsVert u ↔ g.IsVert u ∧ u ≠ v := by
  unfold IsVert
  rw [hf.size, hf.isFree, getD_set (h.length_isFree ▸ hv)]
  split_ifs with hu
  · simp [hu]
  · simp [hu]

theorem WF.forget (h : WF g) (hv : v < g.size) : WF (g.forget v) := by
  cases hfree : g.isFree.getD v true with
  | true => rwa [forget_of_free hfree]
  | false =>
    have hf := forget_spec h ⟨hv, hfree⟩
    refine ⟨hf.length_preds.trans (h.length_preds.trans hf.size.symm), ?_, hf.size.trans_lt h.size_lt,
      ?_, fun e i he => ?_, ?_, ?_, fun u => ?_, ?_⟩
    · rw [hf.isFree, List.length_set, h.length_isFree, hf.size]
    · rw [hf.slots, hf.predSlots, h.dual]
    · rw [hf.slots] at he
      simp only at he
      split_ifs at he with hgone
      obtain ⟨h₁, h₂⟩ := h.isVert e i he
      rw [gone, decide_eq_true_eq, not_or] at hgone
      exact ⟨(hf.isVert_iff h hv _).mpr ⟨h₁, hgone.1⟩, (hf.isVert_iff h hv _).mpr ⟨h₂, hgone.2⟩⟩
    · have hedges : (g.forget v).edges = g.edges.filter fun e => ¬ gone v e := by
        ext e
        unfold edges
        rw [hf.size, hf.slots, Finset.mem_filter, Finset.mem_filter, Finset.mem_filter, and_assoc]
        by_cases hgone : gone v e <;> simp [hgone]
      have hsum := Finset.card_filter_add_card_filter_not (s := g.edges) fun e => gone v e
      have hcount := hf.count
      rw [h.count, ← hsum] at hcount
      rw [hedges]
      omega
    · rw [hf.slots, hf.ws, hf.freeWidx]
      exact h.table.release (nodup_outSlots h v) fun i hi => gone_outSlots hi
    · rw [hf.freeId, List.mem_cons, h.free, hf.size, hf.isFree, getD_set (h.length_isFree ▸ hv)]
      split_ifs with hu
      · simp [hu, hv]
      · simp [hu]
    · rw [hf.freeId]
      refine List.nodup_cons.mpr ⟨fun hmem => ?_, h.nodup⟩
      rw [((h.free v).mp hmem).2] at hfree
      cases hfree

/-- No other vertex has an edge to `v`. -/
def NoPreds (g : SlotGraph) (v : ℕ) : Prop := ∀ u, u ≠ v → g.slots (u, v) = none

theorem sound_forget_iff (h : Sound g) (hv : g.IsVert v) : Sound (g.forget v) ↔ g.NoPreds v := by
  have hf := forget_spec h.toWF hv
  have hiff : SlotTable.NoLeak (fun e => if gone v e then none else g.slots e) g.ws.length
      (g.outSlots v ++ g.freeWidx) ↔ ∀ e i, gone v e → g.slots e = some i → i ∈ g.outSlots v :=
    SlotTable.noLeak_release_iff h.table h.noLeak
  constructor
  · intro hsound u hu
    have hleak := hsound.noLeak
    rw [hf.slots, hf.ws, hf.freeWidx, hiff] at hleak
    by_contra hsome
    obtain ⟨i, hi⟩ := Option.ne_none_iff_exists'.mp hsome
    obtain ⟨d, hd⟩ := mem_outSlots.mp (hleak (u, v) i (by simp [gone]) hi)
    exact hu (Prod.mk.inj (h.table.distinct (u, v) (v, d) i hi hd)).1
  · intro hno
    refine ⟨h.toWF.forget hv.lt, ?_⟩
    rw [hf.slots, hf.ws, hf.freeWidx, hiff]
    intro e i hgone hi
    by_cases he : e.1 = v
    · exact mem_outSlots.mpr ⟨e.2, he ▸ hi⟩
    · have he₂ : e.2 = v := (of_decide_eq_true hgone).resolve_left he
      have hnone := hno e.1 he
      rw [← he₂, hi] at hnone
      cases hnone

/-! ### Clearing -/

/-- One of the maps after it was cleared. -/
theorem getD_cleared {l : List TreeSMap} {fs : List Bool} (h : l.length = fs.length) (v : ℕ) :
    ((l.zip fs).map fun e => if e.2 then e.1 else ∅).getD v ∅ =
      if fs.getD v true then l.getD v ∅ else ∅ := by
  by_cases hv : v < l.length
  · have hzip : v < ((l.zip fs).map fun e => if e.2 then e.1 else ∅).length := by
      simpa [← h] using hv
    rw [List.getD_eq_getElem _ _ hzip, List.getD_eq_getElem _ _ hv, List.getD_eq_getElem _ _ (h ▸ hv),
      List.getElem_map, List.getElem_zip]
  · have hzip : ((l.zip fs).map fun e => if e.2 then e.1 else ∅).length ≤ v := by
      simpa [← h] using hv
    rw [List.getD_eq_default _ _ hzip, List.getD_eq_default _ _ (not_lt.mp hv), ite_self]

theorem slots_clearEdges (h : WF g) : g.clearEdges.slots = fun _ => none := by
  funext e
  have hmap : g.clearEdges.succsOf e.1 = if g.isFree.getD e.1 true then g.succsOf e.1 else ∅ :=
    getD_cleared h.length_isFree.symm e.1
  unfold slots
  rw [hmap]
  split_ifs with hfree
  · rw [← Option.not_isSome_iff_eq_none, Option.isSome_iff_exists]
    rintro ⟨i, hi⟩
    rw [(h.isVert e i hi).1.2] at hfree
    cases hfree
  · rfl

theorem predSlots_clearEdges (h : WF g) : g.clearEdges.predSlots = fun _ => none := by
  funext e
  have hmap : g.clearEdges.predsOf e.2 = if g.isFree.getD e.2 true then g.predsOf e.2 else ∅ :=
    getD_cleared (h.length_preds.trans h.length_isFree.symm) e.2
  unfold predSlots
  rw [hmap]
  split_ifs with hfree
  · rw [← Option.not_isSome_iff_eq_none, Option.isSome_iff_exists]
    rintro ⟨i, hi⟩
    change g.predSlots e = some i at hi
    rw [← h.dual] at hi
    rw [(h.isVert e i hi).2.2] at hfree
    cases hfree
  · rfl

theorem size_clearEdges (h : WF g) : g.clearEdges.size = g.size := by
  simp [clearEdges, size, h.length_isFree]

theorem WF.clearEdges (h : WF g) (hnil : g.freeWidx = []) : WF g.clearEdges := by
  have hslots := slots_clearEdges h
  have hsize := size_clearEdges h
  refine ⟨?_, h.length_isFree.trans hsize.symm, hsize.trans_lt h.size_lt,
    hslots.trans (predSlots_clearEdges h).symm, fun e i he => ?_, ?_, ?_, ?_, h.nodup⟩
  · rw [hsize]
    simp [SlotGraph.clearEdges, h.length_isFree, h.length_preds]
  · rw [hslots] at he
    cases he
  · unfold edges
    rw [hslots]
    simp [SlotGraph.clearEdges]
  · rw [hslots]
    exact ⟨nofun, nofun, nofun, fun i hi => (List.not_mem_nil (hnil ▸ hi)).elim,
      by exact hnil ▸ List.nodup_nil⟩
  · rw [hsize]
    exact h.free

theorem sound_clearEdges_iff (h : Sound g) : Sound g.clearEdges ↔ g.freeWidx = [] := by
  constructor
  · intro hsound
    refine List.eq_nil_iff_forall_not_mem.mpr fun i hi => ?_
    exact absurd (hsound.table.free_inside i hi) (Nat.not_lt_zero i)
  · exact fun hnil => ⟨h.toWF.clearEdges hnil, fun i hi => absurd hi (Nat.not_lt_zero i)⟩

/-! ## Every run -/

/-- When a call keeps every slot in use or free: no edge leads to the vertex that is forgotten, and
no slot is free when the weights are cleared. -/
def Op.KeepsSlots (g : SlotGraph) : Op → Prop
  | .forget v => g.IsVert v → g.NoPreds v
  | .clearEdges => g.freeWidx = []
  | _ => True

theorem sound_apply_iff (h : Sound g) {op : Op} (hop : op.Allowed g) :
    Sound (g.apply op) ↔ op.KeepsSlots g := by
  cases op with
  | newVertex => exact iff_of_true (h.newVertex hop) trivial
  | addEdge s w d =>
    obtain ⟨hs, hd, hnew⟩ := hop
    unfold elem at hnew
    rw [h.toWF.lookup hd.lt] at hnew
    exact iff_of_true (h.addEdge hs hd w (by simpa using hnew)) trivial
  | updateEdge s w d => exact iff_of_true (h.updateEdge hop.1 hop.2 w) trivial
  | setEdge s w d => exact iff_of_true (h.setEdge hop.1 hop.2 w) trivial
  | forget v =>
    by_cases hv : g.IsVert v
    · exact (sound_forget_iff h hv).trans ⟨fun hno _ => hno, fun hno => hno hv⟩
    · have hfree : g.isFree.getD v true = true := by
        by_contra hne
        exact hv ⟨hop, by simpa using hne⟩
      change Sound (g.forget v) ↔ _
      rw [forget_of_free hfree]
      exact iff_of_true h fun hvert => absurd hvert hv
  | clearEdges => exact sound_clearEdges_iff h

/-- The graph is represented right after every call of a run exactly when each call of it keeps
the slots. -/
theorem sound_run_iff {ops : List Op} (hops : Meets Op.Allowed empty ops) :
    (∀ n ≤ ops.length, Sound (empty.run (ops.take n))) ↔ Meets Op.KeepsSlots empty ops := by
  suffices key : ∀ g, Sound g → Meets Op.Allowed g ops →
      ((∀ n ≤ ops.length, Sound (g.run (ops.take n))) ↔ Meets Op.KeepsSlots g ops) from
    key empty sound_empty hops
  clear hops
  induction ops with
  | nil => exact fun g h _ => iff_of_true (fun n _ => by simpa [run] using h) trivial
  | cons op ops ih =>
    rintro g h ⟨hop, hops⟩
    constructor
    · intro hall
      have hone : Sound (g.apply op) := hall 1 (by simp)
      refine ⟨(sound_apply_iff h hop).mp hone, (ih _ hone hops).mp fun n hn => ?_⟩
      exact hall (n + 1) (by simpa using hn)
    · rintro ⟨hkeeps, hmeets⟩ n hn
      have hone := (sound_apply_iff h hop).mpr hkeeps
      cases n with
      | zero => exact h
      | succ n => exact (ih _ hone hops).mpr hmeets n (by simpa using hn)

/-- An edge between two vertices, of which the source is forgotten. -/
theorem sound_run_iff_forget_source :
    (∀ n ≤ 4, Sound (empty.run ([.newVertex, .newVertex, .addEdge 0 5 1, .forget 0].take n))) ↔
      Meets Op.KeepsSlots empty [.newVertex, .newVertex, .addEdge 0 5 1, .forget 0] :=
  @sound_run_iff [.newVertex, .newVertex, .addEdge 0 5 1, .forget 0] (by decide)

/-- Forgetting the target of an edge loses its slot. Clearing after the source was forgotten leaves
a free slot outside of the table, which the next edge is given. -/
theorem exists_lost_slot :
    (Meets Op.Allowed empty [.newVertex, .newVertex, .addEdge 0 5 1, .forget 1] ∧
      ∃ i < (empty.run [.newVertex, .newVertex, .addEdge 0 5 1, .forget 1]).ws.length,
        i ∉ (empty.run [.newVertex, .newVertex, .addEdge 0 5 1, .forget 1]).freeWidx ∧
          ∀ e, (empty.run [.newVertex, .newVertex, .addEdge 0 5 1, .forget 1]).slots e ≠ some i) ∧
    Meets Op.Allowed empty [.newVertex, .newVertex, .addEdge 0 5 1, .forget 0,
        .clearEdges, .newVertex, .addEdge 0 5 1] ∧
      ∃ e i, (empty.run [.newVertex, .newVertex, .addEdge 0 5 1, .forget 0, .clearEdges, .newVertex,
          .addEdge 0 5 1]).slots e = some i ∧
        ¬ i < (empty.run [.newVertex, .newVertex, .addEdge 0 5 1, .forget 0, .clearEdges, .newVertex,
          .addEdge 0 5 1]).ws.length := by
  refine ⟨⟨by decide, 0, by decide, by decide, ?_⟩, by decide, (0, 1), 0, by decide, by decide⟩
  rintro ⟨_ | _ | u, v⟩ h <;> cases h

end SlotGraph

end Prevail
