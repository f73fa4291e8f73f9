import Mathlib.Data.List.Sort
import Prevail.Crab.AdaptGraph
import Prevail.Crab.Heap

/-!
# Graph algorithms

The algorithms of `GraphOps` on graphs and graph views: syntactic join, meet and widening, the
closure procedures and the repair of a potential after an edge was added.

The scratch vectors of the source are local to each call here. `dists` holds the distances whose
time stamp is current, a missing key being an infinite distance. A list of new edges `(s, d, w)`
is an `EdgeVector`.

Each closure procedure returns constraints that the graph implies (`implies_…`), whatever the
potentials are: the potentials only order the search.
-/

namespace Prevail

namespace GraphOps

abbrev EdgeVector := List (ℕ × ℕ × ℤ)

/-! ## Syntactic operations -/

/-- `Graph::copy`. -/
def copy (g : GraphView) : AdaptGraph :=
  g.verts.foldl (fun h s => (g.eSuccs s).foldl (fun h e => h.addEdge s e.2 e.1) h) (.grow g.size)

/-- Syntactic join. -/
def join (l r : GraphView) : AdaptGraph :=
  l.verts.foldl (fun h s => (l.eSuccs s).foldl (fun h e =>
    match r.lookup s e.1 with
    | some w => h.addEdge s (max e.2 w) e.1
    | none => h) h) (.grow l.size)

/-- Syntactic meet. -/
def meet (l r : GraphView) : AdaptGraph :=
  r.verts.foldl (fun h s => (r.eSuccs s).foldl (fun h e =>
    match h.lookup s e.1 with
    | some w => if e.2 < w then h.setEdge s e.2 e.1 else h
    | none => h.addEdge s e.2 e.1) h) (copy l)

/-- The widening of one vertex: keep the edges of `l` that `r` respects. -/
def widenVert (l r : GraphView) (h : AdaptGraph) (s : ℕ) : AdaptGraph :=
  (r.eSuccs s).foldl (fun h e =>
    match l.lookup s e.1 with
    | some wl => if e.2 ≤ wl then h.addEdge s wl e.1 else h
    | none => h) h

/-- Widening. The second component collects the vertices that lost an edge. -/
def widen (l r : GraphView) (unstable : List ℕ) : AdaptGraph × List ℕ :=
  r.verts.foldl (fun acc s =>
    let h := widenVert l r acc.1 s
    if (l.eSuccs s).any (fun e => !h.elem s e.1) then (h, acc.2.insert s) else (h, acc.2))
    (.grow l.size, unstable)

def applyDelta (g : AdaptGraph) (delta : EdgeVector) : AdaptGraph :=
  delta.foldl (fun g e => g.setEdge e.1 e.2.2 e.2.1) g

/-! ## Dijkstra -/

/-- `dists_compare`. -/
def distsCompare (dists : OrdMap ℕ ℤ) (x y : ℕ) : Bool :=
  decide ((dists.find? x).getD 0 < (dists.find? y).getD 0)

/-- The scratch data of one search. -/
structure DijkstraState (M : Type) where
  dists : OrdMap ℕ ℤ
  vertMarks : OrdMap ℕ M
  heap : List ℕ

section Dijkstra

variable {M : Type} [Inhabited M]

/-- Give `d` the distance `v` and the mark `m`, and put it in its place in the heap. -/
def setDist (st : DijkstraState M) (d : ℕ) (v : ℤ) (m : M) : DijkstraState M :=
  let dists := st.dists.insert d v
  { dists := dists
    vertMarks := st.vertMarks.insert d m
    heap := if d ∈ st.heap then Heap.decrease (distsCompare dists) d st.heap
      else Heap.insert (distsCompare dists) d st.heap }

variable (join : M → M → M) (p : ℕ → ℤ)

/-- Relax the edge to `e.1` of weight `e.2.1` from a vertex at distance `esCost`. -/
def relaxEdge (esCost : ℤ) (st : DijkstraState M) (e : ℕ × ℤ × M) : DijkstraState M :=
  let v := esCost + e.2.1 - p e.1
  match st.dists.find? e.1 with
  | none => setDist st e.1 v e.2.2
  | some old =>
    if v < old then setDist st e.1 v e.2.2
    else if v = old then
      { st with
        vertMarks := st.vertMarks.insert e.1
          (join ((st.vertMarks.find? e.1).getD default) e.2.2) }
    else st

variable (g : GraphView) (expand : ℕ → M → List (ℕ × ℤ × M)) (src : ℕ)

/-- The distance of `es` from `src`, when it improves on the edge that is there. -/
def improvement (es : ℕ) (esVal : ℤ) : List (ℕ × ℤ) :=
  match g.lookup src es with
  | none => [(es, esVal)]
  | some w => if w > esVal then [(es, esVal)] else []

/-- The main loop. `expand es m` lists the edges to follow from `es` when it has the mark `m`. -/
def dijkstraLoop : ℕ → DijkstraState M → List (ℕ × ℤ) → List (ℕ × ℤ)
  | 0, _, out => out
  | fuel + 1, st, out =>
    match Heap.removeMin (distsCompare st.dists) st.heap with
    | none => out
    | some (es, heap) =>
      let esCost := (st.dists.find? es).getD 0 + p es
      let edges := expand es ((st.vertMarks.find? es).getD default)
      dijkstraLoop fuel (edges.foldl (relaxEdge join p esCost) { st with heap := heap })
        (out ++ improvement g src es (esCost - p src))

/-- The search before the main loop: `src` at distance zero, its successors in the heap. -/
def dijkstraInit (mark : ℕ → M) : DijkstraState M :=
  (g.eSuccs src).foldl (fun st e => setDist st e.1 (p src + e.2 - p e.1) (mark e.1))
    ⟨(∅ : OrdMap ℕ ℤ).insert src 0, ∅, []⟩

/-- The part the two searches of the source share. Under a valid potential no vertex enters the
heap again once it has left it. Under any other it may, but each time along another path without
a cycle, and there are at most `size ^ size` of these. -/
def dijkstra (mark : ℕ → M) : List (ℕ × ℤ) :=
  dijkstraLoop join p g expand src (g.size ^ g.size) (dijkstraInit p g src mark) []

end Dijkstra

/-- Edge colour during chromatic Dijkstra, `CMarkT`. -/
structure CMark where
  left : Bool
  right : Bool
  deriving DecidableEq, Inhabited

/-- `|` on colours. -/
def CMark.or (a b : CMark) : CMark := ⟨a.left || b.left, a.right || b.right⟩

/-- From which of the two graphs the edge of `g` comes. -/
def edgeMark (g l r : GraphView) (s d : ℕ) : CMark :=
  let w := g.edgeVal s d
  ⟨l.lookup s d = some w, r.lookup s d = some w⟩

/-- `colour_succs`: the successors over edges of exactly the colour `c`. -/
def colourSuccs (g l r : GraphView) (c : CMark) (s : ℕ) : List ℕ :=
  ((g.eSuccs s).map Prod.fst).filter fun d => edgeMark g l r s d = c

/-- The edges chromatic Dijkstra follows: only those of the other colour than the last one. -/
def chromeExpand (g l r : GraphView) (es : ℕ) (m : CMark) : List (ℕ × ℤ × CMark) :=
  if m = ⟨true, true⟩ then []
  else
    let succs := colourSuccs g l r (if m = ⟨true, false⟩ then ⟨false, true⟩ else ⟨true, false⟩) es
    succs.map fun ed => (ed, g.edgeVal es ed, edgeMark g l r es ed)

def chromeDijkstra (g : GraphView) (p : ℕ → ℤ) (l r : GraphView) (src : ℕ) : List (ℕ × ℤ) :=
  dijkstra CMark.or p g (chromeExpand g l r) src (edgeMark g l r src)

def closeAfterMeet (g : GraphView) (p : ℕ → ℤ) (l r : GraphView) : EdgeVector :=
  g.verts.flatMap fun v => (chromeDijkstra g p l r v).map fun a => (v, a.1, a.2)

/-- Whether a vertex is stable during widening, `SMarkT`. -/
inductive SMark where
  | unstable
  | stable
  deriving DecidableEq, Inhabited

/-- `|` on stability marks. -/
def SMark.or : SMark → SMark → SMark
  | .unstable, m => m
  | .stable, _ => .stable

/-- The edges `dijkstra_recover` follows: none from a vertex reached through a stable one. -/
def recoverExpand (g : GraphView) (isStable : ℕ → Bool) (es : ℕ) (m : SMark) :
    List (ℕ × ℤ × SMark) :=
  if m = .stable then []
  else (g.eSuccs es).map fun e => (e.1, e.2, if isStable es then .stable else .unstable)

def dijkstraRecover (g : GraphView) (p : ℕ → ℤ) (isStable : ℕ → Bool) (src : ℕ) : EdgeVector :=
  if isStable src then []
  else (dijkstra SMark.or p g (recoverExpand g isStable) src fun _ => .unstable).map
    fun a => (src, a.1, a.2)

def closeAfterWiden (g : GraphView) (p : ℕ → ℤ) (isStable : ℕ → Bool) : EdgeVector :=
  (g.verts.filter fun v => !isStable v).flatMap fun v => dijkstraRecover g p isStable v

/-! ## Repair of the potential -/

/-- The scratch data of `repair_potential`. -/
structure RepairState where
  dists : OrdMap ℕ ℤ
  distsAlt : List ℤ
  heap : List ℕ

/-- Relax one edge out of the vertex `es`, leaving vertices with a new potential alone. -/
def repairEdge (p : List ℤ) (es : ℕ) (st : RepairState) (e : ℕ × ℤ) : RepairState :=
  if st.distsAlt.getD e.1 0 = p.getD e.1 0 then
    let gnext := st.distsAlt.getD es 0 + e.2 - st.distsAlt.getD e.1 0
    if gnext < (st.dists.find? e.1).getD 0 then
      let dists := st.dists.insert e.1 gnext
      { st with
        dists := dists
        heap := if e.1 ∈ st.heap then Heap.decrease (distsCompare dists) e.1 st.heap
          else Heap.insert (distsCompare dists) e.1 st.heap }
    else st
  else st

/-- The main loop. A vertex leaves the heap with a new potential, so that it never comes back. -/
def repairLoop (g : GraphView) (p : List ℤ) : ℕ → RepairState → RepairState
  | 0, st => st
  | fuel + 1, st =>
    match Heap.removeMin (distsCompare st.dists) st.heap with
    | none => st
    | some (es, heap) =>
      let alt := st.distsAlt.set es (p.getD es 0 + (st.dists.find? es).getD 0)
      repairLoop g p fuel
        ((g.eSuccs es).foldl (repairEdge p es) { st with heap := heap, distsAlt := alt })

/-- Restore the potential after the edge from `ii` to `jj` was added or lowered; `none` when the
edge closes a negative cycle. -/
def repairPotential (g : GraphView) (p : List ℤ) (ii jj : ℕ) : Option (List ℤ) :=
  let d := p.getD ii 0 + g.edgeVal ii jj - p.getD jj 0
  if 0 ≤ d then some p
  else
    let dists := (∅ : OrdMap ℕ ℤ).insert jj d
    let st := repairLoop g p g.size ⟨dists, p, [jj]⟩
    if (st.dists.find? ii).getD 0 < 0 then none else some st.distsAlt

/-! ## Incremental closure -/

/-- The scratch data of `close_after_assign_fwd`: distances of the marked vertices, and the
vertices reached in two steps. -/
structure FwdState where
  dists : OrdMap ℕ ℤ
  reach : List ℕ

/-- Follow one edge of weight `e.2` from a vertex at distance `dWt`. -/
def fwdEdge (dWt : ℤ) (st : FwdState) (e : ℕ × ℤ) : FwdState :=
  let eWt := dWt + e.2
  match st.dists.find? e.1 with
  | none => ⟨st.dists.insert e.1 eWt, st.reach ++ [e.1]⟩
  | some old => ⟨st.dists.insert e.1 (min eWt old), st.reach⟩

/-- The distance of a marked vertex. -/
def distOf (dists : OrdMap ℕ ℤ) (d : ℕ) : ℤ := (dists.find? d).getD 0

/-- The distances of `v` and of its direct successors. -/
def fwdDists (g : GraphView) (v : ℕ) : OrdMap ℕ ℤ :=
  (g.eSuccs v).foldl (fun m e => m.insert e.1 e.2) ((∅ : OrdMap ℕ ℤ).insert v 0)

/-- The direct successors by increasing slack. Sorting leaves the order of equal slacks open in
the source; they stay in the order of the graph here. -/
def fwdAdj (g : GraphView) (p : ℕ → ℤ) (v : ℕ) : List ℕ :=
  ((g.eSuccs v).map Prod.fst).insertionSort fun d1 d2 =>
    distOf (fwdDists g v) d1 - p d1 ≤ distOf (fwdDists g v) d2 - p d2

/-- Follow the edges of the direct successors. -/
def fwdSearch (g : GraphView) (p : ℕ → ℤ) (v : ℕ) : FwdState :=
  (fwdAdj g p v).foldl (fun st d => (g.eSuccs d).foldl (fwdEdge (distOf st.dists d)) st)
    ⟨fwdDists g v, []⟩

def closeAfterAssignFwd (g : GraphView) (p : ℕ → ℤ) (v : ℕ) : List (ℕ × ℤ) :=
  let st := fwdSearch g p v
  (fwdAdj g p v ++ st.reach).map fun u => (u, distOf st.dists u)

def closeAfterAssign (g : GraphView) (p : ℕ → ℤ) (v : ℕ) : EdgeVector :=
  (closeAfterAssignFwd g p v).map (fun a => (v, a.1, a.2)) ++
    (closeAfterAssignFwd g.graphRev (fun u => -p u) v).map fun a => (a.1, v, a.2)

/-- Lower the edge from `s` to `d`, or add it; tell whether anything changed. -/
def tighten (g : AdaptGraph) (s : ℕ) (w : ℤ) (d : ℕ) : Option AdaptGraph :=
  match g.lookup s d with
  | some w' => if w' ≤ w then none else some (g.setEdge s w d)
  | none => some (g.addEdge s w d)

/-- The predecessors of `ii` through which `jj` comes closer, with the graph updated. -/
def closeSrc (g : AdaptGraph) (jj : ℕ) (c : ℤ) (preds : List (ℕ × ℤ)) :
    AdaptGraph × List (ℕ × ℤ) :=
  preds.foldl (fun acc e =>
    if e.1 = jj then acc
    else match tighten acc.1 e.1 (e.2 + c) jj with
      | some g => (g, acc.2 ++ [e])
      | none => acc) (g, [])

/-- The successors of `jj` that come closer to `ii`, with the graph updated. -/
def closeDest (g : AdaptGraph) (ii : ℕ) (c : ℤ) (succs : List (ℕ × ℤ)) :
    AdaptGraph × List (ℕ × ℤ) :=
  succs.foldl (fun acc e =>
    if e.1 = ii then acc
    else match tighten acc.1 ii (e.2 + c) e.1 with
      | some g => (g, acc.2 ++ [e])
      | none => acc) (g, [])

/-- Restore closure after the edge from `ii` to `jj` was lowered. -/
def closeOverEdge (g : AdaptGraph) (ii jj : ℕ) : AdaptGraph :=
  let c := g.edgeVal ii jj
  let src := closeSrc g jj c ((g.view.subGraph 0).ePreds ii)
  let dest := closeDest src.1 ii c ((src.1.view.subGraph 0).eSuccs jj)
  src.2.foldl (fun h se => dest.2.foldl (fun h de =>
    (tighten h se.1 (c + se.2 + de.2) de.1).getD h) h) dest.1

end GraphOps

end Prevail
