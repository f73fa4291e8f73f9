import Mathlib.Data.Prod.Lex
import Prevail.Lib.DiffSys
import Prevail.Lib.OrdMap

/-!
# The weighted graph

`AdaptGraph` is the sparse weighted graph under the difference-bound matrices. Weights are
`Number`, hence unbounded integers. The successor and predecessor maps of the source and their
shared weight vector are one ordered map from `(source, target)` to the weight: filtering it by
source or by target lists the neighbours in the order in which the flat maps iterate over them.

The graph algorithms are templates over a graph or one of three views of it (a permutation, a
graph without one vertex, a reversed graph). `GraphView` holds what they read.
-/

namespace Prevail

/-- `AdaptGraph`: the number of allocated vertices, the stack of freed ones, the edges. -/
structure AdaptGraph where
  size : ℕ
  freeId : List ℕ
  edges : OrdMap (ℕ ×ₗ ℕ) ℤ

namespace AdaptGraph

/-- The graph without vertices. -/
def empty : AdaptGraph := ⟨0, [], ∅⟩

/-- The allocated vertices that are not free, in increasing order. -/
def verts (g : AdaptGraph) : List ℕ := (List.range g.size).filter (· ∉ g.freeId)

/-- The weight of an edge, when the edge is there. -/
def lookup (g : AdaptGraph) (s d : ℕ) : Option ℤ := g.edges.find? (toLex (s, d))

def elem (g : AdaptGraph) (s d : ℕ) : Bool := (g.lookup s d).isSome

/-- The weight of an edge that is known to be there. -/
def edgeVal (g : AdaptGraph) (s d : ℕ) : ℤ := (g.lookup s d).getD 0

/-- The outgoing edges of a vertex, as target and weight. -/
def eSuccs (g : AdaptGraph) (s : ℕ) : List (ℕ × ℤ) :=
  g.edges.entries.filterMap fun e => if (ofLex e.1).1 = s then some ((ofLex e.1).2, e.2) else none

/-- The incoming edges of a vertex, as source and weight. -/
def ePreds (g : AdaptGraph) (d : ℕ) : List (ℕ × ℤ) :=
  g.edges.entries.filterMap fun e => if (ofLex e.1).2 = d then some ((ofLex e.1).1, e.2) else none

def isEmpty (g : AdaptGraph) : Bool := g.edges.entries.isEmpty

/-- Take the vertex freed last, or a new one. -/
def newVertex (g : AdaptGraph) : ℕ × AdaptGraph :=
  match g.freeId with
  | v :: free => (v, { g with freeId := free })
  | [] => (g.size, { g with size := g.size + 1 })

/-- A graph with the vertices below `n` and no edge. -/
def grow (n : ℕ) : AdaptGraph := ⟨n, [], ∅⟩

/-- Remove a vertex with its edges. -/
def forget (g : AdaptGraph) (v : ℕ) : AdaptGraph :=
  if v ∈ g.freeId then g
  else
    { g with
      freeId := v :: g.freeId
      edges := g.edges.filterKeys fun k => (ofLex k).1 ≠ v ∧ (ofLex k).2 ≠ v }

def setEdge (g : AdaptGraph) (s : ℕ) (w : ℤ) (d : ℕ) : AdaptGraph :=
  { g with edges := g.edges.insert (toLex (s, d)) w }

/-- `add_edge`, which the callers use only where the edge is missing. -/
def addEdge (g : AdaptGraph) (s : ℕ) (w : ℤ) (d : ℕ) : AdaptGraph := g.setEdge s w d

/-- Lower the weight of an edge, or add the edge. -/
def updateEdge (g : AdaptGraph) (s : ℕ) (w : ℤ) (d : ℕ) : AdaptGraph :=
  match g.lookup s d with
  | some w' => g.setEdge s (min w' w) d
  | none => g.addEdge s w d

/-- The constraints of a graph. -/
def Edge (g : AdaptGraph) : DiffSys ℕ := fun s d w => g.lookup s d = some w

theorem mem_eSuccs {g : AdaptGraph} {s d : ℕ} {w : ℤ} :
    (d, w) ∈ g.eSuccs s ↔ g.lookup s d = some w := by
  simp only [eSuccs, List.mem_filterMap, lookup, ← OrdMap.mem_entries]
  constructor
  · rintro ⟨⟨k, w'⟩, hk, he⟩
    split_ifs at he with hs
    obtain ⟨rfl, rfl⟩ := Prod.mk.inj (Option.some.inj he)
    subst hs
    exact hk
  · intro h
    exact ⟨_, h, by simp⟩

theorem mem_ePreds {g : AdaptGraph} {s d : ℕ} {w : ℤ} :
    (s, w) ∈ g.ePreds d ↔ g.lookup s d = some w := by
  simp only [ePreds, List.mem_filterMap, lookup, ← OrdMap.mem_entries]
  constructor
  · rintro ⟨⟨k, w'⟩, hk, he⟩
    split_ifs at he with hs
    obtain ⟨rfl, rfl⟩ := Prod.mk.inj (Option.some.inj he)
    subst hs
    exact hk
  · intro h
    exact ⟨_, h, by simp⟩

theorem isEmpty_iff {g : AdaptGraph} : g.isEmpty ↔ ∀ s d, g.lookup s d = none := by
  unfold isEmpty lookup
  rw [List.isEmpty_iff]
  constructor
  · intro h s d
    rw [Option.eq_none_iff_forall_ne_some]
    intro w hw
    rw [← OrdMap.mem_entries, h] at hw
    simp at hw
  · intro h
    rw [List.eq_nil_iff_forall_not_mem]
    rintro ⟨k, w⟩ he
    have := h (ofLex k).1 (ofLex k).2
    rw [OrdMap.mem_entries] at he
    simp_all

@[simp] theorem lookup_grow (n s d : ℕ) : (grow n).lookup s d = none := rfl

theorem toLex_pair_eq {a b s d : ℕ} :
    toLex (a, b) = toLex (s, d) ↔ a = s ∧ b = d := by
  rw [toLex_inj, Prod.mk.injEq]

theorem lookup_setEdge (g : AdaptGraph) (s : ℕ) (w : ℤ) (d a b : ℕ) :
    (g.setEdge s w d).lookup a b = if a = s ∧ b = d then some w else g.lookup a b := by
  simp only [setEdge, lookup, OrdMap.find?_insert, toLex_pair_eq]

theorem lookup_addEdge (g : AdaptGraph) (s : ℕ) (w : ℤ) (d a b : ℕ) :
    (g.addEdge s w d).lookup a b = if a = s ∧ b = d then some w else g.lookup a b :=
  lookup_setEdge g s w d a b

theorem lookup_updateEdge (g : AdaptGraph) (s : ℕ) (w : ℤ) (d a b : ℕ) :
    (g.updateEdge s w d).lookup a b =
      if a = s ∧ b = d then some (((g.lookup s d).map (min · w)).getD w) else g.lookup a b := by
  unfold updateEdge
  split
  · next w' h => rw [lookup_setEdge, h]; rfl
  · next h => rw [lookup_addEdge, h]; rfl

theorem lookup_forget_of_not_free {g : AdaptGraph} {v : ℕ} (hv : v ∉ g.freeId) (a b : ℕ) :
    (g.forget v).lookup a b = if a ≠ v ∧ b ≠ v then g.lookup a b else none := by
  unfold forget lookup
  rw [if_neg hv, OrdMap.find?_filterKeys]
  by_cases h : a ≠ v ∧ b ≠ v <;> simp [h]

@[simp] theorem size_setEdge (g : AdaptGraph) (s : ℕ) (w : ℤ) (d : ℕ) :
    (g.setEdge s w d).size = g.size := rfl

@[simp] theorem freeId_setEdge (g : AdaptGraph) (s : ℕ) (w : ℤ) (d : ℕ) :
    (g.setEdge s w d).freeId = g.freeId := rfl

@[simp] theorem size_updateEdge (g : AdaptGraph) (s : ℕ) (w : ℤ) (d : ℕ) :
    (g.updateEdge s w d).size = g.size := by unfold updateEdge; split <;> rfl

@[simp] theorem freeId_updateEdge (g : AdaptGraph) (s : ℕ) (w : ℤ) (d : ℕ) :
    (g.updateEdge s w d).freeId = g.freeId := by unfold updateEdge; split <;> rfl

/-- Lowering or adding an edge to an implied weight gives implied constraints only. -/
theorem implies_setEdge {E : DiffSys ℕ} {g : AdaptGraph} {s d : ℕ} {w : ℤ}
    (hg : ∀ a b c, g.Edge a b c → E.Implies a b c) (h : E.Implies s d w) :
    ∀ a b c, (g.setEdge s w d).Edge a b c → E.Implies a b c := by
  intro a b c hc
  unfold Edge at hc
  rw [lookup_setEdge] at hc
  split_ifs at hc with hab
  · obtain ⟨rfl, rfl⟩ := hab
    obtain rfl := Option.some.inj hc
    exact h
  · exact hg a b c hc

theorem implies_updateEdge {E : DiffSys ℕ} {g : AdaptGraph} {s d : ℕ} {w : ℤ}
    (hg : ∀ a b c, g.Edge a b c → E.Implies a b c) (h : E.Implies s d w) :
    ∀ a b c, (g.updateEdge s w d).Edge a b c → E.Implies a b c := by
  unfold updateEdge
  split
  · next w' hw' =>
    refine implies_setEdge hg ?_
    rcases min_choice w' w with hm | hm
    · rw [hm]
      exact hg s d w' hw'
    · rw [hm]
      exact h
  · exact implies_setEdge hg h

end AdaptGraph

/-! ## Views -/

/-- What the graph algorithms read of a graph or a view of one. -/
structure GraphView where
  size : ℕ
  verts : List ℕ
  eSuccs : ℕ → List (ℕ × ℤ)
  ePreds : ℕ → List (ℕ × ℤ)
  lookup : ℕ → ℕ → Option ℤ

/-- The graph itself. -/
def AdaptGraph.view (g : AdaptGraph) : GraphView :=
  ⟨g.size, g.verts, g.eSuccs, g.ePreds, g.lookup⟩

namespace GraphView

/-- `edge_val`. -/
def edgeVal (g : GraphView) (s d : ℕ) : ℤ := (g.lookup s d).getD 0

/-- `SubGraph`: the graph without the vertex `vEx`. -/
def subGraph (g : GraphView) (vEx : ℕ) : GraphView where
  size := g.size
  verts := g.verts.filter (· ≠ vEx)
  eSuccs v := (g.eSuccs v).filter (·.1 ≠ vEx)
  ePreds v := (g.ePreds v).filter (·.1 ≠ vEx)
  lookup x y := if x = vEx ∨ y = vEx then none else g.lookup x y

/-- `GraphRev`: the graph with all edges reversed. -/
def graphRev (g : GraphView) : GraphView where
  size := g.size
  verts := g.verts
  eSuccs := g.ePreds
  ePreds := g.eSuccs
  lookup x y := g.lookup y x

/-- `inv` of a permutation: the index at which `perm` holds `n`. -/
def permInv (perm : List (Option ℕ)) (n : ℕ) : Option ℕ :=
  perm.findIdx? (· == some n)

/-- `perm[v]`, with `none` for `invalid_vert`. -/
def permAt (perm : List (Option ℕ)) (v : ℕ) : Option ℕ := (perm[v]?).join

/-- `GraphPerm`: the graph under a partial renaming of its vertices, `perm` giving for each new
vertex the old one. -/
def graphPerm (perm : List (Option ℕ)) (g : GraphView) : GraphView where
  size := perm.length
  verts := List.range perm.length
  eSuccs v := match permAt perm v with
    | none => []
    | some n => (g.eSuccs n).filterMap fun e => (permInv perm e.1).map (·, e.2)
  ePreds v := match permAt perm v with
    | none => []
    | some n => (g.ePreds n).filterMap fun e => (permInv perm e.1).map (·, e.2)
  lookup x y := match permAt perm x, permAt perm y with
    | some m, some n => g.lookup m n
    | _, _ => none

/-- The edges a view iterates over. -/
def Edge (g : GraphView) : DiffSys ℕ := fun s d w => (d, w) ∈ g.eSuccs s

/-- The two adjacency lists and the lookup of a view agree. -/
structure Lawful (g : GraphView) : Prop where
  mem_eSuccs : ∀ s d w, (d, w) ∈ g.eSuccs s ↔ g.lookup s d = some w
  mem_ePreds : ∀ s d w, (s, w) ∈ g.ePreds d ↔ g.lookup s d = some w

theorem lawful_view (g : AdaptGraph) : g.view.Lawful :=
  ⟨fun _ _ _ => AdaptGraph.mem_eSuccs, fun _ _ _ => AdaptGraph.mem_ePreds⟩

end GraphView

end Prevail
