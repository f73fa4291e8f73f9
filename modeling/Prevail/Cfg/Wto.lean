import Mathlib.Data.Nat.Cast.WithTop
import Prevail.Ir.CfgBuilder
import Prevail.Lib.WeakOrder

/-!
# The weak topological order of a graph

The construction keeps a stack of tasks in place of a recursion. A partition under construction is
referred to by the vertex whose cycle it is, or by `none` for the outermost one; the vectors of the
source grow at the end and are iterated backwards, so that here components are added in front.
Depth-first numbers are unbounded, with `⊤` for `DFN_INF`.
-/

namespace Prevail

/-- `WtoPartition`, in the order in which it is iterated. -/
abbrev WtoPartition := WeakOrder Label

/-- `WtoCycle`. -/
structure WtoCycle where
  components : WtoPartition
  containingCycle : Option Label

inductive VisitTaskType where
  | pushSuccessors
  | startVisit
  | continueVisit
  deriving DecidableEq

structure VisitArgs where
  type : VisitTaskType
  vertex : Label
  partition : Option Label
  containingCycle : Option Label

/-- `WtoVertexData`, without the pointer that keeps the cycle of the vertex alive. -/
structure WtoVertexData where
  dfn : WithTop ℕ
  headDfn : WithTop ℕ

/-- `Wto`, with the cycles that its partitions share. -/
structure Wto where
  components : WtoPartition
  cycles : OrdMap Label WtoCycle
  containingCycle : OrdMap Label (Option Label)
  nestings : OrdMap Label (List Label)

/-- `WtoBuilder`. -/
structure WtoBuilder where
  vertexData : OrdMap Label WtoVertexData
  num : ℕ
  stack : List Label
  visitStack : List VisitArgs
  wto : Wto

namespace Wto

def init : Wto := ⟨.nil, ∅, ∅, ∅⟩

/-- Put the components `P` in front of a partition. -/
def prepend (w : Wto) (partition : Option Label) (P : WtoPartition) : Wto :=
  match partition with
  | none => { w with components := P.append w.components }
  | some c => match w.cycles.find? c with
    | some cycle =>
      { w with cycles := w.cycles.insert c { cycle with components := P.append cycle.components } }
    | none => w

end Wto

namespace WtoBuilder

/-- `_vertex_data[v]`. -/
def data (b : WtoBuilder) (v : Label) : WtoVertexData := (b.vertexData.find? v).getD ⟨0, 0⟩

def setData (b : WtoBuilder) (v : Label) (d : WtoVertexData) : WtoBuilder :=
  { b with vertexData := b.vertexData.insert v d }

/-- Schedule a visit of the vertices without a number; the first one comes first. -/
def scheduleSuccessors (b : WtoBuilder) (succs : List Label)
    (partition containingCycle : Option Label) : WtoBuilder :=
  succs.foldr (fun succ b =>
    if (b.data succ).dfn = 0 then
      { b with visitStack := ⟨.pushSuccessors, succ, partition, containingCycle⟩ :: b.visitStack }
    else b) b

def pushSuccessors (g : Cfg) (vertex : Label) (partition containingCycle : Option Label)
    (b : WtoBuilder) : Except BuildError WtoBuilder := do
  if (b.data vertex).dfn ≠ 0 then return b
  else
    let num := b.num + 1
    let b := { b.setData vertex { b.data vertex with dfn := num } with
      num := num
      stack := vertex :: b.stack
      visitStack := ⟨.startVisit, vertex, partition, containingCycle⟩ :: b.visitStack }
    return b.scheduleSuccessors (← g.childrenOf vertex) partition containingCycle

/-- What a successor contributes to the head of a vertex. -/
def minDfn (b : WtoBuilder) (succ : Label) : WithTop ℕ :=
  if (b.data succ).headDfn ≠ 0 ∧ (b.data succ).dfn ≠ ⊤ then (b.data succ).headDfn
  else (b.data succ).dfn

/-- The head number of a vertex, and whether a successor has set it. -/
def lowerHead (b : WtoBuilder) (head : WithTop ℕ × Bool) (succ : Label) : WithTop ℕ × Bool :=
  if b.minDfn succ ≤ head.1 then (b.minDfn succ, true) else head

/-- Pop `vertex`, and make the elements above it new again. -/
def popTo (vertex : Label) :
    List Label → OrdMap Label WtoVertexData → List Label × OrdMap Label WtoVertexData
  | [], m => ([], m)
  | element :: stack, m =>
    if element = vertex then (stack, m) else popTo vertex stack (m.insert element ⟨0, 0⟩)

/-- The body of `start_visit` for the head of a cycle. -/
def openCycle (vertex : Label) (headDfn : WithTop ℕ) (succs : List Label)
    (partition containingCycle : Option Label) (b : WtoBuilder) : WtoBuilder :=
  let popped := popTo vertex b.stack b.vertexData
  let b := { b with stack := popped.1, vertexData := popped.2.insert vertex ⟨⊤, headDfn⟩ }
  let b := { b with
    wto := { b.wto with cycles := b.wto.cycles.insert vertex ⟨.nil, containingCycle⟩ }
    visitStack := ⟨.continueVisit, vertex, partition, some vertex⟩ :: b.visitStack }
  b.scheduleSuccessors succs (some vertex) (some vertex)

/-- The body of `start_visit` for a vertex outside a cycle of its own. -/
def emplaceVertex (vertex : Label) (headDfn : WithTop ℕ) (partition containingCycle : Option Label)
    (b : WtoBuilder) : WtoBuilder :=
  let w := b.wto.prepend partition (.vertex vertex .nil)
  { b.setData vertex ⟨⊤, headDfn⟩ with
    stack := b.stack.tail
    wto := { w with containingCycle := w.containingCycle.emplace vertex containingCycle } }

def startVisit (g : Cfg) (vertex : Label) (partition containingCycle : Option Label)
    (b : WtoBuilder) : Except BuildError WtoBuilder := do
  let succs ← g.childrenOf vertex
  let head := succs.foldl b.lowerHead ((b.data vertex).dfn, false)
  if head.1 = (b.data vertex).dfn then
    if head.2 then return b.openCycle vertex head.1 succs partition containingCycle
    else return b.emplaceVertex vertex head.1 partition containingCycle
  else return b.setData vertex { b.data vertex with headDfn := head.1 }

/-- `continue_visit`, which closes the cycle made for `vertex`. -/
def continueVisit (vertex : Label) (partition containingCycle : Option Label) (b : WtoBuilder) :
    WtoBuilder :=
  let w := b.wto.prepend containingCycle (.vertex vertex .nil)
  let body := ((containingCycle.bind w.cycles.find?).map WtoCycle.components).getD .nil
  let w := w.prepend partition (.component body .nil)
  { b with wto :=
    { w with containingCycle := w.containingCycle.emplace vertex containingCycle } }

/-- Do one task. -/
def task (g : Cfg) (t : VisitArgs) (b : WtoBuilder) : Except BuildError WtoBuilder :=
  match t.type with
  | .pushSuccessors => b.pushSuccessors g t.vertex t.partition t.containingCycle
  | .startVisit => b.startVisit g t.vertex t.partition t.containingCycle
  | .continueVisit => .ok (b.continueVisit t.vertex t.partition t.containingCycle)

/-- Do tasks until none is left. -/
def run (g : Cfg) : ℕ → WtoBuilder → Except BuildError WtoBuilder
  | 0, _ => .error .outOfFuel
  | fuel + 1, b =>
    match b.visitStack with
    | [] => .ok b
    | t :: rest => do run g fuel (← task g t { b with visitStack := rest })

/-- The builder before its first task. -/
def start (g : Cfg) : WtoBuilder where
  vertexData := g.labels.foldl (fun m l => m.emplace l ⟨0, 0⟩) ∅
  num := 0
  stack := []
  visitStack := [⟨.pushSuccessors, .entry, none, none⟩]
  wto := .init

end WtoBuilder

namespace Wto

/-- The order of a graph. -/
def ofCfg (fuel : ℕ) (g : Cfg) : Except BuildError Wto :=
  (·.wto) <$> WtoBuilder.run g fuel (.start g)

inductive WtoError where
  | emptyCycle
  | expectedLabel
  | outOfFuel
  deriving DecidableEq

/-- `WtoCycle::head`. -/
def cycleHead (cycle : WtoCycle) : Except WtoError Label :=
  match cycle.components with
  | .nil => .error .emptyCycle
  | .vertex l _ => .ok l
  | .component _ _ => .error .expectedLabel

/-- The cycle behind a pointer. -/
def lock (w : Wto) (cycle : Option Label) : Option WtoCycle := cycle.bind w.cycles.find?

/-- The head of the cycle around a label, or around the cycle whose head it is. -/
def head (w : Wto) (l : Label) : Except WtoError (Option Label) :=
  match (w.containingCycle.find? l).bind w.lock with
  | none => .ok none
  | some cycle => do
    let first ← cycleHead cycle
    if first ≠ l then return some first
    else match w.lock cycle.containingCycle with
      | some parent => some <$> cycleHead parent
      | none => return none

def collectHeads (w : Wto) : ℕ → Label → Except WtoError (List Label)
  | 0, _ => .error .outOfFuel
  | fuel + 1, l => do
    match ← w.head l with
    | none => return []
    | some h => return h :: (← w.collectHeads fuel h)

/-- The heads around a label, and the table with them in it. -/
def nesting (fuel : ℕ) (w : Wto) (l : Label) : Except WtoError (List Label × Wto) :=
  match w.nestings.find? l with
  | some heads => .ok (heads, w)
  | none => do
    let heads ← w.collectHeads fuel l
    return (heads, { w with nestings := w.nestings.emplace l heads })

end Wto

end Prevail
