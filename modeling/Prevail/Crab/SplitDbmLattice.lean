import Prevail.Crab.SelectPotentials
import Prevail.Crab.SplitDbm

/-!
# Lattice operations on split difference-bound matrices

Inclusion, join, widening and meet of two states. The operands number their vertices in their own
way; join, widening and meet number the variables they keep anew (`alignVerts`) and look at the
operands through permuted views (`aligned`). Vertex `0` stays vertex `0`.
-/

namespace Prevail

open GraphOps

namespace SplitDbm

variable {V : Type*} [LinearOrder V]

/-! ## A common numbering -/

/-- The vertices `1, 2, …` for a list of variables. -/
def alignVerts (names : List V) : OrdMap V ℕ :=
  (names.zipIdx 1).foldl (fun m e => m.emplace e.1 e.2) ∅

/-- `perm_x`: the old vertex for each new one. -/
def permOf (d : SplitDbm V) (names : List V) : List (Option ℕ) :=
  some 0 :: names.map d.vertMap.find?

/-- The graph of an operand under the common numbering. -/
def aligned (d : SplitDbm V) (names : List V) : GraphView :=
  d.g.view.graphPerm (d.permOf names)

/-- The potential of a variable relative to the zero vertex. -/
def relPot (d : SplitDbm V) (v : V) : ℤ := d.potValue v - pot d.potential 0

/-- The variables of both operands, in the order of the left one. -/
def commonNames (x y : SplitDbm V) : List V := x.vertMap.keys.filter (y.vertMap.contains ·)

/-- The variables of the left operand, then those of the right operand only. -/
def allNames (x y : SplitDbm V) : List V :=
  x.vertMap.keys ++ y.vertMap.keys.filter (!x.vertMap.contains ·)

/-! ## Inclusion -/

/-- The vertex of this state for a vertex of `o` that has edges. -/
def vertRenaming (x o : SplitDbm V) (n : ℕ) : Option ℕ :=
  if n = 0 then some 0
  else (o.vertMap.entries.find? (·.2 = n)).bind fun e => x.vertMap.find? e.1

/-- An edge of `o` between vertices of this state follows from an edge or from two bounds. -/
def edgeHolds (x : SplitDbm V) (s d : ℕ) (ow : ℤ) : Bool :=
  (match x.g.lookup s d with
    | some w => decide (w ≤ ow)
    | none => false) ||
  match x.g.lookup s 0, x.g.lookup 0 d with
  | some ws, some wd => decide (ws + wd ≤ ow)
  | _, _ => false

/-- `operator<=`. -/
def le (x o : SplitDbm V) : Bool :=
  if o.isTop then true
  else if x.isTop then false
  else if x.vertMap.entries.length < o.vertMap.entries.length then false
  else if o.vertMap.entries.any fun e =>
      !((o.g.eSuccs e.2).isEmpty && (o.g.ePreds e.2).isEmpty) && !x.vertMap.contains e.1 then false
  else o.g.verts.all fun ox => (o.g.eSuccs ox).all fun e =>
    match x.vertRenaming o ox, x.vertRenaming o e.1 with
    | some s, some d => x.edgeHolds s d e.2
    | _, _ => false

/-! ## Join -/

/-- The relations that the bounds of `gx` give between vertices with an edge in `gy`. -/
def deferred (gx gy : GraphView) : AdaptGraph :=
  (gy.subGraph 0).verts.foldl (fun h s => ((gy.subGraph 0).eSuccs s).foldl (fun h e =>
    match gx.lookup s 0, gx.lookup 0 e.1 with
    | some ws, some wd => h.addEdge s (ws + wd) e.1
    | _, _ => h) h) (.grow gx.size)

/-- An operand of a join with its deferred relations, closed again. -/
def withDeferred (gx gy : GraphView) (p : List ℤ) : AdaptGraph :=
  let g := GraphOps.meet gx (deferred gx gy).view
  applyDelta g (closeAfterMeet (g.view.subGraph 0) (pot p) gx (deferred gx gy).view)

/-- The vertices whose bound, read by `bound`, is smaller in `gx` than in `gy`. -/
def boundLt (bound : GraphView → ℕ → Option ℤ) (gx gy : GraphView) : List ℕ :=
  (gx.subGraph 0).verts.filter fun v =>
    match bound gx v, bound gy v with
    | some wx, some wy => decide (wx < wy)
    | _, _ => false

/-- The relations between a vertex of `ss` and one of `ds` that the bounds of both operands
give. -/
def independent (gx gy : GraphView) (ss ds : List ℕ) (h : AdaptGraph) : AdaptGraph :=
  ss.foldl (fun h s => ds.foldl (fun h d =>
    if s = d then h
    else h.updateEdge s
      (max (gx.edgeVal s 0 + gx.edgeVal 0 d) (gy.edgeVal s 0 + gy.edgeVal 0 d)) d) h) h

/-- Drop a vertex without edges. -/
def collect (d : SplitDbm V) (v : ℕ) : SplitDbm V :=
  if v = 0 then d
  else if (d.g.eSuccs v).isEmpty && (d.g.ePreds v).isEmpty then
    { d with
      g := d.g.forget v
      vertMap := match d.revMap.getD v none with
        | some x => d.vertMap.erase x
        | none => d.vertMap
      revMap := d.revMap.set v none }
  else d

/-- `SplitDBMJoiner::join`. -/
def join (left right : SplitDbm V) : SplitDbm V :=
  if right.isTop then right
  else if left.isTop then left
  else
    let names := commonNames left right
    let gx := left.aligned names
    let gy := right.aligned names
    let potRx := 0 :: names.map left.relPot
    let potRy := 0 :: names.map right.relPot
    let g := GraphOps.join (withDeferred gx gy potRx).view (withDeferred gy gx potRy).view
    let ub := fun (h : GraphView) v => h.lookup 0 v
    let lb := fun (h : GraphView) v => h.lookup v 0
    let g := independent gx gy (boundLt lb gy gx) (boundLt ub gx gy) g
    let g := independent gx gy (boundLt lb gx gy) (boundLt ub gy gx) g
    g.verts.foldl collect ⟨alignVerts names, none :: names.map some, g, potRx, []⟩

/-! ## Widening -/

/-- The constructor of the result normalises it. -/
def widen (x o : SplitDbm V) : SplitDbm V :=
  let names := commonNames x o
  let w := GraphOps.widen (x.aligned names) (o.aligned names) x.unstable
  normalize ⟨alignVerts names, none :: names.map some, w.1, 0 :: names.map x.relPot, w.2⟩

/-! ## Meet -/

/-- The potential of the operand that a variable comes from. -/
def warmStart (x y : SplitDbm V) (v : V) : ℤ :=
  if x.vertMap.contains v then x.relPot v else y.relPot v

/-- The union of the two sets of constraints. -/
def meetGraph (x y : SplitDbm V) : AdaptGraph :=
  GraphOps.meet (x.aligned (allNames x y)) (y.aligned (allNames x y))

/-- `none` when no potential can be selected. -/
def meet (x y : SplitDbm V) : Option (SplitDbm V) :=
  if x.isTop then some y
  else if y.isTop then some x
  else
    let names := allNames x y
    let g := meetGraph x y
    (selectPotentials g.view (0 :: names.map (warmStart x y))).map fun pi =>
      let g := applyDelta g
        (closeAfterMeet (g.view.subGraph 0) (pot pi) (x.aligned names) (y.aligned names))
      let g := applyDelta g (closeAfterAssign g.view (pot pi) 0)
      ⟨alignVerts names, none :: names.map some, g, pi, []⟩

/-! ## Narrowing -/

/-- A no-op, but for the top state. -/
def narrow (x o : SplitDbm V) : SplitDbm V := if x.isTop then o else x

end SplitDbm

end Prevail
