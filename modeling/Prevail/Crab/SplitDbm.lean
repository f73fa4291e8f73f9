import Prevail.Arith.Linear
import Prevail.Crab.GraphOps

/-!
# Split difference-bound matrices

`SplitDBM`: a weighted graph whose vertex `0` stands for the number zero and whose other vertices
stand for variables, with a potential for each vertex. An edge from `s` to `d` of weight `w` is
the constraint `d - s ≤ w`; the edges at vertex `0` are the bounds.

The translation follows `split_dbm.cpp`. A member function that changes the state returns the new
state, and one that returns `false` for an empty state returns `none`. Graph weights are
unbounded integers, so that the overflow branches of `convert_NtoW_overflow` are never taken and
are left out.
-/

namespace Prevail

open GraphOps

/-- `SplitDBM`. -/
structure SplitDbm (V : Type*) [LinearOrder V] where
  vertMap : OrdMap V ℕ
  revMap : List (Option V)
  g : AdaptGraph
  potential : List ℤ
  unstable : List ℕ

/-- `ArithBinOp`. -/
inductive ArithBinOp where
  | add
  | sub
  | mul
  deriving DecidableEq

namespace SplitDbm

variable {V : Type*} [LinearOrder V]

/-- The state without constraints: only the zero vertex. -/
def top : SplitDbm V := ⟨∅, [none], .grow 1, [0], []⟩

def isTop (d : SplitDbm V) : Bool := d.g.isEmpty

/-- `index_to_call`. -/
def pot (p : List ℤ) (v : ℕ) : ℤ := p.getD v 0

/-! ## Bounds -/

/-- `get_lb` of a vertex. -/
def getLb (d : SplitDbm V) (v : Option ℕ) : Bound :=
  match v with
  | none => .negInf
  | some v => match d.g.lookup v 0 with
    | some w => .fin (-w)
    | none => .negInf

/-- `get_ub` of a vertex. -/
def getUb (d : SplitDbm V) (v : Option ℕ) : Bound :=
  match v with
  | none => .posInf
  | some v => match d.g.lookup 0 v with
    | some w => .fin w
    | none => .posInf

def getInterval (d : SplitDbm V) (x : V) : Interval :=
  .ofBounds (d.getLb (d.vertMap.find? x)) (d.getUb (d.vertMap.find? x))

/-- `eval_interval` of an expression. -/
def evalInterval (d : SplitDbm V) (e : LinearExpression V) : Interval :=
  e.variableTerms.entries.foldl
    (fun r t => r.add ((Interval.const t.2).mul (d.getInterval t.1))) (.const e.constantTerm)

def computeResidual (d : SplitDbm V) (e : LinearExpression V) (pivot : V) : Interval :=
  e.variableTerms.entries.foldl
    (fun r t => if t.1 ≠ pivot then r.sub ((Interval.const t.2).mul (d.getInterval t.1)) else r)
    (.const (-e.constantTerm))

/-- The potential value of a variable. -/
def potValue (d : SplitDbm V) (v : V) : ℤ :=
  match d.vertMap.find? v with
  | some n => pot d.potential n
  | none => 0

/-- `eval_expression_overflow`: the value of an expression under the potential. -/
def evalExpression (d : SplitDbm V) (e : LinearExpression V) : ℤ :=
  e.variableTerms.entries.foldl
    (fun out t => out + (d.potValue t.1 - pot d.potential 0) * t.2) e.constantTerm

/-! ## Vertices -/

/-- Give the new vertex `vert` to the variable `v`, with the potential `p`. -/
def setVert (d : SplitDbm V) (vert : ℕ) (v : V) (p : ℤ) : SplitDbm V :=
  if vert < d.revMap.length then
    { d with revMap := d.revMap.set vert (some v), potential := d.potential.set vert p }
  else { d with revMap := d.revMap ++ [some v], potential := d.potential ++ [p] }

/-- The vertex of a variable, made when there is none. -/
def getVert (d : SplitDbm V) (v : V) : ℕ × SplitDbm V :=
  match d.vertMap.find? v with
  | some y => (y, d)
  | none =>
    let (vert, g) := d.g.newVertex
    (vert, setVert { d with g := g, vertMap := d.vertMap.emplace v vert } vert v 0)

def repairPotential (d : SplitDbm V) (src dest : ℕ) : Option (SplitDbm V) :=
  (GraphOps.repairPotential d.g.view d.potential src dest).map fun p => { d with potential := p }

/-- Restore closure after widening. `VertSetWrap` hands the unstable vertices over as the stable
ones. -/
def normalize (d : SplitDbm V) : SplitDbm V :=
  if d.unstable.isEmpty then d
  else
    let p := pot d.potential
    let g := applyDelta d.g (closeAfterWiden (d.g.view.subGraph 0) p (d.unstable.contains ·))
    let g := applyDelta g (closeAfterAssign g.view p 0)
    { d with g := g, unstable := [] }

def havoc (d : SplitDbm V) (v : V) : SplitDbm V :=
  match d.vertMap.find? v with
  | some y =>
    normalize { d with
      g := d.g.forget y
      revMap := d.revMap.set y none
      vertMap := d.vertMap.erase v }
  | none => d

def forget (d : SplitDbm V) (vars : List V) : SplitDbm V :=
  if d.isTop then d
  else normalize (vars.foldl (fun d v => if d.vertMap.contains v then d.havoc v else d) d)

/-! ## Assignment -/

/-- The loop state of `diffcsts_of_assign`: the variable without a bound, the residual, the
terms. -/
structure AssignTerms (V : Type*) where
  unboundedVar : Option V
  residual : ℤ
  terms : List (V × ℤ)

/-- One term; `none` is the early return without constraints. -/
def assignTerm (d : SplitDbm V) (upper : Bool) (st : AssignTerms V) (t : V × ℤ) :
    Option (AssignTerms V) :=
  let vert := d.vertMap.find? t.1
  if t.2 < 0 then
    match (if upper then d.getLb vert else d.getUb vert).number with
    | none => none
    | some ymax => some { st with residual := st.residual + ymax * t.2 }
  else
    match (if upper then d.getUb vert else d.getLb vert).number with
    | none =>
      if st.unboundedVar.isSome || t.2 ≠ 1 then none else some { st with unboundedVar := some t.1 }
    | some ymax =>
      some { st with residual := st.residual + ymax * t.2, terms := st.terms ++ [(t.1, ymax)] }

/-- The difference constraints `v - y ≤ k` (or `v - y ≥ k`) of an assignment to `v`. -/
def diffcstsOfAssign (d : SplitDbm V) (exp : LinearExpression V) (upper : Bool) : List (V × ℤ) :=
  match exp.variableTerms.entries.foldlM (d.assignTerm upper) ⟨none, exp.constantTerm, []⟩ with
  | none => []
  | some st => match st.unboundedVar with
    | some y => [(y, st.residual)]
    | none => st.terms.map fun t => (t.1, st.residual - t.2)

def set (d : SplitDbm V) (x : V) (intv : Interval) : SplitDbm V :=
  let d := d.havoc x
  if intv.isTop then d
  else
    let (v, d) := d.getVert x
    let d := match intv.ub.number with
      | some ub =>
        { d with
          potential := d.potential.set v (pot d.potential 0 + ub)
          g := d.g.setEdge 0 ub v }
      | none => d
    let d := match intv.lb.number with
      | some lb =>
        { d with
          potential := d.potential.set v (pot d.potential 0 + lb)
          g := d.g.setEdge v (-lb) 0 }
      | none => d
    d.normalize

/-- The edges of an assignment to the new vertex `vert`, with vertices for their variables. -/
def assignDelta (d : SplitDbm V) (vert : ℕ) (diffsLb diffsUb : List (V × ℤ)) :
    EdgeVector × SplitDbm V :=
  let lb := diffsLb.foldl (fun acc t =>
    let (y, d) := acc.2.getVert t.1
    (acc.1 ++ [(vert, y, -t.2)], d)) (([], d) : EdgeVector × SplitDbm V)
  diffsUb.foldl (fun acc t =>
    let (y, d) := acc.2.getVert t.1
    (acc.1 ++ [(y, vert, t.2)], d)) lb

/-- Lower the lower-bound edge of a vertex. -/
def updateLb (g : AdaptGraph) (v : ℕ) (lb : Bound) : AdaptGraph :=
  match lb.number with
  | some lb => g.updateEdge v (-lb) 0
  | none => g

/-- Lower the upper-bound edge of a vertex. -/
def updateUb (g : AdaptGraph) (v : ℕ) (ub : Bound) : AdaptGraph :=
  match ub.number with
  | some ub => g.updateEdge 0 ub v
  | none => g

/-- The part of `assign` for an expression with difference constraints: build the new vertex
beside the old one, then drop the old one. -/
def assignDiffs (d : SplitDbm V) (lhs : V) (value : Interval) (eVal : ℤ)
    (diffsLb diffsUb : List (V × ℤ)) : SplitDbm V :=
  let (vert, g) := d.g.newVertex
  let d := setVert { d with g := g } vert lhs (pot d.potential 0 + eVal)
  let (delta, d) := d.assignDelta vert diffsLb diffsUb
  let g := applyDelta d.g delta
  let g := applyDelta g (closeAfterAssign (g.view.subGraph 0) (pot d.potential) vert)
  let g := updateUb (updateLb g vert value.lb) vert value.ub
  let d := havoc { d with g := g } lhs
  normalize { d with vertMap := d.vertMap.emplace lhs vert }

def assign (d : SplitDbm V) (lhs : V) (e : LinearExpression V) : SplitDbm V :=
  let value := d.evalInterval e
  if value.isSingleton then (d.set lhs value).normalize
  else
    let diffsUb := d.diffcstsOfAssign e true
    let diffsLb := d.diffcstsOfAssign e false
    if diffsLb.isEmpty && diffsUb.isEmpty then (d.set lhs value).normalize
    else d.assignDiffs lhs value (d.evalExpression e) diffsLb diffsUb

/-- `assign` of an optional expression. -/
def assignOpt (d : SplitDbm V) (lhs : V) (e : Option (LinearExpression V)) : SplitDbm V :=
  match e with
  | some e => d.assign lhs e
  | none => d.havoc lhs

/-- `apply` with a variable as right operand. -/
def applyVar (op : ArithBinOp) (d : SplitDbm V) (x y z : V) : SplitDbm V :=
  normalize <| match op with
    | .add => d.assign x ((LinearExpression.var y).plus (.var z))
    | .sub => d.assign x ((LinearExpression.var y).subtract (.var z))
    | .mul => d.set x ((d.getInterval y).mul (d.getInterval z))

/-- `apply` with a number as right operand. -/
def applyNum (op : ArithBinOp) (d : SplitDbm V) (x y : V) (k : ℤ) : SplitDbm V :=
  normalize <| match op with
    | .add => d.assign x ((LinearExpression.var y).plusConst k)
    | .sub => d.assign x ((LinearExpression.var y).plusConst (-k))
    | .mul => d.assign x (.term k y)

/-! ## Constraints -/

/-- The loop state of `diffcsts_of_lin_leq`: the bound left for the terms, the variables without
a bound and their coefficients, and the bounded terms as coefficient, variable and bound. -/
structure LeqTerms (V : Type*) where
  expUb : ℤ
  unboundedLb : Option (V × ℤ)
  unboundedUb : Option (V × ℤ)
  posTerms : List (ℤ × V × ℤ)
  negTerms : List (ℤ × V × ℤ)

/-- One term; `none` is the early return without constraints. -/
def leqTerm (d : SplitDbm V) (st : LeqTerms V) (t : V × ℤ) : Option (LeqTerms V) :=
  if 0 < t.2 then
    match (d.getLb (d.vertMap.find? t.1)).number with
    | none => if st.unboundedLb.isSome then none else some { st with unboundedLb := some t }
    | some ymin =>
      some { st with
        expUb := st.expUb - ymin * t.2
        posTerms := st.posTerms ++ [(t.2, t.1, ymin)] }
  else
    match (d.getInterval t.1).ub.number with
    | none =>
      if st.unboundedUb.isSome then none else some { st with unboundedUb := some (t.1, -t.2) }
    | some ymax =>
      some { st with
        expUb := st.expUb - ymax * t.2
        negTerms := st.negTerms ++ [(-t.2, t.1, ymax)] }

/-- What a linear inequality gives: differences `x - y ≤ k`, lower and upper bounds. -/
structure LeqCsts (V : Type*) where
  csts : List ((V × V) × ℤ)
  lbs : List (V × ℤ)
  ubs : List (V × ℤ)

/-- The constraints once all terms are read. -/
def leqCsts (st : LeqTerms V) : LeqCsts V :=
  match st.unboundedLb, st.unboundedUb with
  | some (x, cx), some (y, cy) =>
    ⟨if cx = 1 ∧ cy = 1 then [((x, y), st.expUb)] else [], [], []⟩
  | some (x, cx), none =>
    ⟨if cx = 1 then st.negTerms.map fun t => ((x, t.2.1), st.expUb - t.2.2) else [], [],
      [(x, st.expUb.tdiv cx)]⟩
  | none, some (y, cy) =>
    ⟨if cy = 1 then st.posTerms.map fun t => ((t.2.1, y), st.expUb + t.2.2) else [],
      [(y, (-st.expUb).tdiv cy)], []⟩
  | none, none =>
    ⟨st.negTerms.flatMap fun n => st.posTerms.map fun p =>
        ((p.2.1, n.2.1), st.expUb - n.2.2 + p.2.2),
      st.negTerms.map fun n => (n.2.1, (-st.expUb).tdiv n.1 + n.2.2),
      st.posTerms.map fun p => (p.2.1, st.expUb.tdiv p.1 + p.2.2)⟩

def diffcstsOfLinLeq (d : SplitDbm V) (exp : LinearExpression V) : LeqCsts V :=
  match exp.variableTerms.entries.foldlM d.leqTerm ⟨-exp.constantTerm, none, none, [], []⟩ with
  | none => ⟨[], [], []⟩
  | some st => leqCsts st

/-- `x >= n`. -/
def addLb (d : SplitDbm V) (c : V × ℤ) : Option (SplitDbm V) :=
  let (vert, d) := d.getVert c.1
  match d.g.lookup vert 0 with
  | some w =>
    if w ≤ -c.2 then some d
    else repairPotential { d with g := d.g.setEdge vert (-c.2) 0 } vert 0
  | none => repairPotential { d with g := d.g.setEdge vert (-c.2) 0 } vert 0

/-- `x <= n`. -/
def addUb (d : SplitDbm V) (c : V × ℤ) : Option (SplitDbm V) :=
  let (vert, d) := d.getVert c.1
  match d.g.lookup 0 vert with
  | some w =>
    if w ≤ c.2 then some d
    else repairPotential { d with g := d.g.setEdge 0 c.2 vert } 0 vert
  | none => repairPotential { d with g := d.g.setEdge 0 c.2 vert } 0 vert

/-- `x - y <= k`. -/
def addDiff (d : SplitDbm V) (c : (V × V) × ℤ) : Option (SplitDbm V) :=
  let (src, d) := d.getVert c.1.2
  let (dest, d) := d.getVert c.1.1
  (repairPotential { d with g := d.g.updateEdge src c.2 dest } src dest).map fun d =>
    { d with g := closeOverEdge d.g src dest }

def addLinearLeq (d : SplitDbm V) (exp : LinearExpression V) : Option (SplitDbm V) := do
  let c := d.diffcstsOfLinLeq exp
  let d ← c.lbs.foldlM addLb d
  let d ← c.ubs.foldlM addUb d
  let d ← c.csts.foldlM addDiff d
  return normalize { d with
    g := applyDelta d.g (closeAfterAssign d.g.view (pot d.potential) 0) }

/-- `trim_interval`. -/
def trimInterval (i : Interval) (n : ℤ) : Interval :=
  if i.lb = .fin n then .ofBounds (.fin (n + 1)) i.ub
  else if i.ub = .fin n then .ofBounds i.lb (.fin (n - 1))
  else if i.isTop && n = 0 then .ofInts 1 (Number.maxUint 64)
  else i

/-- The bounds that follow from a new lower bound `-lbVal` of the vertex `v`. -/
def propagateLb (d : SplitDbm V) (v : ℕ) (lbVal : ℤ) : Option (SplitDbm V) :=
  (d.g.ePreds v).foldlM (fun d e =>
    if e.1 = 0 then some d
    else repairPotential { d with g := d.g.updateEdge e.1 (e.2 + lbVal) 0 } e.1 0) d

/-- The bounds that follow from a new upper bound `ubVal` of the vertex `v`. -/
def propagateUb (d : SplitDbm V) (v : ℕ) (ubVal : ℤ) : Option (SplitDbm V) :=
  (d.g.eSuccs v).foldlM (fun d e =>
    if e.1 = 0 then some d
    else repairPotential { d with g := d.g.updateEdge 0 (e.2 + ubVal) e.1 } 0 e.1) d

/-- Strengthen the lower bound of the vertex `v`, when it has one. -/
def strengthenLb (d : SplitDbm V) (v : ℕ) (lb : Bound) : Option (SplitDbm V) :=
  match lb.number, d.g.lookup v 0 with
  | some lb, some w =>
    if -lb < w then do
      let d ← repairPotential { d with g := d.g.setEdge v (-lb) 0 } v 0
      d.propagateLb v (-lb)
    else some d
  | _, _ => some d

/-- Strengthen the upper bound of the vertex `v`, when it has one. -/
def strengthenUb (d : SplitDbm V) (v : ℕ) (ub : Bound) : Option (SplitDbm V) :=
  match ub.number, d.g.lookup 0 v with
  | some ub, some w =>
    if ub < w then do
      let d ← repairPotential { d with g := d.g.setEdge 0 ub v } 0 v
      d.propagateUb v ub
    else some d
  | _, _ => some d

/-- `x != n`. -/
def addUnivarDisequation (d : SplitDbm V) (x : V) (n : ℤ) : Option (SplitDbm V) :=
  let i := d.getInterval x
  let newI := trimInterval i n
  if newI.isBottom then none
  else if newI.isTop || !decide (newI ≤ i) then some d
  else do
    let (v, d) := d.getVert x
    let d ← d.strengthenLb v newI.lb
    let d ← d.strengthenUb v newI.ub
    return d.normalize

/-- The disequations of the single terms of `e != 0`. -/
def addDisequations (d : SplitDbm V) (e : LinearExpression V) : Option (SplitDbm V) :=
  e.variableTerms.entries.foldlM (fun d t =>
    match ((d.computeResidual e t.1).divConst t.2).singleton with
    | some k => d.addUnivarDisequation t.1 k
    | none => some d) d

/-- `add_constraint`; `none` when the state becomes empty. -/
def addConstraint (d : SplitDbm V) (cst : LinearConstraint V) : Option (SplitDbm V) :=
  if cst.isTautology then some d
  else if cst.isContradiction then none
  else normalize <$> match cst.kind with
    | .lessThanOrEqualsZero => d.addLinearLeq cst.expression
    | .lessThanZero => d.addLinearLeq (cst.expression.plusConst 1)
    | .equalsZero => do
      let d ← d.addLinearLeq cst.expression
      d.addLinearLeq cst.expression.negate
    | .notZero => d.addDisequations cst.expression

def intersect (d : SplitDbm V) (cst : LinearConstraint V) : Bool :=
  if cst.isContradiction then false
  else if d.isTop || cst.isTautology then true
  else (d.addConstraint cst).isSome

def entailAux (d : SplitDbm V) (cst : LinearConstraint V) : Bool :=
  (d.addConstraint cst.negate).isNone

/-- The interval of the expression already decides the constraint. -/
def entailInterval (i : Interval) (kind : ConstraintKind) : Bool :=
  match kind with
  | .equalsZero => i.singleton = some 0
  | .lessThanOrEqualsZero => i.ub ≤ .fin 0
  | .lessThanZero => i.ub < .fin 0
  | .notZero => i.ub < .fin 0 || .fin 0 < i.lb

def entail (d : SplitDbm V) (rhs : LinearConstraint V) : Bool :=
  if rhs.isTautology then true
  else if rhs.isContradiction then false
  else if entailInterval (d.evalInterval rhs.expression) rhs.kind then true
  else if rhs.kind = .equalsZero then
    d.entailAux ⟨rhs.expression, .lessThanOrEqualsZero⟩ &&
      d.entailAux ⟨rhs.expression.negate, .lessThanOrEqualsZero⟩
  else d.entailAux rhs

end SplitDbm

end Prevail
