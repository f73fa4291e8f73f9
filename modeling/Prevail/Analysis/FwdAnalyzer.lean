import Prevail.Arith.Interval
import Prevail.Ir.Program

/-!
# The forward fixpoint iterator

The iterator is generic in the abstract domain. An `EbpfDomain` has no move assignment of its own,
and those of its members copy, so that a value that is moved into a table is still there. The tables
of the analysis are maps from labels; reading a missing label raises an error. The loops without a
bound take fuel.
-/

namespace Prevail

/-- What the iterator uses of `EbpfDomain`, of the transformer and of the checker. -/
structure FwdDomain (O C A E D : Type) where
  bottom : D
  isBottom : D → Bool
  le : D → D → Bool
  join : D → D → D
  meet : D → D → D
  widen : D → D → Bool → D
  narrow : D → D → D
  getR0 : D → Interval
  getLoopCountUpperBound : D → Bound
  transform : D → Instruction O C → D
  check : D → A → Label → Option E
  initializeLoopCounter : D → Label → D

inductive AnalysisError where
  | notFound (l : Label)
  | cfg (e : BuildError)
  | wto (e : Wto.WtoError)
  | notOneAssertion (l : Label)
  | outOfFuel
  deriving DecidableEq

/-- `InvariantMapPair`. -/
structure InvariantMapPair (E D : Type) where
  pre : D
  error : Option E
  post : D

/-- `AnalysisResult`. -/
structure AnalysisResult (E D : Type) where
  invariants : OrdMap Label (InvariantMapPair E D)
  failed : Bool
  maxLoopCount : ℤ
  exitValue : Interval

/-- The state of `InterleavedFwdFixpointIterator`. -/
structure FwdAnalyzer (E D : Type) where
  result : AnalysisResult E D
  skip : Bool

variable {O C A E D : Type}

namespace Program

def instructionAt (prog : Program O C A) (l : Label) : Except AnalysisError (Instruction O C) :=
  match prog.instructions.find? l with
  | some i => .ok i
  | none => .error (.notFound l)

def assertionsAt (prog : Program O C A) (l : Label) : Except AnalysisError (List A) :=
  match prog.assertions.find? l with
  | some as => .ok as
  | none => .error (.notFound l)

def parentsOf (prog : Program O C A) (l : Label) : Except AnalysisError (List Label) :=
  match prog.cfg.parentsOf l with
  | .ok ls => .ok ls
  | .error e => .error (.cfg e)

def wto (prog : Program O C A) (fuel : ℕ) : Except AnalysisError Wto :=
  match Wto.ofCfg fuel prog.cfg with
  | .ok wto => .ok wto
  | .error e => .error (.cfg e)

end Program

/-- The error of a weak topological order as one of the analysis. -/
def liftWto {α : Type} (x : Except Wto.WtoError α) : Except AnalysisError α :=
  match x with
  | .ok a => .ok a
  | .error e => .error (.wto e)

/-! ## Orders -/

/-- `is_component_member`, for the components of a partition. -/
def isComponentMember (label : Label) : WtoPartition → Bool
  | .nil => false
  | .vertex l rest => l == label || isComponentMember label rest
  | .component body rest =>
    body.first? == some label || isComponentMember label body || isComponentMember label rest

/-- `WtoNesting::operator>`, on lists of heads that start with the innermost. -/
def nestingGt (heads other : List Label) : Bool :=
  other.length < heads.length && other.reverse.isPrefixOf heads.reverse

namespace FwdAnalyzer

/-! ## The tables -/

variable (dom : FwdDomain O C A E D) (prog : Program O C A)

/-- `result.invariants.at(l)`. -/
def invariantAt (s : FwdAnalyzer E D) (l : Label) : Except AnalysisError (InvariantMapPair E D) :=
  match s.result.invariants.find? l with
  | some i => .ok i
  | none => .error (.notFound l)

/-- Change `result.invariants.at(l)`. -/
def modify (s : FwdAnalyzer E D) (l : Label)
    (f : InvariantMapPair E D → InvariantMapPair E D) : Except AnalysisError (FwdAnalyzer E D) := do
  let i ← s.invariantAt l
  return { s with result := { s.result with invariants := s.result.invariants.insert l (f i) } }

def getPre (s : FwdAnalyzer E D) (l : Label) : Except AnalysisError D := (·.pre) <$> s.invariantAt l

def getPost (s : FwdAnalyzer E D) (l : Label) : Except AnalysisError D :=
  (·.post) <$> s.invariantAt l

def hasError (s : FwdAnalyzer E D) (l : Label) : Except AnalysisError Bool :=
  (·.error.isSome) <$> s.invariantAt l

def setPre (s : FwdAnalyzer E D) (l : Label) (v : D) : Except AnalysisError (FwdAnalyzer E D) :=
  s.modify l ({ · with pre := v })

def setPost (s : FwdAnalyzer E D) (l : Label) (v : D) : Except AnalysisError (FwdAnalyzer E D) :=
  s.modify l ({ · with post := v })

def setError (s : FwdAnalyzer E D) (l : Label) (e : E) : Except AnalysisError (FwdAnalyzer E D) :=
  { s with result := { s.result with failed := true } }.modify l ({ · with error := some e })

/-! ## One label -/

def transformToPost (label : Label) (pre : D) (s : FwdAnalyzer E D) :
    Except AnalysisError (FwdAnalyzer E D) := do
  let ins ← prog.instructionAt label
  if ins.isIncrementLoopCounter then s.setPost label (dom.transform pre ins)
  else if ← s.hasError label then return s
  else
    match (← prog.assertionsAt label).findSome? fun a => dom.check pre a label with
    | some error => s.setError label error
    | none => s.setPost label (dom.transform pre ins)

/-- The join of the posts of some labels. -/
def joinPosts (s : FwdAnalyzer E D) (labels : List Label) : Except AnalysisError D :=
  labels.foldlM (fun res prev => dom.join res <$> s.getPost prev) dom.bottom

def joinAllPrevs (node : Label) (s : FwdAnalyzer E D) : Except AnalysisError D := do
  if node = .entry then s.getPre node
  else s.joinPosts dom (← prog.parentsOf node)

/-- `operator()(Label)`. -/
def visitLabel (node : Label) (s : FwdAnalyzer E D) : Except AnalysisError (FwdAnalyzer E D) := do
  let s := if s.skip && node = .entry then { s with skip := false } else s
  if s.skip then return s
  else
    let pre ← s.joinAllPrevs dom prog node
    let s ← s.setPre node pre
    s.transformToPost dom prog node pre

/-! ## Cycles -/

def wideningDelay : ℕ := 2

def descendingIterations : ℕ := 2000000

def extrapolate (before after : D) (iteration : ℕ) : D :=
  if iteration < wideningDelay then dom.join before after
  else dom.widen before after (iteration = wideningDelay)

def refine (before after : D) (iteration : ℕ) : D :=
  if iteration = 1 then dom.meet before after else dom.narrow before after

/-- Increasing iteration sequence with widening. `visitBody` visits the components of the cycle
    other than its head. -/
def increase (visitBody : FwdAnalyzer E D → Except AnalysisError (FwdAnalyzer E D))
    (head : Label) : ℕ → ℕ → D → FwdAnalyzer E D → Except AnalysisError (D × FwdAnalyzer E D)
  | 0, _, _, _ => .error .outOfFuel
  | fuel + 1, iteration, invariant, s => do
    let s ← s.setPre head invariant
    let s ← s.transformToPost dom prog head invariant
    let s ← visitBody s
    let newPre ← s.joinAllPrevs dom prog head
    if dom.le newPre invariant then return (newPre, ← s.setPre head newPre)
    else
      increase visitBody head fuel (iteration + 1) (extrapolate dom invariant newPre iteration) s

/-- Decreasing iteration sequence with narrowing. -/
def decrease (visitBody : FwdAnalyzer E D → Except AnalysisError (FwdAnalyzer E D))
    (head : Label) : ℕ → ℕ → D → FwdAnalyzer E D → Except AnalysisError (FwdAnalyzer E D)
  | 0, _, _, _ => .error .outOfFuel
  | fuel + 1, iteration, invariant, s => do
    let s ← s.transformToPost dom prog head invariant
    let s ← visitBody s
    let newPre ← s.joinAllPrevs dom prog head
    if dom.le invariant newPre then return s
    else if descendingIterations < iteration then return s
    else
      let invariant := refine dom invariant newPre iteration
      let s ← s.setPre head invariant
      decrease visitBody head fuel (iteration + 1) invariant s

/-- The join of the posts from outside the cycle of `head`. -/
def initialInvariant (wto : Wto) (fuel : ℕ) (head : Label) (s : FwdAnalyzer E D) :
    Except AnalysisError D := do
  let cycleNesting ← liftWto (wto.collectHeads fuel head)
  (← prog.parentsOf head).foldlM (fun res prev => do
    if nestingGt (← liftWto (wto.collectHeads fuel prev)) cycleNesting then return res
    else dom.join res <$> s.getPost prev) dom.bottom

/-- `operator()(WtoCycle)`, for the cycle with the components `body`. -/
def visitCycle (wto : Wto) (fuel : ℕ) (body : WtoPartition)
    (visitBody : Label → FwdAnalyzer E D → Except AnalysisError (FwdAnalyzer E D))
    (s : FwdAnalyzer E D) : Except AnalysisError (FwdAnalyzer E D) := do
  let head ← liftWto (Wto.cycleHead ⟨body, none⟩)
  let entryInThisCycle := s.skip && isComponentMember .entry body
  let s := if s.skip then { s with skip := !entryInThisCycle } else s
  if s.skip then return s
  else
    let invariant ←
      if entryInThisCycle then s.getPre .entry else s.initialInvariant dom prog wto fuel head
    let (invariant, s) ← increase dom prog (visitBody head) head fuel 1 invariant s
    decrease dom prog (visitBody head) head fuel 1 invariant s

/-- Visit the components of a partition, without the label `skipped`. -/
def visit (wto : Wto) (fuel : ℕ) : WtoPartition → Option Label → FwdAnalyzer E D →
    Except AnalysisError (FwdAnalyzer E D)
  | .nil, _, s => .ok s
  | .vertex l rest, skipped, s => do
    let s ← if skipped = some l then .ok s else visitLabel dom prog l s
    visit wto fuel rest skipped s
  | .component body rest, skipped, s => do
    let s ← visitCycle dom prog wto fuel body (fun head s => visit wto fuel body (some head) s) s
    visit wto fuel rest skipped s

/-! ## The whole analysis -/

def checkLoopBound (label : Label) (pre : D) : Except AnalysisError (Option E) := do
  let ins ← prog.instructionAt label
  if ins.isIncrementLoopCounter then
    match ← prog.assertionsAt label with
    | [a] => return dom.check pre a label
    | _ => .error (.notOneAssertion label)
  else return none

def findTerminationErrors (s : FwdAnalyzer E D) : Except AnalysisError (FwdAnalyzer E D) :=
  s.result.invariants.entries.foldlM (fun s e => do
    if dom.isBottom e.2.pre then return s
    else match ← checkLoopBound dom prog e.1 e.2.pre with
      | some error => s.setError e.1 error
      | none => return s) s

def maxLoopCount (s : FwdAnalyzer E D) : ℤ :=
  let loopCount := s.result.invariants.entries.foldl
    (fun m e => Bound.max m (dom.getLoopCountUpperBound e.2.post)) (.fin 0)
  match loopCount.number with
  | some m => if Number.FitsS 32 m then m else Number.maxInt 32
  | none => Number.maxInt 32

/-- The iterator before the analysis. -/
def init : FwdAnalyzer E D where
  result :=
    { invariants := prog.cfg.labels.foldl
        (fun m l => m.emplace l ⟨dom.bottom, none, dom.bottom⟩) ∅
      failed := false
      maxLoopCount := 0
      exitValue := .top }
  skip := true

/-- The entry invariant with the loop counters initialised. -/
def initializeLoopCounters (wto : Wto) (checkForTermination : Bool) (entryInv : D) :
    Except AnalysisError D := do
  if checkForTermination then
    return (← liftWto (WtoPartition.loopHeads wto.components)).foldl dom.initializeLoopCounter entryInv
  else return entryInv

/-- The checks that are left to the end, and the largest loop count. -/
def checkTermination (checkForTermination : Bool) (s : FwdAnalyzer E D) :
    Except AnalysisError (FwdAnalyzer E D) := do
  if !s.result.failed && checkForTermination then
    let s ← s.findTerminationErrors dom prog
    if s.result.failed then return s
    else return { s with result := { s.result with maxLoopCount := s.maxLoopCount dom } }
  else return s

/-- What `run` does after the components have been visited. -/
def finish (checkForTermination : Bool) (s : FwdAnalyzer E D) :
    Except AnalysisError (FwdAnalyzer E D) := do
  let s ← s.checkTermination dom prog checkForTermination
  let exitPost ← s.getPost .exit
  return { s with result := { s.result with exitValue := dom.getR0 exitPost } }

/-- `InterleavedFwdFixpointIterator::run`. -/
def run (checkForTermination : Bool) (fuel : ℕ) (entryInv : D) :
    Except AnalysisError (FwdAnalyzer E D) := do
  let wto ← prog.wto fuel
  let entryInv ← initializeLoopCounters dom wto checkForTermination entryInv
  let s ← (init dom prog).setPre .entry entryInv
  let s ← visit dom prog wto fuel wto.components none s
  s.finish dom prog checkForTermination

end FwdAnalyzer

end Prevail
