import Prevail.Crab.TypeToNumSound

/-!
# The whole domain

`EbpfDomain` pairs typed numeric states with the set of stack bytes that may hold something other
than a number. A bit of `BitsetDomain` is set when its byte may be non-numerical, so that the join
of two sets is their union. `ArrayDomain` has one `BitsetDomain` and passes its lattice operations
on. Only `rcp` knows about emptiness: a state is bottom when its values are, whatever its types and
its stack bytes.
-/

namespace Prevail

/-- `EBPF_TOTAL_STACK_SIZE`: eight frames of 512 bytes. -/
def totalStackSize : ℕ := 8 * 512

/-- `BitsetDomain`, whose set bits are the bytes that may be non-numerical. -/
structure BitsetDomain where
  nonNumericalBytes : BitVec totalStackSize
  deriving DecidableEq

namespace BitsetDomain

def top : BitsetDomain := ⟨BitVec.allOnes _⟩

/-- `operator<=`. -/
def le (x y : BitsetDomain) : Bool :=
  x.nonNumericalBytes ||| y.nonNumericalBytes = y.nonNumericalBytes

/-- `operator|`. -/
def join (x y : BitsetDomain) : BitsetDomain := ⟨x.nonNumericalBytes ||| y.nonNumericalBytes⟩

/-- `operator&`. -/
def meet (x y : BitsetDomain) : BitsetDomain := ⟨x.nonNumericalBytes &&& y.nonNumericalBytes⟩

def widen (x y : BitsetDomain) : BitsetDomain := x.join y

theorem le_iff {x y : BitsetDomain} : x.le y = true ↔
    ∀ i, x.nonNumericalBytes.getLsbD i = true → y.nonNumericalBytes.getLsbD i = true := by
  unfold le
  rw [decide_eq_true_eq]
  constructor
  · intro h i hi
    rw [← h, BitVec.getLsbD_or, hi, Bool.true_or]
  · intro h
    refine BitVec.eq_of_getLsbD_eq fun i _ => ?_
    rw [BitVec.getLsbD_or]
    cases hx : x.nonNumericalBytes.getLsbD i with
    | false => rw [Bool.false_or]
    | true => rw [h i hx, Bool.true_or]

theorem le_refl (x : BitsetDomain) : x.le x = true := by
  rw [le_iff]
  exact fun _ h => h

theorem le_trans {x y z : BitsetDomain} (h : x.le y = true) (h' : y.le z = true) :
    x.le z = true := by
  rw [le_iff] at h h' ⊢
  exact fun i hi => h' i (h i hi)

theorem getLsbD_join (x y : BitsetDomain) (i : ℕ) : (x.join y).nonNumericalBytes.getLsbD i =
    (x.nonNumericalBytes.getLsbD i || y.nonNumericalBytes.getLsbD i) := BitVec.getLsbD_or

theorem getLsbD_meet (x y : BitsetDomain) (i : ℕ) : (x.meet y).nonNumericalBytes.getLsbD i =
    (x.nonNumericalBytes.getLsbD i && y.nonNumericalBytes.getLsbD i) := BitVec.getLsbD_and

theorem le_join_left (x y : BitsetDomain) : x.le (x.join y) = true := by
  rw [le_iff]
  intro i hi
  rw [getLsbD_join, hi, Bool.true_or]

theorem le_join_right (x y : BitsetDomain) : y.le (x.join y) = true := by
  rw [le_iff]
  intro i hi
  rw [getLsbD_join, hi, Bool.or_true]

theorem le_meet {x y z : BitsetDomain} (hx : z.le x = true) (hy : z.le y = true) :
    z.le (x.meet y) = true := by
  rw [le_iff] at hx hy ⊢
  intro i hi
  rw [getLsbD_meet, hx i hi, hy i hi, Bool.and_true]

end BitsetDomain

/-- `ArrayDomain`. -/
structure ArrayDomain where
  numBytes : BitsetDomain
  deriving DecidableEq

namespace ArrayDomain

def top : ArrayDomain := ⟨.top⟩

def le (x y : ArrayDomain) : Bool := x.numBytes.le y.numBytes

def join (x y : ArrayDomain) : ArrayDomain := ⟨x.numBytes.join y.numBytes⟩

def meet (x y : ArrayDomain) : ArrayDomain := ⟨x.numBytes.meet y.numBytes⟩

def widen (x y : ArrayDomain) : ArrayDomain := ⟨x.numBytes.widen y.numBytes⟩

end ArrayDomain

/-- `EbpfDomain`. -/
structure EbpfDomain (V : Type*) [LinearOrder V] where
  rcp : TypeToNumDomain V
  stack : ArrayDomain

namespace EbpfDomain

variable {V : Type*} [LinearOrder V]

def top : EbpfDomain V := ⟨.top, .top⟩

/-- `set_to_bottom` on a new state: the stack bytes stay as they are in the top state. -/
def bottom : EbpfDomain V := ⟨.bottom, .top⟩

def isBottom (d : EbpfDomain V) : Bool := d.rcp.isBottom

def addValueConstraint (d : EbpfDomain V) (c : LinearConstraint V) : EbpfDomain V :=
  { d with rcp := { d.rcp with values := d.rcp.values.addConstraint c } }

def addTypeConstraint (d : EbpfDomain V) (c : LinearConstraint V) : EbpfDomain V :=
  { d with rcp := { d.rcp with types := ⟨d.rcp.types.inv.addConstraint c⟩ } }

def fromConstraints (typeConstraints valueConstraints : List (LinearConstraint V)) :
    EbpfDomain V :=
  valueConstraints.foldl addValueConstraint (typeConstraints.foldl addTypeConstraint top)

variable (R : VariableRegistry V)

/-- `operator<=`. -/
def le (d o : EbpfDomain V) : Bool :=
  if !d.stack.le o.stack then false else d.rcp.le R o.rcp

/-- `operator|=`. -/
def joinAssign (d o : EbpfDomain V) : EbpfDomain V :=
  if o.isBottom then d
  else if d.isBottom then o
  else ⟨d.rcp.join R o.rcp, d.stack.join o.stack⟩

/-- `operator|`, which adds the left operand to a copy of the right one. -/
def join (d o : EbpfDomain V) : EbpfDomain V :=
  if o.isBottom then d
  else if d.isBottom then o
  else o.joinAssign R d

/-- `operator&`. -/
def meet (d o : EbpfDomain V) : EbpfDomain V :=
  let res := d.rcp.meet o.rcp
  if !res.isBottom then ⟨res, d.stack.meet o.stack⟩ else bottom

/-- The limits of register `i`; the loop counters are bounded by its value too. -/
def registerLimits (checkForTermination : Bool) (i : ℕ) : List (LinearConstraint V) :=
  let r kind := LinearExpression.var (R.kindVar kind (R.typeReg i))
  [(r .svalues).le (.const (Number.maxInt 32)), (r .svalues).ge (.const (Number.minInt 32)),
    (r .uvalues).le (.const (Number.maxUint 32)), (r .uvalues).ge (.const 0),
    (r .stackOffsets).le (.const totalStackSize), (r .stackOffsets).ge (.const 0),
    (r .sharedOffsets).le (r .sharedRegionSizes), (r .sharedOffsets).ge (.const 0),
    (r .packetOffsets).le (.var R.packetSize), (r .packetOffsets).ge (.const 0)] ++
  if checkForTermination then
    R.loopCounters.flatMap fun counter =>
      [(LinearExpression.var counter).le (.const (Number.maxInt 32)),
        (LinearExpression.var counter).ge (.const 0),
        (LinearExpression.var counter).le (r .svalues)]
  else []

def calculateConstantLimits (checkForTermination : Bool) : EbpfDomain V :=
  ((List.range 10).flatMap (registerLimits R checkForTermination)).foldl addValueConstraint top

/-- `constant_limits`, which is computed once when the program starts: termination is not checked then. -/
def constantLimits : EbpfDomain V := calculateConstantLimits R false

/-- The first widening of a loop is met with the constant limits. -/
def widen (d o : EbpfDomain V) (toConstants : Bool) : EbpfDomain V :=
  let res := ⟨d.rcp.widen R o.rcp, d.stack.widen o.stack⟩
  if toConstants then res.meet (constantLimits R) else res

def narrow (d o : EbpfDomain V) : EbpfDomain V := ⟨d.rcp.narrow o.rcp, d.stack.meet o.stack⟩

end EbpfDomain

end Prevail
