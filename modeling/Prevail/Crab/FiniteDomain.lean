import Prevail.Crab.SplitDbm
import Prevail.Ir.Syntax

/-!
# Conditional jumps on machine words

`FiniteDomain` reads a register through two variables of a `SplitDBM`, its value as a signed word
(`svalue`) and as an unsigned word (`uvalue`). `assume_cst_imm` and `assume_cst_reg` turn a
comparison of words into linear constraints on these variables. A 32-bit comparison looks at the
low halves of the words only, while the variables stand for the whole words.

A function returns `none` where the source raises an error.
-/

namespace Prevail

open Number LinearExpression

namespace FiniteDomain

variable {V : Type} [LinearOrder V]

/-- `strict ? e < f : e <= f`. -/
def ltOrLe (strict : Bool) (e f : LinearExpression V) : LinearConstraint V :=
  if strict then e.lt f else e.le f

/-- `strict ? e > f : e >= f`. -/
def gtOrGe (strict : Bool) (e f : LinearExpression V) : LinearConstraint V :=
  if strict then e.gt f else e.ge f

/-- `strict ? a < b : a <= b` on bounds. -/
def below (strict : Bool) (a b : Bound) : Bool :=
  if strict then decide (a < b) else decide (a ≤ b)

/-- `strict ? a <= b : a < b` on bounds. -/
def notAbove (strict : Bool) (a b : Bound) : Bool :=
  if strict then decide (a ≤ b) else decide (a < b)

def assumeBitCstInterval (op : ConditionOp) (is64 : Bool) (dst src : Interval) :
    Option (List (LinearConstraint V)) :=
  match dst.singleton, src.singleton with
  | some dstN, some srcN =>
    if FitsCast 64 dstN ∧ FitsCast 64 srcN then do
      let dstN ← castToU 64 dstN
      let srcN ← castToU 64 srcN
      let srcN := if is64 then srcN else zeroExtend 32 srcN
      let common := dstN.toNat &&& srcN.toNat
      match op with
      | .set => some [if common ≠ 0 then .trueConst else .falseConst]
      | .nset => some [if common = 0 then .trueConst else .falseConst]
      | _ => none
    else some []
  | _, _ => some []

/-! ## Signed comparisons -/

/-- The four intervals that `get_signed_intervals` and `get_unsigned_intervals` return: the
operands, and the left operand split in two. -/
structure OperandIntervals where
  left : Interval
  right : Interval
  leftPositive : Interval
  leftNegative : Interval

section

variable (d : SplitDbm V) (leftSvalue leftUvalue : V) (rightSvalue rightUvalue : LinearExpression V)

/-- Both intervals lie in one half of the 32-bit range, so that the comparison is that of the
whole words. -/
def sameHalf (half half' left right : Interval) : Bool :=
  (left ≤ half && right ≤ half) || (left ≤ half' && right ≤ half')

/-- The intervals as 32-bit or 64-bit as appropriate. -/
def signedOperands (is64 : Bool) : Interval × Interval :=
  let left := d.evalInterval (.var leftSvalue)
  let right := d.evalInterval rightSvalue
  if is64 || sameHalf (.nonnegative 32) (.negative 32) left right then (left, right)
  else (left.signExtend 32, right.signExtend 32)

def getSignedIntervals (is64 : Bool) : OperandIntervals :=
  let (left, right) := signedOperands d leftSvalue rightSvalue is64
  let uleft := d.evalInterval (.var leftUvalue)
  let (left, positive, negative) :=
    if !left.isTop then (left, left.meet (.nonnegative 64), left.meet (.negative 64))
    else if !uleft.isTop then
      let ub := match uleft.ub.number with
        | some n => Number.signExtend 64 n
        | none => -1
      (uleft, uleft.meet (.nonnegative 64), .ofInts (minInt 64) ub)
    else (uleft, .nonnegative 64, .negative 64)
  ⟨left.signExtend 64, right.signExtend 64, positive, negative⟩

def assumeSigned64bitEq (right : Interval) : Option (List (LinearConstraint V)) :=
  if right ≤ .nonnegative 64 ∧ !right.isSingleton then
    some [eq (.var leftSvalue) rightSvalue, eq (.var leftUvalue) rightUvalue,
      eq (.var leftSvalue) (.var leftUvalue)]
  else some [eq (.var leftSvalue) rightSvalue, eq (.var leftUvalue) rightUvalue]

/-- The word with the upper half of `n` and the low half of `m`. -/
def matchLow (n m : ℤ) : ℤ := n / 2 ^ 32 * 2 ^ 32 + zeroExtend 32 m

/-- The updates of `lb` in the source come after its last use. -/
def assumeSigned32bitEq (right : Interval) : Option (List (LinearConstraint V)) :=
  let left := d.evalInterval (.var leftSvalue)
  match right.singleton, left.finiteSize with
  | some rn, some _ => do
    let rn ← castToS 64 rn
    let lb ← castToS 64 (← left.lb.number)
    let ub ← castToS 64 (← left.ub.number)
    let lbMatch := matchLow lb rn
    let ubMatch := matchLow ub rn
    if zeroExtend 64 lbMatch ≤ zeroExtend 64 ubMatch then
      some [ge (.var leftSvalue) (.const lbMatch), le (.var leftSvalue) (.const ubMatch),
        ge (.var leftUvalue) (.const (zeroExtend 64 lbMatch)),
        le (.var leftUvalue) (.const (zeroExtend 64 ubMatch))]
    else some [ge (.var leftSvalue) (.const lbMatch), le (.var leftSvalue) (.const ubMatch)]
  | _, _ => some []

def assumeSigned64bitLt (strict : Bool) (i : OperandIntervals) :
    Option (List (LinearConstraint V)) :=
  let both := [ltOrLe strict (.var leftSvalue) rightSvalue, le (.const 0) (.var leftUvalue),
    ltOrLe strict (.var leftUvalue) rightUvalue]
  if i.right ≤ .negative 64 then some both
  else if i.leftNegative.join i.leftPositive ≤ .nonnegative 64 ∧ i.right ≤ .nonnegative 64 then
    some both
  else some [ltOrLe strict (.var leftSvalue) rightSvalue]

def assumeSigned32bitLt (strict : Bool) (i : OperandIntervals) :
    Option (List (LinearConstraint V)) :=
  if i.right ≤ .negative 32 then
    some [lt (.const (maxInt 32)) (.var leftUvalue),
      ltOrLe strict (.var leftUvalue) rightUvalue, ltOrLe strict (.var leftSvalue) rightSvalue]
  else if i.leftNegative.join i.leftPositive ≤ .nonnegative 32 ∧ i.right ≤ .nonnegative 32 then do
    let lpub ← (i.leftPositive.signExtend 32).ub.number
    some [ge (.var leftSvalue) (.const 0), ltOrLe strict (.var leftSvalue) rightSvalue,
      le (.var leftSvalue) (.var leftUvalue), ge (.var leftSvalue) (.var leftUvalue),
      ge (.var leftUvalue) (.const 0), ltOrLe strict (.var leftUvalue) rightUvalue,
      le (.var leftUvalue) (.const lpub)]
  else if d.evalInterval (.var leftSvalue) ≤ .signedInt 32 ∧
      d.evalInterval rightSvalue ≤ .signedInt 32 then
    some [ltOrLe strict (.var leftSvalue) rightSvalue]
  else some []

/-- The constraints of `left > right` for a right operand that is not negative, at width `w`. -/
def assumeSignedGtNonnegative (w : ℕ) (strict : Bool) (i : OperandIntervals) :
    Option (List (LinearConstraint V)) := do
  let lpub ← (i.leftPositive.signExtend w).ub.number
  some [ge (.var leftSvalue) (.const 0), gtOrGe strict (.var leftSvalue) rightSvalue,
    le (.var leftSvalue) (.var leftUvalue), ge (.var leftSvalue) (.var leftUvalue),
    ge (.var leftUvalue) (.const 0), gtOrGe strict (.var leftUvalue) rightUvalue,
    le (.var leftUvalue) (.const lpub)]

def assumeSigned64bitGt (strict : Bool) (i : OperandIntervals) :
    Option (List (LinearConstraint V)) :=
  if i.right ≤ .nonnegative 64 then
    assumeSignedGtNonnegative leftSvalue leftUvalue rightSvalue rightUvalue 64 strict i
  else if i.leftNegative.join i.leftPositive ≤ .negative 64 ∧ i.right ≤ .negative 64 then
    some [lt (.const (maxInt 64)) (.var leftUvalue),
      gtOrGe strict (.var leftUvalue) rightUvalue, gtOrGe strict (.var leftSvalue) rightSvalue]
  else some [gtOrGe strict (.var leftSvalue) rightSvalue]

def assumeSigned32bitGt (strict : Bool) (i : OperandIntervals) :
    Option (List (LinearConstraint V)) :=
  if i.right ≤ .nonnegative 32 then
    assumeSignedGtNonnegative leftSvalue leftUvalue rightSvalue rightUvalue 32 strict i
  else if i.leftNegative.join i.leftPositive ≤ .negative 32 ∧ i.right ≤ .negative 32 then
    some [ge (.var leftUvalue) (.const (maxInt 32 + 1)),
      gtOrGe strict (.var leftUvalue) rightUvalue, gtOrGe strict (.var leftSvalue) rightSvalue]
  else if d.evalInterval (.var leftSvalue) ≤ .signedInt 32 ∧
      d.evalInterval rightSvalue ≤ .signedInt 32 then
    some [gtOrGe strict (.var leftSvalue) rightSvalue]
  else some []

/-- The operators `<` and `<=` of either signedness. -/
def isLt (op : ConditionOp) : Bool :=
  op = .slt || op = .sle || op = .lt || op = .le

/-- The operators `<` and `>` of either signedness. -/
def isStrict (op : ConditionOp) : Bool :=
  op = .slt || op = .sgt || op = .lt || op = .gt

/-- The intervals leave no word pair for the comparison. -/
def neverHolds (op : ConditionOp) (left right : Interval) : Bool :=
  if isLt op then notAbove (isStrict op) right.ub left.lb
  else notAbove (isStrict op) left.ub right.lb

/-- The comparison holds for all words of the intervals. -/
def alwaysHolds (op : ConditionOp) (left right : Interval) : Bool :=
  if isLt op then below (isStrict op) left.ub right.lb
  else below (isStrict op) right.ub left.lb

def assumeSignedCstInterval (op : ConditionOp) (is64 : Bool) :
    Option (List (LinearConstraint V)) :=
  let i := getSignedIntervals d leftSvalue leftUvalue rightSvalue is64
  let strict := isStrict op
  if op = .eq then
    if is64 then assumeSigned64bitEq leftSvalue leftUvalue rightSvalue rightUvalue i.right
    else assumeSigned32bitEq d leftSvalue leftUvalue i.right
  else if neverHolds op i.left i.right then some [.falseConst]
  else if alwaysHolds op i.left i.right then some [.trueConst]
  else if is64 then
    if isLt op then assumeSigned64bitLt leftSvalue leftUvalue rightSvalue rightUvalue strict i
    else assumeSigned64bitGt leftSvalue leftUvalue rightSvalue rightUvalue strict i
  else
    if isLt op then assumeSigned32bitLt d leftSvalue leftUvalue rightSvalue rightUvalue strict i
    else assumeSigned32bitGt d leftSvalue leftUvalue rightSvalue rightUvalue strict i

/-! ## Unsigned comparisons -/

def unsignedOperands (is64 : Bool) : Interval × Interval :=
  let left := d.evalInterval (.var leftUvalue)
  let right := d.evalInterval rightUvalue
  if is64 || sameHalf (.nonnegative 32) (.unsignedHigh 32) left right then (left, right)
  else (left.zeroExtend 32, right.zeroExtend 32)

/-- The low and high parts of the left operand stand in `leftPositive` and `leftNegative`. -/
def getUnsignedIntervals (is64 : Bool) : OperandIntervals :=
  let (left, right) := unsignedOperands d leftUvalue rightUvalue is64
  let sleft := d.evalInterval (.var leftSvalue)
  let (left, low, high) :=
    if !left.isTop then (left, left.meet (.nonnegative 64), left.meet (.unsignedHigh 64))
    else if !sleft.isTop then
      (sleft, (Interval.ofBounds (.fin 0) sleft.ub).zeroExtend 64,
        (Interval.ofBounds sleft.lb (.fin (-1))).zeroExtend 64)
    else (sleft, .nonnegative 64, .unsignedHigh 64)
  ⟨left.zeroExtend 64, right.zeroExtend 64, low, high⟩

def assumeUnsigned64bitLt (strict : Bool) (i : OperandIntervals) :
    Option (List (LinearConstraint V)) := do
  let rub := i.right.ub
  let lllb := (i.leftPositive.zeroExtend 64).lb
  let lhlb := (i.leftNegative.zeroExtend 64).lb
  let lsub := match (d.evalInterval (.var leftSvalue)).ub.number with
    | some n => [le (.var leftUvalue) (.const n)]
    | none => []
  if i.right ≤ .nonnegative 64 ∧ notAbove strict rub lllb then
    some ([ge (.var leftUvalue) (.const 0), ltOrLe strict (.var leftUvalue) rightUvalue] ++ lsub ++
      [ge (.var leftSvalue) (.const 0)])
  else if i.right ≤ .unsignedHigh 64 ∧ notAbove strict rub lhlb then do
    let rub ← rub.number
    some ([ge (.var leftUvalue) (.const 0), ltOrLe strict (.var leftUvalue) (.const rub)] ++ lsub ++
      [ge (.var leftSvalue) (.const 0)])
  else if i.right ≤ .signedInt 64 then do
    let llub ← (i.leftPositive.zeroExtend 64).ub.number
    some [le (.const 0) (.var leftUvalue), ltOrLe strict (.var leftUvalue) rightUvalue,
      le (.var leftUvalue) (.const llub), le (.const 0) (.var leftSvalue),
      ltOrLe strict (.var leftSvalue) rightSvalue]
  else if i.leftPositive.isBottom ∧ i.right ≤ .unsignedHigh 64 then
    some [le (.const 0) (.var leftUvalue), ltOrLe strict (.var leftUvalue) rightUvalue,
      ltOrLe strict (.var leftSvalue) rightSvalue]
  else if i.leftPositive.join i.leftNegative = .unsignedInt 64 then
    some [ltOrLe strict (.var leftUvalue) rightUvalue]
  else some [le (.const 0) (.var leftUvalue), ltOrLe strict (.var leftUvalue) rightUvalue]

def assumeUnsigned32bitLt (strict : Bool) : Option (List (LinearConstraint V)) :=
  let both := [le (.const 0) (.var leftUvalue), ltOrLe strict (.var leftUvalue) rightUvalue,
    ltOrLe strict (.var leftSvalue) rightSvalue]
  if d.evalInterval (.var leftUvalue) ≤ .nonnegative 32 ∧
      d.evalInterval rightUvalue ≤ .nonnegative 32 then some both
  else if d.evalInterval (.var leftSvalue) ≤ .negative 32 ∧
      d.evalInterval rightSvalue ≤ .negative 32 then some both
  else if d.evalInterval (.var leftUvalue) ≤ .unsignedInt 32 ∧
      d.evalInterval rightUvalue ≤ .unsignedInt 32 then
    some [le (.const 0) (.var leftUvalue), ltOrLe strict (.var leftUvalue) rightUvalue]
  else some []

def assumeUnsigned64bitGt (strict : Bool) (i : OperandIntervals) :
    Option (List (LinearConstraint V)) := do
  let rlb := i.right.lb
  let llub := (i.leftPositive.zeroExtend 64).ub
  let lhlb := (i.leftNegative.zeroExtend 64).lb
  let both := [le (.const 0) (.var leftUvalue), gtOrGe strict (.var leftUvalue) rightUvalue,
    gtOrGe strict (.var leftSvalue) rightSvalue]
  if i.right ≤ .nonnegative 64 ∧ notAbove strict llub rlb then do
    let lhlb ← lhlb.number
    some [gtOrGe strict (.var leftUvalue) rightUvalue,
      if lhlb = maxUint 64 then eq (.var leftUvalue) (.const lhlb)
      else ge (.var leftUvalue) (.const lhlb),
      lt (.var leftSvalue) (.const 0)]
  else if i.right ≤ .unsignedHigh 64 then some both
  else if i.leftPositive.join i.leftNegative ≤ .nonnegative 64 ∧ i.right ≤ .nonnegative 64 then
    some both
  else some [le (.const 0) (.var leftUvalue), gtOrGe strict (.var leftUvalue) rightUvalue]

def assumeUnsigned32bitGt (strict : Bool) (i : OperandIntervals) :
    Option (List (LinearConstraint V)) :=
  if i.right ≤ .unsignedHigh 32 then
    some [le (.const 0) (.var leftUvalue), gtOrGe strict (.var leftUvalue) rightUvalue,
      gtOrGe strict (.var leftSvalue) rightSvalue]
  else if d.evalInterval (.var leftUvalue) ≤ .unsignedInt 32 ∧
      d.evalInterval rightUvalue ≤ .unsignedInt 32 then
    some [le (.const 0) (.var leftUvalue), gtOrGe strict (.var leftUvalue) rightUvalue]
  else some []

/-- The comparison that stands for `op`, with its right interval: `!=` an end of the left interval
is a strict comparison with that end. -/
def disequalityAsOrder (op : ConditionOp) (is64 : Bool) (i : OperandIntervals) :
    Option (ConditionOp × OperandIntervals) :=
  if op = .ne then
    match i.right.singleton with
    | none => none
    | some rn =>
      if (i.left.zeroExtend (if is64 then 64 else 32)).lb.number = some rn then
        some (.gt, { i with right := ⟨i.left.lb, i.left.lb⟩ })
      else if i.left.ub.number = some rn then
        some (.lt, { i with right := ⟨i.left.ub, i.left.ub⟩ })
      else none
  else some (op, i)

def assumeUnsignedCstInterval (op : ConditionOp) (is64 : Bool) :
    Option (List (LinearConstraint V)) :=
  match disequalityAsOrder op is64 (getUnsignedIntervals d leftSvalue leftUvalue rightUvalue is64)
  with
  | none => some []
  | some (op, i) =>
    let strict := isStrict op
    if neverHolds op i.left i.right then some [.falseConst]
    else if alwaysHolds op i.left i.right then
      if !is64 then some []
      else if isLt op then some [ltOrLe strict (.var leftUvalue) rightUvalue]
      else some [gtOrGe strict (.var leftUvalue) rightUvalue]
    else if is64 then
      if isLt op then
        assumeUnsigned64bitLt d leftSvalue leftUvalue rightSvalue rightUvalue strict i
      else assumeUnsigned64bitGt leftSvalue leftUvalue rightSvalue rightUvalue strict i
    else
      if isLt op then assumeUnsigned32bitLt d leftSvalue leftUvalue rightSvalue rightUvalue strict
      else assumeUnsigned32bitGt d leftSvalue leftUvalue rightSvalue rightUvalue strict i

end

/-! ## The two entry points -/

/-- The operators that `assume_cst_imm` and the 32-bit half of `assume_cst_reg` compare as signed
numbers. -/
def isSigned (op : ConditionOp) : Bool :=
  op = .eq || op = .sge || op = .sle || op = .sgt || op = .slt

def isBitTest (op : ConditionOp) : Bool := op = .set || op = .nset

def assumeCstImm (d : SplitDbm V) (op : ConditionOp) (is64 : Bool) (dstSvalue dstUvalue : V)
    (imm : BitVec 64) : Option (List (LinearConstraint V)) :=
  if isSigned op then
    assumeSignedCstInterval d dstSvalue dstUvalue (.const imm.toInt) (.const imm.toNat) op is64
  else if isBitTest op then
    assumeBitCstInterval op is64 (d.evalInterval (.var dstUvalue)) (.const imm.toInt)
  else
    assumeUnsignedCstInterval d dstSvalue dstUvalue (.const imm.toInt) (.const imm.toNat) op is64

def assumeCstReg (d : SplitDbm V) (op : ConditionOp) (is64 : Bool)
    (dstSvalue dstUvalue srcSvalue srcUvalue : V) : Option (List (LinearConstraint V)) :=
  if isBitTest op then
    assumeBitCstInterval op is64 (d.evalInterval (.var dstUvalue))
      (d.evalInterval (.var srcUvalue))
  else if is64 then
    match op with
    | .eq =>
      let src := d.evalInterval (.var srcSvalue)
      if !src.isSingleton ∧ src ≤ .nonnegative 64 then
        some [eq (.var dstSvalue) (.var srcSvalue), eq (.var dstUvalue) (.var srcUvalue),
          eq (.var dstSvalue) (.var dstUvalue)]
      else some [eq (.var dstSvalue) (.var srcSvalue), eq (.var dstUvalue) (.var srcUvalue)]
    | .ne => some [ne (.var dstSvalue) (.var srcSvalue)]
    | .sge => some [ge (.var dstSvalue) (.var srcSvalue)]
    | .sle => some [le (.var dstSvalue) (.var srcSvalue)]
    | .sgt => some [gt (.var dstSvalue) (.var srcSvalue)]
    | .slt => some [gt (.var srcSvalue) (.var dstSvalue)]
    | _ =>
      assumeUnsignedCstInterval d dstSvalue dstUvalue (.var srcSvalue) (.var srcUvalue) op is64
  else if isSigned op then
    assumeSignedCstInterval d dstSvalue dstUvalue (.var srcSvalue) (.var srcUvalue) op is64
  else assumeUnsignedCstInterval d dstSvalue dstUvalue (.var srcSvalue) (.var srcUvalue) op is64

/-- The right operand of a comparison. -/
inductive RightOperand (V : Type) where
  | imm (n : BitVec 64)
  | reg (svalue uvalue : V)

/-- The signed reading of the right operand. -/
def RightOperand.svalue : RightOperand V → LinearExpression V
  | imm n => .const n.toInt
  | reg s _ => .var s

/-- The unsigned reading of the right operand. -/
def RightOperand.uvalue : RightOperand V → LinearExpression V
  | imm n => .const n.toNat
  | reg _ u => .var u

/-- `assume_cst_imm` or `assume_cst_reg`. -/
def assumeCst (d : SplitDbm V) (op : ConditionOp) (is64 : Bool) (dstSvalue dstUvalue : V)
    (right : RightOperand V) : Option (List (LinearConstraint V)) :=
  match right with
  | .imm n => assumeCstImm d op is64 dstSvalue dstUvalue n
  | .reg s u => assumeCstReg d op is64 dstSvalue dstUvalue s u

end FiniteDomain

end Prevail
