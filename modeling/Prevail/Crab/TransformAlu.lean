import Prevail.Crab.Feasible
import Prevail.Crab.TransformLocal
import Prevail.Crab.TransformShift

/-!
# The transfer functions of arithmetic

`Bin` and `Un`, for all operators, both widths and both kinds of operands. What happens to the value of a
register goes by the types that the transformer knows: sums and differences also move the offsets of
pointers, and everything else makes a register a number, of which no offset is known. At 32 bits the high
half of the result is cut off at the end, and that of an operand before an immediate value is applied.

`none` stands for an error: a number that does not fit the type it is narrowed to, an operation on values
that are bottom, or a type without kinds.
-/

namespace Prevail

open AddBottom TypeToNumDomain LinearExpression

namespace FiniteDomain

variable {V : Type} [LinearOrder V] (isUnsigned : V → Bool) (d : SplitDbm V) (svalue uvalue : V)

/-- `mul`. -/
def mul (z : V ⊕ ℤ) (w : ℕ) : Option (SplitDbm V) :=
  applySigned isUnsigned d (.arith .mul) svalue uvalue svalue z w

/-- `neg`. -/
def neg (w : ℕ) : Option (SplitDbm V) := mul isUnsigned d svalue uvalue (.inr (-1)) w

def sdiv (z : V ⊕ ℤ) (w : ℕ) : Option (SplitDbm V) :=
  applySigned isUnsigned d (.signedArith .sdiv) svalue uvalue svalue z w

def udiv (z : V ⊕ ℤ) (w : ℕ) : Option (SplitDbm V) :=
  applyUnsigned isUnsigned d (.signedArith .udiv) svalue uvalue uvalue z w

def srem (z : V ⊕ ℤ) (w : ℕ) : Option (SplitDbm V) :=
  applySigned isUnsigned d (.signedArith .srem) svalue uvalue svalue z w

def urem (z : V ⊕ ℤ) (w : ℕ) : Option (SplitDbm V) :=
  applyUnsigned isUnsigned d (.signedArith .urem) svalue uvalue uvalue z w

/-- A bitwise operation on the unsigned value. With a number it is always one of 64 bits. -/
def bitwise (op : BitwiseBinOp) (z : V ⊕ ℤ) (w : ℕ) : Option (SplitDbm V) :=
  applyUnsigned isUnsigned d (.bitwise op) svalue uvalue uvalue z (if z.isRight then 64 else w)

/-- `bitwise_and`. -/
def bitwiseAnd (z : V ⊕ ℤ) (w : ℕ) : Option (SplitDbm V) := bitwise isUnsigned d svalue uvalue .and z w

/-- `bitwise_or`. -/
def bitwiseOr (z : V ⊕ ℤ) (w : ℕ) : Option (SplitDbm V) := bitwise isUnsigned d svalue uvalue .or z w

/-- `bitwise_xor`. -/
def bitwiseXor (z : V ⊕ ℤ) (w : ℕ) : Option (SplitDbm V) := bitwise isUnsigned d svalue uvalue .xor z w

/-- `shl_overflow` by a variable. -/
def shlOverflowVar (op2 : V) : Option (SplitDbm V) :=
  applyUnsigned isUnsigned d (.bitwise .shl) svalue uvalue uvalue (.inl op2) 64

end FiniteDomain

namespace EbpfTransformer

variable {V : Type} [LinearOrder V] (R : ProgramVariables V) (isUnsigned : V → Bool)

/-- An operation on the values, which must not be bottom. -/
def onValues (op : SplitDbm V → Option (SplitDbm V)) (rcp : TypeToNumDomain V) :
    Option (TypeToNumDomain V) := do
  return { rcp with values := some (← op (← rcp.values)) }

/-- An operation on the variables of a register, of which no offset is known afterwards. -/
def compute (dst : Reg) (op : SplitDbm V → V → V → Option (SplitDbm V)) (rcp : TypeToNumDomain V) :
    Option (TypeToNumDomain V) := do
  return (← onValues (op · (R.reg .svalues dst) (R.reg .uvalues dst)) rcp).havocOffsets R dst

/-- The register keeps its low half. -/
def lowHalf (dst : Reg) (rcp : TypeToNumDomain V) : Option (TypeToNumDomain V) :=
  onValues (FiniteDomain.bitwiseAnd isUnsigned · (R.reg .svalues dst) (R.reg .uvalues dst)
    (.inr (Number.maxUint 32)) 64) rcp

/-- What a case of an instruction leaves: some cases return, the others go on to the last step. -/
inductive Outcome (α : Type) where
  | returns (a : α)
  | goesOn (a : α)

/-! ## Immediate operands -/

/-- The number that an immediate value stands for. -/
def immNumber (is64 : Bool) (imm : UInt64) : ℤ :=
  if is64 then imm.toBitVec.toInt else (imm.toBitVec.setWidth 32).toInt

/-- The register before an immediate value is applied to it on 32 bits. -/
def cutOperand (b : Bin) (rcp : TypeToNumDomain V) : Option (TypeToNumDomain V) :=
  if b.is64 then some rcp
  else if rcp.types.isInGroup (R.regType b.dst) .number then lowHalf R isUnsigned b.dst rcp
  else some (havocRegister R rcp b.dst)

/-- `MOV` of a number. -/
def movImm (dst : Reg) (imm : ℤ) (w : ℕ) (rcp : TypeToNumDomain V) : Option (TypeToNumDomain V) := do
  let values := (rcp.values.assignInt (R.reg .svalues dst) imm).assignInt (R.reg .uvalues dst) imm
  let rcp ← onValues (FiniteDomain.overflowBound · (R.reg .uvalues dst) w false)
    { rcp with values := values }
  return (rcp.assignType (R.regType dst) (.const TypeEncoding.num.toInt)).havocOffsets R dst

/-- The constraints on the result of `AND` with a positive number. -/
def boundBy (dst : Reg) (imm : ℤ) (rcp : TypeToNumDomain V) : TypeToNumDomain V :=
  let svalue := LinearExpression.var (R.reg .svalues dst)
  let uvalue := LinearExpression.var (R.reg .uvalues dst)
  let values := rcp.values.addConstraint (LinearExpression.le svalue (.const imm))
  let values := values.addConstraint (LinearExpression.le uvalue (.const imm))
  let values := values.addConstraint (LinearExpression.le (.const 0) svalue)
  { rcp with values := values.addConstraint (LinearExpression.le (.const 0) uvalue) }

/-- `AND` with a number. -/
def andImm (dst : Reg) (imm : ℤ) (w : ℕ) (rcp : TypeToNumDomain V) : Option (TypeToNumDomain V) := do
  let rcp ← onValues (FiniteDomain.bitwiseAnd isUnsigned · (R.reg .svalues dst) (R.reg .uvalues dst)
    (.inr imm) w) rcp
  let imm ← narrowS 32 imm
  return (if 0 < imm then boundBy R dst imm rcp else rcp).havocOffsets R dst

/-- `ADD` of a number. Zero is not added. -/
def addImm (dst : Reg) (imm : ℤ) (w : ℕ) (d : EbpfDomain V) : Option (Outcome (EbpfDomain V)) :=
  if imm = 0 then some (.returns d)
  else do return .goesOn (← add R isUnsigned dst (← narrowS 32 imm) w d)

/-- The cases of `Bin` with an immediate value. -/
def binImm (b : Bin) (imm : ℤ) (w : ℕ) (d : EbpfDomain V) : Option (Outcome (EbpfDomain V)) :=
  let typed (rcp : Option (TypeToNumDomain V)) : Option (Outcome (EbpfDomain V)) := do
    return .goesOn { d with rcp := ← rcp }
  let count := do return BitVec.ofInt 32 (← narrowS 32 imm)
  match b.op with
  | .mov => typed (movImm R b.dst imm w d.rcp)
  | .movsx8 | .movsx16 | .movsx32 => none
  | .add => addImm R isUnsigned b.dst imm w d
  | .sub => addImm R isUnsigned b.dst (-imm) w d
  | .mul => typed (compute R b.dst (FiniteDomain.mul isUnsigned · · · (.inr imm) w) d.rcp)
  | .udiv => typed (compute R b.dst (FiniteDomain.udiv isUnsigned · · · (.inr imm) w) d.rcp)
  | .umod => typed (compute R b.dst (FiniteDomain.urem isUnsigned · · · (.inr imm) w) d.rcp)
  | .sdiv => typed (compute R b.dst (FiniteDomain.sdiv isUnsigned · · · (.inr imm) w) d.rcp)
  | .smod => typed (compute R b.dst (FiniteDomain.srem isUnsigned · · · (.inr imm) w) d.rcp)
  | .or => typed (compute R b.dst (FiniteDomain.bitwiseOr isUnsigned · · · (.inr imm) w) d.rcp)
  | .and => typed (andImm R isUnsigned b.dst imm w d.rcp)
  | .lsh => typed (do shl R d.rcp b.dst (← count) w)
  | .rsh => typed (do lshr R d.rcp b.dst (← count) w)
  | .arsh => typed (do ashr R d.rcp b.dst (.const (← narrowS 32 imm)) w)
  | .xor => typed (compute R b.dst (FiniteDomain.bitwiseXor isUnsigned · · · (.inr imm) w) d.rcp)

/-! ## Register operands -/

/-- What is known of the numeric bytes behind a stack pointer that moves up. Nothing is, when it may move
down. -/
def shrinkNumericSize (stack : ArrayDomain) (dst : Reg) (mayGrow : LinearConstraint V)
    (shrink : SplitDbm V → Option (SplitDbm V)) (rcp : TypeToNumDomain V) : Option (TypeToNumDomain V) :=
  if rcp.values.intersect mayGrow then
    some (recomputeStackNumericSize R
      { rcp with values := rcp.values.havoc (R.reg .stackNumericSizes dst) } stack dst)
  else onValues shrink rcp

/-- `ADD` of a pointer to a number. -/
def numPlusPtr (dst src : Reg) (srcType : TypeEncoding) (rcp : TypeToNumDomain V) :
    Option (TypeToNumDomain V) := do
  let rcp := rcp.assignType (R.regType dst) (.const srcType.toInt)
  let rcp ← match getTypeOffsetVariable R dst srcType.toInt with
    | some dstOffset => do
      let srcOffset ← getTypeOffsetVariable R src srcType.toInt
      onValues (FiniteDomain.apply isUnsigned · (.arith .add) dstOffset (R.reg .svalues dst)
        (.inl srcOffset) 0) rcp
    | none => some rcp
  if srcType = .shared then
    let size := LinearExpression.var (R.reg .sharedRegionSizes src)
    return { rcp with values := rcp.values.assign (R.reg .sharedRegionSizes dst) size }
  else return rcp

/-- `ADD` of a number to a pointer. -/
def ptrPlusNum (stack : ArrayDomain) (dst src : Reg) (dstType : TypeEncoding) (rcp : TypeToNumDomain V) :
    Option (TypeToNumDomain V) :=
  let rcp := rcp.assignType (R.regType dst) (.const dstType.toInt)
  let size := R.reg .stackNumericSizes dst
  match getTypeOffsetVariable R dst dstType.toInt with
  | none => some rcp
  | some dstOffset => do
    let rcp ← onValues (FiniteDomain.apply isUnsigned · (.arith .add) dstOffset dstOffset
      (.inl (R.reg .svalues src)) 0) rcp
    if dstType = .stack then
      shrinkNumericSize R stack dst (LinearExpression.lt (.var (R.reg .svalues src)) (.const 0))
        (FiniteDomain.sub isUnsigned · size (.inl (R.reg .svalues src))) rcp
    else some rcp

/-- `ADD` of two registers on the value of the first one. -/
def addNumbers (dst src : Reg) (w : ℕ) (rcp : TypeToNumDomain V) : Option (TypeToNumDomain V) :=
  onValues (FiniteDomain.applySigned isUnsigned · (.arith .add) (R.reg .svalues dst) (R.reg .uvalues dst)
    (R.reg .svalues dst) (.inl (R.reg .svalues src)) w) rcp

/-- `ADD` for one type of each register. Two pointers are not added. -/
def addTyped (stack : ArrayDomain) (dst src : Reg) (w : ℕ) (dstType srcType : TypeEncoding)
    (rcp : TypeToNumDomain V) : Option (TypeToNumDomain V) :=
  if dstType = .num ∧ srcType ≠ .num then numPlusPtr R isUnsigned dst src srcType rcp
  else if dstType ≠ .num ∧ srcType = .num then ptrPlusNum R isUnsigned stack dst src dstType rcp
  else if dstType = .num ∧ srcType = .num then addNumbers R isUnsigned dst src w rcp
  else some { rcp with values := none }

/-- `ADD` of a register. The value of `dst` is only changed after the offsets, and a second time where both
registers may be numbers. -/
def addReg (stack : ArrayDomain) (dst src : Reg) (w : ℕ) (rcp : TypeToNumDomain V) :
    Option (TypeToNumDomain V) :=
  if rcp.types.sameType (R.regType dst) (R.regType src) then
    onValues (FiniteDomain.addOverflow isUnsigned · (R.reg .svalues dst) (R.reg .uvalues dst)
      (.inl (R.reg .svalues src)) w) rcp
  else do
    let res ← joinOverTypes R rcp dst (fun rcp dstType => joinOverTypes R rcp src (fun rcp srcType =>
      (liftM (addTyped R isUnsigned stack dst src w dstType srcType rcp) : StateT Unit Option _))) ()
    addNumbers R isUnsigned dst src w res.1

/-- The difference of two pointers. -/
def ptrMinusPtr (dst src : Reg) (type : TypeEncoding) (w : ℕ) (rcp : TypeToNumDomain V) :
    Option (TypeToNumDomain V) :=
  match getTypeOffsetVariable R dst type.toInt with
  | none => some rcp
  | some dstOffset => do
    let srcOffset ← getTypeOffsetVariable R src type.toInt
    let rcp ← onValues (FiniteDomain.applySigned isUnsigned · (.arith .sub) (R.reg .svalues dst)
      (R.reg .uvalues dst) dstOffset (.inl srcOffset) w) rcp
    return { rcp with values := rcp.values.havoc dstOffset }

/-- `SUB` for one type of both registers. -/
def subTyped (dst src : Reg) (w : ℕ) (type : TypeEncoding) (rcp : TypeToNumDomain V) :
    Option (TypeToNumDomain V) :=
  if type = .num then do
    let rcp ← onValues (FiniteDomain.applySigned isUnsigned · (.arith .sub) (R.reg .svalues dst)
      (R.reg .uvalues dst) (R.reg .svalues dst) (.inl (R.reg .svalues src)) w) rcp
    return (rcp.assignType (R.regType dst) (.const TypeEncoding.num.toInt)).havocOffsets R dst
  else do
    let rcp := (← ptrMinusPtr R isUnsigned dst src type w rcp).havocOffsets R dst
    return rcp.assignType (R.regType dst) (.const TypeEncoding.num.toInt)

/-- `SUB` of a number from the offset of a pointer. -/
def offsetMinusNum (stack : ArrayDomain) (dst src : Reg) (rcp : TypeToNumDomain V) :
    Option (TypeToNumDomain V) := do
  let size := R.reg .stackNumericSizes dst
  match ← rcp.getTypeOffsetVariable R dst with
  | none => return rcp
  | some dstOffset => do
    let rcp ← onValues (FiniteDomain.sub isUnsigned · dstOffset (.inl (R.reg .svalues src))) rcp
    if rcp.types.mayHaveType (R.regType dst) .stack then
      shrinkNumericSize R stack dst (LinearExpression.gt (.var (R.reg .svalues src)) (.const 0))
        (FiniteDomain.apply isUnsigned · (.arith .add) size size (.inl (R.reg .svalues src)) 0) rcp
    else return rcp

/-- `SUB` of a register. -/
def subReg (stack : ArrayDomain) (dst src : Reg) (w : ℕ) (rcp : TypeToNumDomain V) :
    Option (TypeToNumDomain V) :=
  if rcp.types.sameType (R.regType dst) (R.regType src) then do
    let res ← joinOverTypes R rcp dst (fun rcp type =>
      (liftM (subTyped R isUnsigned dst src w type rcp) : StateT Unit Option _)) ()
    return res.1
  else if rcp.types.isInGroup (R.regType src) .number then do
    let rcp ← onValues (FiniteDomain.subOverflow isUnsigned · (R.reg .svalues dst) (R.reg .uvalues dst)
      (.inl (R.reg .svalues src)) w) rcp
    offsetMinusNum R isUnsigned stack dst src rcp
  else some (havocRegister R rcp dst)

/-- The amount of a shift by a register that is known to hold one number. -/
def shiftAmount (src : Reg) (w : ℕ) (rcp : TypeToNumDomain V) : Option (Option (BitVec 32)) :=
  if rcp.types.isInGroup (R.regType src) .number then
    match (rcp.values.evalInterval (.var (R.reg .uvalues src))).singleton with
    | none => some none
    | some n => do
      let imm := BitVec.ofInt 64 (← Number.castToU 64 n) &&& BitVec.ofNat 64 (w - 1)
      return some (imm.setWidth 32)
  else some none

/-- `LSH` and `RSH` by a register, as shifts by the amount when it is known. -/
def shiftReg (b : Bin) (src : Reg) (w : ℕ)
    (shift : TypeToNumDomain V → Reg → BitVec 32 → ℕ → Option (TypeToNumDomain V))
    (otherwise : TypeToNumDomain V → Option (TypeToNumDomain V)) (rcp : TypeToNumDomain V) :
    Option (TypeToNumDomain V) := do
  match ← shiftAmount R src w rcp with
  | none => otherwise rcp
  | some imm => shift (← if b.is64 then some rcp else lowHalf R isUnsigned b.dst rcp) b.dst imm w

/-- The sign-extending moves. -/
def movsx (dst src : Reg) (source w : ℕ) (rcp : TypeToNumDomain V) :
    Option (Outcome (TypeToNumDomain V)) :=
  if dst = src ∧ rcp.values.evalInterval (.var (R.reg .svalues dst)) ≤ Interval.signedInt source then
    some (.returns rcp)
  else if rcp.types.isInGroup (R.regType src) .number then do
    let rcp := (havocOffsets R rcp dst).assignType (R.regType dst) (.const TypeEncoding.num.toInt)
    return .goesOn (← onValues (FiniteDomain.signExtend · (R.reg .svalues dst) (R.reg .uvalues dst)
      (.var (R.reg .svalues src)) w source) rcp)
  else some (.goesOn (havocRegister R rcp dst))

/-- `MOV` of a register. How a pointer is cut off is not known. -/
def movReg (b : Bin) (src : Reg) (rcp : TypeToNumDomain V) : Option (TypeToNumDomain V) :=
  if b.is64 || rcp.types.isInGroup (R.regType src) .number then rcp.assign R b.dst src
  else some (havocRegister R rcp b.dst)

/-- The cases of `Bin` with a register. -/
def binReg (b : Bin) (src : Reg) (w : ℕ) (stack : ArrayDomain) (rcp : TypeToNumDomain V) :
    Option (Outcome (TypeToNumDomain V)) :=
  let goesOn (rcp : Option (TypeToNumDomain V)) : Option (Outcome (TypeToNumDomain V)) := rcp.map .goesOn
  let exceptType := fun rcp => some (havocRegisterExceptType R rcp b.dst)
  let s := R.reg .svalues src
  let u := R.reg .uvalues src
  match b.op with
  | .add => goesOn (addReg R isUnsigned stack b.dst src w rcp)
  | .sub => goesOn (subReg R isUnsigned stack b.dst src w rcp)
  | .mul => goesOn (compute R b.dst (FiniteDomain.mul isUnsigned · · · (.inl s) w) rcp)
  | .udiv => goesOn (compute R b.dst (FiniteDomain.udiv isUnsigned · · · (.inl u) w) rcp)
  | .umod => goesOn (compute R b.dst (FiniteDomain.urem isUnsigned · · · (.inl u) w) rcp)
  | .sdiv => goesOn (compute R b.dst (FiniteDomain.sdiv isUnsigned · · · (.inl s) w) rcp)
  | .smod => goesOn (compute R b.dst (FiniteDomain.srem isUnsigned · · · (.inl s) w) rcp)
  | .or => goesOn (compute R b.dst (FiniteDomain.bitwiseOr isUnsigned · · · (.inl u) w) rcp)
  | .and => goesOn (compute R b.dst (FiniteDomain.bitwiseAnd isUnsigned · · · (.inl u) w) rcp)
  | .lsh => goesOn (shiftReg R isUnsigned b src w (shl R)
      (compute R b.dst (FiniteDomain.shlOverflowVar isUnsigned · · · u)) rcp)
  | .rsh => goesOn (shiftReg R isUnsigned b src w (lshr R) exceptType rcp)
  | .arsh =>
    if rcp.types.isInGroup (R.regType src) .number then goesOn (ashr R rcp b.dst (.var s) w)
    else goesOn (exceptType rcp)
  | .xor => goesOn (compute R b.dst (FiniteDomain.bitwiseXor isUnsigned · · · (.inl u) w) rcp)
  | .movsx8 => movsx R b.dst src 8 w rcp
  | .movsx16 => movsx R b.dst src 16 w rcp
  | .movsx32 => movsx R b.dst src 32 w rcp
  | .mov => goesOn (movReg R b src rcp)

/-! ## The instructions -/

/-- The operators whose left operand is not read. -/
def isMove : BinOp → Bool
  | .mov | .movsx8 | .movsx16 | .movsx32 => true
  | _ => false

def width (is64 : Bool) : ℕ := if is64 then 64 else 32

/-- The last step of `Bin`. -/
def finish (b : Bin) : Outcome (EbpfDomain V) → Option (EbpfDomain V)
  | .returns d => some d
  | .goesOn d =>
    if b.is64 then some d
    else do return { d with rcp := ← lowHalf R isUnsigned b.dst d.rcp }

/-- `Bin`. -/
def bin (b : Bin) (d : EbpfDomain V) : Option (EbpfDomain V) :=
  if d.isBottom then some d
  else if !d.rcp.types.isInitialized (R.regType b.dst) && !isMove b.op then
    some { d with rcp := havocRegister R d.rcp b.dst }
  else match b.v with
    | .inr imm => do
      let rcp ← cutOperand R isUnsigned b d.rcp
      finish R isUnsigned b
        (← binImm R isUnsigned b (immNumber b.is64 imm) (width b.is64) { d with rcp := rcp })
    | .inl src =>
      if d.rcp.types.isInitialized (R.regType src) then do
        match ← binReg R isUnsigned b src (width b.is64) d.stack d.rcp with
        | .returns rcp => finish R isUnsigned b (.returns { d with rcp := rcp })
        | .goesOn rcp => finish R isUnsigned b (.goesOn { d with rcp := rcp })
      else some { d with rcp := havocRegister R d.rcp b.dst }

/-- `swap_endianness` of one variable, whose value is only changed when it is known. -/
def swapEndianness (dst : Reg) (v : V) (beOrLe : BitVec 64 → ℤ) (rcp : TypeToNumDomain V) :
    TypeToNumDomain V :=
  let unknown := havocOffsets R { rcp with values := rcp.values.havoc v } dst
  if rcp.types.isInGroup (R.regType dst) .number then
    match (rcp.values.evalInterval (.var v)).singleton with
    | some n =>
      if Number.FitsCast 64 n then
        { rcp with values := rcp.values.set v (.const (beOrLe (BitVec.ofInt 64 n))) }
      else unknown
    | none => unknown
  else unknown

/-- The signed and the unsigned number of a swapped or truncated word. Up to 32 bits there is no sign. -/
def swapBoth (dst : Reg) (op : BitVec 64 → BitVec 64) (rcp : TypeToNumDomain V) : TypeToNumDomain V :=
  swapEndianness R dst (R.reg .uvalues dst) (fun x => (op x).toNat)
    (swapEndianness R dst (R.reg .svalues dst) (fun x => (op x).toInt) rcp)

/-- To another order of bytes, or to the order of the machine. -/
def swapTo (dst : Reg) (swaps : Bool) (bytes : ℕ) (rcp : TypeToNumDomain V) : TypeToNumDomain V :=
  if swaps then swapBoth R dst (reverseBytes bytes) rcp
  else if bytes = 8 then rcp
  else swapBoth R dst (truncate bytes) rcp

/-- `Un`. -/
def un (opts : VerifierOptions) (u : Un) (d : EbpfDomain V) : Option (EbpfDomain V) :=
  let typed (rcp : TypeToNumDomain V) : Option (EbpfDomain V) := some { d with rcp := rcp }
  if d.isBottom then some d
  else match u.op with
    | .be16 => typed (swapTo R u.dst (!opts.bigEndian) 2 d.rcp)
    | .be32 => typed (swapTo R u.dst (!opts.bigEndian) 4 d.rcp)
    | .be64 => typed (swapTo R u.dst (!opts.bigEndian) 8 d.rcp)
    | .le16 => typed (swapTo R u.dst opts.bigEndian 2 d.rcp)
    | .le32 => typed (swapTo R u.dst opts.bigEndian 4 d.rcp)
    | .le64 => typed (swapTo R u.dst opts.bigEndian 8 d.rcp)
    | .swap16 => typed (swapBoth R u.dst (reverseBytes 2) d.rcp)
    | .swap32 => typed (swapBoth R u.dst (reverseBytes 4) d.rcp)
    | .swap64 => typed (swapBoth R u.dst (reverseBytes 8) d.rcp)
    | .neg => do return { d with
        rcp := ← compute R u.dst (FiniteDomain.neg isUnsigned · · · (width u.is64)) d.rcp }

end EbpfTransformer

end Prevail
