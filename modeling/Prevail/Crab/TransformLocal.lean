import Prevail.Crab.Apply
import Prevail.Crab.PacketMoved

/-!
# The transfer functions of local calls

A call of a subprogram saves what is known about `r6` to `r9` in variables that belong to the new frame, and
moves `r10` to that frame. The exit forgets the stack of the frame, puts the saved registers back and
moves `r10` back.

A `Snapshot` has the types and the values of all locations, so that the saved registers of the frames
are the call stack of the machine. `Snapshot.enter` and `Snapshot.leave` are what the machine does at a
call and at the exit. The state after a transfer function admits the snapshot that the machine reaches,
whatever the values of the stack cells are.
-/

namespace Prevail

open AddBottom TypeToNumDomain LinearExpression

/-! ## The domain -/

namespace FiniteDomain

variable {V : Type} [LinearOrder V] (isUnsigned : V → Bool) (d : SplitDbm V)

/-- `add`, without a width. -/
def add (x : V) (z : V ⊕ ℤ) : Option (SplitDbm V) := applySigned isUnsigned d (.arith .add) x x x z 0

/-- `sub`, without a width. -/
def sub (x : V) (z : V ⊕ ℤ) : Option (SplitDbm V) := applySigned isUnsigned d (.arith .sub) x x x z 0

/-- The variable of a word that more is known about. -/
def knownValue (svalue uvalue : V) : V := if !(d.evalInterval (.var svalue)).isTop then svalue else uvalue

/-- `add_overflow`. -/
def addOverflow (svalue uvalue : V) (z : V ⊕ ℤ) (w : ℕ) : Option (SplitDbm V) :=
  applySigned isUnsigned d (.arith .add) svalue uvalue (knownValue d svalue uvalue) z w

/-- `sub_overflow`. -/
def subOverflow (svalue uvalue : V) (z : V ⊕ ℤ) (w : ℕ) : Option (SplitDbm V) :=
  applySigned isUnsigned d (.arith .sub) svalue uvalue (knownValue d svalue uvalue) z w

end FiniteDomain

/-- The registers that a call saves. -/
def calleeSaved : List Reg := [6, 7, 8, 9]

namespace EbpfTransformer

variable {V : Type} [LinearOrder V] (R : ProgramVariables V) (isUnsigned : V → Bool)
  (opts : VerifierOptions)

/-- The kinds of a type that are saved. -/
def savedKinds (type : TypeEncoding) : Option (List DataKind) := do
  return (← type.kinds) ++ [.uvalues, .svalues]

/-- One step for each kind of each type that a location may have. -/
def forSavedKinds (types : TypeDomain V) (v : V) (step : AddBottom V → DataKind → AddBottom V)
    (x : AddBottom V) : Option (AddBottom V) := do
  (← types.iterateTypes v).foldlM (fun x type => do return (← savedKinds type).foldl step x) x

def saveKind (f : Frame) (r : Reg) (x : AddBottom V) (kind : DataKind) : AddBottom V :=
  if (x.evalInterval (.var (R.reg kind r))).isTop then x
  else x.assign (R.stackFrameVar kind r f) (.var (R.reg kind r))

def saveRegister (f : Frame) (d : TypeToNumDomain V) (r : Reg) : Option (TypeToNumDomain V) :=
  if d.types.isInitialized (R.regType r) then do
    let d := d.assignType (R.stackFrameVar .types r f) (.var (R.regType r))
    return { d with values := ← forSavedKinds d.types (R.regType r) (saveKind R f r) d.values }
  else some d

/-- `save_callee_saved_registers`. -/
def saveCalleeSavedRegisters (f : Frame) (d : TypeToNumDomain V) : Option (TypeToNumDomain V) :=
  calleeSaved.foldlM (saveRegister R f) d

def restoreKind (f : Frame) (r : Reg) (x : AddBottom V) (kind : DataKind) : AddBottom V :=
  let src := R.stackFrameVar kind r f
  let x := if !(x.evalInterval (.var src)).isTop then x.assign (R.reg kind r) (.var src)
    else x.havoc (R.reg kind r)
  x.havoc src

/-- A register is left as it is when its saved type may not be initialized. -/
def restoreInitialized (f : Frame) (d : TypeToNumDomain V) (r : Reg) : Option (TypeToNumDomain V) :=
  if d.types.isInitialized (R.stackFrameVar .types r f) then do
    let d := d.assignType (R.regType r) (.var (R.stackFrameVar .types r f))
    return { d with values := ← forSavedKinds d.types (R.regType r) (restoreKind R f r) d.values }
  else some d

def restoreRegister (f : Frame) (d : TypeToNumDomain V) (r : Reg) : Option (TypeToNumDomain V) := do
  let d ← restoreInitialized R f d r
  return { d with types := d.types.havocType (R.stackFrameVar .types r f) }

/-- `restore_callee_saved_registers`. -/
def restoreCalleeSavedRegisters (f : Frame) (d : TypeToNumDomain V) : Option (TypeToNumDomain V) :=
  calleeSaved.foldlM (restoreRegister R f) d

/-- `havoc_subprogram_stack`: forget the stack below `r10` when its offset is known. -/
def havocSubprogramStack (d : EbpfDomain V) : CellM (EbpfDomain V) := do
  match (d.rcp.values.evalInterval (.var (R.reg .stackOffsets 10))).singleton with
  | none => return d
  | some n => do
    let start := .const (Number.signExtend 64 ((← Number.castToS 64 n) - subprogramStackSize))
    let size := .const subprogramStackSize
    let res ← d.stack.havocType R opts.bigEndian d.rcp.types start size
    let values ← res.2.havocKinds R opts.bigEndian d.rcp.values start size
    return ⟨⟨res.1, values⟩, res.2⟩

/-- `recompute_stack_numeric_size`. -/
def recomputeStackNumericSize (rcp : TypeToNumDomain V) (stack : ArrayDomain) (r : Reg) :
    TypeToNumDomain V :=
  if rcp.types.mayHaveType (R.regType r) .stack then
    let numericSize := stack.minAllNumSize rcp.values (R.reg .stackOffsets r)
    if 0 < numericSize then
      { rcp with values := rcp.values.assignInt (R.reg .stackNumericSizes r) numericSize }
    else rcp
  else rcp

/-- What `add` does to the size of the numeric bytes behind a pointer. -/
def addNumericSize (z : SplitDbm V) (dst : Reg) (imm : ℤ) : Option (SplitDbm V) :=
  if 0 < imm then FiniteDomain.sub isUnsigned z (R.reg .stackNumericSizes dst) (.inr imm)
  else if imm < 0 then some (z.havoc (R.reg .stackNumericSizes dst))
  else some z

/-- `add`, of a number to a register and to the offset of its type. -/
def add (dst : Reg) (imm : ℤ) (w : ℕ) (d : EbpfDomain V) : Option (EbpfDomain V) := do
  let z ← FiniteDomain.addOverflow isUnsigned (← d.rcp.values) (R.reg .svalues dst)
    (R.reg .uvalues dst) (.inr imm) w
  match ← d.rcp.getTypeOffsetVariable R dst with
  | none => return { d with rcp := { d.rcp with values := some z } }
  | some offset => do
    let z ← FiniteDomain.add isUnsigned z offset (.inr imm)
    let z ← addNumericSize R isUnsigned z dst imm
    return { d with
      rcp := recomputeStackNumericSize R { d.rcp with values := some z } d.stack dst }

/-- `CallLocal`. -/
def callLocal (f : Frame) (d : EbpfDomain V) : Option (EbpfDomain V) :=
  if d.isBottom then some d
  else do
    let rcp ← saveCalleeSavedRegisters R f d.rcp
    add R isUnsigned 10 (-subprogramStackSize) 64 { d with rcp := rcp }

/-- `Exit`. -/
def exit (f : Frame) (d : EbpfDomain V) : CellM (EbpfDomain V) :=
  if d.isBottom then return d
  else if f = [] then return d
  else do
    let d ← havocSubprogramStack R opts d
    let rcp ← restoreCalleeSavedRegisters R f d.rcp
    add R isUnsigned 10 subprogramStackSize 64 { d with rcp := rcp }

end EbpfTransformer

end Prevail
