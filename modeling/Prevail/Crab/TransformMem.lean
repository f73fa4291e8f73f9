import Prevail.Crab.ContextLoad
import Prevail.Crab.TransformAlu
import Prevail.Crab.TransformAssume

/-!
# The transfer functions of memory

Loads and stores go by the types that the base register may have. The stack is the only memory that is
kept track of: a store makes a cell for its bytes, and a load reads the cell again. A pointer through `r10`
always is one to the stack. An atomic operation on the stack is a load, an arithmetic operation and a store
of the pseudo-register `r11`; on other memory, it only forgets the register that it writes.

The last definition puts the transfer functions of all instructions together.
-/

namespace Prevail

open TypeToNumDomain LinearExpression ArrayDomain

/-- A value that is stored: its numbers, and the register that holds it unless it is an immediate one. -/
structure StoredValue (V : Type) [LinearOrder V] where
  svalue : LinearExpression V
  uvalue : LinearExpression V
  reg : Option Reg

/-- A value of a given width can be a number. -/
def IsWord (width : ℤ) : Prop := width = 1 ∨ width = 2 ∨ width = 4 ∨ width = 8

instance (width : ℤ) : Decidable (IsWord width) := inferInstanceAs (Decidable (_ ∨ _))

namespace EbpfTransformer

variable {V : Type} [LinearOrder V] (R : ProgramVariables V) (isUnsigned : V → Bool) (info : ProgramInfo)
  (opts : VerifierOptions)

/-! ## Loads -/

/-- The values that go with the types of the target. -/
def loadKinds (target : Reg) (addr : Interval) (width : ℤ) (values : AddBottom V) (type : TypeEncoding) :
    CellM (AddBottom V) := do
  (← (type.kinds : Option (List DataKind))).foldlM (fun values kind => do
    return values.assignOpt (R.reg kind target) (← load R opts.bigEndian values kind addr width.toNat)) values

/-- The part of `do_load_stack` for a target whose type is known. The numbers are read before the target is
forgotten. -/
def loadValues (target : Reg) (addr : Interval) (width : ℤ) (rcp : TypeToNumDomain V) :
    CellM (TypeToNumDomain V) :=
  if IsWord width then do
    let sresult ← load R opts.bigEndian rcp.values .svalues addr width.toNat
    let uresult ← load R opts.bigEndian rcp.values .uvalues addr width.toNat
    let rcp := havocRegisterExceptType R rcp target
    let values := rcp.values.assignOpt (R.reg .svalues target) sresult
    let values := values.assignOpt (R.reg .uvalues target) uresult
    let types ← (rcp.types.iterateTypes (R.regType target) : Option (List TypeEncoding))
    return { rcp with values := ← types.foldlM (loadKinds R opts target addr width) values }
  else return havocRegisterExceptType R rcp target

/-- `do_load_stack`. -/
def doLoadStack (stack : ArrayDomain) (target : Reg) (symbAddr : LinearExpression V) (width : ℤ) (src : Reg)
    (rcp : TypeToNumDomain V) : CellM (TypeToNumDomain V) :=
  let addr := rcp.values.evalInterval symbAddr
  if rcp.values.entail (LinearExpression.le (.const width) (.var (R.reg .stackNumericSizes src))) then
    loadValues R opts target addr width (rcp.assignType (R.regType target) (.const TypeEncoding.num.toInt))
  else do
    let type ← loadType R stack addr width.toNat
    let rcp := { rcp with types := rcp.types.assignTypeOpt (R.regType target) type }
    if rcp.types.isInitialized (R.regType target) then loadValues R opts target addr width rcp
    else return havocRegister R rcp target

/-- `do_load_packet_or_shared`. -/
def doLoadPacketOrShared (target : Reg) (width : ℤ) (rcp : TypeToNumDomain V) : TypeToNumDomain V :=
  if rcp.values.isBottom then rcp
  else
    let rcp := (havocRegister R rcp target).assignType (R.regType target) (.const TypeEncoding.num.toInt)
    if width = 1 ∨ width = 2 then
      let full := Interval.unsignedInt (width * 8).toNat
      { rcp with values := (rcp.values.set (R.reg .svalues target) full).set (R.reg .uvalues target) full }
    else rcp

/-- The address of an access, by one of the offsets of its base register. -/
def accessAddr (a : Deref) (kind : DataKind) : LinearExpression V :=
  (LinearExpression.var (R.reg kind a.basereg)).plusConst a.offset

/-- `do_load` for one type of the base register. -/
def loadTyped (stack : ArrayDomain) (a : Deref) (target : Reg) (rcp : TypeToNumDomain V) :
    TypeEncoding → CellM (TypeToNumDomain V)
  | .uninit | .map | .mapPrograms | .num => return rcp
  | .ctx => return doLoadCtx R info rcp target (accessAddr R a .ctxOffsets) a.width
  | .stack => doLoadStack R opts stack target (accessAddr R a .stackOffsets) a.width a.basereg rcp
  | .packet | .shared => return doLoadPacketOrShared R target a.width rcp

/-- `do_load`. -/
def doLoad (a : Deref) (target : Reg) (d : EbpfDomain V) : CellM (EbpfDomain V) := do
  let rcp ← if a.basereg = 10 then
      doLoadStack R opts d.stack target (accessAddr R a .stackOffsets) a.width a.basereg d.rcp
    else joinOverTypes R d.rcp a.basereg (loadTyped R info opts d.stack a target)
  return { d with rcp := rcp }

/-! ## Stores -/

/-- `assign` of an optional variable. -/
def assignTo (x : AddBottom V) (v : Option V) (e : LinearExpression V) : AddBottom V :=
  match v with
  | some v => x.assign v e
  | none => x

/-- Forget the numbers of the bytes. -/
def havocNumbers (stack : ArrayDomain) (addr width : Interval) (values : AddBottom V) :
    CellM (AddBottom V) := do
  stack.havoc R opts.bigEndian (← stack.havoc R opts.bigEndian values .svalues addr width) .uvalues addr width

/-- Store one value in its cell. -/
def storeKind (stack : ArrayDomain) (addr width : Interval) (e : LinearExpression V) (kind : DataKind)
    (values : AddBottom V) : CellM (AddBottom V) := do
  let (v, values) ← stack.store R opts.bigEndian values kind addr width
  return assignTo values v e

/-- Store the values that go with one type of the register. -/
def storeKinds (stack : ArrayDomain) (addr width : Interval) (r : Reg) (values : AddBottom V)
    (type : TypeEncoding) : CellM (AddBottom V) := do
  (← (type.kinds : Option (List DataKind))).foldlM (fun values kind =>
    storeKind R opts stack addr width (.var (R.reg kind r)) kind values) values

/-- Store a number in its cell, where it keeps its low bits. -/
def storeCut (stack : ArrayDomain) (addr : Interval) (width : ℤ) (e : LinearExpression V) (kind : DataKind)
    (values : AddBottom V) : CellM (AddBottom V) := do
  match ← stack.store R opts.bigEndian values kind addr (.const width) with
  | (some v, values) => do
    let z ← values.assign v e
    return some (← FiniteDomain.overflowBound z v (width * 8).toNat (kind = .svalues))
  | (none, values) => stack.havoc R opts.bigEndian values kind addr (.const width)

/-- Store the values of a pointer of eight bytes, or of what may be one. -/
def storePointer (stack : ArrayDomain) (addr : Interval) (types : TypeDomain V) (r : Reg)
    (values : AddBottom V) : CellM (AddBottom V) := do
  (← (types.iterateTypes (R.regType r) : Option (List TypeEncoding))).foldlM
    (storeKinds R opts stack addr (.const 8) r) values

/-- The register of a value that is not known to be a number. -/
def mayBePointer (types : TypeDomain V) (v : StoredValue V) : Option Reg :=
  v.reg.filter fun r => !types.isInGroup (R.regType r) .number

/-- The values of what is stored, which may be a pointer that the register `pointer` holds. -/
def storeValues (stack : ArrayDomain) (addr : Interval) (width : ℤ) (v : StoredValue V) (pointer : Option Reg)
    (types : TypeDomain V) (values : AddBottom V) : CellM (AddBottom V) :=
  if width = 8 then do
    let values ← havocNumbers R opts stack addr (.const 8) values
    let values ← storeKind R opts stack addr (.const 8) v.svalue .svalues values
    let values ← storeKind R opts stack addr (.const 8) v.uvalue .uvalues values
    match pointer with
    | none => return values
    | some r => storePointer R opts stack addr types r values
  else if (width = 1 ∨ width = 2 ∨ width = 4) ∧ pointer = none then do
    let values ← storeCut R opts stack addr width v.svalue .svalues values
    storeCut R opts stack addr width v.uvalue .uvalues values
  else havocNumbers R opts stack addr (.const width) values

/-- The type of what is stored. -/
def storedType (pointer : Option Reg) : LinearExpression V :=
  match pointer with
  | none => .const TypeEncoding.num.toInt
  | some r => .var (R.regType r)

/-- `recompute_stack_numeric_size` of a location. -/
def recomputeNumericSizeOf (rcp : TypeToNumDomain V) (stack : ArrayDomain) (v : V) : TypeToNumDomain V :=
  if rcp.types.mayHaveType v .stack then
    let numericSize := stack.minAllNumSize rcp.values (R.kindVar .stackOffsets v)
    if 0 < numericSize then
      { rcp with values := rcp.values.assignInt (R.kindVar .stackNumericSizes v) numericSize }
    else rcp
  else rcp

/-- What a store of a number, or of something else, does to the size of the numeric bytes behind a location
that may be a pointer to the stack. -/
def updateNumericSize (stack : ArrayDomain) (symbAddr : LinearExpression V) (width : ℤ) (isNum : Bool)
    (rcp : TypeToNumDomain V) (v : V) : TypeToNumDomain V :=
  let offset := LinearExpression.var (R.kindVar .stackOffsets v)
  let size := R.kindVar .stackNumericSizes v
  if !rcp.types.isInitialized v || !rcp.types.mayHaveType v .stack then rcp
  else if rcp.values.intersect (LinearExpression.le symbAddr (offset.plus (.var size))) &&
      rcp.values.intersect (LinearExpression.ge (symbAddr.plusConst width) offset) then
    recomputeNumericSizeOf R (if isNum then rcp else { rcp with values := rcp.values.havoc size }) stack v
  else rcp

/-- The part of `do_store_stack` for a value whose type is known. -/
def storeTyped (addr : Interval) (width : ℤ) (v : StoredValue V) (rcp : TypeToNumDomain V)
    (stack : ArrayDomain) : CellM (TypeToNumDomain V × ArrayDomain) := do
  let pointer := mayBePointer R rcp.types v
  let (cell, types, stack) ← stack.storeType R opts.bigEndian rcp.types addr (.const width) pointer.isNone
  let types : TypeDomain V := ⟨assignTo types.inv cell (storedType R pointer)⟩
  return (⟨types, ← storeValues R opts stack addr width v pointer types rcp.values⟩, stack)

/-- Forget what the bytes held, except for the numbers. -/
def havocBytes (addr width : Interval) (rcp : TypeToNumDomain V) (stack : ArrayDomain) :
    CellM (TypeToNumDomain V × ArrayDomain) := do
  let (types, stack) ← stack.havocType R opts.bigEndian rcp.types addr width
  let values ← (DataKind.values.filter fun kind => kind ≠ .svalues ∧ kind ≠ .uvalues).foldlM
    (fun values kind => stack.havoc R opts.bigEndian values kind addr width) rcp.values
  return (⟨types, values⟩, stack)

/-- The store of a value whose register may not be initialized. -/
def storeBytes (addr : Interval) (width : ℤ) (v : StoredValue V) (rcp : TypeToNumDomain V)
    (stack : ArrayDomain) : CellM ((TypeToNumDomain V × ArrayDomain) × Bool) :=
  if v.reg.any fun r => !rcp.types.isInitialized (R.regType r) then do
    return (({ rcp with values := ← havocNumbers R opts stack addr (.const width) rcp.values }, stack), false)
  else do
    return (← storeTyped R opts addr width v rcp stack, (mayBePointer R rcp.types v).isNone)

/-- `do_store_stack`. -/
def doStoreStack (symbAddr : LinearExpression V) (width : ℤ) (v : StoredValue V) (rcp : TypeToNumDomain V)
    (stack : ArrayDomain) : CellM (TypeToNumDomain V × ArrayDomain) := do
  let addr := rcp.values.evalInterval symbAddr
  let (rcp, stack) ← havocBytes R opts addr (.const width) rcp stack
  let ((rcp, stack), isNum) ← storeBytes R opts addr width v rcp stack
  return (R.typeVariables.foldl (updateNumericSize R stack symbAddr width isNum) rcp, stack)

/-- The offset of `r10`, when it is the base register and its offset is known. -/
def frameOffset (a : Deref) (values : AddBottom V) : Option ℤ :=
  if a.basereg = 10 then (values.evalInterval (.var (R.reg .stackOffsets 10))).singleton else none

/-- `do_mem_store`. Only the stack is changed, through a base register that may have several types, too. -/
def doMemStore (a : Deref) (v : StoredValue V) (d : EbpfDomain V) : CellM (EbpfDomain V) :=
  match frameOffset R a d.rcp.values with
  | some n => do
    let offset ← (Number.castToS 32 n : Option ℤ)
    let (rcp, stack) ← doStoreStack R opts (.const (offset + a.offset)) a.width v d.rcp d.stack
    return ⟨rcp, stack⟩
  | none => fun arrays => do
    let (rcp, arrays, stack) ← joinOverTypes R d.rcp a.basereg (fun rcp type state =>
      if type = .stack then do
        let ((rcp, stack), arrays) ←
          doStoreStack R opts (accessAddr R a .stackOffsets) a.width v rcp state.2 state.1
        some (rcp, arrays, stack)
      else some (rcp, state)) (arrays, d.stack)
    some (⟨rcp, stack⟩, arrays)

/-- `Mem`. -/
def mem (m : Mem) (d : EbpfDomain V) : CellM (EbpfDomain V) :=
  if d.isBottom then return d
  else match m.value, m.isLoad with
    | .inl r, true => doLoad R info opts m.access r d
    | .inl r, false =>
      doMemStore R opts m.access ⟨.var (R.reg .svalues r), .var (R.reg .uvalues r), some r⟩ d
    | .inr imm, _ =>
      doMemStore R opts m.access ⟨.const imm.toBitVec.toInt, .const imm.toBitVec.toNat, none⟩ d

/-! ## Atomic operations -/

/-- `atomic_to_bin`. -/
def atomicToBin (a : Atomic) : Bin :=
  let op := match a.op with
    | .add => BinOp.add
    | .or => .or
    | .and => .and
    | .xor => .xor
    | .xchg | .cmpxchg => .mov
  ⟨op, 11, .inl a.valreg, a.access.width = 8, false⟩

/-- The register that the old value is fetched into. The new value of `CMPXCHG` is not known. -/
def fetchOld (a : Atomic) (d : EbpfDomain V) : CellM (EbpfDomain V) :=
  if a.op = .cmpxchg then do
    let d ← mem R info opts ⟨a.access, .inl 0, true⟩ d
    return { d with rcp := havocRegisterExceptType R d.rcp 11 }
  else if a.fetch then mem R info opts ⟨a.access, .inl a.valreg, true⟩ d
  else return d

/-- An atomic operation on the stack. -/
def atomicStack (a : Atomic) (d : EbpfDomain V) : CellM (EbpfDomain V) := do
  let d ← mem R info opts ⟨a.access, .inl 11, true⟩ d
  let d ← (bin R isUnsigned (atomicToBin a) d : Option (EbpfDomain V))
  let d ← fetchOld R info opts a d
  let d ← mem R info opts ⟨a.access, .inl 11, false⟩ d
  return { d with rcp := havocRegister R d.rcp 11 }

/-- An atomic operation on other memory. -/
def atomicOther (a : Atomic) (d : EbpfDomain V) : EbpfDomain V :=
  if a.op = .cmpxchg then { d with rcp := havocRegisterExceptType R d.rcp 0 }
  else if a.fetch then { d with rcp := havocRegisterExceptType R d.rcp a.valreg }
  else d

/-- `Atomic`. -/
def atomic (a : Atomic) (d : EbpfDomain V) : CellM (EbpfDomain V) :=
  if d.isBottom then return d
  else if !d.rcp.types.isInGroup (R.regType a.access.basereg) .pointer ||
      !d.rcp.types.isInGroup (R.regType a.valreg) .number then return d
  else if d.rcp.types.inv.entail (TypeDomain.typeIsNot (R.regType a.access.basereg) .stack) then
    return atomicOther R a d
  else atomicStack R isUnsigned info opts a d

/-! ## The other instructions -/

/-- `LoadMapFd`. -/
def loadMapFd (dst : Reg) (mapfd : BitVec 32) (d : EbpfDomain V) : Option (EbpfDomain V) :=
  if d.isBottom then some d
  else do return { d with rcp := ← doLoadMapfd R info d.rcp dst mapfd.toInt false }

/-- `do_load_map_address`, which throws for a map of programs. -/
def doLoadMapAddress (rcp : TypeToNumDomain V) (dst : Reg) (mapfd offset : ℤ) : Option (TypeToNumDomain V) := do
  let desc ← info.platform.getMapDescriptor mapfd
  if (info.platform.getMapType desc.type).valueType = .program then failure
  else
    let rcp := rcp.assignType (R.regType dst) (.const TypeEncoding.shared.toInt)
    let values := rcp.values.assignInt (R.reg .sharedOffsets dst) offset
    let values := values.assignInt (R.reg .sharedRegionSizes dst) desc.valueSize
    return assignValidPtr R { rcp with values := values } dst false

/-- `LoadMapAddress`. -/
def loadMapAddress (dst : Reg) (mapfd offset : BitVec 32) (d : EbpfDomain V) : Option (EbpfDomain V) :=
  if d.isBottom then some d
  else do return { d with rcp := ← doLoadMapAddress R info d.rcp dst mapfd.toInt offset.toInt }

/-- `Packet`: a number of the packet in `r0`. -/
def packet (d : EbpfDomain V) : EbpfDomain V :=
  if d.isBottom then d
  else
    let rcp := (havocRegisterExceptType R d.rcp 0).assignType (R.regType 0) (.const TypeEncoding.num.toInt)
    { d with rcp := scratchCallerSavedRegisters R rcp }

/-- `IncrementLoopCounter`. -/
def incrementLoopCounter (name : Label) (d : EbpfDomain V) : Option (EbpfDomain V) :=
  if d.isBottom then some d
  else do return { d with rcp := { d.rcp with
    values := some (← FiniteDomain.add isUnsigned (← d.rcp.values) (R.loopCounter name) (.inr 1)) } }

/-- `initialize_loop_counter`. -/
def initializeLoopCounter (name : Label) (d : EbpfDomain V) : EbpfDomain V :=
  { d with rcp := { d.rcp with values := d.rcp.values.assignInt (R.loopCounter name) 0 } }

/-- The transfer function of an instruction without a target. -/
def operation (o : Operation) (d : EbpfDomain V) : CellM (EbpfDomain V) :=
  match o with
  | .bin b => (bin R isUnsigned b d : Option (EbpfDomain V))
  | .un u => (un R isUnsigned opts u d : Option (EbpfDomain V))
  | .loadMapFd dst mapfd => (loadMapFd R info dst mapfd d : Option (EbpfDomain V))
  | .loadMapAddress dst mapfd offset => (loadMapAddress R info dst mapfd offset d : Option (EbpfDomain V))
  | .callx func => callx R info opts func d
  | .mem m => mem R info opts m d
  | .packet _ => return packet R d
  | .atomic a => atomic R isUnsigned info opts a d

/-- The transfer function of an instruction. -/
def visit (i : Instruction Operation CallInfo) (d : EbpfDomain V) : CellM (EbpfDomain V) :=
  match i with
  | .undefined _ | .jmp _ _ => return d
  | .call c _ => call R info opts c d
  | .callLocal _ f => (callLocal R isUnsigned f d : Option (EbpfDomain V))
  | .exit f => exit R isUnsigned opts f d
  | .assume cond _ => (EbpfTransformer.assume R cond d : Option (EbpfDomain V))
  | .incrementLoopCounter name => (incrementLoopCounter R isUnsigned name d : Option (EbpfDomain V))
  | .other o => operation R isUnsigned info opts o d

/-- Whether the instruction may leave an empty state. -/
def isAssume : Instruction Operation CallInfo → Bool
  | .assume _ _ => true
  | _ => false

/-- `ebpf_domain_transform`, which throws when another instruction than `Assume` leaves an empty state. -/
def transform (i : Instruction Operation CallInfo) (d : EbpfDomain V) : CellM (EbpfDomain V) :=
  if d.isBottom then return d
  else do
    let d ← visit R isUnsigned info opts i d
    if d.isBottom && !isAssume i then failure else return d

end EbpfTransformer

end Prevail
