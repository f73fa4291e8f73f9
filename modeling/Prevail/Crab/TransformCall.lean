import Prevail.Crab.Checker

/-!
# The transfer functions of helper calls

A helper may write the memory that it is given, returns a number or, for a lookup, a pointer that may
be null, and leaves nothing in `r1` to `r5`. A lookup in a map of maps returns a map. The indirect call
makes the call of the helper that its register names and carries that out.
-/

namespace Prevail

namespace EbpfTransformer

open TypeToNumDomain

variable {V : Type} [LinearOrder V] (R : ProgramVariables V) (info : ProgramInfo)
  (opts : VerifierOptions)

/-- `scratch_caller_saved_registers`: forget `r1` to `r5`. -/
def scratchCallerSavedRegisters (rcp : TypeToNumDomain V) : TypeToNumDomain V :=
  ([1, 2, 3, 4, 5] : List Reg).foldl (havocRegister R) rcp

/-- `forget_packet_pointers`. -/
def forgetPacketPointers (d : EbpfDomain V) : Option (EbpfDomain V) := do
  let rcp ← d.rcp.havocAllLocationsHavingType R .packet
  return ({ d with rcp := rcp } : EbpfDomain V).initializePacket R info

/-- `assign_valid_ptr`: the value of a pointer is a positive number below `PTR_MAX`, or zero. -/
def assignValidPtr (rcp : TypeToNumDomain V) (dst : Reg) (maybeNull : Bool) : TypeToNumDomain V :=
  let svalue := LinearExpression.var (R.reg .svalues dst)
  let values := (rcp.values.havoc (R.reg .svalues dst)).havoc (R.reg .uvalues dst)
  let values := values.addConstraint
    (if maybeNull then LinearExpression.le (.const 0) svalue else LinearExpression.lt (.const 0) svalue)
  let values := values.addConstraint (LinearExpression.le svalue (.const ptrMax))
  { rcp with values := values.assign (R.reg .uvalues dst) svalue }

/-- `do_load_mapfd`. -/
def doLoadMapfd (rcp : TypeToNumDomain V) (dst : Reg) (mapfd : ℤ) (maybeNull : Bool) :
    Option (TypeToNumDomain V) := do
  let desc ← info.platform.getMapDescriptor mapfd
  let (type, kind) :=
    if (info.platform.getMapType desc.type).valueType = .program then
      (TypeEncoding.mapPrograms, DataKind.mapFdPrograms)
    else (.map, .mapFds)
  let rcp := rcp.assignType (R.regType dst) (.const type.toInt)
  return assignValidPtr R { rcp with values := rcp.values.assignInt (R.reg kind dst) mapfd } dst
    maybeNull

/-! ## Calls -/

/-- Whether an argument is the map that is looked up. -/
def maybeFdReg (c : CallInfo) : Option Reg :=
  c.singles.foldl (fun res param => if param.kind = .mapFd then some param.reg else res) none

/-- What the helper may do to the memory of one pair of arguments. -/
def writeMem (d : EbpfDomain V) (param : ArgPair) : CellM (EbpfDomain V) := do
  if param.kind = .ptrToReadableMem then return d
  else match ← d.rcp.getTypeOffsetVariable R param.mem with
    | none => return d
    | some offset => do
      let addr := d.rcp.values.evalInterval (.var offset)
      let width := d.rcp.values.evalInterval (.var (R.reg .svalues param.size))
      let (rcp, storeNumbers) ← fun arrays => do
        let (rcp, arrays, storeNumbers) ← joinOverTypes R d.rcp param.mem
          (fun rcp type (arrays, storeNumbers) =>
            if type = .stack then do
              let (values, arrays) ←
                d.stack.havocKinds R opts.bigEndian rcp.values addr width arrays
              some ({ rcp with values := values }, arrays, storeNumbers)
            else some (rcp, arrays, false)) (arrays, true)
        some ((rcp, storeNumbers), arrays)
      let stack ← if storeNumbers then d.stack.storeNumbers addr width else pure d.stack
      return ⟨rcp, stack⟩

/-- `r0` as a pointer to the value of a map that may be null. The size of the value is not set. -/
def sharedOrNull (rcp : TypeToNumDomain V) : TypeToNumDomain V :=
  let rcp := assignValidPtr R rcp 0 true
  let rcp := { rcp with values := rcp.values.assignInt (R.reg .sharedOffsets 0) 0 }
  rcp.assignType (R.regType 0) (.const TypeEncoding.shared.toInt)

/-- What a map lookup leaves in `r0`. -/
def mapLookup (d : EbpfDomain V) (fdReg : Option Reg) : Option (TypeToNumDomain V) :=
  match fdReg with
  | none => some (sharedOrNull R d.rcp)
  | some fdReg => do
    match ← d.getMapType R info fdReg with
    | none => return sharedOrNull R d.rcp
    | some mapType =>
      if (info.platform.getMapType mapType).valueType = .map then
        match ← d.getMapInnerMapFd R info fdReg with
        | some innerMapFd => doLoadMapfd R info d.rcp 0 innerMapFd.toInt true
        | none => return sharedOrNull R d.rcp
      else
        let rcp := assignValidPtr R d.rcp 0 true
        let rcp := { rcp with values := rcp.values.assignInt (R.reg .sharedOffsets 0) 0 }
        let size ← ({ d with rcp := rcp } : EbpfDomain V).getMapValueSize R info fdReg
        let rcp := { rcp with values := rcp.values.set (R.reg .sharedRegionSizes 0) size }
        -- the source goes on with the steps for a map of an unknown type
        return sharedOrNull R (rcp.assignType (R.regType 0) (.const TypeEncoding.shared.toInt))

/-- The result of a call. -/
def callResult (d : EbpfDomain V) (c : CallInfo) : Option (TypeToNumDomain V) :=
  let rcp := { d.rcp with values := d.rcp.values.havoc (R.reg .stackNumericSizes 0) }
  if c.isMapLookup then mapLookup R info { d with rcp := rcp } (maybeFdReg c)
  else some ((havocRegisterExceptType R rcp 0).assignType (R.regType 0)
    (.const TypeEncoding.num.toInt))

/-- `Call`. -/
def call (c : CallInfo) (d : EbpfDomain V) : CellM (EbpfDomain V) := do
  if d.isBottom then return d
  else
    let d ← c.pairs.foldlM (writeMem R opts) d
    let rcp ← callResult R info d c
    let d : EbpfDomain V := { d with rcp := scratchCallerSavedRegisters R rcp }
    if c.reallocatePacket then forgetPacketPointers R info d else return d

/-- `Callx`. -/
def callx (func : Reg) (d : EbpfDomain V) : CellM (EbpfDomain V) := do
  if d.isBottom then return d
  else match (d.rcp.values.evalInterval (.var (R.reg .svalues func))).singleton with
    | none => return d
    | some n =>
      if ¬ Number.FitsS 32 n then return d
      else if !info.platform.isHelperUsable (.ofInt 32 n) then return d
      else match Unmarshaller.makeCall info.platform.toPlatform (.ofInt 32 n) with
        | .error _ => failure
        | .ok c => call R info opts c d

end EbpfTransformer

end Prevail
