import Prevail.Crab.EbpfDomain
import Prevail.Crab.RegisterTypes

/-!
# Operations on typed registers

`TypeToNumDomain` assigns and forgets registers, types and values together. `joinOverTypes` carries
out a transition for each type that a register may have and joins the results. Whatever else the
transitions change is passed from one to the next.
-/

namespace Prevail

namespace TypeToNumDomain

open TypeDomain

variable {V : Type} [LinearOrder V] (R : ProgramVariables V)

/-- `get_type_offset_variable` of the type that the register has. -/
def getTypeOffsetVariable (d : TypeToNumDomain V) (r : Reg) : Option (Option V) := do
  return Prevail.getTypeOffsetVariable R r (← d.types.getType (R.regType r))

/-- `enumerate_types`. -/
def enumerateTypes (d : TypeToNumDomain V) (r : Reg) : Option (List TypeEncoding) :=
  if !d.types.isInitialized (R.regType r) then some [.uninit]
  else d.types.iterateTypes (R.regType r)

/-- Forget the kind variables of one type at a location. -/
def havocKindsOf (values : AddBottom V) (v : V) (kinds : List DataKind) : AddBottom V :=
  kinds.foldl (fun x kind => x.havoc (R.kindVar kind v)) values

/-- The state in which the register has one of its types: what belongs to the other types is
forgotten. -/
def withType (d : TypeToNumDomain V) (r : Reg) (valid : List (TypeEncoding × List DataKind))
    (type : TypeEncoding) : TypeToNumDomain V :=
  ⟨d.types.addConstraint (typeIs (R.regType r) type),
    (valid.filter (·.1 ≠ type)).foldl (fun x e => havocKindsOf R x (R.regType r) e.2) d.values⟩

/-- `join_over_types`. -/
def joinOverTypes {S : Type} (d : TypeToNumDomain V) (r : Reg)
    (transition : TypeToNumDomain V → TypeEncoding → StateT S Option (TypeToNumDomain V)) :
    StateT S Option (TypeToNumDomain V) := do
  if !d.types.isInitialized (R.regType r) then transition d .uninit
  else
    let types ← d.types.iterateTypes (R.regType r)
    let valid ← types.mapM fun type => do return (type, ← type.kinds)
    types.foldlM (fun res type => do
      let tmp ← transition (d.withType R r valid type) type
      return res.join R.toVariableRegistry tmp) bottom

/-- Forget the type and the values of one location. -/
def havocLocation (d : TypeToNumDomain V) (v : V) (kinds : List DataKind) : TypeToNumDomain V :=
  ⟨d.types.havocType v, havocKindsOf R d.values v (.svalues :: .uvalues :: kinds)⟩

/-- `havoc_all_locations_having_type`. -/
def havocAllLocationsHavingType (d : TypeToNumDomain V) (type : TypeEncoding) :
    Option (TypeToNumDomain V) := do
  R.typeVariables.foldlM (fun d v =>
    if d.types.mayHaveType v type then do return d.havocLocation R v (← type.kinds)
    else some d) d

/-- `assign_type` of an expression. -/
def assignType (d : TypeToNumDomain V) (lhs : V) (e : LinearExpression V) : TypeToNumDomain V :=
  { d with types := d.types.assignType lhs e }

/-- `assign`. -/
def assign (d : TypeToNumDomain V) (lhs rhs : Reg) : Option (TypeToNumDomain V) :=
  if lhs = rhs then some d
  else do
    let types := d.types.assignType (R.regType lhs) (.var (R.regType rhs))
    let values := d.values.assign (R.reg .svalues lhs) (.var (R.reg .svalues rhs))
    let values := values.assign (R.reg .uvalues lhs) (.var (R.reg .uvalues rhs))
    let values ← (← types.iterateTypes (R.regType lhs)).foldlM (fun x type => do
      return havocKindsOf R x (R.regType lhs) (← type.kinds)) values
    let values ← (← types.iterateTypes (R.regType rhs)).foldlM (fun x type => do
      return (← type.kinds).foldl (fun (x : AddBottom V) kind =>
        x.assign (R.reg kind lhs) (.var (R.reg kind rhs))) x) values
    return ⟨types, values⟩

/-- The kinds that `havoc_offsets` forgets. -/
def offsetKinds : List DataKind :=
  [.ctxOffsets, .mapFds, .mapFdPrograms, .packetOffsets, .sharedOffsets, .sharedRegionSizes,
    .stackOffsets, .stackNumericSizes]

/-- `havoc_offsets`. -/
def havocOffsets (d : TypeToNumDomain V) (r : Reg) : TypeToNumDomain V :=
  { d with values := havocKindsOf R d.values (R.regType r) offsetKinds }

/-- `havoc_register_except_type`. -/
def havocRegisterExceptType (d : TypeToNumDomain V) (r : Reg) : TypeToNumDomain V :=
  { d with values := havocKindsOf R d.values (R.regType r) (offsetKinds ++ [.svalues, .uvalues]) }

/-- `havoc_register`. -/
def havocRegister (d : TypeToNumDomain V) (r : Reg) : TypeToNumDomain V :=
  havocRegisterExceptType R { d with types := d.types.havocType (R.regType r) } r

end TypeToNumDomain

namespace EbpfDomain

variable {V : Type} [LinearOrder V] (R : ProgramVariables V) (info : ProgramInfo)

/-- `get_map_fd_range`: the descriptors that the register may hold, when there are at most 32. -/
def getMapFdRange (d : EbpfDomain V) (mapFdReg : Reg) : Option (List ℤ) := do
  let i := d.rcp.values.evalInterval (.var (R.reg .mapFds mapFdReg))
  let lb ← i.lb.number
  let ub ← i.ub.number
  if Number.FitsS 32 lb ∧ Number.FitsS 32 ub ∧ ub - lb < 32 then
    some ((List.range (ub - lb + 1).toNat).map fun i : ℕ => lb + i)
  else none

/-- An attribute of the first map, up to the first other map whose attribute to compare differs. The
counter of the loop overflows behind the last descriptor. -/
def commonAttribute (first other : MapDescriptor → BitVec 32) :
    Option (BitVec 32) → List ℤ → Option (Option (BitVec 32))
  | res, [] => some res
  | none, fd :: fds => do
    let map ← info.platform.getMapDescriptor fd
    guard (fd ≠ Number.maxInt 32)
    commonAttribute first other (some (first map)) fds
  | some x, fd :: fds => do
    let map ← info.platform.getMapDescriptor fd
    if other map ≠ x then return none
    else do
      guard (fd ≠ Number.maxInt 32)
      commonAttribute first other (some x) fds

/-- `get_map_type`: all maps in the range must have the same type. -/
def getMapType (d : EbpfDomain V) (mapFdReg : Reg) : Option (Option (BitVec 32)) :=
  match d.getMapFdRange R mapFdReg with
  | none => some none
  | some fds => commonAttribute info MapDescriptor.type MapDescriptor.type none fds

/-- `get_map_inner_map_fd`, which compares the inner map of the first map with the types of the
others. -/
def getMapInnerMapFd (d : EbpfDomain V) (mapFdReg : Reg) : Option (Option (BitVec 32)) :=
  match d.getMapFdRange R mapFdReg with
  | none => some none
  | some fds => commonAttribute info MapDescriptor.innerMapFd MapDescriptor.type none fds

/-- `get_map_key_size`, `get_map_value_size` and `get_map_max_entries`: the range of one field of the
descriptors. -/
def getMapField (field : MapDescriptor → ℕ) (d : EbpfDomain V) (mapFdReg : Reg) :
    Option Interval :=
  match d.getMapFdRange R mapFdReg with
  | none => some .top
  | some fds =>
    fds.foldlM (fun result fd => do
      let map ← info.platform.getMapDescriptor fd
      guard (fd ≠ Number.maxInt 32)
      return result.join (.const (field map))) .bottom

def getMapKeySize (d : EbpfDomain V) (mapFdReg : Reg) : Option Interval :=
  d.getMapField R info MapDescriptor.keySize mapFdReg

def getMapValueSize (d : EbpfDomain V) (mapFdReg : Reg) : Option Interval :=
  d.getMapField R info MapDescriptor.valueSize mapFdReg

def getMapMaxEntries (d : EbpfDomain V) (mapFdReg : Reg) : Option Interval :=
  d.getMapField R info MapDescriptor.maxEntries mapFdReg

/-- `initialize_packet`. -/
def initializePacket (d : EbpfDomain V) : EbpfDomain V :=
  let values := (d.rcp.values.havoc R.packetSize).havoc R.metaOffset
  let values := values.addConstraint (LinearExpression.le (.const 0) (.var R.packetSize))
  let values := values.addConstraint (LinearExpression.lt (.var R.packetSize) (.const maxPacketSize))
  let values :=
    if 0 ≤ info.contextDescriptor.metaData then
      (values.addConstraint (LinearExpression.le (.var R.metaOffset) (.const 0))).addConstraint
        (LinearExpression.ge (.var R.metaOffset) (.const (-4098)))
    else values.assignInt R.metaOffset 0
  { d with rcp := { d.rcp with values := values } }

end EbpfDomain

end Prevail
