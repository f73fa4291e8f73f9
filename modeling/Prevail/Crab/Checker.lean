import Prevail.Crab.StackCells
import Prevail.Crab.TypedRegisters
import Prevail.Isa.Unmarshal

/-!
# The checker

`EbpfChecker` decides whether an abstract state satisfies an assertion. It throws a
`VerificationError` when it does not; other exceptions leave `ebpf_domain_check`. The assertion of an
indirect call looks up the helper and checks the assertions of the call in its place.
-/

namespace Prevail

/-- How a check fails: with a `VerificationError`, whose text is the message followed by the printed
assertion, or with some other exception. -/
inductive CheckError where
  | verification (msg : String) (assertion : Assertion)
  | thrown
  deriving DecidableEq

namespace EbpfChecker

open LinearExpression TypeDomain

variable {V : Type} [LinearOrder V] (R : ProgramVariables V) (info : ProgramInfo)
  (opts : VerifierOptions) (dom : EbpfDomain V)

/-- What the state is asked may throw. -/
def ask {α : Type} : Option α → Except CheckError α
  | some a => .ok a
  | none => .error .thrown

section

variable (assertion : Assertion)

/-- `throw_fail`. -/
def throwFail (msg : String) : Except CheckError Unit := .error (.verification msg assertion)

/-- Throw unless the condition holds. -/
def require (b : Bool) (msg : String) : Except CheckError Unit :=
  if b then .ok () else throwFail assertion msg

def requireValue (c : LinearConstraint V) (msg : String) : Except CheckError Unit :=
  require assertion (dom.rcp.values.entail c) msg

def requireType (c : LinearConstraint V) (msg : String) : Except CheckError Unit :=
  require assertion (dom.rcp.types.inv.entail c) msg

/-! ## Memory -/

def checkAccessStack (lb ub : LinearExpression V) : Except CheckError Unit := do
  requireValue dom assertion
    (LinearExpression.le ((var (R.reg .stackOffsets 10)).plusConst (-subprogramStackSize)) lb)
    "Lower bound must be at least r10.stack_offset - EBPF_SUBPROGRAM_STACK_SIZE"
  requireValue dom assertion (LinearExpression.le ub (const totalStackSize))
    "Upper bound must be at most EBPF_TOTAL_STACK_SIZE"

def checkAccessContext (lb ub : LinearExpression V) : Except CheckError Unit := do
  requireValue dom assertion (ge lb (const 0)) "Lower bound must be at least 0"
  requireValue dom assertion (LinearExpression.le ub (const info.contextDescriptor.size))
    ("Upper bound must be at most " ++ toString info.contextDescriptor.size)

def checkAccessPacket (lb ub : LinearExpression V) (packetSize : Option V) :
    Except CheckError Unit := do
  requireValue dom assertion (ge lb (var R.metaOffset)) "Lower bound must be at least meta_offset"
  match packetSize with
  | some packetSize =>
    requireValue dom assertion (LinearExpression.le ub (var packetSize))
      "Upper bound must be at most packet_size"
  | none =>
    requireValue dom assertion (LinearExpression.le ub (const maxPacketSize))
      ("Upper bound must be at most " ++ toString maxPacketSize)

/-- The message names the variable of the region size, which belongs to the register `r`. -/
def checkAccessShared (lb ub : LinearExpression V) (r : Reg) : Except CheckError Unit := do
  requireValue dom assertion (ge lb (const 0)) "Lower bound must be at least 0"
  requireValue dom assertion (LinearExpression.le ub (var (R.reg .sharedRegionSizes r)))
    ("Upper bound must be at most r" ++ toString r.toNat ++ ".shared_region_size")

/-- `lb_ub_access_pair`. -/
def lbUbAccessPair (s : ValidAccess) (offset : V) : LinearExpression V × LinearExpression V :=
  let lb := (var offset).plusConst s.offset
  (lb, match s.width with
    | .inr imm => lb.plusConst imm.toNat
    | .inl r => lb.plus (var (R.reg .svalues r)))

/-- The check of an access through a register of one type. -/
def validAccessAs (s : ValidAccess) (type : TypeEncoding) : Except CheckError Unit :=
  let isComparisonCheck : Bool := s.width = .inr 0
  match type with
  | .packet =>
    let (lb, ub) := lbUbAccessPair R s (R.reg .packetOffsets s.reg)
    checkAccessPacket R dom assertion lb ub (if isComparisonCheck then none else some R.packetSize)
  | .stack => do
    let (lb, ub) := lbUbAccessPair R s (R.reg .stackOffsets s.reg)
    checkAccessStack R dom assertion lb ub
    if s.accessType = .read then
      let numeric ← ask (dom.stack.allNumLbUb (dom.rcp.values.evalInterval lb)
        (dom.rcp.values.evalInterval ub))
      if numeric then .ok ()
      else if s.offset < 0 then throwFail assertion "Stack content is not numeric"
      else
        let w := match s.width with
          | .inr imm => const imm.toNat
          | .inl r => var (R.reg .svalues r)
        requireValue dom assertion
          (LinearExpression.le w ((var (R.reg .stackNumericSizes s.reg)).plusConst (-s.offset)))
          "Stack content is not numeric"
  | .ctx =>
    let (lb, ub) := lbUbAccessPair R s (R.reg .ctxOffsets s.reg)
    checkAccessContext info dom assertion lb ub
  | .shared => do
    let (lb, ub) := lbUbAccessPair R s (R.reg .sharedOffsets s.reg)
    checkAccessShared R dom assertion lb ub s.reg
    if !isComparisonCheck && !s.orNull then
      requireValue dom assertion (gt (var (R.reg .svalues s.reg)) (const 0)) "Possible null access"
  | .num =>
    if isComparisonCheck then .ok ()
    else if s.orNull then
      requireValue dom assertion (eq (var (R.reg .svalues s.reg)) (const 0)) "Non-null number"
    else throwFail assertion "Only pointers can be dereferenced"
  | .map | .mapPrograms =>
    if isComparisonCheck then .ok ()
    else throwFail assertion "FDs cannot be dereferenced directly"
  | .uninit => throwFail assertion "Invalid type"

def validAccess (s : ValidAccess) : Except CheckError Unit := do
  (← ask (dom.rcp.enumerateTypes R s.reg)).forM (validAccessAs R info dom assertion s)

/-! ## Registers -/

/-- The access that a compared register must allow. -/
def comparedAccess (r : Reg) : ValidAccess := ⟨8, r, 0, .inr 0, false, .compare⟩

def comparable (r1 r2 : Reg) : Except CheckError Unit := do
  if dom.rcp.types.sameType (R.regType r1) (R.regType r2) then
    let nonNumberTypes := dom.rcp.types.addConstraint (typeIsNot (R.regType r2) .num)
    require assertion (nonNumberTypes.isInGroup (R.regType r1) .singletonPtr ||
      nonNumberTypes.isInGroup (R.regType r1) .mapFd)
      "Cannot subtract pointers to non-singleton regions"
    validAccess R info dom assertion (comparedAccess r1)
    validAccess R info dom assertion (comparedAccess r2)
  else
    requireType dom assertion (typeIs (R.regType r2) .num)
      "Cannot subtract pointers to different regions"

def addable (ptr num : Reg) : Except CheckError Unit :=
  require assertion
    (dom.rcp.types.implies (typeIsPointer (R.regType ptr)) (typeIs (R.regType num) .num))
    "Only numbers can be added to pointers"

def validDivisor (r : Reg) (isSigned : Bool) : Except CheckError Unit := do
  require assertion
    (dom.rcp.types.implies (typeIsPointer (R.regType r)) (typeIs (R.regType r) .num))
    "Only numbers can be used as divisors"
  if !opts.allowDivisionByZero then
    requireValue dom assertion
      (ne (var (R.reg (if isSigned then .svalues else .uvalues) r)) (const 0))
      "Possible division by zero"

def validStore (mem val : Reg) : Except CheckError Unit :=
  require assertion
    (dom.rcp.types.implies (typeIsNot (R.regType mem) .stack) (typeIs (R.regType val) .num))
    "Only numbers can be stored to externally-visible regions"

def typeConstraint (r : Reg) (types : TypeGroup) : Except CheckError Unit :=
  require assertion (dom.rcp.types.isInGroup (R.regType r) types) "Invalid type"

def boundedLoopCount (name : Label) : Except CheckError Unit :=
  requireValue dom assertion
    (LinearExpression.le (var (R.loopCounter name)) (const boundedLoopLimit))
    "Loop counter is too large"

def validSize (r : Reg) (canBeZero : Bool) : Except CheckError Unit :=
  requireValue dom assertion
    (if canBeZero then ge (var (R.reg .svalues r)) (const 0)
      else gt (var (R.reg .svalues r)) (const 0)) "Invalid size"

def validCall (func : BitVec 32) (stackFramePrefix : Frame) : Except CheckError Unit :=
  if !stackFramePrefix.isEmpty ∧
      (info.platform.getHelperPrototype func).returnType = .integerOrNoReturnIfSucceed then
    throwFail assertion "tail call not supported in subprogram"
  else .ok ()

def zeroCtxOffset (r : Reg) (orNull : Bool) : Except CheckError Unit := do
  let isNull ← if orNull then do
      let type ← ask (dom.rcp.types.getType (R.regType r))
      pure (decide (type = TypeEncoding.num.toInt) &&
        dom.rcp.values.entail (eq (var (R.reg .uvalues r)) (const 0)))
    else pure false
  if isNull then .ok ()
  else
    requireValue dom assertion (eq (var (R.reg .ctxOffsets r)) (const 0)) "Nonzero context offset"

/-! ## Map keys and values -/

/-- The text of a bound, for numbers of 32 bits. -/
def boundText (b : Bound) (infinite : String) : String :=
  match b.number with
  | some n => if Number.FitsS 32 n then toString n else infinite
  | none => infinite

/-- The check of a key or value of `width` bytes through a register of one type. `fdType` is the type of
the map. -/
def validMapKeyValueAs (accessReg mapFdReg : Reg) (key : Bool) (fdType : Option (BitVec 32))
    (width : ℤ) (type : TypeEncoding) : Except CheckError Unit :=
  match type with
  | .stack => do
    let offset := dom.rcp.values.evalInterval (var (R.reg .stackOffsets accessReg))
    if !(← ask (dom.stack.allNumWidth offset (.const width))) then
      requireValue dom assertion .falseConst
        ("Illegal map update with a non-numerical value [" ++ boundText offset.lb "-oo" ++ "-" ++
          boundText (offset.add (.const width)).ub "oo" ++ ")")
    else match fdType with
      | none => .ok ()
      | some fdType =>
        if opts.strict && (info.platform.getMapType fdType).isArray then
          match offset.singleton with
          | none => throwFail assertion "Pointer must be a singleton"
          | some n =>
            if key then do
              let keyValue := R.cellVar .svalues (← ask (Number.castToU 64 n)).toNat 4
              match (← ask (dom.getMapMaxEntries R info mapFdReg)).lb.number with
              | some maxEntries =>
                requireValue dom assertion (lt (var keyValue) (const maxEntries))
                  "Array index overflow"
              | none => throwFail assertion "Max entries is not finite"
              requireValue dom assertion (ge (var keyValue) (const 0)) "Array index underflow"
            else .ok ()
        else .ok ()
  | .packet =>
    let lb := var (R.reg .packetOffsets accessReg)
    checkAccessPacket R dom assertion lb (lb.plusConst width) none
  | .shared => do
    let lb := var (R.reg .sharedOffsets accessReg)
    checkAccessShared R dom assertion lb (lb.plusConst width) accessReg
    requireValue dom assertion (gt (var (R.reg .svalues accessReg)) (const 0))
      "Possible null access"
  | _ => throwFail assertion "Only stack, packet, or shared can be used as a parameter"

def validMapKeyValue (accessReg mapFdReg : Reg) (key : Bool) : Except CheckError Unit := do
  let fdType ← ask (dom.getMapType R info mapFdReg)
  let size ← ask (if key then dom.getMapKeySize R info mapFdReg
    else dom.getMapValueSize R info mapFdReg)
  match size.singleton with
  | none =>
    throwFail assertion
      (if key then "Map key size is not singleton" else "Map value size is not singleton")
  | some size => do
    let width ← ask (narrowS 32 size)
    (← ask (dom.rcp.enumerateTypes R accessReg)).forM
      (validMapKeyValueAs R info opts dom assertion accessReg mapFdReg key fdType width)

end

/-! ## All assertions -/

/-- `callx` on a helper that is known: the assertions of the call, each checked by `sub`. -/
def funcConstraint (sub : Assertion → Except CheckError Unit) (assertion : Assertion) (r : Reg) :
    Except CheckError Unit :=
  if dom.rcp.isBottom then .ok ()
  else
    match (dom.rcp.values.evalInterval (var (R.reg .svalues r))).singleton with
    | none => throwFail assertion "callx helper function id is not a valid singleton"
    | some n =>
      if ¬ Number.FitsS 32 n then
        throwFail assertion "callx helper function id is not a valid singleton"
      else if !info.platform.isHelperUsable (.ofInt 32 n) then
        throwFail assertion ("invalid helper function id " ++ toString n)
      else match Unmarshaller.makeCall info.platform.toPlatform (.ofInt 32 n) with
        | .error _ => .error .thrown
        | .ok call => do (← ask (getAssertions (.call call []) info none)).forM sub

/-- `visit`, with `sub` for the assertions that an indirect call leads to. -/
def visitWith (sub : Assertion → Except CheckError Unit) (a : Assertion) :
    Except CheckError Unit :=
  match a with
  | .comparable r1 r2 _ => comparable R info dom a r1 r2
  | .addable ptr num => addable R dom a ptr num
  | .validDivisor r isSigned => validDivisor R opts dom a r isSigned
  | .validAccess s => validAccess R info dom a s
  | .validStore mem val => validStore R dom a mem val
  | .validSize r canBeZero => validSize R dom a r canBeZero
  | .validMapKeyValue accessReg mapFdReg key =>
    validMapKeyValue R info opts dom a accessReg mapFdReg key
  | .validCall func stackFramePrefix => validCall info a func stackFramePrefix
  | .typeConstraint r types => typeConstraint R dom a r types
  | .funcConstraint r => funcConstraint R info dom sub a r
  | .zeroCtxOffset r orNull => zeroCtxOffset R dom a r orNull
  | .boundedLoopCount name => boundedLoopCount R dom a name

/-- `visit`. The assertions that an indirect call leads to are not about indirect calls. -/
def visit : Assertion → Except CheckError Unit :=
  visitWith R info opts dom (visitWith R info opts dom fun _ => .error .thrown)

end EbpfChecker

/-- `ebpf_domain_check`: no error for an empty state. -/
def ebpfDomainCheck {V : Type} [LinearOrder V] (R : ProgramVariables V) (info : ProgramInfo)
    (opts : VerifierOptions) (dom : EbpfDomain V) (a : Assertion) : Except CheckError Unit :=
  if dom.isBottom then .ok () else EbpfChecker.visit R info opts dom a

end Prevail
