import Prevail.Ir.ProgramInfo

/-!
# Assertions

The preconditions of each instruction. `AssertExtractor` makes them from the instruction, the type of
the program and the label, which only sets the call depth that a `ValidAccess` notes. `none` stands
for an `assert` that fails and for a use of a label that is not there.
-/

namespace Prevail

/-- `TypeGroup`. -/
inductive TypeGroup where
  | number
  | mapFd
  | ctx
  | ctxOrNum
  | packet
  | stack
  | stackOrNum
  | shared
  | mapFdPrograms
  | mem
  | memOrNum
  | pointer
  | ptrOrNum
  | stackOrPacket
  | singletonPtr
  deriving DecidableEq

/-- `AccessType`. -/
inductive AccessType where
  | compare
  | read
  | write
  deriving DecidableEq

/-- `ValidAccess`. -/
structure ValidAccess where
  callStackDepth : ℕ
  reg : Reg
  offset : ℤ
  width : Value
  orNull : Bool
  accessType : AccessType
  deriving DecidableEq

/-- `Assertion`. -/
inductive Assertion where
  | comparable (r1 r2 : Reg) (orR2IsNumber : Bool)
  | addable (ptr num : Reg)
  | validDivisor (reg : Reg) (isSigned : Bool)
  | validAccess (s : ValidAccess)
  | validStore (mem val : Reg)
  | validSize (reg : Reg) (canBeZero : Bool)
  | validMapKeyValue (accessReg mapFdReg : Reg) (key : Bool)
  | validCall (func : BitVec 32) (stackFramePrefix : Frame)
  | typeConstraint (reg : Reg) (types : TypeGroup)
  | funcConstraint (reg : Reg)
  | zeroCtxOffset (reg : Reg) (orNull : Bool)
  | boundedLoopCount (name : Label)
  deriving DecidableEq

/-- `BoundedLoopCount::limit`. -/
def boundedLoopLimit : ℤ := 100000

/-- `call_stack_depth`: one more than the number of calls that lead to the label. -/
def Label.callStackDepth (l : Label) : ℕ := l.stackFramePrefix.length + 1

namespace AssertExtractor

/-- `zero_offset_ctx`. -/
def zeroOffsetCtx (reg : Reg) (orNull : Bool) : List Assertion :=
  [.typeConstraint reg (if orNull then .ctxOrNum else .ctx), .zeroCtxOffset reg orNull]

variable (info : ProgramInfo) (currentLabel : Option Label)

/-- `make_valid_access`. -/
def makeValidAccess (reg : Reg) (offset : ℤ) (width : Value) (orNull : Bool)
    (accessType : AccessType) : Assertion :=
  let depth := match currentLabel with
    | some l => l.callStackDepth
    | none => 1
  .validAccess ⟨depth, reg, offset, width, orNull, accessType⟩

/-- `make_valid_access` of a register that is compared. -/
def makeValidComparison (reg : Reg) : Assertion :=
  makeValidAccess currentLabel reg 0 (.inr 0) false .compare

/-- `exit`: the program returns a number. -/
def exit : Option (List Assertion) :=
  match currentLabel with
  | some l => some (if l.stackFramePrefix.isEmpty then [.typeConstraint 0 .number] else [])
  | none => none

/-- The assertions of one argument, and the map that the later arguments belong to. -/
def argSingle (mapFdReg : Option Reg) (arg : ArgSingle) : Option (List Assertion × Option Reg) :=
  match arg.kind with
  | .anything =>
    some (if !info.isPrivileged then [.typeConstraint arg.reg .number] else [], mapFdReg)
  | .mapFdPrograms => some ([.typeConstraint arg.reg .mapFdPrograms], mapFdReg)
  | .mapFd => some ([.typeConstraint arg.reg .mapFd], some arg.reg)
  | .ptrToMapKey | .ptrToMapValue => do
    let fd ← mapFdReg
    some ([.typeConstraint arg.reg .mem,
      .validMapKeyValue arg.reg fd (arg.kind = .ptrToMapKey)], mapFdReg)
  | .ptrToStack =>
    some ([.typeConstraint arg.reg (if arg.orNull then .stackOrNum else .stack)], mapFdReg)
  | .ptrToCtx => some (zeroOffsetCtx arg.reg arg.orNull, mapFdReg)

def argSingles (args : List ArgSingle) : Option (List Assertion) := do
  let res ← args.foldlM (fun (res : List Assertion × Option Reg) arg => do
    let (asserts, mapFdReg) ← argSingle info res.2 arg
    return (res.1 ++ asserts, mapFdReg)) ([], none)
  return res.1

/-- The assertions of one pair of arguments. -/
def argPair (arg : ArgPair) : List Assertion :=
  let accessType := if arg.kind = .ptrToReadableMem then .read else .write
  [.typeConstraint arg.size .number, .validSize arg.size arg.canBeZero,
    .typeConstraint arg.mem (if arg.orNull then .memOrNum else .mem),
    makeValidAccess currentLabel arg.mem 0 (.inl arg.size) arg.orNull accessType]

def call (c : CallInfo) (stackFramePrefix : Frame) : Option (List Assertion) := do
  let singles ← argSingles info c.singles
  return .validCall c.func stackFramePrefix :: singles ++ c.pairs.flatMap (argPair currentLabel)

def callx (func : Reg) : List Assertion := [.typeConstraint func .number, .funcConstraint func]

/-- The comparisons that are allowed between a pointer and zero. -/
def allowPointers : ConditionOp → Bool
  | .eq | .ne | .set | .nset | .lt | .le | .gt | .ge => true
  | .slt | .sle | .sgt | .sge => false

/-- `explicate`. -/
def explicate (cond : Condition) : List Assertion :=
  if info.isPrivileged then []
  else match cond.right with
    | .inr imm =>
      if imm ≠ 0 then [.typeConstraint cond.left .number]
      else
        (if !(allowPointers cond.op && cond.is64) then [.typeConstraint cond.left .number] else []) ++
          [makeValidComparison currentLabel cond.left]
    | .inl right =>
      [makeValidComparison currentLabel cond.left, makeValidComparison currentLabel right] ++
        (if cond.op ≠ .eq ∧ cond.op ≠ .ne then [.typeConstraint cond.left .ptrOrNum] else []) ++
        [.comparable cond.left right false]

def mem (ins : Mem) : Option (List Assertion) :=
  if ¬ (0 ≤ ins.access.width ∧ ins.access.width < 2 ^ 32) then none
  else
    let width : Value := .inr (UInt64.ofNat ins.access.width.toNat)
    let offset := ins.access.offset
    let access := makeValidAccess currentLabel ins.access.basereg offset width false
      (if ins.isLoad then .read else .write)
    if ins.access.basereg = 10 then
      some (if offset < -subprogramStackSize ∨ 0 < offset + ins.access.width then [access] else [])
    else
      some ([.typeConstraint ins.access.basereg .pointer, access] ++
        if !info.isPrivileged ∧ !ins.isLoad then
          match ins.value with
          | .inl reg =>
            if ins.access.width ≠ 8 then [.typeConstraint reg .number]
            else [.validStore ins.access.basereg reg]
          | .inr _ => []
        else [])

def atomic (ins : Atomic) : List Assertion :=
  [.typeConstraint ins.valreg .number, .typeConstraint ins.access.basereg .pointer,
    makeValidAccess currentLabel ins.access.basereg ins.access.offset
      (.inr (UInt64.ofNat (ins.access.width % 2 ^ 32).toNat)) false .compare]

def un (ins : Un) : List Assertion := [.typeConstraint ins.dst .number]

def bin (ins : Bin) : List Assertion :=
  match ins.op, ins.v with
  | .mov, .inl src => if !ins.is64 then [.typeConstraint src .number] else []
  | .mov, .inr _ => []
  | .movsx8, .inl src | .movsx16, .inl src | .movsx32, .inl src => [.typeConstraint src .number]
  | .movsx8, .inr _ | .movsx16, .inr _ | .movsx32, .inr _ => []
  | .add, .inl src =>
    [.typeConstraint ins.dst .ptrOrNum, .typeConstraint src .ptrOrNum, .addable src ins.dst,
      .addable ins.dst src]
  | .add, .inr _ => [.typeConstraint ins.dst .ptrOrNum]
  | .sub, .inl src => [.typeConstraint ins.dst .ptrOrNum, .comparable ins.dst src true]
  | .sub, .inr _ => [.typeConstraint ins.dst .ptrOrNum]
  | .udiv, .inl src | .umod, .inl src => [.typeConstraint ins.dst .number, .validDivisor src false]
  | .sdiv, .inl src | .smod, .inl src => [.typeConstraint ins.dst .number, .validDivisor src true]
  | _, .inl src => [.typeConstraint ins.dst .number, .typeConstraint src .number]
  | _, .inr _ => [.typeConstraint ins.dst .number]

end AssertExtractor

open AssertExtractor in
/-- `get_assertions`. -/
def getAssertions (ins : IsaInstruction) (info : ProgramInfo) (label : Option Label) :
    Option (List Assertion) :=
  match ins with
  | .undefined _ => some []
  | .incrementLoopCounter name => some [.boundedLoopCount name]
  | .exit _ => exit label
  | .call c stackFramePrefix => call info label c stackFramePrefix
  | .callLocal _ _ => some []
  | .assume cond isImplicit => some (if !isImplicit then explicate info label cond else [])
  | .jmp none _ => some []
  | .jmp (some cond) _ => some (explicate info label cond)
  | .other (.loadMapFd _ _) => some []
  | .other (.loadMapAddress _ _ _) => some []
  | .other (.packet _) => some (zeroOffsetCtx 6 false)
  | .other (.callx func) => some (callx func)
  | .other (.mem m) => mem info label m
  | .other (.atomic a) => some (atomic label a)
  | .other (.un u) => some (un u)
  | .other (.bin b) => some (bin b)

end Prevail
