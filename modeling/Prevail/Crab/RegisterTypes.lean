import Prevail.Crab.TypeToNum
import Prevail.Ir.Assertions

/-!
# The variables and the types of registers

A program has variables for its registers, for the cells of its stack, for the registers that its
calls save, for its packet and for its loop counters. `ProgramVariables` gives the type variable of
each location; the other variables of a location are its kind variables.

`TypeDomain` reads the type of a register from the zone over the type variables: from the interval of
the variable, or by asking the zone for a constraint.
-/

namespace Prevail

/-- What has a type: a register, a cell of the stack, or a register that a call saves. -/
inductive Location where
  | reg (i : ℕ)
  | cell (offset size : ℕ)
  | saved (i : ℕ) (f : Frame)
  deriving DecidableEq

/-- The registry with the variables that are asked for by name. Different names are different
variables. The locations in use are those whose type variables are listed; the registers always are. -/
structure ProgramVariables (V : Type*) extends VariableRegistry V where
  typeVar : Location → V
  metaOffset : V
  loopCounter : Label → V
  typeReg_eq : ∀ i, typeReg i = typeVar (.reg i)
  kindVar_types : ∀ l, kindVar .types (typeVar l) = typeVar l
  kindVar_eq : ∀ {k l k' l'}, kindVar k (typeVar l) = kindVar k' (typeVar l') → k = k' ∧ l = l'
  packetSize_ne : ∀ k l, kindVar k (typeVar l) ≠ packetSize
  metaOffset_ne : ∀ k l, kindVar k (typeVar l) ≠ metaOffset
  metaOffset_ne_packetSize : metaOffset ≠ packetSize
  location : ∀ v ∈ typeVariables, ∃ l, v = typeVar l
  reg_mem : ∀ i ≤ 11, typeVar (.reg i) ∈ typeVariables

namespace ProgramVariables

variable {V : Type*} (R : ProgramVariables V)

/-- `reg_type`. -/
def regType (r : Reg) : V := R.typeReg r.toNat

/-- `reg_pack`: the variable of one kind of a register. -/
def reg (kind : DataKind) (r : Reg) : V := R.kindVar kind (R.regType r)

/-- `cell_var`. -/
def cellVar (kind : DataKind) (offset size : ℕ) : V :=
  R.kindVar kind (R.typeVar (.cell offset size))

/-- `stack_frame_var`. -/
def stackFrameVar (kind : DataKind) (r : Reg) (f : Frame) : V :=
  R.kindVar kind (R.typeVar (.saved r.toNat f))

/-! ## Names -/

/-- A name: the kind of the variable and its location, as numbers. -/
abbrev Name := List ℤ

/-- The name of the type of a location. -/
def typeName : Location → Name
  | .reg i => [0, 0, i]
  | .cell offset size => [0, 1, offset, size]
  | .saved i f => 0 :: 2 :: i :: f.flatMap fun call => [call.1, call.2]

theorem frame_flatMap_inj : ∀ {f g : Frame}, (f.flatMap fun call => [call.1, call.2]) =
    (g.flatMap fun call => [call.1, call.2]) → f = g
  | [], [], _ => rfl
  | [], _ :: _, h => by simp at h
  | _ :: _, [], h => by simp at h
  | call :: f, call' :: g, h => by
    simp only [List.flatMap_cons, List.cons_append, List.nil_append, List.cons.injEq] at h
    have hcall : call = call' := Prod.ext h.1 h.2.1
    rw [hcall, frame_flatMap_inj h.2.2]

theorem typeName_inj {l l' : Location} (h : typeName l = typeName l') : l = l' := by
  cases l <;> cases l' <;> simp [typeName] at h
  case reg.reg => rw [h]
  case cell.cell => rw [h.1, h.2]
  case saved.saved => rw [h.1, frame_flatMap_inj h.2]

theorem exists_typeName (l : Location) : ∃ n, typeName l = 0 :: n := by cases l <;> exact ⟨_, rfl⟩

/-- The variables by their names, with the locations in `more` in use besides the registers. -/
def named (more : List Location) : ProgramVariables Name where
  typeVariables := ((List.range 12).map Location.reg ++ more).map typeName
  typeReg i := typeName (.reg i)
  packetSize := []
  loopCounters := []
  kindVar kind v := (kind.index : ℤ) :: v.tail
  kindVar_inj v hv v' hv' k k' h := by
    obtain ⟨l, -, rfl⟩ := List.mem_map.mp hv
    obtain ⟨l', -, rfl⟩ := List.mem_map.mp hv'
    obtain ⟨n, hn⟩ := exists_typeName l
    obtain ⟨n', hn'⟩ := exists_typeName l'
    rw [hn, hn'] at h ⊢
    simp only [List.tail_cons, List.cons.injEq, Nat.cast_inj] at h ⊢
    exact ⟨DataKind.index_inj h.1, trivial, h.2⟩
  typeVar := typeName
  metaOffset := [-1]
  loopCounter l := [-2, l.src, l.dst]
  typeReg_eq _ := rfl
  kindVar_types l := by cases l <;> rfl
  kindVar_eq {k l k' l'} h := by
    obtain ⟨n, hn⟩ := exists_typeName l
    obtain ⟨n', hn'⟩ := exists_typeName l'
    rw [hn, hn'] at h
    simp only [List.tail_cons, List.cons.injEq, Nat.cast_inj] at h
    exact ⟨DataKind.index_inj h.1, typeName_inj (by rw [hn, hn', h.2])⟩
  packetSize_ne _ _ := List.cons_ne_nil _ _
  metaOffset_ne k l h := by
    have hk := (List.cons.inj h).1
    omega
  metaOffset_ne_packetSize := List.cons_ne_nil _ _
  location v hv := by
    obtain ⟨l, -, rfl⟩ := List.mem_map.mp hv
    exact ⟨l, rfl⟩
  reg_mem i hi := by
    refine List.mem_map_of_mem (List.mem_append_left _ (List.mem_map_of_mem ?_))
    exact List.mem_range.mpr (by omega)

end ProgramVariables

/-- `iterate_kinds` over all kinds but the types. -/
def DataKind.values : List DataKind :=
  [.svalues, .uvalues, .ctxOffsets, .mapFds, .mapFdPrograms, .packetOffsets, .sharedOffsets,
    .stackOffsets, .sharedRegionSizes, .stackNumericSizes]

namespace TypeEncoding

/-- The valid types, `T_MIN_VALID` to `T_MAX`. -/
def valid : List TypeEncoding := [.mapPrograms, .map, .num, .ctx, .packet, .stack, .shared]

/-- `type_to_kinds.at`, which throws for `T_UNINIT`. -/
def kinds (type : TypeEncoding) : Option (List DataKind) := typeToKinds.lookup type

theorem toInt_inj {a b : TypeEncoding} (h : a.toInt = b.toInt) : a = b := by
  revert h
  cases a <;> cases b <;> decide

theorem mem_valid {a : TypeEncoding} : a ∈ valid ↔ a ≠ .uninit := by cases a <;> decide

end TypeEncoding

/-- `narrow<T>` to a signed type of `w` bits. -/
def narrowS (w : ℕ) (n : ℤ) : Option ℤ := if Number.FitsS w n then some n else none

/-- `narrow<T>` to an unsigned type of `w` bits. -/
def narrowU (w : ℕ) (n : ℤ) : Option ℕ := if Number.FitsU w n then some n.toNat else none

/-- `bound`: the ends of the part of an interval between two numbers, which must not be empty. -/
def Interval.bound (i : Interval) (lb ub : ℤ) : Option (ℤ × ℤ) := do
  let b := (Interval.ofInts lb ub).meet i
  if b.isBottom then none else return (← b.lb.number, ← b.ub.number)

namespace TypeDomain

open LinearExpression

variable {V : Type*} [LinearOrder V]

/-- `assign_type` of an expression. -/
def assignType (t : TypeDomain V) (lhs : V) (e : LinearExpression V) : TypeDomain V :=
  ⟨t.inv.assign lhs e⟩

/-- `assign_type` of an optional expression. -/
def assignTypeOpt (t : TypeDomain V) (lhs : V) (e : Option (LinearExpression V)) : TypeDomain V :=
  ⟨t.inv.assignOpt lhs e⟩

def addConstraint (t : TypeDomain V) (c : LinearConstraint V) : TypeDomain V :=
  ⟨t.inv.addConstraint c⟩

def havocType (t : TypeDomain V) (v : V) : TypeDomain V := ⟨t.inv.havoc v⟩

/-- `implies`. -/
def implies (t : TypeDomain V) (premise conclusion : LinearConstraint V) : Bool :=
  (t.inv.addConstraint premise).entail conclusion

/-- `get_type`: the encoding in the interval of the variable when there is just one. Numbers that do
not encode a type are passed on. -/
def getType (t : TypeDomain V) (v : V) : Option ℤ :=
  match (t.inv.evalInterval (.var v)).singleton with
  | none => some TypeEncoding.uninit.toInt
  | some n => narrowS 32 n

def isInitialized (t : TypeDomain V) (v : V) : Bool :=
  t.inv.entail (ne (.var v) (.const TypeEncoding.uninit.toInt))

/-- `iterate_types`. -/
def iterateTypes (t : TypeDomain V) (v : V) : Option (List TypeEncoding) :=
  let allowed := t.inv.evalInterval (.var v)
  if allowed.isBottom then some []
  else if allowed.contains TypeEncoding.uninit.toInt then some [.uninit]
  else do
    let (lb, ub) ← allowed.bound TypeEncoding.mapPrograms.toInt TypeEncoding.shared.toInt
    return TypeEncoding.valid.filter fun type => lb ≤ type.toInt && type.toInt ≤ ub

def sameType (t : TypeDomain V) (a b : V) : Bool := t.inv.entail (eq (.var a) (.var b))

/-- `type == T`. -/
def typeIs (v : V) (type : TypeEncoding) : LinearConstraint V := eq (.var v) (.const type.toInt)

/-- `type != T`. -/
def typeIsNot (v : V) (type : TypeEncoding) : LinearConstraint V := ne (.var v) (.const type.toInt)

/-- `type >= T`. -/
def typeGe (v : V) (type : TypeEncoding) : LinearConstraint V := ge (.var v) (.const type.toInt)

/-- `type <= T`. -/
def typeLe (v : V) (type : TypeEncoding) : LinearConstraint V :=
  LinearExpression.le (.var v) (.const type.toInt)

/-- `type_is_pointer`. -/
def typeIsPointer (v : V) : LinearConstraint V := typeGe v .ctx

/-- `is_in_group`. -/
def isInGroup (t : TypeDomain V) (v : V) : TypeGroup → Bool
  | .number => t.inv.entail (typeIs v .num)
  | .mapFd => t.inv.entail (typeIs v .map)
  | .mapFdPrograms => t.inv.entail (typeIs v .mapPrograms)
  | .ctx => t.inv.entail (typeIs v .ctx)
  | .ctxOrNum => t.inv.entail (typeIs v .ctx) || t.inv.entail (typeIs v .num)
  | .packet => t.inv.entail (typeIs v .packet)
  | .stack => t.inv.entail (typeIs v .stack)
  | .stackOrNum => t.inv.entail (typeIs v .stack) || t.inv.entail (typeIs v .num)
  | .shared => t.inv.entail (typeIs v .shared)
  | .mem => t.inv.entail (typeGe v .packet)
  | .memOrNum => t.inv.entail (typeGe v .num) && t.inv.entail (typeIsNot v .ctx)
  | .pointer => t.inv.entail (typeGe v .ctx)
  | .ptrOrNum => t.inv.entail (typeGe v .num)
  | .stackOrPacket => t.inv.entail (typeGe v .packet) && t.inv.entail (typeLe v .stack)
  | .singletonPtr => t.inv.entail (typeGe v .ctx) && t.inv.entail (typeLe v .stack)

end TypeDomain

/-- `get_type_offset_variable`. -/
def getTypeOffsetVariable {V : Type*} (R : ProgramVariables V) (r : Reg) (type : ℤ) : Option V :=
  if type = TypeEncoding.ctx.toInt then some (R.reg .ctxOffsets r)
  else if type = TypeEncoding.map.toInt then some (R.reg .mapFds r)
  else if type = TypeEncoding.mapPrograms.toInt then some (R.reg .mapFdPrograms r)
  else if type = TypeEncoding.packet.toInt then some (R.reg .packetOffsets r)
  else if type = TypeEncoding.shared.toInt then some (R.reg .sharedOffsets r)
  else if type = TypeEncoding.stack.toInt then some (R.reg .stackOffsets r)
  else none

end Prevail
