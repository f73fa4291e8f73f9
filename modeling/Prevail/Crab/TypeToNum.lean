import Prevail.Crab.AddBottom

/-!
# Types and numbers

`TypeToNumDomain` pairs a zone over the type variables of the locations (registers, stack slots
and saved registers) with a zone over their numeric variables. A numeric variable of a kind that
belongs to one type (an offset, a size, a descriptor) means something only for a location that has
this type. Inclusion, join and widening take care of the types that a location cannot have.

The variables come from a registry: `kindVar` replaces the part of a type variable's name after
the last dot, so that it is injective on type variables.
-/

namespace Prevail

/-- `DataKind`. -/
inductive DataKind where
  | types
  | svalues
  | uvalues
  | ctxOffsets
  | mapFds
  | mapFdPrograms
  | packetOffsets
  | sharedOffsets
  | stackOffsets
  | sharedRegionSizes
  | stackNumericSizes
  deriving DecidableEq, Repr

/-- The place of a kind in the enumeration. -/
def DataKind.index : DataKind → ℕ
  | types => 0
  | svalues => 1
  | uvalues => 2
  | ctxOffsets => 3
  | mapFds => 4
  | mapFdPrograms => 5
  | packetOffsets => 6
  | sharedOffsets => 7
  | stackOffsets => 8
  | sharedRegionSizes => 9
  | stackNumericSizes => 10

theorem DataKind.index_lt (k : DataKind) : k.index < 11 := by cases k <;> decide

theorem DataKind.index_inj {k k' : DataKind} (h : k.index = k'.index) : k = k' := by
  revert h
  cases k <;> cases k' <;> decide

/-- `TypeEncoding`. -/
inductive TypeEncoding where
  | uninit
  | mapPrograms
  | map
  | num
  | ctx
  | packet
  | stack
  | shared
  deriving DecidableEq, Repr

/-- The number that encodes a type. -/
def TypeEncoding.toInt : TypeEncoding → ℤ
  | uninit => -7
  | mapPrograms => -6
  | map => -5
  | num => -4
  | ctx => -3
  | packet => -2
  | stack => -1
  | shared => 0

/-- `type_to_kinds`, in the order of the encodings. -/
def typeToKinds : List (TypeEncoding × List DataKind) :=
  [(.mapPrograms, [.mapFdPrograms]),
    (.map, [.mapFds]),
    (.num, []),
    (.ctx, [.ctxOffsets]),
    (.packet, [.packetOffsets]),
    (.stack, [.stackOffsets, .stackNumericSizes]),
    (.shared, [.sharedOffsets, .sharedRegionSizes])]

/-- Each kind belongs to one type. -/
theorem typeToKinds_unique : ∀ e ∈ typeToKinds, ∀ e' ∈ typeToKinds, ∀ k ∈ e.2, k ∈ e'.2 → e = e' := by
  decide

/-- The type variables in use, the variables of the other kinds that go with them, and the
variables that the domain asks for by name. -/
structure VariableRegistry (V : Type*) where
  typeVariables : List V
  typeReg : ℕ → V
  packetSize : V
  loopCounters : List V
  kindVar : DataKind → V → V
  kindVar_inj : ∀ v ∈ typeVariables, ∀ v' ∈ typeVariables, ∀ k k',
    kindVar k v = kindVar k' v' → k = k' ∧ v = v'

/-- The registry of `n` locations, with the variables of a location numbered by their kinds. -/
def VariableRegistry.numbered (n : ℕ) : VariableRegistry ℕ where
  typeVariables := (List.range n).map (11 * ·)
  typeReg i := 11 * i
  packetSize := 11 * n
  loopCounters := []
  kindVar kind v := v / 11 * 11 + kind.index
  kindVar_inj v hv v' hv' k k' h := by
    obtain ⟨p, -, rfl⟩ := List.mem_map.mp hv
    obtain ⟨q, -, rfl⟩ := List.mem_map.mp hv'
    have hk := k.index_lt
    have hk' := k'.index_lt
    exact ⟨DataKind.index_inj (by omega), by omega⟩

/-! ## Types -/

/-- `TypeDomain`: a zone over the type variables. -/
structure TypeDomain (V : Type*) [LinearOrder V] where
  inv : AddBottom V

namespace TypeDomain

variable {V : Type*} [LinearOrder V]

def top : TypeDomain V := ⟨AddBottom.top⟩

def le (t u : TypeDomain V) : Bool := t.inv.le u.inv

def join (t u : TypeDomain V) : TypeDomain V := ⟨t.inv.join u.inv⟩

def meet (t u : TypeDomain V) : Option (TypeDomain V) :=
  let inv := t.inv.meet u.inv
  if inv.isBottom then none else some ⟨inv⟩

def widen (t u : TypeDomain V) : TypeDomain V := ⟨t.inv.widen u.inv⟩

def narrow (t u : TypeDomain V) : TypeDomain V := ⟨t.inv.narrow u.inv⟩

def mayHaveType (t : TypeDomain V) (v : V) (type : TypeEncoding) : Bool :=
  (t.inv.evalInterval (.var v)).contains type.toInt

end TypeDomain

/-! ## The pair -/

structure TypeToNumDomain (V : Type*) [LinearOrder V] where
  types : TypeDomain V
  values : AddBottom V

namespace TypeToNumDomain

variable {V : Type*} [LinearOrder V]

def top : TypeToNumDomain V := ⟨.top, AddBottom.top⟩

/-- The empty state has no values; its types are not restricted. -/
def bottom : TypeToNumDomain V := ⟨.top, none⟩

def isBottom (d : TypeToNumDomain V) : Bool := d.values.isBottom

variable (R : VariableRegistry V)

/-- The kind variables of the types that their locations cannot have. -/
def getNonexistentKindVariables (d : TypeToNumDomain V) : List V :=
  R.typeVariables.flatMap fun v => typeToKinds.flatMap fun e =>
    if d.types.mayHaveType v e.1 then [] else e.2.map fun kind => R.kindVar kind v

/-- The intervals of the kind variables of types that only one operand may have. -/
def collectTypeDependentConstraints (left right : TypeToNumDomain V) : List (V × Interval) :=
  R.typeVariables.flatMap fun v => typeToKinds.flatMap fun e =>
    let inLeft := left.types.mayHaveType v e.1
    let inRight := right.types.mayHaveType v e.1
    if inLeft = inRight then []
    else
      let source := if inLeft then left.values else right.values
      e.2.filterMap fun kind =>
        let value := source.evalInterval (.var (R.kindVar kind v))
        if value.isTop then none else some (R.kindVar kind v, value)

/-- `operator<=`. -/
def le (d o : TypeToNumDomain V) : Bool :=
  if d.isBottom then true
  else if o.isBottom then false
  else if !d.types.le o.types then false
  else d.values.le ((d.getNonexistentKindVariables R).foldl AddBottom.havoc o.values)

/-- Put the saved intervals back. -/
def setAll (values : AddBottom V) (extra : List (V × Interval)) : AddBottom V :=
  extra.foldl (fun x e => x.set e.1 e.2) values

/-- The values are joined, the types are left alone. -/
def joinSelective (left right : TypeToNumDomain V) : TypeToNumDomain V :=
  if left.isBottom then right
  else if right.isBottom then left
  else { left with
    values := setAll (left.values.join right.values)
      (left.collectTypeDependentConstraints R right) }

/-- `operator|=`. -/
def join (d o : TypeToNumDomain V) : TypeToNumDomain V :=
  let d := if d.isBottom then o else d
  if o.isBottom then d
  else
    let d := d.joinSelective R o
    { d with types := d.types.join o.types }

/-- `operator&`. -/
def meet (d o : TypeToNumDomain V) : TypeToNumDomain V :=
  match d.types.meet o.types with
  | some types => ⟨types, d.values.meet o.values⟩
  | none => bottom

def widen (d o : TypeToNumDomain V) : TypeToNumDomain V :=
  ⟨d.types.widen o.types,
    setAll (d.values.widen o.values) (d.collectTypeDependentConstraints R o)⟩

def narrow (d o : TypeToNumDomain V) : TypeToNumDomain V :=
  ⟨d.types.narrow o.types, d.values.narrow o.values⟩

end TypeToNumDomain

end Prevail
