import Prevail.Crab.EbpfDomain
import Prevail.Crab.OffsetMap
import Prevail.Crab.RegisterTypes

/-!
# The bytes and the cells of the stack

`BitsetDomain` changes and tests ranges of bytes, and `ArrayDomain` keeps a cell for each range of
bytes that was stored at once. The cells of a kind are in an `offset_map_t` that all states share, so
that the operations on cells pass the maps of all kinds along. They return `none` where the source
throws.
-/

namespace Prevail

namespace BitsetDomain

/-- Set the bits of the `n` bytes from `lb` on, within the stack. -/
def havoc (x : BitsetDomain) (lb : ℕ) (n : ℤ) : BitsetDomain :=
  if totalStackSize ≤ lb then x
  else ⟨(List.range (min n (totalStackSize - lb)).toNat).foldl
    (fun bits i => bits ||| BitVec.twoPow _ (lb + i)) x.nonNumericalBytes⟩

/-- Clear the bits of the `n` bytes from `lb` on, within the stack. -/
def reset (x : BitsetDomain) (lb : ℕ) (n : ℤ) : BitsetDomain :=
  if totalStackSize ≤ lb then x
  else ⟨(List.range (min n (totalStackSize - lb)).toNat).foldl
    (fun bits i => bits &&& ~~~BitVec.twoPow _ (lb + i)) x.nonNumericalBytes⟩

/-- Whether the `width` bytes from `lb` on are all numbers, and whether none is. -/
def uniformity (x : BitsetDomain) (lb : ℕ) (width : ℤ) : Bool × Bool :=
  if totalStackSize ≤ lb then (true, true)
  else
    let bytes := (List.range (min width (totalStackSize - lb)).toNat).map fun j =>
      x.nonNumericalBytes.getLsbD (lb + j)
    (bytes.all (!·), bytes.all (·))

/-- `all_num_width`: the number of bytes from `lb` on that are numbers. -/
def allNumWidth (x : BitsetDomain) (lb : ℕ) : ℕ :=
  if totalStackSize ≤ lb then 0
  else ((List.range (totalStackSize - lb)).takeWhile fun j =>
    !x.nonNumericalBytes.getLsbD (lb + j)).length

/-- `all_num`: the bytes of `[lb, ub)` are numbers. -/
def allNum (x : BitsetDomain) (lb ub : ℤ) : Bool :=
  if lb = ub then true
  else
    let lb := max lb 0
    let ub := min ub totalStackSize
    (List.range (ub - lb).toNat).all fun i => !x.nonNumericalBytes.getLsbD (lb.toNat + i)

end BitsetDomain

/-- The cells of each kind: `array_map_t`. -/
abbrev ArrayMap := DataKind → OffsetMap

/-- What works on the cells and may throw. -/
abbrev CellM := StateT ArrayMap Option

/-- `lookup_array_map`: work on the cells of one kind. -/
def onCells {α : Type} (kind : DataKind) (f : OffsetMap → Option (α × OffsetMap)) : CellM α :=
  fun arrays => do
    let (a, cells) ← f (arrays kind)
    return (a, Function.update arrays kind cells)

/-- A number as a `size_t`. -/
def toSize (n : ℤ) : ℕ := (n % 2 ^ 64).toNat

namespace ArrayDomain

variable {V : Type} [LinearOrder V] (R : ProgramVariables V) (bigEndian : Bool)

/-- `get_scalar`. -/
def getScalar (kind : DataKind) (c : Cell) : V := R.cellVar kind c.offset c.size

/-- `get_value_byte`: the byte at `o` of an aligned cell whose value is known. -/
def getValueByte (inv : AddBottom V) (o width : ℕ) : Option (Option ℕ) :=
  match (inv.evalInterval (.var (R.cellVar .svalues (o / width * width) width))).singleton with
  | none => some none
  | some t => do
    let n ← Number.castToU 64 t
    let i := o % width
    return some (n.toNat / 256 ^ (if bigEndian then width - 1 - i else i) % 256)

/-- The byte at `o`, from a cell of 8, 4, 2 or 1 bytes. -/
def getByte (inv : AddBottom V) (o : ℕ) : Option (Option ℕ) :=
  [8, 4, 2, 1].foldlM (fun b width =>
    if b.isSome then some b else getValueByte R bigEndian inv o width) none

/-- The `size` bytes from `o` on, when all are known. -/
def getBytes (inv : AddBottom V) (o size : ℕ) : Option (Option (List ℕ)) :=
  (List.range size).foldlM (fun bytes index =>
    match bytes with
    | none => some none
    | some bytes => do
      let b ← getByte R bigEndian inv (toSize (o + index))
      return b.map (bytes ++ [·])) (some [])

/-- The number that the bytes stand for. -/
def ofBytes (bytes : List ℕ) : ℕ :=
  (if bigEndian then bytes.reverse else bytes).foldr (fun b n => b + 256 * n) 0

/-- A value that is read from known bytes of other cells. -/
def loadBytes (inv : AddBottom V) (kind : DataKind) (o size : ℕ) :
    Option (Option (LinearExpression V)) :=
  if kind = .svalues ∨ kind = .uvalues then do
    let bytes ← getBytes R bigEndian inv o size
    return bytes.bind fun bytes =>
      let n : ℤ := ofBytes bigEndian bytes
      if size = 1 ∨ size = 2 ∨ size = 4 then some (.const n)
      else if size = 8 then
        some (.const (if kind = .uvalues then n else Number.signExtend 64 n))
      else none
  else some none

/-- The variable of the exact cell, which is made when no other cell overlaps. -/
def loadCell (kind : DataKind) (o size : ℕ) : CellM (Option (LinearExpression V)) := do
  let cells ← onCells kind (·.getOverlapCells o size)
  if cells.isEmpty then
    let c ← onCells kind fun m => some (m.mkCell o size)
    return some (.var (getScalar R kind c))
  else return none

def load (inv : AddBottom V) (kind : DataKind) (i : Interval) (width : ℕ) :
    CellM (Option (LinearExpression V)) := do
  match i.singleton with
  | none => return none
  | some n => do
    let k ← narrowS 64 n
    let o := toSize k
    match ← onCells kind fun m => some (m.getCell o width) with
    | some c => return some (.var (getScalar R kind c))
    | none => do
      match ← loadBytes R bigEndian inv kind o width with
      | some e => return some e
      | none => loadCell R kind o width

def loadType (a : ArrayDomain) (i : Interval) (width : ℕ) :
    CellM (Option (LinearExpression V)) := do
  match i.singleton with
  | some n => do
    let k ← narrowS 64 n
    let o := toSize k
    let (onlyNum, onlyNonNum) := a.numBytes.uniformity o width
    if onlyNum then return some (.const TypeEncoding.num.toInt)
    else if !onlyNonNum || width ≠ 8 then return none
    else match ← onCells .types fun m => some (m.getCell o width) with
      | some c => return some (.var (getScalar R .types c))
      | none => loadCell R .types o width
  | none =>
    match i.lb.number, i.ub.number with
    | some lb, some ub =>
      let fullwidth := ub - lb + width
      if Number.FitsU 32 lb ∧ Number.FitsU 32 fullwidth ∧
          (a.numBytes.uniformity lb.toNat (Number.signExtend 32 fullwidth)).1 then
        return some (.const TypeEncoding.num.toInt)
      else return none
    | _, _ => return none

/-! ## Stores -/

/-- `split_cell`: a new cell for `len` bytes of a cell that is about to be lost. -/
def splitCell (inv : AddBottom V) (kind : DataKind) (start len : ℕ) : CellM (AddBottom V) := do
  let svalue ← load R bigEndian inv .svalues (.const start) len
  let uvalue ← load R bigEndian inv .uvalues (.const start) len
  let c ← onCells kind fun m => some (m.mkCell start len)
  return (inv.assignOpt (getScalar R .svalues c) svalue).assignOpt (getScalar R .uvalues c) uvalue

/-- `split_number_var` for one cell that overlaps the range from `o` on. -/
def splitOverlap (a : ArrayDomain) (kind : DataKind) (o size : ℕ) (inv : AddBottom V) (c : Cell) :
    CellM (AddBottom V) := do
  let i ← c.toInterval
  let start ← narrowS 32 (← i.lb.number)
  let last ← narrowS 32 (← i.ub.number)
  if !a.numBytes.allNum start (last + 1) ∨ last + 1 < start + 8 then return inv
  else if !(inv.evalInterval (.var (getScalar R kind c))).isSingleton then return inv
  else
    let inv ← if start < o then splitCell R bigEndian inv kind start.toNat (o - start).toNat
      else pure inv
    if o + size < last + 1 then
      splitCell R bigEndian inv kind (o + size) (last - (o + size - 1)).toNat
    else return inv

def splitNumberVar (a : ArrayDomain) (inv : AddBottom V) (kind : DataKind) (ii elemSize : Interval) :
    CellM (AddBottom V) := do
  match ii.singleton, elemSize.singleton with
  | some n, some bytes => do
    let size ← narrowU 32 bytes
    let o ← narrowU 64 n
    let cells ← onCells kind (·.getOverlapCells o size)
    cells.foldlM (splitOverlap R bigEndian a kind o size) inv
  | _, _ => return inv

/-- Forget the value of a cell; signed and unsigned values are forgotten together. -/
def havocCell (kind : DataKind) (inv : AddBottom V) (c : Cell) : AddBottom V :=
  let inv := inv.havoc (getScalar R kind c)
  if kind = .svalues then inv.havoc (getScalar R .uvalues c)
  else if kind = .uvalues then inv.havoc (getScalar R .svalues c)
  else inv

/-- `kill_and_find_var`: remove the cells that the range may overlap. The range is returned when it is
known. -/
def killAndFindVar (inv : AddBottom V) (kind : DataKind) (ii elemSize : Interval) :
    CellM (Option (ℕ × ℕ) × AddBottom V) := do
  let (res, cells) ← (do
    match ii.singleton, elemSize.singleton with
    | some n, some bytes => do
      let size ← narrowU 32 bytes
      let o ← narrowU 64 n
      let cells ← onCells kind (·.getOverlapCells o size)
      return (some (o, size), cells)
    | _, _ => do
      let cells ← onCells kind fun m =>
        (m.getOverlapCellsSymbolicOffset (ii.join (ii.add elemSize))).map (·, m)
      return (none, cells) : CellM (Option (ℕ × ℕ) × List Cell))
  onCells kind fun m => some ((), m.removeCells cells)
  return (res, cells.foldl (havocCell R kind) inv)

/-- `split_and_find_var`. -/
def splitAndFindVar (a : ArrayDomain) (inv : AddBottom V) (kind : DataKind)
    (idx elemSize : Interval) : CellM (Option (ℕ × ℕ) × AddBottom V) := do
  let inv ← if kind = .svalues ∨ kind = .uvalues then
      splitNumberVar R bigEndian a inv kind idx elemSize
    else pure inv
  killAndFindVar R inv kind idx elemSize

/-- `as_numbytes_range`. -/
def asNumbytesRange (index width : Interval) : Option (ℤ × ℤ) :=
  (index.join (index.add width)).bound 0 totalStackSize

def store (a : ArrayDomain) (inv : AddBottom V) (kind : DataKind) (idx elemSize : Interval) :
    CellM (Option V × AddBottom V) := do
  match ← splitAndFindVar R bigEndian a inv kind idx elemSize with
  | (some (o, size), inv) => do
    let c ← onCells kind fun m => some (m.mkCell o size)
    return (some (getScalar R kind c), inv)
  | (none, inv) => return (none, inv)

/-- The source passes the upper end of the range as its width when the range is not known. -/
def storeType (a : ArrayDomain) (inv : TypeDomain V) (idx width : Interval) (isNum : Bool) :
    CellM (Option V × TypeDomain V × ArrayDomain) := do
  match ← splitAndFindVar R bigEndian a inv.inv .types idx width with
  | (some (o, size), inv) => do
    let n := Number.signExtend 32 size
    let bytes := if isNum then a.numBytes.reset o n else a.numBytes.havoc o n
    let c ← onCells .types fun m => some (m.mkCell o size)
    return (some (getScalar R .types c), ⟨inv⟩, ⟨bytes⟩)
  | (none, inv) => do
    let (lb, ub) ← asNumbytesRange idx width
    return (none, ⟨inv⟩, ⟨a.numBytes.havoc (toSize lb) ub⟩)

def havoc (a : ArrayDomain) (inv : AddBottom V) (kind : DataKind) (idx elemSize : Interval) :
    CellM (AddBottom V) := do
  let (_, inv) ← splitAndFindVar R bigEndian a inv kind idx elemSize
  return inv

def havocType (a : ArrayDomain) (inv : TypeDomain V) (idx elemSize : Interval) :
    CellM (TypeDomain V × ArrayDomain) := do
  match ← splitAndFindVar R bigEndian a inv.inv .types idx elemSize with
  | (some (o, size), inv) => return (⟨inv⟩, ⟨a.numBytes.havoc o (Number.signExtend 32 size)⟩)
  | (none, inv) => return (⟨inv⟩, a)

/-- Forget the cells of all kinds but the types. -/
def havocKinds (a : ArrayDomain) (inv : AddBottom V) (idx elemSize : Interval) :
    CellM (AddBottom V) :=
  DataKind.values.foldlM (fun inv kind => havoc R bigEndian a inv kind idx elemSize) inv

def storeNumbers (a : ArrayDomain) (idx width : Interval) : Option ArrayDomain :=
  match idx.singleton, width.singleton with
  | some n, some width =>
    if totalStackSize < n + width then some a
    else do return ⟨a.numBytes.reset (toSize (← narrowS 32 n)) (← narrowS 32 width)⟩
  | _, _ => some a

/-! ## Queries -/

/-- `all_num_lb_ub`. -/
def allNumLbUb (a : ArrayDomain) (lb ub : Interval) : Option Bool := do
  let (minLb, maxUb) ← (lb.join ub).bound 0 totalStackSize
  return minLb ≤ maxUb && a.numBytes.allNum minLb maxUb

/-- `all_num_width`. -/
def allNumWidth (a : ArrayDomain) (index width : Interval) : Option Bool := do
  let (minLb, maxUb) ← asNumbytesRange index width
  return a.numBytes.allNum minLb maxUb

/-- `min_all_num_size`: how many bytes are numbers from any offset in an interval on. The source works
on `int`s, which wrap around when the interval is too long. -/
def minAllNumSize (a : ArrayDomain) (inv : AddBottom V) (offset : V) : ℤ :=
  let i := inv.evalInterval (.var offset)
  match i.lb.number, i.ub.number with
  | some lb, some ub =>
    if Number.FitsS 32 lb ∧ Number.FitsS 32 ub then
      max 0 (Number.signExtend 32 (a.numBytes.allNumWidth (toSize lb) - (ub - lb)))
    else 0
  | _, _ => 0

end ArrayDomain

end Prevail
