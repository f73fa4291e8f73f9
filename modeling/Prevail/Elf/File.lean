import Prevail.Isa.LineInfo

/-!
# ELF files

What the loader reads of an ELF file through its accessors: sections, symbols and entries of relocation
sections, each known by its place. A section without data has a size of its own. The types that a file
describes are read by a library, of which `Libbtf` is what the loader asks.
-/

namespace Prevail

/-- `UnmarshalError` with its text, or another exception. An access out of bounds means nothing. -/
inductive ElfError where
  | unmarshal (msg : String)
  | thrown
  | outOfBounds
  | outOfFuel
  deriving DecidableEq

/-- `symbol_details_t`, with the fields that matter. The size is not looked at. -/
structure ElfSymbol where
  name : String
  value : ℕ
  size : ℕ
  type : ℕ
  sectionIndex : ℕ
  deriving DecidableEq

/-- An entry of a relocation section. -/
structure RelocEntry where
  offset : ℕ
  symbol : ℕ
  type : ℕ
  addend : ℤ
  deriving DecidableEq

/-- A section. The entries are those of a relocation section. -/
structure ElfSection where
  name : String
  type : ℕ
  isExec : Bool
  size : ℕ
  data : Option (List (BitVec 8))
  entries : List RelocEntry
  size_eq : ∀ bytes ∈ data, bytes.length = size

namespace ElfSection

theorem size_none : ∀ bytes ∈ (none : Option (List (BitVec 8))), bytes.length = 0 := by simp

theorem size_nil : ∀ bytes ∈ some ([] : List (BitVec 8)), bytes.length = 0 := by simp

theorem size_some (data : List (BitVec 8)) : ∀ bytes ∈ some data, bytes.length = data.length := by
  simp

end ElfSection

/-- `elfio`. -/
structure ElfFile where
  sections : List ElfSection
  symbols : List ElfSymbol

/-- `STT_FUNC`. -/
def sttFunc : ℕ := 2

namespace ElfFile

variable (F : ElfFile)

/-- `get_symbol_details`: an index that is out of range leaves the defaults. -/
def getSymbolDetails (index : ℕ) : ElfSymbol := F.symbols[index]?.getD ⟨"", 0, 0, 0, 0⟩

/-- `reader.sections[name]`: the first section with the name. -/
def findSection (name : String) : Option ElfSection := F.sections.find? (·.name = name)

/-- `get_program_name_and_size` of the program at `start` in a section. A function symbol there names
it, and the next one ends it. -/
def getProgramNameAndSize (secIndex : ℕ) (sec : ElfSection) (start : ℕ) : String × ℕ :=
  F.symbols.foldl (fun (res : String × ℕ) sym =>
    if sym.sectionIndex = secIndex ∧ sym.name ≠ "" then
      if sym.type ≠ sttFunc then res
      else if sym.value = start then (sym.name, res.2)
      else if start < sym.value ∧ sym.value < start + res.2 then (res.1, sym.value - start)
      else res
    else res) (sec.name, sec.size - start)

variable {F}

/-- A program is not empty, and it ends in its section. -/
theorem getProgramNameAndSize_bounds {secIndex start : ℕ} {sec : ElfSection} (h : start < sec.size) :
    0 < (F.getProgramNameAndSize secIndex sec start).2 ∧
      start + (F.getProgramNameAndSize secIndex sec start).2 ≤ sec.size := by
  unfold getProgramNameAndSize
  refine List.foldlRecOn (motive := fun res : String × ℕ => 0 < res.2 ∧ start + res.2 ≤ sec.size) _ _
    ⟨by simp only; omega, by simp only; omega⟩ fun res hres sym _ => ?_
  split_ifs with hsym htype hstart hinside
  · exact hres
  · exact hres
  · exact ⟨by simp only; omega, by simp only; omega⟩
  · exact hres
  · exact hres

end ElfFile

/-! ## Bytes -/

/-- A number of 32 bits in bytes, where missing bytes are zero. -/
def wordAt (bytes : List (BitVec 8)) (offset : ℕ) : ℕ :=
  let byte i := (bytes[offset + i]?.getD 0).toNat
  byte 0 + 2 ^ 8 * byte 1 + 2 ^ 16 * byte 2 + 2 ^ 24 * byte 3

/-- The instructions in a sequence of bytes, on a machine that stores the low byte first. -/
def instsOfBytes : List (BitVec 8) → List EbpfInst
  | b0 :: b1 :: b2 :: b3 :: b4 :: b5 :: b6 :: b7 :: rest =>
    ⟨b0, b1.extractLsb' 0 4, b1.extractLsb' 4 4, b3 ++ b2, b7 ++ b6 ++ b5 ++ b4⟩ :: instsOfBytes rest
  | _ => []

/-- `vector_of<EbpfInst>`. -/
def vectorOf (bytes : List (BitVec 8)) : Except ElfError (List EbpfInst) :=
  if bytes.length % 8 ≠ 0 ∨ 2 ^ 32 ≤ bytes.length then
    .error (.unmarshal "Invalid argument to vector_of")
  else .ok (instsOfBytes bytes)

/-- `vector_of<std::byte>` of a section. -/
def bytesOf (sec : ElfSection) : Except ElfError (List (BitVec 8)) :=
  match sec.data with
  | none => .error (.unmarshal "Invalid argument to vector_of")
  | some bytes =>
    if 2 ^ 32 ≤ bytes.length then .error (.unmarshal "Invalid argument to vector_of") else .ok bytes

/-- `narrow<T>`, which throws. -/
def narrowed {α : Type} (n : Option α) : Except ElfError α :=
  match n with
  | some n => .ok n
  | none => .error .thrown

/-- `narrow<int32_t>`, as the bits of an immediate. -/
def narrowInt32 (n : ℤ) : Except ElfError (BitVec 32) :=
  narrowed (if -2 ^ 31 ≤ n ∧ n < 2 ^ 31 then some (BitVec.ofInt 32 n) else none)

/-! ## Types -/

/-- The kinds of types that are told apart. A member has its offset in bits and its type. -/
inductive BtfKind where
  | typedef (type : ℕ)
  | const (type : ℕ)
  | volatile (type : ℕ)
  | restrict (type : ℕ)
  | struct (members : List (ℕ × ℕ))
  | array (elementType : ℕ)
  | other
  deriving DecidableEq

/-- `btf_type_data`, with the exceptions of its accessors. -/
structure BtfTypeData where
  kind : ℕ → Except ElfError BtfKind
  size : ℕ → Except ElfError ℕ

/-- A map that is defined by types. -/
structure BtfMap where
  name : String
  typeId : ℕ
  mapType : ℕ
  keySize : ℕ
  valueSize : ℕ
  maxEntries : ℕ
  innerMapTypeId : ℕ
  deriving DecidableEq

/-- What the visitor is told of a line. -/
structure BtfLine where
  sectionName : String
  instructionOffset : ℕ
  info : BtfLineInfo
  deriving DecidableEq

/-- The library. -/
structure Libbtf where
  typeData : List (BitVec 8) → Except ElfError BtfTypeData
  mapSection : BtfTypeData → Except ElfError (List BtfMap)
  lineInformation : List (BitVec 8) → List (BitVec 8) → Except ElfError (List BtfLine)

end Prevail
