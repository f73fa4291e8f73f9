import Prevail.Elf.Maps

/-!
# Relocations

The programs of a file are the parts of its executable sections between two function symbols. While a
program is read its relocations are applied: maps and global variables are patched at once, local calls
are queued with the index that the program will have.
-/

namespace Prevail

/-- `RawProgram`, with the parts of `ProgramInfo` that are read here. The name of the file and the
platform are left out. -/
structure RawProgram where
  sectionName : String
  insnOff : ℕ
  functionName : String
  prog : List EbpfInst
  mapDescriptors : List EbpfMapDescriptor
  lineInfo : LineInfo
  deriving DecidableEq

/-- `FunctionRelocation`. -/
structure FunctionRelocation where
  progIndex : ℕ
  sourceOffset : ℕ
  relocationEntryIndex : ℕ
  targetFunctionName : String
  deriving DecidableEq

/-- `bad_reloc_value`. -/
def badRelocValue (val : ℕ) : ElfError :=
  .unmarshal ("Bad reloc value (" ++ toString val ++ "). " ++ "Make sure to compile with -O2.")

/-- `validate_and_get_lddw_pair`. -/
def validateAndGetLddwPair (instructions : List EbpfInst) (location : ℕ) (context : String) :
    Except ElfError (EbpfInst × EbpfInst) :=
  match instructions[location]?, instructions[location + 1]? with
  | some lo, some hi =>
    if lo.opcode ≠ 0x18 then
      .error (.unmarshal ("Invalid relocation: expected LDDW first slot (opcode 0x18) for " ++ context ++
        ", found opcode 0x" ++ toString lo.opcode.toNat))
    else if hi.opcode ≠ 0x00 then
      .error (.unmarshal ("Invalid relocation: expected LDDW second slot (opcode 0x00) for " ++ context ++
        ", found opcode 0x" ++ toString hi.opcode.toNat))
    else .ok (lo, hi)
  | _, _ => .error
    (.unmarshal ("Invalid relocation: " ++ context ++ " reference at instruction boundary"))

/-- The file descriptor at an index of the descriptors. -/
def ElfGlobalData.fdAt (G : ElfGlobalData) (val : ℕ) : Except ElfError ℤ :=
  match G.mapDescriptors[val]? with
  | none => .error (badRelocValue val)
  | some desc => .ok desc.originalFd

/-- `relocate_map`. -/
def relocateMap (F : ElfFile) (G : ElfGlobalData) (name : String) (index : ℕ) : Except ElfError ℤ :=
  match G.mapRecordSizeOrMapOffsets with
  | .inl recordSize =>
    let value := (F.getSymbolDetails index).value
    if value % recordSize ≠ 0 then
      .error (.unmarshal ("Map symbol offset " ++ toString value ++ " is not aligned to record size " ++
        toString recordSize))
    else G.fdAt (value / recordSize)
  | .inr offsets =>
    match offsets.lookup name with
    | none => .error (.unmarshal ("Map descriptor not found: " ++ name))
    | some val => G.fdAt val

/-- `relocate_global_variable`. -/
def relocateGlobalVariable (G : ElfGlobalData) (name : String) : Except ElfError ℤ :=
  match G.mapRecordSizeOrMapOffsets with
  | .inl _ => .error (.unmarshal "Invalid map offsets")
  | .inr offsets =>
    match offsets.lookup name with
    | none => .error (.unmarshal ("Map descriptor not found: " ++ name))
    | some val => G.fdAt val

/-- The name of a section, of which there is one for every index that is noted. -/
def ElfFile.sectionName (F : ElfFile) (index : ℕ) : String :=
  (F.sections[index]?.map ElfSection.name).getD ""

/-- The pair of instructions that loads the address of a global variable. -/
def setMapValue (instructions : List EbpfInst) (location : ℕ) (lo hi : EbpfInst) (fd : ℤ)
    (offset : BitVec 32) : List EbpfInst :=
  (instructions.set location { lo with src := 2, imm := BitVec.ofInt 32 fd }).set (location + 1)
    { hi with imm := offset }

/-- The offset of a named global variable in its section: the addend, or what the instruction has. -/
def variableOffset (addend : ℤ) (lo : EbpfInst) : Except ElfError (BitVec 32) :=
  if addend ≠ 0 then narrowInt32 addend else .ok lo.imm

/-- `try_reloc`: the instructions and the function relocations that are queued, or nothing when the
symbol stays unresolved. -/
def tryReloc (F : ElfFile) (G : ElfGlobalData) (progIndex : ℕ) (symbolName : String)
    (symbolSectionIndex : ℕ) (instructions : List EbpfInst) (location index : ℕ) (addend : ℤ) :
    Except ElfError (Option (List EbpfInst × List FunctionRelocation)) :=
  if symbolName = "" then
    if symbolSectionIndex ∈ G.variableSectionIndices then
      match G.mapRecordSizeOrMapOffsets with
      | .inl _ => .ok none
      | .inr _ => do
        let (lo, hi) ← validateAndGetLddwPair instructions location "global variable"
        let offset ← narrowInt32 (F.getSymbolDetails index).value
        let fd ← relocateGlobalVariable G (F.sectionName symbolSectionIndex)
        return some (setMapValue instructions location lo hi fd offset, [])
    else .ok (some (instructions, []))
  else match instructions[location]? with
  | none => .error .outOfBounds
  | some inst =>
    if inst.opcode = 0x85 ∧ inst.src = 1 then
      .ok (some (instructions, [⟨progIndex, location, index, symbolName⟩]))
    else if inst.cls ≠ 0x00 then .ok none
    else if symbolSectionIndex ∈ G.mapSectionIndices then do
      let fd ← relocateMap F G symbolName index
      return some (instructions.set location { inst with src := 1, imm := BitVec.ofInt 32 fd }, [])
    else if symbolSectionIndex ∈ G.variableSectionIndices then do
      let (lo, hi) ← validateAndGetLddwPair instructions location
        ("global variable '" ++ symbolName ++ "'")
      let offset ← variableOffset addend lo
      let fd ← relocateGlobalVariable G (F.sectionName symbolSectionIndex)
      return some (setMapValue instructions location lo hi fd offset, [])
    else if hasPrefix "__config_" symbolName then
      .ok (some (instructions.set location { inst with imm := 0 }, []))
    else .ok none

/-- A program while its relocations are applied, and what is noted meanwhile. -/
structure Relocated where
  instructions : List EbpfInst
  functionRelocations : List FunctionRelocation
  unresolvedSymbolErrors : List String
  deriving DecidableEq

/-- One turn of the loop of `process_relocations`. -/
def processRelocation (F : ElfFile) (G : ElfGlobalData) (progIndex : ℕ) (sectionName : String)
    (programOffset programSize : ℕ) (st : Relocated) (e : RelocEntry) : Except ElfError Relocated := do
  if e.offset < programOffset ∨ programOffset + programSize ≤ e.offset then return st
  else
    let o := e.offset - programOffset
    if o % 8 ≠ 0 then .error (.unmarshal "Unaligned relocation offset")
    else
      let loc := o / 8
      if st.instructions.length ≤ loc then .error (.unmarshal "Invalid relocation")
      else
        let sym := F.getSymbolDetails e.symbol
        match ← tryReloc F G progIndex sym.name sym.sectionIndex st.instructions loc e.symbol e.addend with
        | some (instructions, queued) =>
          return { st with
            instructions := instructions
            functionRelocations := st.functionRelocations ++ queued }
        | none =>
          return { st with unresolvedSymbolErrors := st.unresolvedSymbolErrors ++
            ["Unresolved external symbol " ++ sym.name ++ " in section " ++ sectionName ++
              " at location " ++ toString loc] }

/-- `get_relocation_section`. -/
def getRelocationSection (F : ElfFile) (name : String) : Option ElfSection :=
  if name = ".BTF" then none
  else match (F.findSection (".rel" ++ name)).or (F.findSection (".rela" ++ name)) with
    | none => none
    | some relocs => if relocs.data.isSome then some relocs else none

/-! ## Programs -/

/-- The sections that hold programs, with their places. -/
def execSections (F : ElfFile) : List (ElfSection × ℕ) :=
  F.sections.zipIdx.filter fun s => s.1.isExec && s.1.size ≠ 0 && s.1.data.isSome

/-- Where the programs of a section begin, from `offset` on. -/
def programOffsets (F : ElfFile) (s : ElfSection × ℕ) : ℕ → ℕ → List ℕ
  | 0, _ => []
  | fuel + 1, offset =>
    if offset < s.1.size then
      offset :: programOffsets F s fuel (offset + (F.getProgramNameAndSize s.2 s.1 offset).2)
    else []

/-- The programs of a file, each by its section and its offset there. -/
def programPlaces (F : ElfFile) : List ((ElfSection × ℕ) × ℕ) :=
  (execSections F).flatMap fun s => (programOffsets F s s.1.size 0).map fun offset => (s, offset)

/-- What `read_programs` collects. -/
structure ProgramReader where
  rawPrograms : List RawProgram
  functionRelocations : List FunctionRelocation
  unresolvedSymbolErrors : List String
  deriving DecidableEq

/-- One turn of the two loops of `read_programs`. -/
def readProgram (F : ElfFile) (G : ElfGlobalData) (st : ProgramReader)
    (place : (ElfSection × ℕ) × ℕ) : Except ElfError ProgramReader := do
  let sec := place.1.1
  let (name, size) := F.getProgramNameAndSize place.1.2 sec place.2
  let instructions ← vectorOf (((sec.data.getD []).drop place.2).take size)
  let entries := ((getRelocationSection F sec.name).map ElfSection.entries).getD []
  let res ← entries.foldlM (processRelocation F G st.rawPrograms.length sec.name place.2 size)
    ⟨instructions, st.functionRelocations, st.unresolvedSymbolErrors⟩
  if 2 ^ 32 ≤ place.2 then .error .thrown
  else return ⟨st.rawPrograms ++ [⟨sec.name, place.2, name, res.instructions, G.mapDescriptors, ∅⟩],
    res.functionRelocations, res.unresolvedSymbolErrors⟩

/-- The loops of `read_programs` over the sections and over the programs of each. -/
def readSections (F : ElfFile) (G : ElfGlobalData) : Except ElfError ProgramReader :=
  (programPlaces F).foldlM (readProgram F G) ⟨[], [], []⟩

end Prevail
