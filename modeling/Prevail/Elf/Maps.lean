import Prevail.Elf.File
import Prevail.Ir.ProgramInfo

/-!
# Maps and global variables

The loader describes the maps of a file and its sections of global variables, each with a file
descriptor of its own. With mocked descriptors the maps of a legacy section are numbered by a cache that
a thread keeps from one file to the next; sections of variables are numbered by their place among the
descriptors, and maps that are defined by types by the order of their types.
-/

namespace Prevail

/-- `EbpfMapDescriptor`. -/
structure EbpfMapDescriptor where
  originalFd : ℤ
  type : ℕ
  keySize : ℕ
  valueSize : ℕ
  maxEntries : ℕ
  innerMapFd : ℤ
  deriving DecidableEq

/-- `EquivalenceKey`. -/
structure EquivalenceKey where
  valueType : MapValueType
  keySize : ℕ
  valueSize : ℕ
  maxEntries : ℕ
  deriving DecidableEq

/-- The `cache` of the program information of a thread, from the newest entry on. -/
abbrev MapCache := List (EquivalenceKey × ℤ)

/-- Reading a file, which may throw. What it put in the cache stays there. -/
abbrev ReadM := ExceptT ElfError (StateM MapCache)

namespace ReadM

variable {α β : Type}

/-- What is read with a cache, and the cache afterwards. -/
def read (x : ReadM α) (cache : MapCache) : Except ElfError α × MapCache := StateT.run (ExceptT.run x) cache

/-- A step that does not use the cache. -/
def ofExcept (x : Except ElfError α) : ReadM α := fun cache => (x, cache)

variable {x : ReadM α} {f : α → ReadM β} {cache cache' : MapCache} {r : β}

theorem read_bind_eq_ok : (x >>= f).read cache = (.ok r, cache') ↔
    ∃ a cache₁, x.read cache = (.ok a, cache₁) ∧ (f a).read cache₁ = (.ok r, cache') := by
  obtain ⟨⟨res, cache₁⟩, hx⟩ : ∃ res, x.read cache = res := ⟨_, rfl⟩
  unfold read at hx ⊢
  rw [ExceptT.run_bind, StateT.run_bind, hx]
  cases res with
  | error e => exact iff_of_false (fun h => nomatch h) fun ⟨a, c, h, _⟩ => nomatch h
  | ok a =>
    constructor
    · intro h
      exact ⟨a, cache₁, rfl, h⟩
    · rintro ⟨_, _, ⟨rfl, rfl⟩, h⟩
      exact h

theorem read_ofExcept_eq_ok {y : Except ElfError β} :
    (ofExcept y).read cache = (.ok r, cache') ↔ y = .ok r ∧ cache = cache' := Prod.ext_iff

end ReadM

/-- `MapOffsets`, from the newest entry on. -/
abbrev MapOffsets := List (String × ℕ)

/-- `ElfGlobalData`. -/
structure ElfGlobalData where
  mapSectionIndices : List ℕ
  mapDescriptors : List EbpfMapDescriptor
  mapRecordSizeOrMapOffsets : ℕ ⊕ MapOffsets
  variableSectionIndices : List ℕ
  deriving DecidableEq

/-- The start of a name. -/
def hasPrefix (pre name : String) : Bool := pre.toList.isPrefixOf name.toList

/-- `is_map_section`. -/
def isMapSection (name : String) : Bool :=
  name = "maps" || (5 < name.length && hasPrefix "maps/" name)

/-- `is_global_section`. -/
def isGlobalSection (name : String) : Bool :=
  name = ".data" || name = ".rodata" || name = ".bss" || hasPrefix ".data." name ||
    hasPrefix ".rodata." name || hasPrefix ".bss." name

/-- `SHT_PROGBITS`. -/
def shtProgbits : ℕ := 1

/-- `SHT_NOBITS`. -/
def shtNobits : ℕ := 8

/-- `global_sections`, with their places. -/
def globalSections (F : ElfFile) : List (ElfSection × ℕ) :=
  F.sections.zipIdx.filter fun s => isGlobalSection s.1.name &&
    (s.1.type = shtNobits || (s.1.type = shtProgbits && s.1.size ≠ 0))

/-- `DEFAULT_MAP_FD`. -/
def defaultMapFd : ℤ := -1

/-- The implicit map of a section of global variables, described after the maps of `ds`. -/
def globalVariableMap (ds : List EbpfMapDescriptor) (sec : ElfSection) :
    Except ElfError EbpfMapDescriptor := do
  if 2 ^ 31 ≤ ds.length + 1 ∨ 2 ^ 32 ≤ sec.size then .error .thrown
  else return ⟨ds.length + 1, 0, 4, sec.size, 1, defaultMapFd⟩

/-- `add_global_variable_maps`. -/
def addGlobalVariableMaps (F : ElfFile) (G : ElfGlobalData) (offsets : MapOffsets) :
    Except ElfError (ElfGlobalData × MapOffsets) :=
  (globalSections F).foldlM (fun (res : ElfGlobalData × MapOffsets) s => do
    let desc ← globalVariableMap res.1.mapDescriptors s.1
    return ({ res.1 with
      mapDescriptors := res.1.mapDescriptors ++ [desc]
      variableSectionIndices := s.2 :: res.1.variableSectionIndices },
      (s.1.name, res.1.mapDescriptors.length) :: res.2)) (G, offsets)

/-- The data with the offsets, when the sections of global variables are added. -/
def withGlobalVariables (F : ElfFile) (G : ElfGlobalData) (offsets : MapOffsets) :
    Except ElfError ElfGlobalData := do
  let (G, offsets) ← addGlobalVariableMaps F G offsets
  return { G with mapRecordSizeOrMapOffsets := .inr offsets }

/-- `create_global_variable_maps`. -/
def createGlobalVariableMaps (F : ElfFile) : Except ElfError ElfGlobalData :=
  withGlobalVariables F ⟨[], [], .inl 0, []⟩ []

/-! ## Maps that are defined by types -/

/-- `map_typeid_to_fd`: the types in the order in which they come first. -/
def mapTypeidToFd (ds : List EbpfMapDescriptor) : List (ℤ × ℤ) :=
  ds.foldl (fun res d =>
    if (res.lookup d.originalFd).isSome then res else res ++ [(d.originalFd, (res.length : ℤ) + 1)]) []

/-- The descriptor of a map, with the type in place of the file descriptor. -/
def btfDescriptor (map : BtfMap) : Except ElfError EbpfMapDescriptor := do
  let id ← narrowed (if map.typeId < 2 ^ 31 then some (map.typeId : ℤ) else none)
  if map.innerMapTypeId = 0 then
    return ⟨id, map.mapType, map.keySize, map.valueSize, map.maxEntries, defaultMapFd⟩
  else do
    let inner ← narrowed
      (if map.innerMapTypeId < 2 ^ 31 then some (map.innerMapTypeId : ℤ) else none)
    return ⟨id, map.mapType, map.keySize, map.valueSize, map.maxEntries, inner⟩

/-- The file descriptors in place of the types. -/
def remapDescriptor (fds : List (ℤ × ℤ)) (d : EbpfMapDescriptor) : Except ElfError EbpfMapDescriptor := do
  match fds.lookup d.originalFd with
  | none => .error (.unmarshal ("Unknown map type ID in BTF: " ++ toString d.originalFd))
  | some fd =>
    if d.innerMapFd = defaultMapFd then return { d with originalFd := fd }
    else match fds.lookup d.innerMapFd with
      | none => .error (.unmarshal ("Unknown inner map type ID in BTF: " ++ toString d.innerMapFd))
      | some inner => return { d with originalFd := fd, innerMapFd := inner }

/-- `parse_btf_section` of a file with types. A name that is there twice keeps its first map. -/
def parseBtfSection (L : Libbtf) (F : ElfFile) (btfSection : ElfSection) :
    Except ElfError ElfGlobalData := do
  let maps ← L.mapSection (← L.typeData (← bytesOf btfSection))
  let ds ← maps.mapM btfDescriptor
  let offsets := maps.zipIdx.foldl (fun (res : MapOffsets) m =>
    if (res.lookup m.1.name).isSome then res else (m.1.name, m.2) :: res) []
  let ds ← ds.mapM (remapDescriptor (mapTypeidToFd ds))
  let sections := (F.sections.zipIdx.find? (·.1.name = ".maps")).map Prod.snd
  withGlobalVariables F ⟨sections.toList, ds, .inl 0, []⟩ offsets

/-! ## Legacy maps -/

/-- `linux_map_types`: the types that are arrays or have values of a class of their own. -/
def getMapTypeLinux (type : ℕ) : MapType :=
  match type with
  | 2 | 4 | 6 | 8 => ⟨true, .any⟩
  | 3 => ⟨true, .program⟩
  | 12 => ⟨true, .map⟩
  | 13 => ⟨false, .map⟩
  | _ => ⟨false, .any⟩

/-- `EquivalenceKey` of a map. -/
def equivalenceKey (type : MapType) (keySize valueSize maxEntries : ℕ) : EquivalenceKey :=
  ⟨type.valueType, keySize, valueSize, if type.isArray then maxEntries else 0⟩

/-- `create_map_crab`: maps with one key share a file descriptor. The first is one, since zero is no
map, and every number fits into an `int`. -/
def createMapCrab (type : MapType) (keySize valueSize maxEntries : ℕ) : ReadM ℤ := fun cache =>
  let equiv := equivalenceKey type keySize valueSize maxEntries
  match cache.lookup equiv with
  | some fd => (.ok fd, cache)
  | none =>
    if 2 ^ 31 ≤ cache.length + 1 then (.error .thrown, cache)
    else (.ok ((cache.length : ℤ) + 1), (equiv, (cache.length : ℤ) + 1) :: cache)

/-- `BpfLoadMapDef`, with the fields that are looked at. -/
structure BpfLoadMapDef where
  type : ℕ
  keySize : ℕ
  valueSize : ℕ
  maxEntries : ℕ
  innerMapIdx : ℕ
  deriving DecidableEq

/-- The definition at `start`, of which at most 28 bytes are copied. -/
def mapDefAt (data : List (BitVec 8)) (recordSize start : ℕ) : BpfLoadMapDef :=
  let record := (data.drop start).take (min recordSize 28)
  ⟨wordAt record 0, wordAt record 4, wordAt record 8, wordAt record 12, wordAt record 20⟩

/-- The descriptor of a map, with the index of the inner map in place of its file descriptor. -/
def legacyDescriptor (s : BpfLoadMapDef) : ReadM EbpfMapDescriptor := do
  let fd ← createMapCrab (getMapTypeLinux s.type) s.keySize s.valueSize s.maxEntries
  if 2 ^ 31 ≤ s.innerMapIdx then throw .thrown
  else return ⟨fd, s.type, s.keySize, s.valueSize, s.maxEntries, s.innerMapIdx⟩

/-- `parse_maps_section_linux`, with mocked descriptors. -/
def parseMapsSection (ds : List EbpfMapDescriptor) (data : List (BitVec 8)) (mapDefSize mapCount : ℕ) :
    ReadM (List EbpfMapDescriptor) := do
  let defs := (List.range mapCount).map fun i => mapDefAt data mapDefSize (i * mapDefSize)
  return ds ++ (← defs.mapM legacyDescriptor)

/-- `resolve_inner_map_references_linux`. -/
def resolveInnerMapReferences (ds : List EbpfMapDescriptor) : Except ElfError (List EbpfMapDescriptor) :=
  ds.zipIdx.mapM fun (d, i) =>
    if d.innerMapFd < 0 then
      .error (.unmarshal ("bad inner map index " ++ toString d.innerMapFd ++ " for map " ++ toString i))
    else match ds[d.innerMapFd.toNat]? with
      | none => .error
        (.unmarshal ("bad inner map index " ++ toString d.innerMapFd ++ " for map " ++ toString i))
      | some inner => .ok { d with innerMapFd := inner.originalFd }

/-- What is noted for a section of maps: the size of its records and the index of its first map. -/
structure MapSection where
  index : ℕ
  recordSize : ℕ
  baseIndex : ℕ
  deriving DecidableEq

/-- The symbols that stand for maps of a section. -/
def mapCount (F : ElfFile) (index : ℕ) : ℕ :=
  F.symbols.countP fun sym => sym.sectionIndex = index && sym.name ≠ ""

/-- One section of maps. -/
def parseMapSection (F : ElfFile) (res : List EbpfMapDescriptor × List MapSection)
    (s : ElfSection × ℕ) : ReadM (List EbpfMapDescriptor × List MapSection) := do
  let count := mapCount F s.2
  if count = 0 then return res
  else do
    let recordSize := s.1.size / count
    match s.1.data with
    | none => throw (.unmarshal ("Malformed legacy maps section: " ++ s.1.name))
    | some data =>
      if recordSize = 0 ∨ s.1.size % recordSize ≠ 0 then
        throw (.unmarshal ("Malformed legacy maps section: " ++ s.1.name))
      else do
        let ds ← parseMapsSection res.1 data recordSize count
        return (ds, ⟨s.2, recordSize, res.1.length⟩ :: res.2)

/-- The sections of maps, with their places. -/
def mapSections (F : ElfFile) : List (ElfSection × ℕ) :=
  F.sections.zipIdx.filter fun s => isMapSection s.1.name

/-- The name of one map. The symbols of sections that are not parsed are skipped. -/
def mapOffset (F : ElfFile) (ds : List EbpfMapDescriptor) (sections : List MapSection)
    (offsets : MapOffsets) (sym : ElfSymbol) : Except ElfError MapOffsets :=
  if sym.name = "" then .ok offsets
  else match sections.find? (·.index = sym.sectionIndex), F.sections[sym.sectionIndex]? with
    | some s, some sec =>
      if sym.value % s.recordSize ≠ 0 ∨ sec.size ≤ sym.value then
        .error (.unmarshal ("Legacy map symbol '" ++ sym.name ++
          "' has invalid offset: not aligned to " ++ toString s.recordSize ++
          "-byte boundary or out of section bounds"))
      else
        let index := s.baseIndex + sym.value / s.recordSize
        if ds.length ≤ index then
          .error (.unmarshal ("Legacy map symbol index out of range for: " ++ sym.name))
        else .ok ((sym.name, index) :: offsets)
    | _, _ => .ok offsets

/-- `parse_map_sections`. -/
def parseMapSections (F : ElfFile) : ReadM ElfGlobalData := do
  let (ds, sections) ← (mapSections F).foldlM (parseMapSection F) ([], [])
  let ds ← .ofExcept (resolveInnerMapReferences ds)
  let offsets ← .ofExcept (F.symbols.foldlM (mapOffset F ds sections) [])
  .ofExcept (withGlobalVariables F ⟨(mapSections F).map Prod.snd, ds, .inl 0, []⟩ offsets)

/-- `extract_global_data`. -/
def extractGlobalData (L : Libbtf) (F : ElfFile) : ReadM ElfGlobalData :=
  if F.sections.any (isMapSection ·.name) then parseMapSections F
  else match F.findSection ".BTF" with
    | some btfSection => .ofExcept (parseBtfSection L F btfSection)
    | none => .ofExcept (createGlobalVariableMaps F)

/-- `find_map_descriptor`. -/
def findMapDescriptor (ds : List EbpfMapDescriptor) (mapFd : ℤ) : Option EbpfMapDescriptor :=
  ds.find? (·.originalFd = mapFd)

end Prevail
