import Prevail.Elf.MapGlobals
import Prevail.Elf.Subprograms

/-!
# Map descriptors

The descriptor of a relocated map is that of the map when nothing that the numbers leave out tells two
maps apart (`identified_of_readElf`). Legacy maps are numbered by their keys, in which the inner map is
missing, from a cache that may hold the keys of earlier files; sections of global variables by their
places behind the maps; maps that are defined by types by their types.
-/

namespace Prevail

open Numbering

variable {F : ElfFile} {G : ElfGlobalData} {cache cache' : MapCache}

/-! ## Legacy maps -/

/-- The attributes of a legacy map, from the record at its symbol. -/
def LegacyOwn (F : ElfFile) (G : ElfGlobalData) (sym : ElfSymbol) (a : MapAttributes) : Prop :=
  ∃ sec bytes inner, F.sections[sym.sectionIndex]? = some sec ∧ sec.data = some bytes ∧
    G.mapDescriptors[(mapDefAt bytes sym.size sym.value).innerMapIdx]? = some inner ∧
    a = mapAttributes (mapDefAt bytes sym.size sym.value).type (mapDefAt bytes sym.size sym.value).keySize
      (mapDefAt bytes sym.size sym.value).valueSize (mapDefAt bytes sym.size sym.value).maxEntries
      inner.originalFd

/-- Nothing confuses the legacy maps of a file: symbols of one name are at one place; each section has
one record of the size of its symbols for every name; maps of maps with one key have inner maps with one
key; and no key has the number of a section of global variables. -/
structure LegacyApart (F : ElfFile) (cache : MapCache) : Prop where
  names : ∀ sym sym', IsMapSymbol F sym → IsMapSymbol F sym' → sym.name = sym'.name →
    sym.sectionIndex = sym'.sectionIndex ∧ sym.value = sym'.value
  sizes : ∀ sym, IsMapSymbol F sym → ∀ sec, F.sections[sym.sectionIndex]? = some sec →
    sec.size = sym.size * mapCount F sym.sectionIndex
  inner : ∀ s ∈ mapRecords F, ∀ s' ∈ mapRecords F, s.key = s'.key → s.key.valueType = .map →
    (mapRecords F)[s.innerMapIdx]?.map BpfLoadMapDef.key =
      (mapRecords F)[s'.innerMapIdx]?.map BpfLoadMapDef.key
  numbers : ∀ s ∈ mapRecords F, ∀ g < (globalSections F).length,
    number (askAll (cacheKeys cache) ((mapRecords F).map BpfLoadMapDef.key)) s.key ≠
      ((mapRecords F).length + g : ℕ) + 1

/-- The descriptor of a map when its inner map is known. -/
def BpfLoadMapDef.resolved (keys : List EquivalenceKey) (s inner : BpfLoadMapDef) : EbpfMapDescriptor :=
  ⟨number keys s.key, s.type, s.keySize, s.valueSize, s.maxEntries, number keys inner.key⟩

/-- The index of an inner map is that of a record. -/
theorem resolveInnerMapReferences_spec {keys : List EquivalenceKey} {records : List BpfLoadMapDef}
    {ds : List EbpfMapDescriptor}
    (h : resolveInnerMapReferences (records.map (BpfLoadMapDef.descriptor keys)) = .ok ds) :
    ds.length = records.length ∧ ∀ (i : ℕ) (s : BpfLoadMapDef), records[i]? = some s →
      ∃ inner, records[s.innerMapIdx]? = some inner ∧ ds[i]? = some (s.resolved keys inner) := by
  have hforall := Except.forall₂_of_mapM h
  refine ⟨?_, fun i s hs => ?_⟩
  · rw [← hforall.length_eq, List.length_zipIdx, List.length_map]
  · obtain ⟨hi, rfl⟩ := List.getElem?_eq_some_iff.mp hs
    have hlength : i < ds.length := by
      rw [← hforall.length_eq, List.length_zipIdx, List.length_map]
      exact hi
    have hstep := (List.forall₂_iff_get.mp hforall).2 i (by simpa using hi) hlength
    simp only [List.get_eq_getElem, List.getElem_zipIdx, List.getElem_map] at hstep
    obtain ⟨-, hstep⟩ := Except.guard_eq_ok.mp hstep
    split at hstep
    · cases hstep
    · next inner hinner =>
      have hindex : (BpfLoadMapDef.descriptor keys records[i]).innerMapFd.toNat = records[i].innerMapIdx :=
        Int.toNat_natCast _
      rw [hindex, List.getElem?_map, Option.map_eq_some_iff] at hinner
      obtain ⟨t, ht, rfl⟩ := hinner
      refine ⟨t, ht, ?_⟩
      rw [List.getElem?_eq_getElem hlength, ← Except.ok.inj hstep]
      rfl

/-- What the key of a map says of its attributes. -/
theorem mapAttributes_eq_of_key {s s' : BpfLoadMapDef} {fd fd' : ℤ} (h : s.key = s'.key)
    (hfd : s.key.valueType = .map → fd = fd') :
    mapAttributes s.type s.keySize s.valueSize s.maxEntries fd =
      mapAttributes s'.type s'.keySize s'.valueSize s'.maxEntries fd' := by
  obtain ⟨hvalueType, hkeySize, hvalueSize, hmaxEntries⟩ := EquivalenceKey.mk.inj h
  have hinner : (if (getMapTypeLinux s.type).valueType = .map then some fd else none) =
      if (getMapTypeLinux s'.type).valueType = .map then some fd' else none := by
    rw [← hvalueType]
    by_cases hmap : (getMapTypeLinux s.type).valueType = .map
    · rw [if_pos hmap, if_pos hmap, hfd hmap]
    · rw [if_neg hmap, if_neg hmap]
  rw [mapAttributes, mapAttributes, hvalueType, hkeySize, hvalueSize, hmaxEntries, ← hinner, hvalueType]

/-- Maps with one number have one key. -/
theorem key_eq_of_number {keys : List EquivalenceKey} {records : List BpfLoadMapDef} {s s' : BpfLoadMapDef}
    (hs : s ∈ records) (h : number (askAll keys (records.map BpfLoadMapDef.key)) s.key =
      number (askAll keys (records.map BpfLoadMapDef.key)) s'.key) : s.key = s'.key :=
  number_injective (mem_askAll.mpr (Or.inr (List.mem_map_of_mem hs))) h

theorem identified_of_parseMapSections (hlegacy : F.sections.any (isMapSection ·.name) = true)
    (hcache : Numbered cache) (hF : GlobalsApart F) (hmaps : LegacyApart F cache)
    (hread : (parseMapSections F).read cache = (.ok G, cache')) : Identified (LegacyOwn F G) F G := by
  obtain ⟨⟨ds₀, sections⟩, cache₁, hparse, hread⟩ := ReadM.read_bind_eq_ok.mp hread
  obtain ⟨ds, cache₂, hresolve, hread⟩ := ReadM.read_bind_eq_ok.mp hread
  obtain ⟨hresolved, rfl⟩ := ReadM.read_ofExcept_eq_ok.mp hresolve
  obtain ⟨offsets, cache₃, hoffsets, hread⟩ := ReadM.read_bind_eq_ok.mp hread
  obtain ⟨hnames, rfl⟩ := ReadM.read_ofExcept_eq_ok.mp hoffsets
  obtain ⟨hG, rfl⟩ := ReadM.read_ofExcept_eq_ok.mp hread
  have hparsed := ReadM.foldlM_induction
    (fun done res cache' => Parsed F (cacheKeys cache) done res cache') hparse
    ⟨hcache, rfl, rfl, fun _ h => absurd h List.not_mem_nil, fun _ h => absurd h List.not_mem_nil⟩
    fun _ _ _ _ _ _ _ h hstep => parseMapSection_spec h hstep
  have hkeys : cacheKeys cache₁ =
      askAll (cacheKeys cache) ((mapRecords F).map BpfLoadMapDef.key) := hparsed.keys
  rw [show ds₀ = (mapRecords F).map _ from hparsed.descriptors] at hresolved
  obtain ⟨hlength, hds⟩ := resolveInnerMapReferences_spec hresolved
  have hindices : mapIndices F = (mapSections F).map Prod.snd := if_pos hlegacy
  rw [← hindices] at hG
  have hrecord : ∀ desc ∈ ds, ∃ s ∈ mapRecords F, ∃ inner, (mapRecords F)[s.innerMapIdx]? = some inner ∧
      desc = s.resolved (cacheKeys cache₁) inner := fun desc hdesc => by
    obtain ⟨i, hi⟩ := List.mem_iff_getElem?.mp hdesc
    have hlt : i < (mapRecords F).length := hlength ▸ (List.getElem?_eq_some_iff.mp hi).1
    obtain ⟨inner, hinner, hdesc'⟩ := hds i _ (List.getElem?_eq_getElem hlt)
    exact ⟨_, List.getElem_mem hlt, inner, hinner, Option.some.inj (hi.symm.trans hdesc')⟩
  refine identified_of_withGlobalVariables hG hF ?_ ?_ ?_
  · intro desc hdesc desc' hdesc' hfd
    obtain ⟨s, hs, inner, hinner, rfl⟩ := hrecord desc hdesc
    obtain ⟨s', hs', inner', hinner', rfl⟩ := hrecord desc' hdesc'
    have hfd : number (cacheKeys cache₁) s.key = number (cacheKeys cache₁) s'.key := hfd
    rw [hkeys] at hfd
    have hkey := key_eq_of_number hs hfd
    refine mapAttributes_eq_of_key hkey fun hmap => ?_
    have hinners := hmaps.inner s hs s' hs' hkey hmap
    rw [hinner, hinner'] at hinners
    show number _ inner.key = number _ inner'.key
    rw [Option.some.inj hinners]
  · intro desc hdesc g hg
    obtain ⟨s, hs, inner, -, rfl⟩ := hrecord desc hdesc
    show number (cacheKeys cache₁) s.key ≠ _
    rw [hkeys, hlength]
    exact hmaps.numbers s hs g hg
  · intro sym hsym val hval
    obtain ⟨sym', hsym', hname, hnamed, hrecord'⟩ := atRecord_of_mapOffset hnames hval
    have hmap' : IsMapSymbol F sym' := by
      obtain ⟨e, he, hindex, -⟩ := hrecord'.noted
      obtain ⟨pre, s, post, hsections, -, rfl⟩ := hparsed.noted.sound e he
      refine ⟨hsym', hnamed, ?_⟩
      rw [hindices, ← hindex, hsections]
      exact List.mem_map_of_mem (List.mem_append_right _ List.mem_cons_self)
    obtain ⟨hsection, hvalue⟩ := hmaps.names sym' sym hmap' hsym hname
    have hatRecord : AtRecord F sections sym val :=
      ⟨hvalue ▸ hsection ▸ hrecord'.noted, hvalue ▸ hsection ▸ hrecord'.inside⟩
    obtain ⟨sec, bytes, hsec, -, hbytes, hget⟩ := hatRecord.record hparsed.noted (hmaps.sizes sym hsym)
    obtain ⟨inner, hinner, hdesc⟩ := hds val _ hget
    obtain ⟨_, _, hinner'⟩ := hds _ inner hinner
    exact ⟨_, hdesc, sec, bytes, _, hsec, hbytes, getElem?_of_withGlobalVariables hG hinner', rfl⟩

/-! ## Maps that are defined by types -/

/-- The library takes what it says of a map from its type. -/
def Libbtf.Lawful (L : Libbtf) : Prop := ∀ B maps, L.mapSection B = .ok maps → ∀ m ∈ maps, ∀ m' ∈ maps,
  m.typeId = m'.typeId → { m with name := m'.name } = m'

/-- The maps that the types of a file define. -/
def BtfMaps (L : Libbtf) (F : ElfFile) (maps : List BtfMap) : Prop :=
  ∃ sec bytes B, F.findSection ".BTF" = some sec ∧ bytesOf sec = .ok bytes ∧ L.typeData bytes = .ok B ∧
    L.mapSection B = .ok maps

/-- The file descriptor of the inner map of `m`. -/
def IsInner (G : ElfGlobalData) (maps : List BtfMap) (m : BtfMap) (fd : ℤ) : Prop :=
  m.innerMapTypeId = 0 ∧ fd = defaultMapFd ∨
    ∃ (i : ℕ) (inner : BtfMap) (desc : EbpfMapDescriptor), maps[i]? = some inner ∧
      inner.typeId = m.innerMapTypeId ∧ G.mapDescriptors[i]? = some desc ∧ desc.originalFd = fd

/-- The attributes of a map that is defined by types. -/
def BtfOwn (L : Libbtf) (F : ElfFile) (G : ElfGlobalData) (sym : ElfSymbol) (a : MapAttributes) : Prop :=
  ∃ maps, BtfMaps L F maps ∧ (∃ m ∈ maps, m.name = sym.name) ∧ ∀ m ∈ maps, m.name = sym.name →
    ∃ inner, IsInner G maps m inner ∧
      a = mapAttributes m.mapType m.keySize m.valueSize m.maxEntries inner

/-- Maps of one name are of one type. -/
def BtfApart (L : Libbtf) (F : ElfFile) : Prop :=
  ∀ maps, BtfMaps L F maps → ∀ m ∈ maps, ∀ m' ∈ maps, m.name = m'.name → m.typeId = m'.typeId

theorem narrowed_eq_ok {α : Type} {n : Option α} {r : α} : narrowed n = .ok r ↔ n = some r := by
  cases n <;> simp [narrowed]

/-- The type in place of the file descriptor. -/
theorem btfDescriptor_spec {m : BtfMap} {desc : EbpfMapDescriptor} (h : btfDescriptor m = .ok desc) :
    desc = ⟨m.typeId, m.mapType, m.keySize, m.valueSize, m.maxEntries,
      if m.innerMapTypeId = 0 then defaultMapFd else m.innerMapTypeId⟩ := by
  obtain ⟨id, hid, h⟩ := Except.bind_eq_ok.mp h
  obtain ⟨-, hid⟩ := Option.ite_none_right_eq_some.mp (narrowed_eq_ok.mp hid)
  obtain rfl := Option.some.inj hid
  by_cases hinner : m.innerMapTypeId = 0
  · rw [if_pos hinner] at h ⊢
    cases h
    rfl
  · rw [if_neg hinner] at h ⊢
    obtain ⟨inner, hinner, h⟩ := Except.bind_eq_ok.mp h
    obtain ⟨-, hinner⟩ := Option.ite_none_right_eq_some.mp (narrowed_eq_ok.mp hinner)
    obtain rfl := Option.some.inj hinner
    cases h
    rfl

/-- The types are numbered in the order in which they come first. -/
theorem records_mapTypeidToFd (ds : List EbpfMapDescriptor) :
    Records (mapTypeidToFd ds) (askAll [] (ds.map EbpfMapDescriptor.originalFd)) := by
  suffices key : ∀ (fds : List (ℤ × ℤ)) (keys : List ℤ), Records fds keys →
      Records (ds.foldl (fun res d => if (res.lookup d.originalFd).isSome then res
        else res ++ [(d.originalFd, (res.length : ℤ) + 1)]) fds)
        (askAll keys (ds.map EbpfMapDescriptor.originalFd)) from key [] [] records_nil
  induction ds with
  | nil => exact fun _ _ h => h
  | cons d ds ih =>
    intro fds keys h
    refine ih _ (ask keys d.originalFd) ?_
    dsimp only
    rw [h.lookup]
    by_cases hmem : d.originalFd ∈ keys
    · rw [if_pos hmem, Option.isSome_some, if_pos rfl, ask_of_mem hmem]
      exact h
    · rw [if_neg hmem, Option.isSome_none, if_neg Bool.false_ne_true]
      exact h.append hmem

/-- The numbers in place of the types. -/
theorem remapDescriptor_spec {fds : List (ℤ × ℤ)} {keys : List ℤ} (hfds : Records fds keys)
    {desc desc' : EbpfMapDescriptor} (h : remapDescriptor fds desc = .ok desc') :
    desc.originalFd ∈ keys ∧ ∃ inner, desc' = { desc with
        originalFd := number keys desc.originalFd
        innerMapFd := inner } ∧
      (desc.innerMapFd = defaultMapFd ∧ inner = defaultMapFd ∨ desc.innerMapFd ≠ defaultMapFd ∧
        desc.innerMapFd ∈ keys ∧ inner = number keys desc.innerMapFd) := by
  unfold remapDescriptor at h
  split at h
  · cases h
  · next fd hfd =>
    obtain ⟨hmem, rfl⟩ := hfds.lookup_eq_some hfd
    by_cases hinner : desc.innerMapFd = defaultMapFd
    · rw [if_pos hinner] at h
      cases h
      exact ⟨hmem, desc.innerMapFd, rfl, Or.inl ⟨hinner, hinner⟩⟩
    · rw [if_neg hinner] at h
      split at h
      · cases h
      · next inner hfd' =>
        obtain ⟨hmem', rfl⟩ := hfds.lookup_eq_some hfd'
        cases h
        exact ⟨hmem, _, rfl, Or.inr ⟨hinner, hmem', rfl⟩⟩

/-- A name that is noted is that of the map at the index. -/
theorem btfOffsets_sound {maps : List BtfMap} {name : String} {val : ℕ}
    (h : (maps.zipIdx.foldl (fun (res : MapOffsets) m =>
      if (res.lookup m.1.name).isSome then res else (m.1.name, m.2) :: res) []).lookup name = some val) :
    ∃ m, maps[val]? = some m ∧ m.name = name := by
  revert name val
  refine List.foldlRecOn (motive := fun (offsets : MapOffsets) => ∀ {name : String} {val : ℕ},
    offsets.lookup name = some val → ∃ m, maps[val]? = some m ∧ m.name = name) _ _
    (fun h => by cases h) fun offsets ih m hm name val hval => ?_
  split_ifs at hval
  · exact ih hval
  · rw [List.lookup_cons] at hval
    split at hval
    · next hbeq =>
      obtain rfl := Option.some.inj hval
      exact ⟨m.1, List.mem_zipIdx_iff_getElem?.mp hm, (beq_iff_eq.mp hbeq).symm⟩
    · exact ih hval

/-- The types of maps, in the order in which they are numbered. -/
def typeIds (maps : List BtfMap) : List ℤ := askAll [] (maps.map fun m => (m.typeId : ℤ))

theorem mem_typeIds {maps : List BtfMap} {id : ℤ} : id ∈ typeIds maps ↔ ∃ m ∈ maps, (m.typeId : ℤ) = id := by
  rw [typeIds, mem_askAll, or_iff_right List.not_mem_nil, List.mem_map]

/-- The inner map of `m` has the number of its type. -/
def InnerNumber (maps : List BtfMap) (m : BtfMap) (fd : ℤ) : Prop :=
  m.innerMapTypeId = 0 ∧ fd = defaultMapFd ∨ m.innerMapTypeId ≠ 0 ∧
    (m.innerMapTypeId : ℤ) ∈ typeIds maps ∧ fd = number (typeIds maps) m.innerMapTypeId

theorem InnerNumber.unique {maps : List BtfMap} {m m' : BtfMap} {fd fd' : ℤ} (h : InnerNumber maps m fd)
    (h' : InnerNumber maps m' fd') (heq : m.innerMapTypeId = m'.innerMapTypeId) : fd = fd' := by
  rcases h with ⟨hzero, rfl⟩ | ⟨hzero, -, rfl⟩ <;> rcases h' with ⟨hzero', rfl⟩ | ⟨hzero', -, rfl⟩
  · rfl
  · exact absurd (heq ▸ hzero) hzero'
  · exact absurd (heq ▸ hzero') hzero
  · rw [heq]

/-- The descriptor of a map has the number of its type and that of the type of its inner map. -/
theorem btfDescriptors_spec {maps : List BtfMap} {ds₀ ds : List EbpfMapDescriptor}
    (hds₀ : maps.mapM btfDescriptor = .ok ds₀)
    (hds : ds₀.mapM (remapDescriptor (mapTypeidToFd ds₀)) = .ok ds) :
    ds.length = maps.length ∧ ∀ (i : ℕ) (m : BtfMap), maps[i]? = some m → ∃ inner : ℤ,
      ds[i]? = some ⟨number (typeIds maps) m.typeId, m.mapType, m.keySize, m.valueSize, m.maxEntries, inner⟩ ∧
      InnerNumber maps m inner := by
  have hforall₀ := Except.forall₂_of_mapM hds₀
  have hforall := Except.forall₂_of_mapM hds
  have hkeys : askAll [] (ds₀.map EbpfMapDescriptor.originalFd) = typeIds maps := by
    rw [typeIds]
    congr 1
    clear hds₀ hds hforall
    induction hforall₀ with
    | nil => rfl
    | cons hdesc _ ih => rw [List.map_cons, List.map_cons, ih, btfDescriptor_spec hdesc]
  refine ⟨hforall.length_eq.symm.trans hforall₀.length_eq.symm, fun i m hm => ?_⟩
  obtain ⟨hi, rfl⟩ := List.getElem?_eq_some_iff.mp hm
  have hi₀ : i < ds₀.length := hforall₀.length_eq ▸ hi
  have hi' : i < ds.length := hforall.length_eq ▸ hi₀
  have hdesc := btfDescriptor_spec ((List.forall₂_iff_get.mp hforall₀).2 i hi hi₀)
  obtain ⟨-, inner, hremap, hinner⟩ := remapDescriptor_spec (records_mapTypeidToFd ds₀)
    ((List.forall₂_iff_get.mp hforall).2 i hi₀ hi')
  rw [List.get_eq_getElem, List.get_eq_getElem] at hdesc hremap
  rw [List.get_eq_getElem, hdesc, hkeys] at hinner
  refine ⟨inner, ?_, ?_⟩
  · rw [List.getElem?_eq_getElem hi', hremap, hdesc, hkeys]
  · dsimp only at hinner
    by_cases hzero : maps[i].innerMapTypeId = 0
    · rw [if_pos hzero] at hinner
      exact Or.inl ⟨hzero, (hinner.resolve_right fun h => h.1 rfl).2⟩
    · rw [if_neg hzero] at hinner
      refine Or.inr ⟨hzero, (hinner.resolve_left fun h => ?_).2⟩
      have hneg : (maps[i].innerMapTypeId : ℤ) = -1 := h.1
      omega

theorem identified_of_parseBtfSection {L : Libbtf} {sec : ElfSection} (hL : L.Lawful)
    (hlegacy : ¬ F.sections.any (isMapSection ·.name) = true) (hsec : F.findSection ".BTF" = some sec)
    (hF : GlobalsApart F) (hmaps : BtfApart L F) (hread : parseBtfSection L F sec = .ok G) :
    Identified (BtfOwn L F G) F G := by
  obtain ⟨bytes, hbytes, hread⟩ := Except.bind_eq_ok.mp hread
  obtain ⟨B, hB, hread⟩ := Except.bind_eq_ok.mp hread
  obtain ⟨maps, hmapSection, hread⟩ := Except.bind_eq_ok.mp hread
  obtain ⟨ds₀, hds₀, hread⟩ := Except.bind_eq_ok.mp hread
  obtain ⟨ds, hds, hG⟩ := Except.bind_eq_ok.mp hread
  have hbtf : BtfMaps L F maps := ⟨sec, bytes, B, hsec, hbytes, hB, hmapSection⟩
  have hindices : ((F.sections.zipIdx.find? (·.1.name = ".maps")).map Prod.snd).toList = mapIndices F := by
    rw [mapIndices, if_neg hlegacy, hsec]
    rfl
  dsimp only at hG
  rw [hindices] at hG
  obtain ⟨hlength, hget⟩ := btfDescriptors_spec hds₀ hds
  have hmap : ∀ desc ∈ ds, ∃ m ∈ maps, ∃ inner : ℤ, desc = ⟨number (typeIds maps) m.typeId, m.mapType,
      m.keySize, m.valueSize, m.maxEntries, inner⟩ ∧ InnerNumber maps m inner :=
    fun desc hdesc => by
      obtain ⟨i, hi⟩ := List.mem_iff_getElem?.mp hdesc
      have hlt : i < maps.length := hlength ▸ (List.getElem?_eq_some_iff.mp hi).1
      obtain ⟨inner, hdesc', hinner⟩ := hget i _ (List.getElem?_eq_getElem hlt)
      exact ⟨_, List.getElem_mem hlt, inner, Option.some.inj (hi.symm.trans hdesc'), hinner⟩
  have hlaw : ∀ m ∈ maps, ∀ m' ∈ maps, m.typeId = m'.typeId → ∀ fd, InnerNumber maps m' fd →
      ∀ fd', InnerNumber maps m fd' →
        mapAttributes m'.mapType m'.keySize m'.valueSize m'.maxEntries fd =
          mapAttributes m.mapType m.keySize m.valueSize m.maxEntries fd' :=
    fun m hm m' hm' hid fd hfd fd' hfd' => by
      have heq := hL B maps hmapSection m hm m' hm' hid
      have hmapType : m.mapType = m'.mapType := by rw [← heq]
      have hkeySize : m.keySize = m'.keySize := by rw [← heq]
      have hvalueSize : m.valueSize = m'.valueSize := by rw [← heq]
      have hmaxEntries : m.maxEntries = m'.maxEntries := by rw [← heq]
      have hinner : m'.innerMapTypeId = m.innerMapTypeId := by rw [← heq]
      rw [hmapType, hkeySize, hvalueSize, hmaxEntries, hfd.unique hfd' hinner]
  refine identified_of_withGlobalVariables hG hF ?_ ?_ ?_
  · intro desc hdesc desc' hdesc' hfd
    obtain ⟨m, hm, inner, rfl, hinner⟩ := hmap desc hdesc
    obtain ⟨m', hm', inner', rfl, hinner'⟩ := hmap desc' hdesc'
    have hid : (m.typeId : ℤ) = m'.typeId := number_injective (mem_typeIds.mpr ⟨m, hm, rfl⟩) hfd
    exact (hlaw m hm m' hm' (Int.ofNat_inj.mp hid) inner' hinner' inner hinner).symm
  · intro desc hdesc g hg
    obtain ⟨m, hm, inner, rfl, -⟩ := hmap desc hdesc
    have hle := number_le_length (mem_typeIds.mpr ⟨m, hm, rfl⟩)
    have hcount := @length_askAll_le _ _ [] (maps.map fun m => (m.typeId : ℤ))
    rw [List.length_map, List.length_nil, Nat.zero_add] at hcount
    show number (typeIds maps) m.typeId ≠ _
    rw [typeIds] at hle ⊢
    omega
  · intro sym hsym val hval
    obtain ⟨m, hm, hname⟩ := btfOffsets_sound hval
    obtain ⟨inner, hdesc, hinner⟩ := hget val m hm
    have hmem := List.mem_of_getElem? hm
    refine ⟨_, hdesc, maps, hbtf, ⟨m, hmem, hname⟩, fun m' hm' hname' => ?_⟩
    have hid : m.typeId = m'.typeId := hmaps maps hbtf m hmem m' hm' (hname.trans hname'.symm)
    obtain ⟨i, hi⟩ := List.mem_iff_getElem?.mp hm'
    obtain ⟨inner', -, hinner'⟩ := hget i m' hi
    refine ⟨inner', ?_, (hlaw m hmem m' hm' hid inner' hinner' inner hinner).symm⟩
    rcases hinner' with hzero | ⟨-, htype, rfl⟩
    · exact Or.inl hzero
    · obtain ⟨m'', hm'', hid''⟩ := mem_typeIds.mp htype
      obtain ⟨j, hj⟩ := List.mem_iff_getElem?.mp hm''
      obtain ⟨inner'', hdesc'', -⟩ := hget j m'' hj
      refine Or.inr ⟨j, m'', _, hj, Int.ofNat_inj.mp hid'',
        getElem?_of_withGlobalVariables hG hdesc'', ?_⟩
      show number (typeIds maps) m''.typeId = _
      rw [hid'']

/-! ## All files -/

/-- The attributes of the map that a symbol stands for. -/
def OwnMap (L : Libbtf) (F : ElfFile) (G : ElfGlobalData) (sym : ElfSymbol) (a : MapAttributes) : Prop :=
  if F.sections.any (isMapSection ·.name) then LegacyOwn F G sym a else BtfOwn L F G sym a

/-- Nothing confuses the maps of a file that is read with a cache. -/
structure MapsApart (L : Libbtf) (F : ElfFile) (cache : MapCache) : Prop where
  globals : GlobalsApart F
  legacy : F.sections.any (isMapSection ·.name) = true → LegacyApart F cache
  btf : ¬ F.sections.any (isMapSection ·.name) = true → BtfApart L F

theorem identified_of_extractGlobalData {L : Libbtf} (hL : L.Lawful) (hcache : Numbered cache)
    (hF : MapsApart L F cache) (hread : (extractGlobalData L F).read cache = (.ok G, cache')) :
    Identified (OwnMap L F G) F G := by
  unfold extractGlobalData at hread
  by_cases hlegacy : F.sections.any (isMapSection ·.name) = true
  · rw [if_pos hlegacy] at hread
    have hown : OwnMap L F G = LegacyOwn F G := by
      funext sym a
      exact if_pos hlegacy
    rw [hown]
    exact identified_of_parseMapSections hlegacy hcache hF.globals (hF.legacy hlegacy) hread
  rw [if_neg hlegacy] at hread
  have hown : OwnMap L F G = BtfOwn L F G := by
    funext sym a
    exact if_neg hlegacy
  rw [hown]
  cases hsec : F.findSection ".BTF" with
  | some sec =>
    rw [hsec] at hread
    obtain ⟨hG, -⟩ := ReadM.read_ofExcept_eq_ok.mp hread
    exact identified_of_parseBtfSection hL hlegacy hsec hF.globals (hF.btf hlegacy) hG
  | none =>
    rw [hsec] at hread
    obtain ⟨hG, -⟩ := ReadM.read_ofExcept_eq_ok.mp hread
    have hindices : [] = mapIndices F := by
      rw [mapIndices, if_neg hlegacy, hsec]
      rfl
    have hG : withGlobalVariables F ⟨mapIndices F, [], .inl 0, []⟩ [] = .ok G := by
      rw [← hindices]
      exact hG
    refine identified_of_withGlobalVariables hG hF.globals ?_ ?_ ?_
    · exact fun _ h => absurd h List.not_mem_nil
    · exact fun _ h => absurd h List.not_mem_nil
    · intro sym hsym
      have hmem := hsym.isMap
      rw [← hindices] at hmem
      exact absurd hmem List.not_mem_nil

/-- Whatever files a thread has read before: the descriptors of a file identify its maps when nothing
confuses them. -/
theorem identified_of_readElf {L : Libbtf} {desiredSection : String} {programs : List RawProgram}
    (hL : L.Lawful) (hcache : ThreadCache cache) (hF : MapsApart L F cache)
    (hread : (readElf L F desiredSection).read cache = (.ok programs, cache')) :
    ∃ G, (extractGlobalData L F).read cache = (.ok G, cache') ∧
      (∀ p ∈ programs, p.mapDescriptors = G.mapDescriptors) ∧ Identified (OwnMap L F G) F G := by
  obtain ⟨G, cache₁, hG, hread⟩ := ReadM.read_bind_eq_ok.mp hread
  obtain ⟨hprograms, rfl⟩ := ReadM.read_ofExcept_eq_ok.mp hread
  exact ⟨G, hG, mapDescriptors_of_readPrograms hprograms,
    identified_of_extractGlobalData hL hcache.numbered hF hG⟩

/-! ## Two maps of maps -/

namespace TwoOuterMaps

open TwoFunctions

/-- The record of a map. -/
def mapRecord (type valueSize inner : BitVec 8) : List (BitVec 8) :=
  [type, 0, 0, 0, 4, 0, 0, 0, valueSize, 0, 0, 0, 1, 0, 0, 0, 0, 0, 0, 0, inner, 0, 0, 0]

/-- A section of maps. -/
def mapsSection (bytes : List (BitVec 8)) : ElfSection :=
  ⟨"maps", shtProgbits, false, bytes.length, some bytes, [], ElfSection.size_some _⟩

/-- A program that loads the map of symbol `2`. -/
def mainSections : List ElfSection :=
  [⟨"", 0, false, 0, none, [], ElfSection.size_none⟩,
    code "main" [0x18, 1, 0, 0, 0, 0, 0, 0, 0, 0, 0, 0, 0, 0, 0, 0, 0x95, 0, 0, 0, 0, 0, 0, 0],
    ⟨".relmain", 9, false, 0, some [], [⟨0, 2, 1, 0⟩], ElfSection.size_nil⟩]

/-- Two hash maps and two arrays of maps, of which the first holds maps like the first hash map and the
second maps like the second one. -/
def file : ElfFile where
  sections := mainSections ++
    [mapsSection (mapRecord 1 4 0 ++ mapRecord 1 8 0 ++ mapRecord 12 4 0 ++ mapRecord 12 4 1)]
  symbols := [⟨"", 0, 0, 0, 0⟩, ⟨"main", 0, 24, 2, 1⟩, ⟨"outer2", 72, 24, 1, 3⟩, ⟨"inner1", 0, 24, 1, 3⟩,
    ⟨"inner2", 24, 24, 1, 3⟩, ⟨"outer1", 48, 24, 1, 3⟩]

def descriptors : List EbpfMapDescriptor :=
  [⟨1, 1, 4, 4, 1, 1⟩, ⟨2, 1, 4, 8, 1, 1⟩, ⟨3, 12, 4, 4, 1, 1⟩, ⟨3, 12, 4, 4, 1, 2⟩]

def cacheAfter : MapCache := [(⟨.map, 4, 4, 1⟩, 3), (⟨.any, 4, 8, 0⟩, 2), (⟨.any, 4, 4, 0⟩, 1)]

/-- The program with the file descriptor of the map. -/
def loaded (fd : BitVec 32) (ds : List EbpfMapDescriptor) : RawProgram :=
  ⟨"main", 0, "main", [⟨0x18, 1, 1, 0, fd⟩, ⟨0, 0, 0, 0, 0⟩, exit], ds, ∅⟩

theorem read_file : (readElf noTypes file "main").read [] = (.ok [loaded 3 descriptors], cacheAfter) := by
  decide

theorem size_zeros :
    ∀ bytes ∈ some ([0, 0, 0, 0, 0, 0, 0, 0] : List (BitVec 8)), bytes.length = 8 := by simp

/-- A hash map and a section of global variables. -/
def later : ElfFile where
  sections := mainSections ++ [mapsSection (mapRecord 1 4 0),
    ⟨".data", shtProgbits, false, 8, some [0, 0, 0, 0, 0, 0, 0, 0], [], size_zeros⟩]
  symbols := [⟨"", 0, 0, 0, 0⟩, ⟨"main", 0, 24, 2, 1⟩, ⟨"map", 0, 24, 1, 3⟩]

theorem eq_of_isMapSymbol {sym : ElfSymbol} (h : IsMapSymbol later sym) : sym = ⟨"map", 0, 24, 1, 3⟩ := by
  have hall : ∀ sym ∈ later.symbols, sym.name ≠ "" → sym.sectionIndex ∈ mapIndices later →
      sym = ⟨"map", 0, 24, 1, 3⟩ := by decide
  exact hall sym h.mem h.named h.isMap

theorem mapsApart : MapsApart noTypes later cacheAfter := by
  refine ⟨⟨?_, ?_⟩, fun _ => ⟨?_, ?_, ?_, ?_⟩, fun h => absurd ?_ h⟩
  · have hone : (globalSections later).length = 1 := by decide
    obtain ⟨s, hs⟩ := List.length_eq_one_iff.mp hone
    intro s₁ hs₁ s₂ hs₂ _
    rw [hs] at hs₁ hs₂
    rw [List.mem_singleton.mp hs₁, List.mem_singleton.mp hs₂]
  · have hall : ∀ sym ∈ later.symbols, ∀ s ∈ globalSections later, s.1.name ≠ sym.name := by
      decide
    exact fun sym hsym => hall sym hsym.mem
  · intro sym sym' hsym hsym' _
    rw [eq_of_isMapSymbol hsym, eq_of_isMapSymbol hsym']
    exact ⟨rfl, rfl⟩
  · intro sym hsym sec hsec
    rw [eq_of_isMapSymbol hsym] at hsec ⊢
    obtain rfl : mapsSection (mapRecord 1 4 0) = sec := Option.some.inj hsec
    decide
  · have hall : ∀ s ∈ mapRecords later, s.key.valueType ≠ .map := by decide
    exact fun s hs _ _ _ hmap => absurd hmap (hall s hs)
  · decide
  · decide

theorem lawful_noTypes : noTypes.Lawful := fun _ _ h => nomatch h

end TwoOuterMaps

open TwoFunctions TwoOuterMaps in
/-- Maps of maps that differ in the inner map share a file descriptor. -/
theorem not_identified_twoOuterMaps : ∃ programs G,
    (readElf noTypes TwoOuterMaps.file "main").read [] = (.ok programs, cacheAfter) ∧
      (extractGlobalData noTypes TwoOuterMaps.file).read [] = (.ok G, cacheAfter) ∧
      ¬ Identified (OwnMap noTypes TwoOuterMaps.file G) TwoOuterMaps.file G := by
  refine ⟨[TwoOuterMaps.loaded 3 descriptors],
    ⟨[3], descriptors, .inr [("outer1", 2), ("inner2", 1), ("inner1", 0), ("outer2", 3)], []⟩, read_file, ?_,
    fun h => ?_⟩
  · decide
  · have hsame := h.apart ⟨3, 12, 4, 4, 1, 1⟩ (by decide) ⟨3, 12, 4, 4, 1, 2⟩ (by decide) rfl
    exact absurd hsame (by decide)

open TwoFunctions TwoOuterMaps in
theorem identified_of_readElf_later : ∃ programs G,
    (readElf noTypes later "main").read cacheAfter = (.ok programs, cacheAfter) ∧
      (extractGlobalData noTypes later).read cacheAfter = (.ok G, cacheAfter) ∧
      (∀ p ∈ programs, p.mapDescriptors = G.mapDescriptors) ∧
      Identified (OwnMap noTypes later G) later G := by
  have hcache : ThreadCache cacheAfter := by
    have hread := ThreadCache.empty.read noTypes TwoOuterMaps.file "main"
    rwa [read_file] at hread
  have hread : (readElf noTypes later "main").read cacheAfter =
      (.ok [TwoOuterMaps.loaded 1 [⟨1, 1, 4, 4, 1, 1⟩, ⟨2, 0, 4, 8, 1, -1⟩]], cacheAfter) := by
    decide
  obtain ⟨G, hG, hprograms, hidentified⟩ :=
    identified_of_readElf lawful_noTypes hcache mapsApart hread
  exact ⟨_, G, hread, hG, hprograms, hidentified⟩

end Prevail
