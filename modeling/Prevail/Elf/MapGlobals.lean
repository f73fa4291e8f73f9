import Prevail.Elf.MapNumbers

/-!
# What a descriptor says of a map

A relocation is identified when the descriptor that is found for its file descriptor has the attributes
of its map (`Identified`). `identified_of_withGlobalVariables` gathers what this takes of the maps of a
file, whichever way they are numbered, when the sections of global variables are put behind them.
-/

namespace Prevail

/-- What is looked at in a map. Only an array has a size, and only a map of maps has an inner map. -/
structure MapAttributes where
  keySize : ℕ
  valueSize : ℕ
  valueType : MapValueType
  arraySize : ℕ
  innerMapFd : Option ℤ
  deriving DecidableEq

/-- The attributes of a map of a type. -/
def mapAttributes (type keySize valueSize maxEntries : ℕ) (innerMapFd : ℤ) : MapAttributes :=
  ⟨keySize, valueSize, (getMapTypeLinux type).valueType,
    if (getMapTypeLinux type).isArray then maxEntries else 0,
    if (getMapTypeLinux type).valueType = .map then some innerMapFd else none⟩

def EbpfMapDescriptor.attributes (desc : EbpfMapDescriptor) : MapAttributes :=
  mapAttributes desc.type desc.keySize desc.valueSize desc.maxEntries desc.innerMapFd

/-- Maps with one file descriptor have the same attributes. -/
def DescriptorsApart (ds : List EbpfMapDescriptor) : Prop :=
  ∀ desc ∈ ds, ∀ desc' ∈ ds, desc.originalFd = desc'.originalFd → desc.attributes = desc'.attributes

theorem DescriptorsApart.find {ds : List EbpfMapDescriptor} (h : DescriptorsApart ds)
    {desc : EbpfMapDescriptor} (hdesc : desc ∈ ds) : ∃ found,
      findMapDescriptor ds desc.originalFd = some found ∧ found.attributes = desc.attributes := by
  unfold findMapDescriptor
  cases hfound : ds.find? (·.originalFd = desc.originalFd) with
  | none =>
    have hnone := List.find?_eq_none.mp hfound desc hdesc
    exact absurd (decide_eq_true rfl) hnone
  | some found =>
    have hfd := List.find?_some hfound
    exact ⟨found, rfl, h found (List.mem_of_find?_eq_some hfound) desc hdesc (of_decide_eq_true hfd)⟩

/-- For each relocation that puts a file descriptor into an instruction, the descriptor that is found for
it is that of the map: `own` says so of a symbol of a section of maps, and a section of global variables
is one value. Different maps have different file descriptors. -/
structure Identified (own : ElfSymbol → MapAttributes → Prop) (F : ElfFile) (G : ElfGlobalData) : Prop where
  maps : ∀ (progIndex index location : ℕ) (addend : ℤ) (instructions instructions' : List EbpfInst)
    (queued : List FunctionRelocation) (inst : EbpfInst),
    (F.getSymbolDetails index).name ≠ "" →
    (F.getSymbolDetails index).sectionIndex ∈ G.mapSectionIndices →
    instructions[location]? = some inst → ¬ (inst.opcode = 0x85 ∧ inst.src = 1) →
    tryReloc F G progIndex (F.getSymbolDetails index).name (F.getSymbolDetails index).sectionIndex
      instructions location index addend = .ok (some (instructions', queued)) →
    ∃ fd desc, instructions' = instructions.set location { inst with src := 1, imm := BitVec.ofInt 32 fd } ∧
      findMapDescriptor G.mapDescriptors fd = some desc ∧ own (F.getSymbolDetails index) desc.attributes
  globals : ∀ (progIndex index location : ℕ) (addend : ℤ) (instructions instructions' : List EbpfInst)
    (queued : List FunctionRelocation) (inst : EbpfInst),
    (F.getSymbolDetails index).sectionIndex ∈ G.variableSectionIndices →
    (F.getSymbolDetails index).sectionIndex ∉ G.mapSectionIndices →
    instructions[location]? = some inst → ¬ (inst.opcode = 0x85 ∧ inst.src = 1) →
    tryReloc F G progIndex (F.getSymbolDetails index).name (F.getSymbolDetails index).sectionIndex
      instructions location index addend = .ok (some (instructions', queued)) →
    ∃ sec lo hi fd offset desc, F.sections[(F.getSymbolDetails index).sectionIndex]? = some sec ∧
      instructions' = setMapValue instructions location lo hi fd offset ∧
      findMapDescriptor G.mapDescriptors fd = some desc ∧
      desc.attributes = ⟨4, sec.size, .any, 0, none⟩
  apart : DescriptorsApart G.mapDescriptors

/-! ## Sections of global variables -/

variable {F : ElfFile} {G G' : ElfGlobalData} {offsets offsets' : MapOffsets}

/-- The descriptors of sections of global variables behind `n` others. -/
def globalDescriptors (n : ℕ) (sections : List (ElfSection × ℕ)) : List EbpfMapDescriptor :=
  sections.zipIdx.map fun s => ⟨(n + s.2 : ℕ) + 1, 0, 4, s.1.1.size, 1, defaultMapFd⟩

theorem globalDescriptors_append (n : ℕ) (sections : List (ElfSection × ℕ)) (s : ElfSection × ℕ) :
    globalDescriptors n (sections ++ [s]) = globalDescriptors n sections ++
      [⟨(n + sections.length : ℕ) + 1, 0, 4, s.1.size, 1, defaultMapFd⟩] := by
  rw [globalDescriptors, List.zipIdx_append, List.map_append, Nat.zero_add]
  rfl

theorem getElem?_globalDescriptors {n g : ℕ} {sections : List (ElfSection × ℕ)} :
    (globalDescriptors n sections)[g]? =
      sections[g]?.map fun s => ⟨(n + g : ℕ) + 1, 0, 4, s.1.size, 1, defaultMapFd⟩ := by
  rw [globalDescriptors, List.getElem?_map, List.getElem?_zipIdx, Option.map_map, Nat.zero_add]
  rfl

theorem exists_of_mem_globalDescriptors {n : ℕ} {sections : List (ElfSection × ℕ)}
    {desc : EbpfMapDescriptor} (h : desc ∈ globalDescriptors n sections) : ∃ g s,
      sections[g]? = some s ∧ desc = ⟨(n + g : ℕ) + 1, 0, 4, s.1.size, 1, defaultMapFd⟩ := by
  obtain ⟨g, hg⟩ := List.mem_iff_getElem?.mp h
  rw [getElem?_globalDescriptors, Option.map_eq_some_iff] at hg
  obtain ⟨s, hs, rfl⟩ := hg
  exact ⟨g, s, hs, rfl⟩

/-- Descriptors that are apart stay so when those of sections of global variables come behind them. -/
theorem DescriptorsApart.append {ds : List EbpfMapDescriptor} {sections : List (ElfSection × ℕ)}
    (h : DescriptorsApart ds)
    (hnumbers : ∀ desc ∈ ds, ∀ g < sections.length, desc.originalFd ≠ (ds.length + g : ℕ) + 1) :
    DescriptorsApart (ds ++ globalDescriptors ds.length sections) := by
  have hmixed : ∀ desc ∈ ds, ∀ desc' ∈ globalDescriptors ds.length sections,
      desc.originalFd ≠ desc'.originalFd := fun desc hdesc desc' hdesc' => by
    obtain ⟨g, s, hs, rfl⟩ := exists_of_mem_globalDescriptors hdesc'
    exact hnumbers desc hdesc g (List.getElem?_eq_some_iff.mp hs).1
  intro desc hdesc desc' hdesc' hfd
  rcases List.mem_append.mp hdesc with hdesc | hdesc <;>
    rcases List.mem_append.mp hdesc' with hdesc' | hdesc'
  · exact h desc hdesc desc' hdesc' hfd
  · exact absurd hfd (hmixed desc hdesc desc' hdesc')
  · exact absurd hfd.symm (hmixed desc' hdesc' desc hdesc)
  · obtain ⟨g, s, hs, rfl⟩ := exists_of_mem_globalDescriptors hdesc
    obtain ⟨g', s', hs', rfl⟩ := exists_of_mem_globalDescriptors hdesc'
    have hg : g = g' := by
      dsimp only at hfd
      omega
    subst hg
    rw [Option.some.inj (hs.symm.trans hs')]

/-- What is added for the sections of `done` behind `G`. -/
structure Added (G : ElfGlobalData) (offsets : MapOffsets) (done : List (ElfSection × ℕ))
    (res : ElfGlobalData × MapOffsets) : Prop where
  mapSectionIndices : res.1.mapSectionIndices = G.mapSectionIndices
  mapDescriptors : res.1.mapDescriptors = G.mapDescriptors ++ globalDescriptors G.mapDescriptors.length done
  indices : ∀ index ∈ res.1.variableSectionIndices, index ∈ G.variableSectionIndices ∨
    ∃ s ∈ done, s.2 = index
  offsets : ∀ name val, res.2.lookup name = some val →
    (∃ g s, done[g]? = some s ∧ s.1.name = name ∧ val = G.mapDescriptors.length + g) ∨
      offsets.lookup name = some val ∧ ∀ s ∈ done, s.1.name ≠ name

theorem added_of_addGlobalVariableMaps {res : ElfGlobalData × MapOffsets}
    (h : addGlobalVariableMaps F G offsets = .ok res) : Added G offsets (globalSections F) res := by
  refine Except.foldlM_induction (fun done res => Added G offsets done res) h ?_
    fun done s res res' _ ih hstep => ?_
  · refine ⟨rfl, (List.append_nil _).symm, fun index hindex => Or.inl hindex, fun name val hval => ?_⟩
    exact Or.inr ⟨hval, by simp⟩
  · obtain ⟨desc, hdesc, hstep⟩ := Except.bind_eq_ok.mp hstep
    obtain ⟨-, hdesc⟩ := Except.guard_eq_ok.mp hdesc
    have hlength : res.1.mapDescriptors.length = G.mapDescriptors.length + done.length := by
      rw [ih.mapDescriptors, List.length_append, globalDescriptors, List.length_map, List.length_zipIdx]
    cases hdesc
    cases hstep
    refine ⟨ih.mapSectionIndices, ?_, fun index hindex => ?_, fun name val hval => ?_⟩
    · show res.1.mapDescriptors ++ _ = _
      rw [globalDescriptors_append, ← List.append_assoc, ← ih.mapDescriptors, hlength]
    · rcases List.mem_cons.mp hindex with rfl | hindex
      · exact Or.inr ⟨s, List.mem_append_right _ (List.mem_singleton_self s), rfl⟩
      · refine (ih.indices index hindex).imp_right ?_
        rintro ⟨s', hs', rfl⟩
        exact ⟨s', List.mem_append_left _ hs', rfl⟩
    · dsimp only at hval
      rw [List.lookup_cons] at hval
      split at hval
      · next hbeq =>
        obtain rfl := Option.some.inj hval
        exact Or.inl ⟨done.length, s, List.getElem?_concat_length, (beq_iff_eq.mp hbeq).symm, hlength⟩
      · next hbeq =>
        have hne : s.1.name ≠ name := fun heq => by
          rw [heq, beq_self_eq_true] at hbeq
          cases hbeq
        rcases ih.offsets name val hval with ⟨g, s', hs', hname, rfl⟩ | ⟨hval, hnames⟩
        · refine Or.inl ⟨g, s', ?_, hname, rfl⟩
          rw [List.getElem?_append_left (List.getElem?_eq_some_iff.mp hs').1]
          exact hs'
        · refine Or.inr ⟨hval, fun s' hs' => ?_⟩
          rcases List.mem_append.mp hs' with hs' | hs'
          · exact hnames s' hs'
          · rwa [List.mem_singleton.mp hs']

/-- The maps come first. -/
theorem getElem?_of_withGlobalVariables {indices : List ℕ} {ds : List EbpfMapDescriptor}
    (hG : withGlobalVariables F ⟨indices, ds, .inl 0, []⟩ offsets = .ok G) {i : ℕ} {desc : EbpfMapDescriptor}
    (hdesc : ds[i]? = some desc) : G.mapDescriptors[i]? = some desc := by
  obtain ⟨⟨G₀, offsets'⟩, hG₀, hG⟩ := Except.bind_eq_ok.mp hG
  have hadded := added_of_addGlobalVariableMaps hG₀
  cases hG
  show G₀.mapDescriptors[i]? = some desc
  rw [hadded.mapDescriptors, List.getElem?_append_left (List.getElem?_eq_some_iff.mp hdesc).1]
  exact hdesc

/-- The places of the sections of maps whose symbols are those of maps. -/
def mapIndices (F : ElfFile) : List ℕ :=
  if F.sections.any (isMapSection ·.name) then (mapSections F).map Prod.snd
  else if (F.findSection ".BTF").isSome then
    ((F.sections.zipIdx.find? (·.1.name = ".maps")).map Prod.snd).toList
  else []

/-- The symbol stands for a map. -/
structure IsMapSymbol (F : ElfFile) (sym : ElfSymbol) : Prop where
  mem : sym ∈ F.symbols
  named : sym.name ≠ ""
  isMap : sym.sectionIndex ∈ mapIndices F

/-- Sections of global variables have different names, and no map has the name of one. -/
structure GlobalsApart (F : ElfFile) : Prop where
  sections : ∀ s ∈ globalSections F, ∀ s' ∈ globalSections F, s.1.name = s'.1.name → s = s'
  symbols : ∀ sym, IsMapSymbol F sym → ∀ s ∈ globalSections F, s.1.name ≠ sym.name

theorem getSymbolDetails_mem {index : ℕ} (h : (F.getSymbolDetails index).name ≠ "") :
    F.getSymbolDetails index ∈ F.symbols := by
  unfold ElfFile.getSymbolDetails at h ⊢
  cases hsym : F.symbols[index]? with
  | none =>
    rw [hsym] at h
    exact absurd rfl h
  | some sym => exact List.mem_of_getElem? hsym

theorem mem_globalSections {s : ElfSection × ℕ} (h : s ∈ globalSections F) :
    F.sections[s.2]? = some s.1 := List.mem_zipIdx_iff_getElem?.mp (List.mem_filter.mp h).1

theorem fdAt_eq_ok {val : ℕ} {fd : ℤ} : G.fdAt val = .ok fd ↔
    ∃ desc, G.mapDescriptors[val]? = some desc ∧ desc.originalFd = fd := by
  unfold ElfGlobalData.fdAt
  cases G.mapDescriptors[val]? with
  | none => simp
  | some desc => simp

/-- The descriptor of a section of global variables. -/
theorem attributes_global (fd : ℤ) (size : ℕ) :
    EbpfMapDescriptor.attributes ⟨fd, 0, 4, size, 1, defaultMapFd⟩ = ⟨4, size, .any, 0, none⟩ := rfl

/-- What the patch of a map is. -/
theorem tryReloc_map {progIndex symbolSectionIndex location index : ℕ} {symbolName : String}
    {instructions instructions' : List EbpfInst} {addend : ℤ} {queued : List FunctionRelocation}
    {inst : EbpfInst} (hname : symbolName ≠ "") (hmap : symbolSectionIndex ∈ G.mapSectionIndices)
    (hinst : instructions[location]? = some inst) (hcall : ¬ (inst.opcode = 0x85 ∧ inst.src = 1))
    (h : tryReloc F G progIndex symbolName symbolSectionIndex instructions location index addend =
      .ok (some (instructions', queued))) :
    ∃ fd, relocateMap F G symbolName index = .ok fd ∧
      instructions' = instructions.set location { inst with src := 1, imm := BitVec.ofInt 32 fd } := by
  unfold tryReloc at h
  rw [if_neg hname, hinst] at h
  dsimp only at h
  rw [if_neg hcall] at h
  by_cases hcls : inst.cls ≠ 0x00
  · rw [if_pos hcls] at h
    cases h
  · rw [if_neg hcls, if_pos hmap] at h
    obtain ⟨fd, hfd, h⟩ := Except.bind_eq_ok.mp h
    cases h
    exact ⟨fd, hfd, rfl⟩

/-- What the patch of a global variable is, whether its symbol has a name or not. -/
theorem tryReloc_global {progIndex symbolSectionIndex location index : ℕ} {symbolName : String}
    {instructions instructions' : List EbpfInst} {addend : ℤ} {queued : List FunctionRelocation}
    {inst : EbpfInst} (hvariable : symbolSectionIndex ∈ G.variableSectionIndices)
    (hmap : symbolSectionIndex ∉ G.mapSectionIndices) (hinst : instructions[location]? = some inst)
    (hcall : ¬ (inst.opcode = 0x85 ∧ inst.src = 1))
    (h : tryReloc F G progIndex symbolName symbolSectionIndex instructions location index addend =
      .ok (some (instructions', queued))) :
    ∃ lo hi fd offset, relocateGlobalVariable G (F.sectionName symbolSectionIndex) = .ok fd ∧
      instructions' = setMapValue instructions location lo hi fd offset := by
  unfold tryReloc at h
  by_cases hname : symbolName = ""
  · rw [if_pos hname, if_pos hvariable] at h
    split at h
    · cases h
    · obtain ⟨⟨lo, hi⟩, -, h⟩ := Except.bind_eq_ok.mp h
      obtain ⟨offset, -, h⟩ := Except.bind_eq_ok.mp h
      obtain ⟨fd, hfd, h⟩ := Except.bind_eq_ok.mp h
      cases h
      exact ⟨lo, hi, fd, offset, hfd, rfl⟩
  rw [if_neg hname, hinst] at h
  dsimp only at h
  rw [if_neg hcall] at h
  by_cases hcls : inst.cls ≠ 0x00
  · rw [if_pos hcls] at h
    cases h
  · rw [if_neg hcls, if_neg hmap, if_pos hvariable] at h
    obtain ⟨⟨lo, hi⟩, -, h⟩ := Except.bind_eq_ok.mp h
    obtain ⟨offset, -, h⟩ := Except.bind_eq_ok.mp h
    obtain ⟨fd, hfd, h⟩ := Except.bind_eq_ok.mp h
    cases h
    exact ⟨lo, hi, fd, offset, hfd, rfl⟩

/-- The maps `ds` and their names are identified together with the sections of global variables behind
them, when they are apart and none has the number of such a section. -/
theorem identified_of_withGlobalVariables {own : ElfSymbol → MapAttributes → Prop}
    {ds : List EbpfMapDescriptor} (hG : withGlobalVariables F ⟨mapIndices F, ds, .inl 0, []⟩ offsets = .ok G)
    (hF : GlobalsApart F) (hapart : DescriptorsApart ds)
    (hnumbers : ∀ desc ∈ ds, ∀ g < (globalSections F).length, desc.originalFd ≠ (ds.length + g : ℕ) + 1)
    (hown : ∀ sym, IsMapSymbol F sym → ∀ val, offsets.lookup sym.name = some val →
      ∃ desc, ds[val]? = some desc ∧ own sym desc.attributes) : Identified own F G := by
  obtain ⟨⟨G₀, offsets'⟩, hG₀, hG⟩ := Except.bind_eq_ok.mp hG
  have hadded := added_of_addGlobalVariableMaps hG₀
  cases hG
  have hmaps : G₀.mapSectionIndices = mapIndices F := hadded.mapSectionIndices
  have hds : G₀.mapDescriptors = ds ++ globalDescriptors ds.length (globalSections F) :=
    hadded.mapDescriptors
  have hapart' : DescriptorsApart G₀.mapDescriptors := hds ▸ hapart.append hnumbers
  refine ⟨?_, ?_, hapart'⟩
  · intro progIndex index location addend instructions instructions' queued inst hname hmap hinst hcall h
    obtain ⟨fd, hfd, rfl⟩ := tryReloc_map hname hmap hinst hcall h
    have hsym : IsMapSymbol F (F.getSymbolDetails index) :=
      ⟨getSymbolDetails_mem hname, hname, hmaps ▸ hmap⟩
    unfold relocateMap at hfd
    dsimp only at hfd
    split at hfd
    · cases hfd
    · next val hval =>
      obtain ⟨desc, hdesc, rfl⟩ := fdAt_eq_ok.mp hfd
      dsimp only at hdesc
      rcases hadded.offsets _ val hval with ⟨g, s, hs, hs', -⟩ | ⟨hval, -⟩
      · exact absurd hs' (hF.symbols _ hsym s (List.mem_of_getElem? hs))
      · obtain ⟨desc', hdesc', hattributes⟩ := hown _ hsym val hval
        rw [hds, List.getElem?_append_left (List.getElem?_eq_some_iff.mp hdesc').1, hdesc'] at hdesc
        obtain rfl := Option.some.inj hdesc
        have hmem : desc' ∈ G₀.mapDescriptors := by
          rw [hds]
          exact List.mem_append_left _ (List.mem_of_getElem? hdesc')
        obtain ⟨found, hfound, heq⟩ := hapart'.find hmem
        exact ⟨_, found, rfl, hfound, heq ▸ hattributes⟩
  · intro progIndex index location addend instructions instructions' queued inst hvariable hmap hinst hcall h
    obtain ⟨lo, hi, fd, offset, hfd, rfl⟩ := tryReloc_global hvariable hmap hinst hcall h
    rcases hadded.indices _ hvariable with hnil | ⟨s, hs, hindex⟩
    · exact absurd hnil List.not_mem_nil
    have hsec := mem_globalSections hs
    rw [hindex] at hsec
    rw [ElfFile.sectionName, hsec] at hfd
    unfold relocateGlobalVariable at hfd
    dsimp only [Option.map_some, Option.getD_some] at hfd
    split at hfd
    · cases hfd
    · next val hval =>
      obtain ⟨desc, hdesc, rfl⟩ := fdAt_eq_ok.mp hfd
      dsimp only at hdesc
      rcases hadded.offsets _ val hval with ⟨g, s', hs', hname, rfl⟩ | ⟨-, hnames⟩
      · obtain rfl := hF.sections s' (List.mem_of_getElem? hs') s hs hname
        obtain ⟨found, hfound, heq⟩ := hapart'.find (List.mem_of_getElem? hdesc)
        refine ⟨s'.1, lo, hi, _, offset, found, hsec, rfl, hfound, heq.trans ?_⟩
        rw [hds, List.getElem?_append_right (Nat.le_add_right _ _)] at hdesc
        rw [Nat.add_sub_cancel_left, getElem?_globalDescriptors, hs'] at hdesc
        rw [← Option.some.inj hdesc]
        exact attributes_global _ _
      · exact absurd rfl (hnames s hs)

end Prevail
