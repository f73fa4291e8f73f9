import Mathlib.Data.List.Induction
import Prevail.Elf.MapIdentity

/-!
# Loads of global variables

A relocated load of a global variable has the descriptor of the map that was added for its section, as
long as no later section has the name of this one, since descriptors are looked up by name. The offset in
the section should be the value of the symbol plus the addend. For a symbol with a name the loader takes
the addend alone, and for one without a name it takes the value alone.
-/

namespace Prevail

variable {F : ElfFile} {G : ElfGlobalData} {offsets : MapOffsets} {s : ElfSection × ℕ} {g n : ℕ}

theorem getElem?_concat_eq_some {α : Type*} {l : List α} {a b : α} {i : ℕ} :
    (l ++ [a])[i]? = some b ↔ l[i]? = some b ∨ i = l.length ∧ a = b := by
  rcases lt_trichotomy i l.length with h | rfl | h
  · rw [List.getElem?_append_left h, or_iff_left fun heq => h.ne heq.1]
  · rw [List.getElem?_concat_length, List.getElem?_eq_none le_rfl]
    simp
  · have hlong : (l ++ [a]).length ≤ i := by
      rw [List.length_append, List.length_singleton]
      omega
    rw [List.getElem?_eq_none hlong, List.getElem?_eq_none h.le]
    simp [h.ne']

/-! ## Names of sections -/

/-- The last section with its name. -/
def LastNamed (sections : List (ElfSection × ℕ)) (g : ℕ) (name : String) : Prop :=
  ∀ g' s', g < g' → sections[g']? = some s' → s'.1.name ≠ name

/-- What the sections of `done` have when their maps are added behind `n` others. -/
structure Registered (n : ℕ) (done : List (ElfSection × ℕ)) (res : ElfGlobalData × MapOffsets) : Prop where
  bound : ∀ g < done.length, n + g + 1 < 2 ^ 31
  indices : ∀ s ∈ done, s.2 ∈ res.1.variableSectionIndices
  last : ∀ g s, done[g]? = some s → LastNamed done g s.1.name → res.2.lookup s.1.name = some (n + g)

theorem registered_of_addGlobalVariableMaps {res : ElfGlobalData × MapOffsets}
    (h : addGlobalVariableMaps F G offsets = .ok res) :
    Registered G.mapDescriptors.length (globalSections F) res := by
  suffices key : Registered G.mapDescriptors.length (globalSections F) res ∧
      res.1.mapDescriptors.length = G.mapDescriptors.length + (globalSections F).length from key.1
  refine Except.foldlM_induction (fun done res => Registered G.mapDescriptors.length done res ∧
    res.1.mapDescriptors.length = G.mapDescriptors.length + done.length) h ?_ ?_
  · exact ⟨⟨fun g hg => absurd hg (Nat.not_lt_zero g), by simp, by simp⟩, rfl⟩
  · rintro done s res res' - ⟨ih, hlength⟩ hstep
    obtain ⟨desc, hdesc, hstep⟩ := Except.bind_eq_ok.mp hstep
    obtain ⟨hfits, hdesc⟩ := Except.guard_eq_ok.mp hdesc
    obtain ⟨hfits, -⟩ := not_or.mp hfits
    cases hdesc
    cases hstep
    refine ⟨⟨fun g hg => ?_, fun s' hs' => ?_, fun g s' hs' hlast => ?_⟩, ?_⟩
    · rw [List.length_append, List.length_singleton] at hg
      omega
    · rcases List.mem_append.mp hs' with hs' | hs'
      · exact List.mem_cons_of_mem _ (ih.indices s' hs')
      · exact List.mem_singleton.mp hs' ▸ List.mem_cons_self
    · show List.lookup _ ((s.1.name, res.1.mapDescriptors.length) :: res.2) = _
      rcases getElem?_concat_eq_some.mp hs' with hs' | ⟨rfl, rfl⟩
      · have hlt := (List.getElem?_eq_some_iff.mp hs').1
        have hne : s.1.name ≠ s'.1.name := hlast done.length s hlt List.getElem?_concat_length
        rw [List.lookup_cons, beq_false_of_ne (Ne.symm hne)]
        exact ih.last g s' hs' fun g' s'' hlt hs'' =>
          hlast g' s'' hlt (getElem?_concat_eq_some.mpr (Or.inl hs''))
      · rw [List.lookup_cons, beq_self_eq_true, hlength]
    · show (res.1.mapDescriptors ++ _).length = _
      rw [List.length_append, hlength, List.length_append, List.length_singleton, List.length_singleton,
        Nat.add_assoc]

/-- There is a last section with the name. -/
theorem exists_lastNamed {sections : List (ElfSection × ℕ)} (h : sections[g]? = some s) : ∃ g' s', g ≤ g' ∧
    sections[g']? = some s' ∧ s'.1.name = s.1.name ∧ LastNamed sections g' s.1.name := by
  induction sections using List.reverseRecOn with
  | nil => cases h
  | append_singleton done s' ih =>
    by_cases hname : s'.1.name = s.1.name
    · have hlt := (List.getElem?_eq_some_iff.mp h).1
      rw [List.length_append, List.length_singleton] at hlt
      refine ⟨done.length, s', by omega, List.getElem?_concat_length, hname, fun g' s'' hlt' hs'' => ?_⟩
      have hlt'' := (List.getElem?_eq_some_iff.mp hs'').1
      rw [List.length_append, List.length_singleton] at hlt''
      omega
    · rcases getElem?_concat_eq_some.mp h with h | ⟨-, rfl⟩
      swap
      · exact absurd rfl hname
      obtain ⟨g', s'', hle, hs'', hname', hlast⟩ := ih h
      refine ⟨g', s'', hle, getElem?_concat_eq_some.mpr (Or.inl hs''), hname', fun g₁ s₁ hlt hs₁ => ?_⟩
      rcases getElem?_concat_eq_some.mp hs₁ with hs₁ | ⟨-, rfl⟩
      · exact hlast g₁ s₁ hlt hs₁
      · exact hname

/-! ## Maps of sections -/

/-- The map that was added for a section of global variables, by the place of the section among them. -/
def implicitMap (F : ElfFile) (G : ElfGlobalData) (g : ℕ) : Option EbpfMapDescriptor :=
  G.mapDescriptors[G.mapDescriptors.length - (globalSections F).length + g]?

/-- What is known of the data when the maps of sections of global variables are added behind `n`
others. -/
structure WithImplicitMaps (F : ElfFile) (G : ElfGlobalData) (n : ℕ) : Prop where
  bound : ∀ g < (globalSections F).length, n + g + 1 < 2 ^ 31
  indices : ∀ s ∈ globalSections F, s.2 ∈ G.variableSectionIndices
  implicit : ∀ g s, (globalSections F)[g]? = some s →
    ∃ desc, implicitMap F G g = some desc ∧ desc.originalFd = (n + g : ℕ) + 1
  relocate : ∀ g s, (globalSections F)[g]? = some s → LastNamed (globalSections F) g s.1.name →
    relocateGlobalVariable G s.1.name = .ok ((n + g : ℕ) + 1)
  offsets : ∃ offsets, G.mapRecordSizeOrMapOffsets = .inr offsets

theorem withImplicitMaps_of_withGlobalVariables {indices : List ℕ} {ds : List EbpfMapDescriptor}
    (hG : withGlobalVariables F ⟨indices, ds, .inl 0, []⟩ offsets = .ok G) :
    WithImplicitMaps F G ds.length ∧ G.mapSectionIndices = indices := by
  obtain ⟨⟨G₀, offsets'⟩, hG₀, hG⟩ := Except.bind_eq_ok.mp hG
  have hadded := added_of_addGlobalVariableMaps hG₀
  have hregistered := registered_of_addGlobalVariableMaps hG₀
  cases hG
  have hds : G₀.mapDescriptors = ds ++ globalDescriptors ds.length (globalSections F) :=
    hadded.mapDescriptors
  have hlength : (globalDescriptors ds.length (globalSections F)).length = (globalSections F).length := by
    rw [globalDescriptors, List.length_map, List.length_zipIdx]
  have hdesc : ∀ g s, (globalSections F)[g]? = some s →
      G₀.mapDescriptors[ds.length + g]? = some ⟨(ds.length + g : ℕ) + 1, 0, 4, s.1.size, 1, defaultMapFd⟩ := by
    intro g s hs
    rw [hds, List.getElem?_append_right (Nat.le_add_right _ _), Nat.add_sub_cancel_left,
      getElem?_globalDescriptors, hs]
    rfl
  have hfirst : G₀.mapDescriptors.length - (globalSections F).length = ds.length := by
    rw [hds, List.length_append, hlength, Nat.add_sub_cancel]
  refine ⟨⟨hregistered.bound, hregistered.indices, fun g s hs => ?_, fun g s hs hlast => ?_, _, rfl⟩,
    hadded.mapSectionIndices⟩
  · refine ⟨⟨(ds.length + g : ℕ) + 1, 0, 4, s.1.size, 1, defaultMapFd⟩, ?_, rfl⟩
    show G₀.mapDescriptors[G₀.mapDescriptors.length - _ + g]? = _
    rw [hfirst]
    exact hdesc g s hs
  · unfold relocateGlobalVariable
    dsimp only
    rw [hregistered.last g s hs hlast]
    exact fdAt_eq_ok.mpr ⟨_, hdesc g s hs, rfl⟩

/-- No section holds both maps and global variables. -/
theorem not_isGlobalSection_of_isMapSection {name : String} (h : isMapSection name = true) :
    isGlobalSection name = false := by
  have hhead : ∀ pre : String, hasPrefix pre name = true → pre.toList ≠ [] →
      name.toList.head? = pre.toList.head? := by
    intro pre hpre hne
    obtain ⟨rest, hrest⟩ := List.isPrefixOf_iff_prefix.mp hpre
    rw [← hrest, List.head?_append_of_ne_nil _ hne]
  have hm : name.toList.head? = some 'm' := by
    unfold isMapSection at h
    rcases Bool.or_eq_true_iff.mp h with h | h
    · rw [of_decide_eq_true h]
      rfl
    · exact hhead "maps/" (Bool.and_eq_true_iff.mp h).2 (by decide)
  have hno : ∀ pre : String, pre.toList.head? = some '.' → hasPrefix pre name = false := by
    intro pre hdot
    rw [Bool.eq_false_iff]
    intro hpre
    have hsame := hhead pre hpre (by rintro hnil; rw [hnil] at hdot; cases hdot)
    rw [hm, hdot] at hsame
    exact absurd hsame (by decide)
  have hne : ∀ other : String, other.toList.head? = some '.' → name ≠ other := by
    rintro other hdot rfl
    rw [hm] at hdot
    exact absurd hdot (by decide)
  unfold isGlobalSection
  rw [hno _ (by decide), hno _ (by decide), hno _ (by decide), decide_eq_false (hne _ (by decide)),
    decide_eq_false (hne _ (by decide)), decide_eq_false (hne _ (by decide))]
  rfl

theorem isGlobalSection_of_mem (hs : s ∈ globalSections F) : isGlobalSection s.1.name = true :=
  (Bool.and_eq_true_iff.mp (List.mem_filter.mp hs).2).1

/-- The data of a file has the maps of its sections of global variables, which are no sections of maps. -/
theorem exists_withImplicitMaps {L : Libbtf} {cache cache' : MapCache}
    (hread : (extractGlobalData L F).read cache = (.ok G, cache')) :
    ∃ n, WithImplicitMaps F G n ∧ ∀ s ∈ globalSections F, s.2 ∉ G.mapSectionIndices := by
  suffices key : ∃ indices ds offsets, withGlobalVariables F ⟨indices, ds, .inl 0, []⟩ offsets = .ok G ∧
      ∀ index ∈ indices, ∃ sec, F.sections[index]? = some sec ∧ isGlobalSection sec.name = false by
    obtain ⟨indices, ds, offsets, hG, hindices⟩ := key
    obtain ⟨himplicit, rfl⟩ := withImplicitMaps_of_withGlobalVariables hG
    refine ⟨_, himplicit, fun s hs hmap => ?_⟩
    obtain ⟨sec, hsec, hno⟩ := hindices _ hmap
    obtain rfl := Option.some.inj ((mem_globalSections hs).symm.trans hsec)
    rw [isGlobalSection_of_mem hs] at hno
    cases hno
  unfold extractGlobalData at hread
  split at hread
  · obtain ⟨⟨ds, sections⟩, cache₁, -, hread⟩ := ReadM.read_bind_eq_ok.mp hread
    obtain ⟨ds', cache₂, -, hread⟩ := ReadM.read_bind_eq_ok.mp hread
    obtain ⟨offsets, cache₃, -, hread⟩ := ReadM.read_bind_eq_ok.mp hread
    refine ⟨_, _, _, (ReadM.read_ofExcept_eq_ok.mp hread).1, fun index hindex => ?_⟩
    obtain ⟨s, hs, rfl⟩ := List.mem_map.mp hindex
    obtain ⟨hs, hmap⟩ := List.mem_filter.mp hs
    exact ⟨s.1, List.mem_zipIdx_iff_getElem?.mp hs, not_isGlobalSection_of_isMapSection hmap⟩
  · split at hread
    · obtain ⟨hG, -⟩ := ReadM.read_ofExcept_eq_ok.mp hread
      obtain ⟨bytes, -, hG⟩ := Except.bind_eq_ok.mp hG
      obtain ⟨data, -, hG⟩ := Except.bind_eq_ok.mp hG
      obtain ⟨maps, -, hG⟩ := Except.bind_eq_ok.mp hG
      obtain ⟨ds, -, hG⟩ := Except.bind_eq_ok.mp hG
      obtain ⟨ds', -, hG⟩ := Except.bind_eq_ok.mp hG
      refine ⟨_, _, _, hG, fun index hindex => ?_⟩
      obtain ⟨s, hs, rfl⟩ := Option.map_eq_some_iff.mp (Option.mem_toList.mp hindex)
      have hname : s.1.name = ".maps" := by simpa using List.find?_some hs
      refine ⟨s.1, List.mem_zipIdx_iff_getElem?.mp (List.mem_of_find?_eq_some hs), ?_⟩
      rw [hname]
      decide
    · exact ⟨_, _, _, (ReadM.read_ofExcept_eq_ok.mp hread).1, fun _ h => absurd h List.not_mem_nil⟩

/-! ## Relocations of loads -/

/-- `SHT_RELA`: the entries of the section have addends. -/
def shtRela : ℕ := 4

/-- The addend of a relocation: its own, when the section has addends, and otherwise the number that
the instruction holds. -/
def addendOf (relocs : ElfSection) (e : RelocEntry) (lo : EbpfInst) : ℤ :=
  if relocs.type = shtRela then e.addend else lo.imm.toInt

/-- The entry of a program's relocations is for a load of a variable in a section. -/
structure IsVariableLoad (F : ElfFile) (place : (ElfSection × ℕ) × ℕ) (size : ℕ) (relocs : ElfSection)
    (e : RelocEntry) (instructions : List EbpfInst) (lo : EbpfInst) (s : ElfSection × ℕ) : Prop where
  program : place ∈ programPlaces F
  entries : getRelocationSection F place.1.1.name = some relocs
  entry : e ∈ relocs.entries
  inside : place.2 ≤ e.offset ∧ e.offset < place.2 + size
  refers : s ∈ globalSections F ∧ (F.getSymbolDetails e.symbol).sectionIndex = s.2
  load : instructions[(e.offset - place.2) / 8]? = some lo
  opcode : lo.opcode = 0x18

/-- The pair at the location loads the variable: it has the descriptor of the map of the section, and the
value of the symbol plus the addend as the offset in it. -/
def LoadsVariable (F : ElfFile) (G : ElfGlobalData) (g location : ℕ) (value addend : ℤ)
    (instructions : List EbpfInst) : Prop :=
  ∃ lo hi desc, instructions[location]? = some lo ∧ instructions[location + 1]? = some hi ∧
    implicitMap F G g = some desc ∧ lo.src = 2 ∧ lo.imm = BitVec.ofInt 32 desc.originalFd ∧
    hi.imm.toInt = value + addend

/-- No term of the offset is dropped: there is no addend when the symbol has no name; otherwise its value
is zero, or it is the number in the instruction, which is taken when the addend is zero. -/
def OffsetKept (F : ElfFile) (relocs : ElfSection) (e : RelocEntry) (lo : EbpfInst) : Prop :=
  if (F.getSymbolDetails e.symbol).name = "" then addendOf relocs e lo = 0
  else if relocs.type = shtRela ∧ e.addend = 0 then
    ((F.getSymbolDetails e.symbol).value : ℤ) = lo.imm.toInt
  else (F.getSymbolDetails e.symbol).value = 0

/-- The offset that is patched in. -/
def patchedOffset (F : ElfFile) (e : RelocEntry) (lo : EbpfInst) : ℤ :=
  if (F.getSymbolDetails e.symbol).name = "" then (F.getSymbolDetails e.symbol).value
  else if e.addend ≠ 0 then e.addend else lo.imm.toInt

theorem toInt_narrowInt32 {k : ℤ} {b : BitVec 32} (h : narrowInt32 k = .ok b) : b.toInt = k := by
  unfold narrowInt32 narrowed at h
  split at h
  · next hb =>
    split_ifs at hb with hfits
    obtain rfl := Option.some.inj hb
    obtain rfl := Except.ok.inj h
    rw [BitVec.toInt_ofInt]
    exact Int.bmod_eq_of_le (by omega) (by omega)
  · cases h

/-- What a load of a variable is patched to. -/
theorem tryReloc_variable {progIndex location : ℕ} {e : RelocEntry} {instructions : List EbpfInst}
    {lo : EbpfInst} {res : Option (List EbpfInst × List FunctionRelocation)}
    (hvariable : (F.getSymbolDetails e.symbol).sectionIndex ∈ G.variableSectionIndices)
    (hmap : (F.getSymbolDetails e.symbol).sectionIndex ∉ G.mapSectionIndices)
    (hoffsets : G.mapRecordSizeOrMapOffsets = .inr offsets)
    (hlo : instructions[location]? = some lo) (hopcode : lo.opcode = 0x18)
    (h : tryReloc F G progIndex (F.getSymbolDetails e.symbol).name
      (F.getSymbolDetails e.symbol).sectionIndex instructions location e.symbol e.addend = .ok res) :
    ∃ hi fd offset, instructions[location + 1]? = some hi ∧
      relocateGlobalVariable G (F.sectionName (F.getSymbolDetails e.symbol).sectionIndex) = .ok fd ∧
      offset.toInt = patchedOffset F e lo ∧
      res = some (setMapValue instructions location lo hi fd offset, []) := by
  have hpair : ∀ {context : String} {p : EbpfInst × EbpfInst},
      validateAndGetLddwPair instructions location context = .ok p →
        p.1 = lo ∧ instructions[location + 1]? = some p.2 := by
    intro context p hp
    unfold validateAndGetLddwPair at hp
    rw [hlo] at hp
    split at hp
    · next lo' hi hlo' hhi =>
      obtain rfl := Option.some.inj hlo'
      split_ifs at hp
      cases hp
      exact ⟨rfl, hhi⟩
    · cases hp
  unfold tryReloc at h
  unfold patchedOffset
  by_cases hname : (F.getSymbolDetails e.symbol).name = ""
  · rw [if_pos hname, if_pos hvariable, hoffsets] at h
    obtain ⟨⟨lo', hi⟩, hlohi, h⟩ := Except.bind_eq_ok.mp h
    obtain ⟨offset, hoffset, h⟩ := Except.bind_eq_ok.mp h
    obtain ⟨fd, hfd, h⟩ := Except.bind_eq_ok.mp h
    obtain ⟨rfl, hhi⟩ := hpair hlohi
    cases h
    rw [if_pos hname]
    exact ⟨hi, fd, offset, hhi, hfd, toInt_narrowInt32 hoffset, rfl⟩
  have hcls : ¬ lo.cls ≠ 0x00 := by
    unfold EbpfInst.cls
    rw [hopcode]
    decide
  have hcall : ¬ (lo.opcode = 0x85 ∧ lo.src = 1) := fun h => absurd (hopcode.symm.trans h.1) (by decide)
  rw [if_neg hname, hlo] at h
  dsimp only at h
  rw [if_neg hcall, if_neg hcls, if_neg hmap, if_pos hvariable] at h
  obtain ⟨⟨lo', hi⟩, hlohi, h⟩ := Except.bind_eq_ok.mp h
  obtain ⟨offset, hoffset, h⟩ := Except.bind_eq_ok.mp h
  obtain ⟨fd, hfd, h⟩ := Except.bind_eq_ok.mp h
  obtain ⟨rfl, hhi⟩ := hpair hlohi
  cases h
  refine ⟨hi, fd, offset, hhi, hfd, ?_, rfl⟩
  unfold variableOffset at hoffset
  rw [if_neg hname]
  split_ifs at hoffset ⊢ with haddend
  · exact toInt_narrowInt32 hoffset
  · obtain rfl := Except.ok.inj hoffset
    rfl

/-- The patched offset is the value plus the addend exactly when no term is dropped. -/
theorem patchedOffset_iff {relocs : ElfSection} {e : RelocEntry} {lo : EbpfInst}
    (hrel : relocs.type ≠ shtRela → e.addend = 0) :
    patchedOffset F e lo = (F.getSymbolDetails e.symbol).value + addendOf relocs e lo ↔
      OffsetKept F relocs e lo := by
  unfold patchedOffset OffsetKept addendOf
  by_cases hrela : relocs.type = shtRela
  · simp only [hrela, if_true, true_and]
    split_ifs <;> omega
  · have haddend := hrel hrela
    simp only [hrela, haddend, if_false, false_and, ne_eq, not_true_eq_false]
    split_ifs <;> omega

theorem ofInt_inj_of_lt {a b : ℤ} (ha : 0 ≤ a ∧ a < 2 ^ 31) (hb : 0 ≤ b ∧ b < 2 ^ 31) :
    BitVec.ofInt 32 a = BitVec.ofInt 32 b ↔ a = b := by
  refine ⟨fun h => ?_, congrArg _⟩
  have hint := congrArg BitVec.toInt h
  rw [BitVec.toInt_ofInt, BitVec.toInt_ofInt, Int.bmod_eq_of_le (by omega) (by omega),
    Int.bmod_eq_of_le (by omega) (by omega)] at hint
  exact hint

/-- A relocated load of a variable, in any state of the loop over the relocations. -/
theorem loadsVariable_iff {place : (ElfSection × ℕ) × ℕ} {size progIndex : ℕ} {sectionName : String}
    {relocs : ElfSection} {e : RelocEntry} {lo : EbpfInst} {st st' : Relocated}
    (hG : WithImplicitMaps F G n) (hmap : ∀ s ∈ globalSections F, s.2 ∉ G.mapSectionIndices)
    (hrel : relocs.type ≠ shtRela → e.addend = 0) (hs : (globalSections F)[g]? = some s)
    (hload : IsVariableLoad F place size relocs e st.instructions lo s)
    (h : processRelocation F G progIndex sectionName place.2 size st e = .ok st') :
    LoadsVariable F G g ((e.offset - place.2) / 8) (F.getSymbolDetails e.symbol).value
        (addendOf relocs e lo) st'.instructions ↔
      LastNamed (globalSections F) g s.1.name ∧ OffsetKept F relocs e lo := by
  obtain ⟨hmem, hindex⟩ := hload.refers
  obtain ⟨offsets, hoffsets⟩ := hG.offsets
  have hinside := hload.inside
  unfold processRelocation at h
  rw [if_neg (by omega)] at h
  dsimp only at h
  split_ifs at h
  obtain ⟨res, hres, h⟩ := Except.bind_eq_ok.mp h
  obtain ⟨hi, fd, offset, hhi, hfd, hoffset, rfl⟩ := tryReloc_variable (hindex ▸ hG.indices s hmem)
    (hindex ▸ hmap s hmem) hoffsets hload.load hload.opcode hres
  cases h
  obtain ⟨desc, hdesc, hnumber⟩ := hG.implicit g s hs
  obtain ⟨g', s', hle, hs', hname, hlast⟩ := exists_lastNamed hs
  have hfd' : fd = (n + g' : ℕ) + 1 := by
    have hsection : F.sectionName s.2 = s.1.name := by
      unfold ElfFile.sectionName
      rw [mem_globalSections hmem]
      rfl
    rw [hindex, hsection, ← hname, hG.relocate g' s' hs' (hname ▸ hlast)] at hfd
    exact (Except.ok.inj hfd).symm
  have hbound := hG.bound g (List.getElem?_eq_some_iff.mp hs).1
  have hbound' := hG.bound g' (List.getElem?_eq_some_iff.mp hs').1
  have hlo := (List.getElem?_eq_some_iff.mp hload.load).1
  have hhi' := (List.getElem?_eq_some_iff.mp hhi).1
  have hsame : BitVec.ofInt 32 fd = BitVec.ofInt 32 desc.originalFd ↔
      LastNamed (globalSections F) g s.1.name := by
    rw [hfd', hnumber, ofInt_inj_of_lt (by omega) (by omega)]
    constructor
    · intro heq
      obtain rfl : g' = g := by omega
      exact hlast
    · intro hlast
      rcases hle.eq_or_lt with rfl | hlt
      · rfl
      · exact absurd hname (hlast g' s' hlt hs')
  rw [← hsame, ← patchedOffset_iff hrel, ← hoffset]
  unfold LoadsVariable setMapValue
  have hlo' : ((st.instructions.set ((e.offset - place.2) / 8)
      { lo with src := 2, imm := BitVec.ofInt 32 fd }).set ((e.offset - place.2) / 8 + 1)
        { hi with imm := offset })[(e.offset - place.2) / 8]? =
      some { lo with src := 2, imm := BitVec.ofInt 32 fd } := by
    rw [List.getElem?_set_ne (by omega), List.getElem?_set_self hlo]
  have hhi'' : ((st.instructions.set ((e.offset - place.2) / 8)
      { lo with src := 2, imm := BitVec.ofInt 32 fd }).set ((e.offset - place.2) / 8 + 1)
        { hi with imm := offset })[(e.offset - place.2) / 8 + 1]? = some { hi with imm := offset } := by
    rw [List.getElem?_set_self (by rw [List.length_set]; exact hhi')]
  constructor
  · rintro ⟨lo₁, hi₁, desc₁, hlo₁, hhi₁, hdesc₁, -, himm, hvalue⟩
    obtain rfl := Option.some.inj (hlo'.symm.trans hlo₁)
    obtain rfl := Option.some.inj (hhi''.symm.trans hhi₁)
    obtain rfl := Option.some.inj (hdesc.symm.trans hdesc₁)
    exact ⟨himm, hvalue⟩
  · rintro ⟨himm, hvalue⟩
    exact ⟨_, _, desc, hlo', hhi'', hdesc, rfl, himm, hvalue⟩

/-- The entries of sections without addends have none. -/
def ReadsAddends (F : ElfFile) : Prop :=
  ∀ sec ∈ F.sections, sec.type ≠ shtRela → ∀ e ∈ sec.entries, e.addend = 0

theorem mem_of_getRelocationSection {name : String} {relocs : ElfSection}
    (h : getRelocationSection F name = some relocs) : relocs ∈ F.sections := by
  unfold getRelocationSection at h
  split_ifs at h
  split at h
  · cases h
  · next sec hsec =>
    split_ifs at h
    obtain rfl := Option.some.inj h
    rcases Option.or_eq_some_iff.mp hsec with hsec | ⟨-, hsec⟩
    · exact List.mem_of_find?_eq_some hsec
    · exact List.mem_of_find?_eq_some hsec

/-- In a file that is read, a relocated load of a variable has the descriptor of the map of its section
and the value of its symbol plus the addend exactly when no later section has the name of the section and
no term of the offset is dropped. -/
theorem loadsVariable_iff_of_readElf {L : Libbtf} {desiredSection : String} {programs : List RawProgram}
    {cache cache' : MapCache} (hF : ReadsAddends F)
    (hread : (readElf L F desiredSection).read cache = (.ok programs, cache')) :
    ∃ G, (extractGlobalData L F).read cache = (.ok G, cache') ∧
      ∀ place size progIndex relocs e lo st st' g s, (globalSections F)[g]? = some s →
        IsVariableLoad F place size relocs e st.instructions lo s →
        processRelocation F G progIndex place.1.1.name place.2 size st e = .ok st' →
        (LoadsVariable F G g ((e.offset - place.2) / 8) (F.getSymbolDetails e.symbol).value
            (addendOf relocs e lo) st'.instructions ↔
          LastNamed (globalSections F) g s.1.name ∧ OffsetKept F relocs e lo) := by
  obtain ⟨G, cache₁, hG, hread⟩ := ReadM.read_bind_eq_ok.mp hread
  obtain ⟨-, rfl⟩ := ReadM.read_ofExcept_eq_ok.mp hread
  obtain ⟨n, himplicit, hmap⟩ := exists_withImplicitMaps hG
  refine ⟨G, hG, fun place size progIndex relocs e lo st st' g s hs hload h => ?_⟩
  have hrel : relocs.type ≠ shtRela → e.addend = 0 := fun hne =>
    hF relocs (mem_of_getRelocationSection hload.entries) hne e hload.entry
  exact loadsVariable_iff himplicit hmap hrel hs hload h

/-! ## Two variables in a section -/

open TwoFunctions TwoOuterMaps

/-- A section of variables of four bytes. -/
def dataSection : ElfSection :=
  ⟨".data", shtProgbits, false, 8, some [0, 0, 0, 0, 0, 0, 0, 0], [], size_zeros⟩

/-- A program that loads the address of a variable. -/
def variableFile (name : String) (value : ℕ) : ElfFile where
  sections := mainSections ++ [dataSection]
  symbols := [⟨"", 0, 0, 0, 0⟩, ⟨"main", 0, 24, 2, 1⟩, ⟨name, value, 4, 1, 3⟩]

/-- The data of the file. -/
def variableData : ElfGlobalData := ⟨[], [⟨1, 0, 4, 8, 1, -1⟩], .inr [(".data", 0)], [3]⟩

/-- The load before and after the relocation. -/
def loadAt (src : BitVec 4) (fd offset : BitVec 32) : Relocated :=
  ⟨[⟨0x18, 1, src, 0, fd⟩, ⟨0, 0, 0, 0, offset⟩, exit], [], []⟩

theorem read_variableFile :
    (readElf noTypes (variableFile "second" 4) "main").read [] =
        (.ok [⟨"main", 0, "main", (loadAt 2 1 0).instructions, variableData.mapDescriptors, ∅⟩], []) ∧
      (extractGlobalData noTypes (variableFile "second" 4)).read [] = (.ok variableData, []) ∧
      processRelocation (variableFile "second" 4) variableData 0 "main" 0 24 (loadAt 0 0 0) ⟨0, 2, 1, 0⟩ =
        .ok (loadAt 2 1 0) := by
  decide

/-- The relocations of the program. -/
def relocsSection : ElfSection :=
  ⟨".relmain", 9, false, 0, some [], [⟨0, 2, 1, 0⟩], ElfSection.size_nil⟩

/-- The code loads the second element of an array, which is four bytes behind the symbol of the array. -/
def elementCode : ElfSection :=
  code "main" [0x18, 1, 0, 0, 4, 0, 0, 0, 0, 0, 0, 0, 0, 0, 0, 0, 0x95, 0, 0, 0, 0, 0, 0, 0]

def elementFile : ElfFile where
  sections := [⟨"", 0, false, 0, none, [], ElfSection.size_none⟩, elementCode, relocsSection, dataSection]
  symbols := [⟨"", 0, 0, 0, 0⟩, ⟨"main", 0, 24, 2, 1⟩, ⟨"numbers", 0, 8, 1, 3⟩]

theorem read_elementFile :
    (readElf noTypes elementFile "main").read [] =
        (.ok [⟨"main", 0, "main", (loadAt 2 1 4).instructions, variableData.mapDescriptors, ∅⟩], []) ∧
      (extractGlobalData noTypes elementFile).read [] = (.ok variableData, []) ∧
      processRelocation elementFile variableData 0 "main" 0 24 (loadAt 0 4 0) ⟨0, 2, 1, 0⟩ =
        .ok (loadAt 2 1 4) := by
  decide

theorem readsAddends_elementFile : ReadsAddends elementFile := by
  intro sec hsec _ e he
  have hall : ∀ sec ∈ elementFile.sections, ∀ e ∈ sec.entries, e.addend = 0 := by decide
  exact hall sec hsec e he

theorem isVariableLoad_elementFile : IsVariableLoad elementFile ((elementCode, 1), 0) 24 relocsSection
    ⟨0, 2, 1, 0⟩ (loadAt 0 4 0).instructions ⟨0x18, 1, 0, 0, 4⟩ (dataSection, 3) where
  program := List.mem_of_getElem? (i := 0) rfl
  entries := rfl
  entry := List.mem_singleton_self _
  inside := by decide
  refers := ⟨List.mem_of_getElem? (i := 0) rfl, rfl⟩
  load := rfl
  opcode := rfl

/-- The address of the second element is the value of the symbol plus four. -/
theorem loadsVariable_iff_of_readElf_element : ∃ G st',
    (extractGlobalData noTypes elementFile).read [] = (.ok G, []) ∧
      processRelocation elementFile G 0 "main" 0 24 (loadAt 0 4 0) ⟨0, 2, 1, 0⟩ = .ok st' ∧
      LoadsVariable elementFile G 0 0 0 4 st'.instructions := by
  obtain ⟨hread, hdata, hstep⟩ := read_elementFile
  obtain ⟨G, hG, hall⟩ := loadsVariable_iff_of_readElf readsAddends_elementFile hread
  obtain rfl : variableData = G := Except.ok.inj (Prod.mk.inj (hdata.symm.trans hG)).1
  have hlast : LastNamed (globalSections elementFile) 0 ".data" := by
    intro g s hg hs
    cases g with
    | zero => exact absurd hg (Nat.lt_irrefl 0)
    | succ g => cases hs
  have hkept : OffsetKept elementFile relocsSection ⟨0, 2, 1, 0⟩ ⟨0x18, 1, 0, 0, 4⟩ := by
    unfold OffsetKept
    rw [if_neg (by decide), if_neg (by decide)]
    rfl
  have hiff := hall _ _ _ _ _ _ _ _ 0 _ rfl isVariableLoad_elementFile hstep
  exact ⟨_, _, hG, hstep, hiff.mpr ⟨hlast, hkept⟩⟩

/-- The address of the variable behind the first one is patched to that of the first one. -/
theorem not_loadsVariable_second :
    (readElf noTypes (variableFile "second" 4) "main").read [] =
        (.ok [⟨"main", 0, "main", (loadAt 2 1 0).instructions, variableData.mapDescriptors, ∅⟩], []) ∧
      (extractGlobalData noTypes (variableFile "second" 4)).read [] = (.ok variableData, []) ∧
      processRelocation (variableFile "second" 4) variableData 0 "main" 0 24 (loadAt 0 0 0) ⟨0, 2, 1, 0⟩ =
        .ok (loadAt 2 1 0) ∧
      ¬ LoadsVariable (variableFile "second" 4) variableData 0 0 4 0 (loadAt 2 1 0).instructions := by
  obtain ⟨hread, hdata, hstep⟩ := read_variableFile
  refine ⟨hread, hdata, hstep, ?_⟩
  rintro ⟨lo, hi, desc, -, hhi, -, -, -, hoffset⟩
  obtain rfl := Option.some.inj hhi
  exact absurd hoffset (by decide)

end Prevail
