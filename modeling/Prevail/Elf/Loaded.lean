import Prevail.Elf.Core
import Prevail.Lib.Result

/-!
# The programs of a file

What is known of the programs before they are linked: each comes from its place in a section, and a
function relocation is at an instruction of its program and has the name of its symbol
(`loaded_of_loadPrograms`).
-/

namespace Prevail

/-! ## Places -/

theorem mem_programPlaces {F : ElfFile} {place : (ElfSection × ℕ) × ℕ} (h : place ∈ programPlaces F) :
    F.sections[place.1.2]? = some place.1.1 := by
  obtain ⟨s, hs, hplace⟩ := List.mem_flatMap.mp h
  obtain ⟨offset, -, rfl⟩ := List.mem_map.mp hplace
  exact List.mem_zipIdx_iff_getElem?.mp (List.mem_filter.mp hs).1

/-- There is fuel for every program of a section. -/
theorem programOffsets_succ {F : ElfFile} {s : ElfSection × ℕ} {fuel offset : ℕ}
    (h : s.1.size ≤ offset + fuel) :
    programOffsets F s (fuel + 1) offset = programOffsets F s fuel offset := by
  induction fuel generalizing offset with
  | zero =>
    rw [programOffsets, programOffsets, if_neg (by omega)]
  | succ fuel ih =>
    rw [programOffsets]
    conv_rhs => rw [programOffsets]
    by_cases hoffset : offset < s.1.size
    · have hsize := (@ElfFile.getProgramNameAndSize_bounds F s.2 _ _ hoffset).1
      rw [if_pos hoffset, if_pos hoffset, ih (by omega)]
    · rw [if_neg hoffset, if_neg hoffset]

/-! ## Relocations -/

/-- A queued relocation is at an instruction of its program and has the name of its symbol. -/
structure FunctionRelocation.Queued (F : ElfFile) (progIndex size : ℕ) (r : FunctionRelocation) : Prop where
  progIndex : r.progIndex = progIndex
  sourceOffset : r.sourceOffset < size
  name : r.targetFunctionName = (F.getSymbolDetails r.relocationEntryIndex).name

variable {F : ElfFile} {G : ElfGlobalData}

theorem length_setMapValue {instructions : List EbpfInst} {location : ℕ} {lo hi : EbpfInst} {fd : ℤ}
    {offset : BitVec 32} :
    (setMapValue instructions location lo hi fd offset).length = instructions.length := by
  rw [setMapValue, List.length_set, List.length_set]

/-- What is patched keeps its length, and what is queued is the call that is looked at. -/
theorem tryReloc_spec {progIndex symbolSectionIndex location index : ℕ} {symbolName : String}
    {instructions instructions' : List EbpfInst} {addend : ℤ} {queued : List FunctionRelocation}
    (h : tryReloc F G progIndex symbolName symbolSectionIndex instructions location index addend =
      .ok (some (instructions', queued))) :
    instructions'.length = instructions.length ∧
      ∀ r ∈ queued, r = ⟨progIndex, location, index, symbolName⟩ := by
  unfold tryReloc at h
  by_cases hname : symbolName = ""
  · rw [if_pos hname] at h
    by_cases hvariable : symbolSectionIndex ∈ G.variableSectionIndices
    · rw [if_pos hvariable] at h
      split at h
      · cases h
      · obtain ⟨⟨lo, hi⟩, -, h⟩ := Except.bind_eq_ok.mp h
        obtain ⟨offset, -, h⟩ := Except.bind_eq_ok.mp h
        obtain ⟨fd, -, h⟩ := Except.bind_eq_ok.mp h
        cases h
        exact ⟨length_setMapValue, by simp⟩
    · rw [if_neg hvariable] at h
      cases h
      exact ⟨rfl, by simp⟩
  rw [if_neg hname] at h
  cases hinst : instructions[location]? with
  | none =>
    rw [hinst] at h
    cases h
  | some inst =>
    simp only [hinst] at h
    by_cases hcall : inst.opcode = 0x85 ∧ inst.src = 1
    · rw [if_pos hcall] at h
      cases h
      exact ⟨rfl, by simp⟩
    rw [if_neg hcall] at h
    by_cases hcls : inst.cls ≠ 0x00
    · rw [if_pos hcls] at h
      cases h
    rw [if_neg hcls] at h
    by_cases hmap : symbolSectionIndex ∈ G.mapSectionIndices
    · rw [if_pos hmap] at h
      obtain ⟨fd, -, h⟩ := Except.bind_eq_ok.mp h
      cases h
      exact ⟨List.length_set, by simp⟩
    rw [if_neg hmap] at h
    by_cases hvariable : symbolSectionIndex ∈ G.variableSectionIndices
    · rw [if_pos hvariable] at h
      obtain ⟨⟨lo, hi⟩, -, h⟩ := Except.bind_eq_ok.mp h
      obtain ⟨offset, -, h⟩ := Except.bind_eq_ok.mp h
      obtain ⟨fd, -, h⟩ := Except.bind_eq_ok.mp h
      cases h
      exact ⟨length_setMapValue, by simp⟩
    rw [if_neg hvariable] at h
    split at h
    · cases h
      exact ⟨List.length_set, by simp⟩
    · cases h

/-- One relocation keeps the length of its program and queues at most a call of it. -/
theorem processRelocation_spec {progIndex programOffset programSize : ℕ} {sectionName : String}
    {st st' : Relocated} {e : RelocEntry}
    (h : processRelocation F G progIndex sectionName programOffset programSize st e = .ok st') :
    st'.instructions.length = st.instructions.length ∧
      ∀ r ∈ st'.functionRelocations, r ∈ st.functionRelocations ∨
        r.Queued F progIndex st.instructions.length := by
  unfold processRelocation at h
  by_cases hrange : e.offset < programOffset ∨ programOffset + programSize ≤ e.offset
  · rw [if_pos hrange] at h
    cases h
    exact ⟨rfl, fun r hr => Or.inl hr⟩
  rw [if_neg hrange] at h
  obtain ⟨-, h⟩ := Except.guard_eq_ok.mp h
  obtain ⟨hloc, h⟩ := Except.guard_eq_ok.mp h
  obtain ⟨res, hres, h⟩ := Except.bind_eq_ok.mp h
  cases res with
  | none =>
    cases h
    exact ⟨rfl, fun r hr => Or.inl hr⟩
  | some res =>
    obtain ⟨instructions, queued⟩ := res
    obtain ⟨hlength, hqueued⟩ := tryReloc_spec hres
    cases h
    refine ⟨hlength, fun r hr => ?_⟩
    rcases List.mem_append.mp hr with hr | hr
    · exact Or.inl hr
    · obtain rfl := hqueued r hr
      exact Or.inr ⟨rfl, not_le.mp hloc, rfl⟩

/-! ## Reading -/

/-- What is known of the programs that are read from places. -/
structure ProgramReader.Loaded (F : ElfFile) (places : List ((ElfSection × ℕ) × ℕ)) (st : ProgramReader) :
    Prop where
  sections : st.rawPrograms.map RawProgram.sectionName = places.map fun place => place.1.1.name
  relocs : ∀ r ∈ st.functionRelocations, ∃ p, st.rawPrograms[r.progIndex]? = some p ∧
    r.Queued F r.progIndex p.prog.length

theorem readProgram_spec {done : List ((ElfSection × ℕ) × ℕ)} {place : (ElfSection × ℕ) × ℕ}
    {st st' : ProgramReader} (hst : st.Loaded F done) (h : readProgram F G st place = .ok st') :
    st'.Loaded F (done ++ [place]) := by
  unfold readProgram at h
  obtain ⟨instructions, -, h⟩ := Except.bind_eq_ok.mp h
  obtain ⟨res, hres, h⟩ := Except.bind_eq_ok.mp h
  obtain ⟨-, h⟩ := Except.guard_eq_ok.mp h
  have hloop := Except.foldlM_induction (fun _ (res : Relocated) =>
    res.instructions.length = instructions.length ∧
      ∀ r ∈ res.functionRelocations, r ∈ st.functionRelocations ∨
        r.Queued F st.rawPrograms.length instructions.length) hres
    ⟨rfl, fun r hr => Or.inl hr⟩ fun done e res res' _ hinv hstep => by
      obtain ⟨hlength, hrelocs⟩ := processRelocation_spec hstep
      rw [hinv.1] at hlength hrelocs
      refine ⟨hlength, fun r hr => ?_⟩
      rcases hrelocs r hr with hr | hr
      · exact hinv.2 r hr
      · exact Or.inr hr
  cases h
  refine ⟨?_, fun r hr => ?_⟩
  · rw [List.map_append, hst.sections, List.map_append]
    rfl
  · rcases hloop.2 r hr with hr | hr
    · obtain ⟨p, hp, hqueued⟩ := hst.relocs r hr
      exact ⟨p, List.getElem?_append_left (List.getElem?_eq_some_iff.mp hp).1 ▸ hp, hqueued⟩
    · refine ⟨_, by rw [hr.progIndex]; exact List.getElem?_concat_length, ?_⟩
      exact ⟨rfl, hloop.1 ▸ hr.sourceOffset, hr.name⟩

theorem loaded_of_readSections {st : ProgramReader} (h : readSections F G = .ok st) :
    st.Loaded F (programPlaces F) :=
  Except.foldlM_induction (fun done st => ProgramReader.Loaded F done st) h ⟨rfl, by simp⟩
    fun _ _ _ _ _ hst hstep => readProgram_spec hst hstep

/-! ## Types and lines -/

/-- Instructions may have other immediates and lines, but they are as many in the same functions. -/
structure SameShape (p q : RawProgram) : Prop where
  sectionName : p.sectionName = q.sectionName
  functionName : p.functionName = q.functionName
  mapDescriptors : p.mapDescriptors = q.mapDescriptors
  length : p.prog.length = q.prog.length

theorem SameShape.refl (p : RawProgram) : SameShape p p := ⟨rfl, rfl, rfl, rfl⟩

theorem SameShape.trans {p q r : RawProgram} (h : SameShape p q) (h' : SameShape q r) : SameShape p r :=
  ⟨h.1.trans h'.1, h.2.trans h'.2, h.3.trans h'.3, h.4.trans h'.4⟩

theorem sameShapes_refl (programs : List RawProgram) : List.Forall₂ SameShape programs programs :=
  List.forall₂_same.mpr fun p _ => .refl p

theorem sameShapes_trans {l₁ l₂ l₃ : List RawProgram} (h : List.Forall₂ SameShape l₁ l₂)
    (h' : List.Forall₂ SameShape l₂ l₃) : List.Forall₂ SameShape l₁ l₃ := by
  induction h generalizing l₃ with
  | nil => exact h'
  | cons hp _ ih =>
    cases h' with
    | cons hq htail => exact .cons (hp.trans hq) (ih htail)

theorem sameShapes_map {f : RawProgram → RawProgram} (hf : ∀ p, SameShape p (f p))
    (programs : List RawProgram) : List.Forall₂ SameShape programs (programs.map f) :=
  List.forall₂_map_right_iff.mpr (List.forall₂_same.mpr fun p _ => hf p)

theorem sectionNames_of_sameShapes {l₁ l₂ : List RawProgram} (h : List.Forall₂ SameShape l₁ l₂) :
    l₂.map RawProgram.sectionName = l₁.map RawProgram.sectionName := by
  induction h with
  | nil => rfl
  | cons hp _ ih => rw [List.map_cons, List.map_cons, ih, hp.1]

theorem exists_of_sameShapes {l₁ l₂ : List RawProgram} (h : List.Forall₂ SameShape l₁ l₂) {q : RawProgram}
    (hq : q ∈ l₂) : ∃ p ∈ l₁, SameShape p q := by
  induction h with
  | nil => exact absurd hq List.not_mem_nil
  | cons hp _ ih =>
    rcases List.mem_cons.mp hq with rfl | hq
    · exact ⟨_, List.mem_cons_self, hp⟩
    · obtain ⟨p, hp, hpq⟩ := ih hq
      exact ⟨p, List.mem_cons_of_mem _ hp, hpq⟩

theorem sameShapes_applyToFirst {B : BtfTypeData} {btf : List (BitVec 8)} {relo : BpfCoreRelo}
    {programs programs' : List RawProgram} (h : applyToFirst B btf relo programs = .ok programs') :
    List.Forall₂ SameShape programs programs' := by
  induction programs generalizing programs' with
  | nil => cases h
  | cons p programs ih =>
    rw [applyToFirst] at h
    by_cases hholds : p.Holds relo.insnOff
    · rw [if_pos hholds] at h
      obtain ⟨q, hq, h⟩ := Except.bind_eq_ok.mp h
      cases h
      unfold applyCoreRelocation at hq
      dsimp only at hq
      split at hq
      · cases hq
      · obtain ⟨imm, -, hq⟩ := Except.bind_eq_ok.mp hq
        cases hq
        exact .cons ⟨rfl, rfl, rfl, List.length_set.symm⟩ (sameShapes_refl programs)
    · rw [if_neg hholds] at h
      obtain ⟨rest, hrest, h⟩ := Except.bind_eq_ok.mp h
      cases h
      exact .cons (.refl p) (ih hrest)

theorem sameShapes_processCoreRelocations {B : BtfTypeData} {btf : List (BitVec 8)}
    {programs programs' : List RawProgram}
    (h : processCoreRelocations F B btf programs = .ok programs') :
    List.Forall₂ SameShape programs programs' := by
  unfold processCoreRelocations at h
  split at h
  · cases h
    exact sameShapes_refl programs
  · split at h
    · cases h
    · refine Except.foldlM_induction (fun _ l => List.Forall₂ SameShape programs l) h
        (sameShapes_refl programs) fun _ e l l' _ hl hstep => ?_
      unfold processCoreRelocation at hstep
      by_cases htype : e.type ≠ rBpf64Nodyld32
      · rw [if_pos htype] at hstep
        cases hstep
        exact hl
      · rw [if_neg htype] at hstep
        obtain ⟨-, hstep⟩ := Except.guard_eq_ok.mp hstep
        obtain ⟨-, hstep⟩ := Except.guard_eq_ok.mp hstep
        exact sameShapes_trans hl (sameShapes_applyToFirst hstep)

theorem sameShapes_relocateTypes {L : Libbtf} {programs programs' : List RawProgram}
    (h : relocateTypes L F programs = .ok programs') : List.Forall₂ SameShape programs programs' := by
  unfold relocateTypes at h
  split at h
  · cases h
    exact sameShapes_refl programs
  · obtain ⟨btf, -, h⟩ := Except.bind_eq_ok.mp h
    obtain ⟨B, -, h⟩ := Except.bind_eq_ok.mp h
    exact sameShapes_processCoreRelocations h

theorem sameShapes_foldl_noteLine (lines : List BtfLine) (programs : List RawProgram) :
    List.Forall₂ SameShape programs (lines.foldl noteLine programs) := by
  refine List.foldlRecOn (motive := fun l => List.Forall₂ SameShape programs l) _ _
    (sameShapes_refl programs) fun l hl line _ => ?_
  refine sameShapes_trans hl (sameShapes_map (fun p => ?_) l)
  split_ifs
  · exact ⟨rfl, rfl, rfl, rfl⟩
  · exact .refl p

theorem sameShapes_noteLines {L : Libbtf} {programs programs' : List RawProgram}
    (h : noteLines L F programs = .ok programs') : List.Forall₂ SameShape programs programs' := by
  unfold noteLines at h
  split at h
  · obtain ⟨btf, -, h⟩ := Except.bind_eq_ok.mp h
    obtain ⟨ext, -, h⟩ := Except.bind_eq_ok.mp h
    obtain ⟨lines, -, h⟩ := Except.bind_eq_ok.mp h
    cases h
    refine sameShapes_trans (sameShapes_foldl_noteLine lines programs) ?_
    apply sameShapes_map
    exact fun p => ⟨rfl, rfl, rfl, rfl⟩
  · cases h
    exact sameShapes_refl programs

theorem ProgramReader.Loaded.sameShapes {places : List ((ElfSection × ℕ) × ℕ)} {st : ProgramReader}
    {programs : List RawProgram} (hst : st.Loaded F places)
    (h : List.Forall₂ SameShape st.rawPrograms programs) :
    ProgramReader.Loaded F places { st with rawPrograms := programs } := by
  refine ⟨?_, fun r hr => ?_⟩
  · exact (sectionNames_of_sameShapes h).trans hst.sections
  · obtain ⟨p, hp, hqueued⟩ := hst.relocs r hr
    obtain ⟨hi, rfl⟩ := List.getElem?_eq_some_iff.mp hp
    have hi' : r.progIndex < programs.length := h.length_eq ▸ hi
    refine ⟨programs[r.progIndex], List.getElem?_eq_getElem hi', hqueued.progIndex, ?_, hqueued.name⟩
    have hshape := List.forall₂_iff_get.mp h |>.2 r.progIndex hi hi'
    exact hshape.length ▸ hqueued.sourceOffset

/-- What is known of the programs that are linked. -/
theorem loaded_of_loadPrograms {L : Libbtf} {st : ProgramReader} (h : loadPrograms L F G = .ok st) :
    st.Loaded F (programPlaces F) := by
  unfold loadPrograms at h
  obtain ⟨st₀, hst₀, h⟩ := Except.bind_eq_ok.mp h
  obtain ⟨programs, hprograms, h⟩ := Except.bind_eq_ok.mp h
  obtain ⟨-, h⟩ := Except.guard_eq_ok.mp h
  obtain ⟨programs', hprograms', h⟩ := Except.bind_eq_ok.mp h
  cases h
  exact (loaded_of_readSections hst₀).sameShapes
    (sameShapes_trans (sameShapes_relocateTypes hprograms) (sameShapes_noteLines hprograms'))

/-- Every program has the descriptors of the file. -/
theorem mapDescriptors_of_loadPrograms {L : Libbtf} {st : ProgramReader}
    (h : loadPrograms L F G = .ok st) : ∀ p ∈ st.rawPrograms, p.mapDescriptors = G.mapDescriptors := by
  unfold loadPrograms at h
  obtain ⟨st₀, hst₀, h⟩ := Except.bind_eq_ok.mp h
  obtain ⟨programs, hprograms, h⟩ := Except.bind_eq_ok.mp h
  obtain ⟨-, h⟩ := Except.guard_eq_ok.mp h
  obtain ⟨programs', hprograms', h⟩ := Except.bind_eq_ok.mp h
  cases h
  have hread : ∀ p ∈ st₀.rawPrograms, p.mapDescriptors = G.mapDescriptors := by
    refine Except.foldlM_induction (fun _ (st : ProgramReader) => ∀ p ∈ st.rawPrograms,
      p.mapDescriptors = G.mapDescriptors) hst₀ (by simp) fun done place st st' _ hst hstep => ?_
    obtain ⟨instructions, -, hstep⟩ := Except.bind_eq_ok.mp hstep
    obtain ⟨res, -, hstep⟩ := Except.bind_eq_ok.mp hstep
    obtain ⟨-, hstep⟩ := Except.guard_eq_ok.mp hstep
    cases hstep
    intro p hp
    rcases List.mem_append.mp hp with hp | hp
    · exact hst p hp
    · rw [List.mem_singleton.mp hp]
  have hshapes := sameShapes_trans (sameShapes_relocateTypes hprograms) (sameShapes_noteLines hprograms')
  intro p hp
  obtain ⟨q, hq, hqp⟩ := exists_of_sameShapes hshapes hp
  rw [← hqp.mapDescriptors, hread q hq]

end Prevail
