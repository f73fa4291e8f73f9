import Prevail.Elf.Linked

/-!
# Linking keeps what is linked

Between two calls of `append_subprograms` the programs that are resolved are linked, and those that are
not visited either are as they were loaded (`Linker.Valid`). A call changes the programs that it visits
only (`Advanced`), and in its loop the program is linked as far as its relocations are processed
(`Linker.InLoop`).
-/

namespace Prevail

/-! ## Names -/

/-- What a program is found by, and its descriptors. -/
def RawProgram.signature (p : RawProgram) : String × String × List EbpfMapDescriptor :=
  (p.sectionName, p.functionName, p.mapDescriptors)

/-- What stays of the programs while they are linked. -/
def signatures (programs : List RawProgram) : List (String × String × List EbpfMapDescriptor) :=
  programs.map RawProgram.signature

variable {programs programs' : List RawProgram} {i j : ℕ} {p p' q : RawProgram}

theorem exists_of_signatures (h : signatures programs = signatures programs')
    (hp : programs[i]? = some p) : ∃ q, programs'[i]? = some q ∧ q.sectionName = p.sectionName ∧
      q.functionName = p.functionName ∧ q.mapDescriptors = p.mapDescriptors := by
  have hi : (signatures programs')[i]? = some p.signature := by
    rw [← h, signatures, List.getElem?_map, hp]
    rfl
  rw [signatures, List.getElem?_map, Option.map_eq_some_iff] at hi
  obtain ⟨q, hq, hsignature⟩ := hi
  obtain ⟨hsection, hrest⟩ := Prod.mk.inj hsignature
  exact ⟨q, hq, hsection, Prod.mk.inj hrest⟩

theorem signatures_set (hp : programs[i]? = some p) (h : p'.signature = p.signature) :
    signatures (programs.set i p') = signatures programs := by
  obtain ⟨hi, rfl⟩ := List.getElem?_eq_some_iff.mp hp
  rw [signatures, List.map_set, h]
  show (signatures programs).set i _ = signatures programs
  refine List.ext_getElem? fun k => ?_
  rw [List.getElem?_set]
  split_ifs with hik hlt
  · subst hik
    rw [signatures, List.getElem?_map, hp]
    rfl
  · subst hik
    rw [signatures, List.length_map] at hlt
    exact absurd hi hlt
  · rfl

/-- A program is found by its names. -/
theorem findSubprogram_congr (h : signatures programs = signatures programs')
    (sectionName symbolName : String) :
    findSubprogram programs sectionName symbolName = findSubprogram programs' sectionName symbolName := by
  have hmap : ∀ l : List RawProgram, findSubprogram l sectionName symbolName =
      (signatures l).findIdx? fun e => e.1 = sectionName && e.2.1 = symbolName := fun l => by
    rw [signatures, List.findIdx?_map]
    rfl
  rw [hmap, hmap, h]

theorem findSubprogram_eq_some {sectionName symbolName : String}
    (h : findSubprogram programs sectionName symbolName = some j) :
    ∃ p, programs[j]? = some p ∧ p.sectionName = sectionName ∧ p.functionName = symbolName := by
  obtain ⟨hj, hfound, -⟩ := List.findIdx?_eq_some_iff_getElem.mp h
  rw [Bool.and_eq_true, decide_eq_true_eq, decide_eq_true_eq] at hfound
  exact ⟨_, List.getElem?_eq_getElem hj, hfound⟩

theorem findSubprogram_ne_none (hp : programs[j]? = some p) :
    findSubprogram programs p.sectionName p.functionName ≠ none := by
  intro h
  have hnone := List.findIdx?_eq_none_iff.mp h p (List.mem_of_getElem? hp)
  simp at hnone

/-! ## Changes of the programs -/

theorem toInt_of_narrowInt32 {n : ℤ} {imm : BitVec 32} (h : narrowInt32 n = .ok imm) :
    imm.toInt = n := by
  unfold narrowInt32 narrowed at h
  split_ifs at h with hn
  · cases h
    exact BitVec.toInt_ofInt_eq_self (by decide) hn.1 hn.2

/-- The instruction at the relocation jumps to the target, and nothing else is changed. -/
theorem RawProgram.setTarget_spec {r : FunctionRelocation} {target : ℕ} (h : p.setTarget r target = .ok p') :
    ∃ inst, ∃ imm : BitVec 32, p.prog[r.sourceOffset]? = some inst ∧
      (r.sourceOffset : ℤ) + 1 + imm.toInt = target ∧ p'.signature = p.signature ∧
      p'.prog = p.prog.set r.sourceOffset { inst with imm := imm } := by
  obtain ⟨imm, himm, h⟩ := Except.bind_eq_ok.mp h
  cases hinst : p.prog[r.sourceOffset]? with
  | none =>
    rw [hinst] at h
    cases h
  | some inst =>
    rw [hinst] at h
    cases h
    refine ⟨inst, imm, rfl, ?_, rfl, rfl⟩
    rw [toInt_of_narrowInt32 himm]
    omega

theorem Linker.setTarget_spec {s s' : Linker} {r : FunctionRelocation} {target : ℕ}
    (h : s.setTarget i r target = .ok s') : ∃ p p', s.rawPrograms[i]? = some p ∧
      p.setTarget r target = .ok p' ∧ s' = { s with rawPrograms := s.rawPrograms.set i p' } := by
  unfold Linker.setTarget at h
  split at h
  · cases h
  · next p hp =>
    obtain ⟨p', hp', h⟩ := Except.bind_eq_ok.mp h
    cases h
    exact ⟨p, p', hp, hp', rfl⟩

theorem Linker.insertCopy_spec {s s' : Linker} {base : ℕ} (h : s.insertCopy i base j = .ok s') :
    ∃ p sub, s.rawPrograms[i]? = some p ∧ s.rawPrograms[j]? = some sub ∧
      s' = { s with rawPrograms := s.rawPrograms.set i (p.insertCopy base sub) } := by
  unfold Linker.insertCopy at h
  split at h
  · next p sub hp hsub =>
    cases h
    exact ⟨p, sub, hp, hsub, rfl⟩
  · cases h

/-! ## Between two calls -/

variable {F : ElfFile} {st : ProgramReader} {desiredSection : String} {s s' s'' : Linker}

/-- The resolved programs are linked, and those that are not visited either are as they were. -/
structure Linker.Valid (F : ElfFile) (st : ProgramReader) (desiredSection : String) (s : Linker) : Prop where
  signatures : signatures s.rawPrograms = signatures st.rawPrograms
  apart : ∀ i ∈ s.visiting, i ∉ s.resolved
  original : ∀ i p q, i ∉ s.resolved → i ∉ s.visiting → s.rawPrograms[i]? = some p →
    st.rawPrograms[i]? = some q → p.prog = q.prog
  linked : ∀ i ∈ s.resolved, ∀ p, s.rawPrograms[i]? = some p → UnconfusedFrom F st desiredSection i →
    LinkedCode F st i p.prog

/-- What is resolved stays so, and what is visited stays visited and, outside of `changed`, as it is.
Without an error nothing more is visited. -/
structure Advanced (F : ElfFile) (st : ProgramReader) (desiredSection : String) (changed : Set ℕ)
    (s s' : Linker) (err : String) : Prop where
  valid : s'.Valid F st desiredSection
  kept : s.resolved ⊆ s'.resolved
  visiting : s.visiting ⊆ s'.visiting
  untouched : ∀ k ∈ s.visiting, k ∉ changed → s'.rawPrograms[k]? = s.rawPrograms[k]?
  steady : err = "" → s'.visiting = s.visiting

theorem Linker.Valid.advanced (h : s.Valid F st desiredSection) (changed : Set ℕ) (err : String) :
    Advanced F st desiredSection changed s s err :=
  ⟨h, fun _ hk => hk, fun _ hk => hk, fun _ _ _ => rfl, fun _ => rfl⟩

theorem Advanced.mono {changed : Set ℕ} {err : String} (h : Advanced F st desiredSection ∅ s s' err) :
    Advanced F st desiredSection changed s s' err :=
  ⟨h.valid, h.kept, h.visiting, fun k hk _ => h.untouched k hk (Set.notMem_empty k), h.steady⟩

theorem Advanced.trans {changed : Set ℕ} {err : String}
    (h : Advanced F st desiredSection changed s s' "")
    (h' : Advanced F st desiredSection changed s' s'' err) :
    Advanced F st desiredSection changed s s'' err := by
  refine ⟨h'.valid, fun k hk => h'.kept (h.kept hk), fun k hk => h'.visiting (h.visiting hk),
    fun k hk hchanged => ?_, fun herr => ?_⟩
  · exact (h'.untouched k (h.visiting hk) hchanged).trans (h.untouched k hk hchanged)
  · exact (h'.steady herr).trans (h.steady rfl)

/-- A program that is visited may be changed. -/
theorem Linker.Valid.set (h : s.Valid F st desiredSection) (hi : i ∈ s.visiting)
    (hp : s.rawPrograms[i]? = some p) (hp' : p'.signature = p.signature) (err : String) :
    Advanced F st desiredSection {i} s { s with rawPrograms := s.rawPrograms.set i p' } err := by
  have hne : ∀ k, k ≠ i → (s.rawPrograms.set i p')[k]? = s.rawPrograms[k]? := fun k hk =>
    List.getElem?_set_ne (Ne.symm hk)
  refine ⟨⟨?_, h.apart, ?_, ?_⟩, fun _ hk => hk, fun _ hk => hk, ?_, fun _ => rfl⟩
  · exact (signatures_set hp hp').trans h.signatures
  · intro k pk qk hresolved hvisiting hpk hqk
    refine h.original k pk qk hresolved hvisiting ?_ hqk
    rwa [hne k (by rintro rfl; exact hvisiting hi)] at hpk
  · intro k hresolved pk hpk
    refine h.linked k hresolved pk ?_
    rwa [hne k (by rintro rfl; exact h.apart k hi hresolved)] at hpk
  · intro k _ hk
    exact hne k hk

/-! ## In the loop -/

/-- A copy of the function that relocations with the name denote begins at `target`. -/
def HasCopy (F : ElfFile) (st : ProgramReader) (i : ℕ) (own : List EbpfInst)
    (copies : List (ℕ × List EbpfInst)) (name : String) (target : ℕ) : Prop :=
  ∃ n c, copies[n]? = some c ∧ target = copyStart own copies n ∧
    ∃ r ∈ st.functionRelocations, r.progIndex = i ∧ r.targetFunctionName = name ∧ Denotes F st r c.1

/-- Program `i` is linked as far as the relocations of `done` ask for it. -/
structure Linker.InLoop (F : ElfFile) (st : ProgramReader) (desiredSection : String) (i : ℕ)
    (done : List FunctionRelocation) (s : Linker) (offsets : SubprogramOffsets) : Prop where
  valid : s.Valid F st desiredSection
  visiting : i ∈ s.visiting
  progress : UnconfusedFrom F st desiredSection i → ∀ p q, s.rawPrograms[i]? = some p →
    st.rawPrograms[i]? = some q → ∃ own copies, p.prog = own ++ copies.flatMap Prod.snd ∧
      PartlyLinked F st done i q own copies ∧ (∀ c ∈ copies, LinkedCode F st c.1 c.2) ∧
      ∀ name target, offsets.lookup name = some target → HasCopy F st i own copies name target

variable {done : List FunctionRelocation} {offsets : SubprogramOffsets} {r : FunctionRelocation}

theorem Linker.InLoop.advance (h : s.InLoop F st desiredSection i done offsets)
    (hs : Advanced F st desiredSection ∅ s s' "") : s'.InLoop F st desiredSection i done offsets := by
  refine ⟨hs.valid, hs.visiting h.visiting, fun hclean p q hp hq => h.progress hclean p q ?_ hq⟩
  rwa [hs.untouched i h.visiting (Set.notMem_empty i)] at hp

theorem Linker.InLoop.skip (h : s.InLoop F st desiredSection i done offsets) (hr : r.progIndex ≠ i) :
    s.InLoop F st desiredSection i (done ++ [r]) offsets := by
  refine ⟨h.valid, h.visiting, fun hclean p q hp hq => ?_⟩
  obtain ⟨own, copies, hcode, hpartly, hlinked, hoffsets⟩ := h.progress hclean p q hp hq
  exact ⟨own, copies, hcode, hpartly.skip hr, hlinked, hoffsets⟩

theorem HasCopy.append {own : List EbpfInst} {copies : List (ℕ × List EbpfInst)} {name : String}
    {target : ℕ} (h : HasCopy F st i own copies name target) (c : ℕ × List EbpfInst) :
    HasCopy F st i own (copies ++ [c]) name target := by
  obtain ⟨n, c', hc', htarget, hr⟩ := h
  have hn : n < copies.length := (List.getElem?_eq_some_iff.mp hc').1
  refine ⟨n, c', (List.getElem?_append_left hn).trans hc', ?_, hr⟩
  rw [htarget, copyStart, copyStart, List.take_append_of_le_length hn.le]

/-- A copy of the function is put behind the program. -/
theorem Linker.InLoop.insertCopy (h : s.InLoop F st desiredSection i done offsets)
    (hr : r ∈ st.functionRelocations) (hi : UnconfusedFrom F st desiredSection i → r.progIndex = i)
    (hfinds : Finds F st r j) (hj : j ∈ s.resolved) (hp : s.rawPrograms[i]? = some p) (hs' : s.insertCopy i p.prog.length j = .ok s') :
    Advanced F st desiredSection {i} s s' "" ∧
      s'.InLoop F st desiredSection i done ((r.targetFunctionName, p.prog.length) :: offsets) := by
  obtain ⟨p', sub, hp', hsub, rfl⟩ := Linker.insertCopy_spec hs'
  obtain rfl := Option.some.inj (hp.symm.trans hp')
  have hadvanced := @Linker.Valid.set _ _ (p.insertCopy p.prog.length sub) _ _ _ _ h.valid h.visiting hp rfl ""
  refine ⟨hadvanced, hadvanced.valid, h.visiting, fun hclean p₁ q hp₁ hq => ?_⟩
  obtain ⟨own, copies, hcode, hpartly, hlinked, hoffsets⟩ := h.progress hclean p q hp hq
  rw [List.getElem?_set_self (List.getElem?_eq_some_iff.mp hp).1] at hp₁
  obtain rfl := Option.some.inj hp₁
  have hcalls : CallsFunction F st i j := ⟨r, hr, hi hclean, hfinds⟩
  have hdenotes : Denotes F st r j := hclean.self.inSection r hr (hi hclean) j hfinds
  refine ⟨own, copies ++ [(j, sub.prog)], ?_, hpartly.insert ⟨r, hr, hi hclean, hdenotes⟩, ?_, ?_⟩
  · show p.prog ++ sub.prog = _
    rw [hcode, List.flatMap_append, List.append_assoc, List.flatMap_singleton]
  · intro c hc
    rcases List.mem_append.mp hc with hc | hc
    · exact hlinked c hc
    · obtain rfl := List.mem_singleton.mp hc
      exact h.valid.linked j hj sub hsub (hclean.callee hcalls)
  · intro name target htarget
    rw [List.lookup_cons] at htarget
    split at htarget
    · next hname =>
      obtain rfl := Option.some.inj htarget
      refine ⟨copies.length, (j, sub.prog), List.getElem?_concat_length, ?_, r, hr, hi hclean, ?_,
        hdenotes⟩
      · rw [hcode, ← copyStart_length, copyStart, copyStart, List.take_left, List.take_length]
      · exact (beq_iff_eq.mp hname).symm
    · exact (hoffsets name target htarget).append _

/-- The call at a relocation jumps to the copy that is noted for its name. -/
theorem Linker.InLoop.setTarget (h : s.InLoop F st desiredSection i done offsets)
    (hst : st.Loaded F (programPlaces F)) (hr : done ++ [r] <+: st.functionRelocations)
    (hi : UnconfusedFrom F st desiredSection i → r.progIndex = i) {target : ℕ}
    (htarget : offsets.lookup r.targetFunctionName = some target) (hs' : s.setTarget i r target = .ok s') :
    Advanced F st desiredSection {i} s s' "" ∧ s'.InLoop F st desiredSection i (done ++ [r]) offsets := by
  obtain ⟨p, p', hp, hp', rfl⟩ := Linker.setTarget_spec hs'
  obtain ⟨inst, imm, hinst, himm, hsignature, hprog⟩ := RawProgram.setTarget_spec hp'
  have hadvanced := h.valid.set h.visiting hp hsignature ""
  refine ⟨hadvanced, hadvanced.valid, h.visiting, fun hclean p₁ q hp₁ hq => ?_⟩
  obtain ⟨own, copies, hcode, hpartly, hlinked, hoffsets⟩ := h.progress hclean p q hp hq
  rw [List.getElem?_set_self (List.getElem?_eq_some_iff.mp hp).1] at hp₁
  obtain rfl := Option.some.inj hp₁
  have hmem : ∀ r' ∈ done, r' ∈ st.functionRelocations := fun r' hr' =>
    hr.subset (List.mem_append_left _ hr')
  have hrmem : r ∈ st.functionRelocations := hr.subset (List.mem_append_right _ (List.mem_singleton_self r))
  obtain ⟨n, c, hc, hstart, r', hr', hi', hname, hdenotes⟩ := hoffsets _ _ htarget
  have hsame := hclean.self.same
  have hdenotes : Denotes F st r c.1 :=
    (hsame r' hr' r hrmem hi' (hi hclean) (Or.inl hname)).denotes hdenotes
  obtain ⟨q', hq', hqueued⟩ := hst.relocs r hrmem
  rw [hi hclean] at hq'
  obtain rfl := Option.some.inj (hq.symm.trans hq')
  obtain ⟨inst₀, hinst₀⟩ : ∃ inst₀, q.prog[r.sourceOffset]? = some inst₀ :=
    ⟨_, List.getElem?_eq_getElem hqueued.sourceOffset⟩
  obtain ⟨imm₀, hown⟩ := hpartly.inst hinst₀
  have hlt : r.sourceOffset < own.length := (List.getElem?_eq_some_iff.mp hown).1
  have hinst' : own[r.sourceOffset]? = some inst := by
    rw [← hinst, hcode, List.getElem?_append_left hlt]
  obtain rfl := Option.some.inj (hown.symm.trans hinst')
  refine ⟨own.set r.sourceOffset { inst₀ with imm := imm }, copies, ?_, ?_, hlinked, ?_⟩
  · rw [hprog, hcode, List.set_append_left _ _ hlt]
  · refine hpartly.setTarget (hi hclean) hc hdenotes hinst₀ (himm.trans (by rw [hstart])) ?_
    intro r'' hr'' hi'' hoffset
    exact hsame r hrmem r'' (hmem r'' hr'') (hi hclean) hi'' (Or.inr hoffset)
  · intro name target' htarget'
    obtain ⟨m, c', hc', hstart', hr''⟩ := hoffsets name target' htarget'
    refine ⟨m, c', hc', ?_, hr''⟩
    rw [hstart', copyStart, copyStart, List.length_set]

/-! ## The recursion -/

/-- What a call of `append_subprograms` ensures. -/
structure Appended (F : ElfFile) (st : ProgramReader) (desiredSection : String) (i : ℕ) (s s' : Linker)
    (err : String) : Prop extends Advanced F st desiredSection ∅ s s' err where
  resolved : err = "" → i ∈ s'.resolved
  found : UnconfusedFrom F st desiredSection i → desiredSection = "" → err = ""

variable (F st desiredSection) in
/-- Every call from a valid state ensures it. -/
def Appends (append : ℕ → Linker → Except ElfError (String × Linker)) : Prop :=
  ∀ i s err s', s.Valid F st desiredSection → append i s = .ok (err, s') →
    Appended F st desiredSection i s s' err

variable {append : ℕ → Linker → Except ElfError (String × Linker)} {err : String}

/-- Linking finds what is found among the programs as they were loaded. -/
theorem Linker.Valid.finds (hs : s.Valid F st desiredSection) {sec : ElfSection}
    (hsec : F.sections[(F.getSymbolDetails r.relocationEntryIndex).sectionIndex]? = some sec)
    (hj : findSubprogram s.rawPrograms sec.name (F.getSymbolDetails r.relocationEntryIndex).name = some j) :
    Finds F st r j := by
  have hname : F.sectionName (F.getSymbolDetails r.relocationEntryIndex).sectionIndex = sec.name := by
    rw [ElfFile.sectionName, hsec]
    rfl
  rw [Finds, hname, ← findSubprogram_congr hs.signatures]
  exact hj

/-- A function that is denoted is found. -/
theorem Denotes.findSubprogram_ne_none (h : Denotes F st r j) (hst : st.Loaded F (programPlaces F))
    (hs : s.Valid F st desiredSection) {sec : ElfSection}
    (hsec : F.sections[(F.getSymbolDetails r.relocationEntryIndex).sectionIndex]? = some sec) :
    findSubprogram s.rawPrograms sec.name (F.getSymbolDetails r.relocationEntryIndex).name ≠ none := by
  obtain ⟨p, place, hp, hplace, hsection, hname⟩ := h
  obtain ⟨q, hq, hsection', hname', -⟩ := exists_of_signatures hs.signatures.symm hp
  have hp' : p.sectionName = sec.name := by
    have hmap : (st.rawPrograms.map RawProgram.sectionName)[j]? = some place.1.1.name := by
      rw [hst.sections, List.getElem?_map, hplace]
      rfl
    rw [List.getElem?_map, hp] at hmap
    rw [← hsection, mem_programPlaces (List.mem_of_getElem? hplace)] at hsec
    rw [Option.some.inj hmap, Option.some.inj hsec]
  rw [← hp', ← hsection', ← hname, ← hname']
  exact Prevail.findSubprogram_ne_none hq

theorem appendTarget_spec (happend : Appends F st desiredSection append)
    (hs : s.InLoop F st desiredSection i done offsets) (hst : st.Loaded F (programPlaces F))
    (hr : r ∈ st.functionRelocations) (hi : UnconfusedFrom F st desiredSection i → r.progIndex = i)
    (hp : s.rawPrograms[i]? = some p) (h : appendTarget F append i r p.prog.length s = .ok (err, s')) :
    Advanced F st desiredSection {i} s s' err ∧
      (err = "" →
        s'.InLoop F st desiredSection i done ((r.targetFunctionName, p.prog.length) :: offsets)) ∧
      (UnconfusedFrom F st desiredSection i → desiredSection = "" → err = "") := by
  unfold appendTarget at h
  cases hsec : F.sections[(F.getSymbolDetails r.relocationEntryIndex).sectionIndex]? with
  | none =>
    simp only [hsec] at h
    cases h
  | some sec =>
  simp only [hsec] at h
  cases hfound : findSubprogram s.rawPrograms sec.name (F.getSymbolDetails r.relocationEntryIndex).name with
  | none =>
    simp only [hfound] at h
    cases h
    refine ⟨hs.valid.advanced _ _, fun herr => absurd herr ?_, fun hclean hdesired => ?_⟩
    · intro hempty
      exact absurd (String.append_eq_empty_iff.mp hempty).1 (by decide)
    · obtain ⟨j, hj⟩ := hclean.self.found hdesired r hr (hi hclean)
      exact absurd hfound (hj.findSubprogram_ne_none hst hs.valid hsec)
  | some j =>
    simp only [hfound] at h
    obtain ⟨-, h⟩ := Except.guard_eq_ok.mp h
    obtain ⟨⟨err₁, s₁⟩, hs₁, h⟩ := Except.bind_eq_ok.mp h
    have hcall := happend j s err₁ s₁ hs.valid hs₁
    have hfinds : Finds F st r j := hs.valid.finds hsec hfound
    have hclear : UnconfusedFrom F st desiredSection i → desiredSection = "" → err₁ = "" :=
      fun hclean => hcall.found (hclean.callee ⟨r, hr, hi hclean, hfinds⟩)
    dsimp only at h
    by_cases herr : err₁ = ""
    · rw [if_neg (not_not.mpr herr)] at h
      obtain ⟨s₂, hs₂, h⟩ := Except.bind_eq_ok.mp h
      cases h
      subst herr
      have hp₁ : s₁.rawPrograms[i]? = some p :=
        (hcall.untouched i hs.visiting (Set.notMem_empty i)).trans hp
      obtain ⟨hadvanced, hloop⟩ := (hs.advance hcall.toAdvanced).insertCopy hr hi hfinds
        (hcall.resolved rfl) hp₁ hs₂
      exact ⟨hcall.toAdvanced.mono.trans hadvanced, fun _ => hloop, fun _ _ => rfl⟩
    · rw [if_pos herr] at h
      cases h
      exact ⟨hcall.toAdvanced.mono, fun herr' => absurd herr' herr, hclear⟩

theorem linkRelocation_spec (happend : Appends F st desiredSection append)
    (hs : s.InLoop F st desiredSection i done offsets) (hst : st.Loaded F (programPlaces F))
    (hr : done ++ [r] <+: st.functionRelocations) {offsets' : SubprogramOffsets}
    (h : linkRelocation F append i r s offsets = .ok (err, s', offsets')) :
    Advanced F st desiredSection {i} s s' err ∧
      (err = "" → s'.InLoop F st desiredSection i (done ++ [r]) offsets') ∧
      (UnconfusedFrom F st desiredSection i → desiredSection = "" → err = "") := by
  have hrmem : r ∈ st.functionRelocations := hr.subset (List.mem_append_right _ (List.mem_singleton_self r))
  unfold linkRelocation at h
  split at h
  · cases h
  · next p hp hcaller =>
    cases h
    obtain ⟨q, hq, -⟩ := hst.relocs r hrmem
    obtain ⟨q', hq', -⟩ := exists_of_signatures hs.valid.signatures.symm hq
    rw [hcaller] at hq'
    cases hq'
  · next p caller hp hcaller =>
    by_cases hname : caller.functionName ≠ p.functionName
    · rw [if_pos hname] at h
      cases h
      refine ⟨hs.valid.advanced _ _, fun _ => hs.skip ?_, fun _ _ => rfl⟩
      rintro rfl
      obtain rfl := Option.some.inj (hcaller.symm.trans hp)
      exact hname rfl
    rw [if_neg hname] at h
    have hi : UnconfusedFrom F st desiredSection i → r.progIndex = i := fun hclean => by
      obtain ⟨p₀, hp₀, -, hpname, -⟩ := exists_of_signatures hs.valid.signatures hp
      obtain ⟨q₀, hq₀, -, hqname, -⟩ := exists_of_signatures hs.valid.signatures hcaller
      refine hclean.self.own r hrmem p₀ q₀ hp₀ hq₀ ?_
      rw [hqname, hpname]
      exact not_not.mp hname
    split at h
    · next target htarget =>
      obtain ⟨s₁, hs₁, h⟩ := Except.bind_eq_ok.mp h
      cases h
      obtain ⟨hadvanced, hloop⟩ := hs.setTarget hst hr hi htarget hs₁
      exact ⟨hadvanced, fun _ => hloop, fun _ _ => rfl⟩
    · obtain ⟨⟨err₁, s₁⟩, hs₁, h⟩ := Except.bind_eq_ok.mp h
      obtain ⟨hadvanced, hloop, hfound⟩ := appendTarget_spec happend hs hst hrmem hi hp hs₁
      dsimp only at h
      by_cases herr : err₁ = ""
      · rw [if_neg (not_not.mpr herr)] at h
        obtain ⟨s₂, hs₂, h⟩ := Except.bind_eq_ok.mp h
        cases h
        subst herr
        obtain ⟨hadvanced', hloop'⟩ := (hloop rfl).setTarget hst hr hi List.lookup_cons_self hs₂
        exact ⟨hadvanced.trans hadvanced', fun _ => hloop', fun _ _ => rfl⟩
      · rw [if_pos herr] at h
        cases h
        exact ⟨hadvanced, fun herr' => absurd herr' herr, hfound⟩

/-- The loop links the program for all relocations that are left. -/
theorem linkRelocations_spec (happend : Appends F st desiredSection append)
    (hst : st.Loaded F (programPlaces F)) {rest : List FunctionRelocation}
    (hrest : done ++ rest = st.functionRelocations) (hs : s.InLoop F st desiredSection i done offsets)
    (h : linkRelocations F append i rest s offsets = .ok (err, s')) :
    Advanced F st desiredSection {i} s s' err ∧
      (err = "" → ∃ offsets', s'.InLoop F st desiredSection i st.functionRelocations offsets') ∧
      (UnconfusedFrom F st desiredSection i → desiredSection = "" → err = "") := by
  induction rest generalizing done s offsets with
  | nil =>
    cases h
    rw [List.append_nil] at hrest
    exact ⟨hs.valid.advanced _ _, fun _ => ⟨offsets, hrest ▸ hs⟩, fun _ _ => rfl⟩
  | cons r rest ih =>
    rw [linkRelocations] at h
    obtain ⟨⟨err₁, s₁, offsets₁⟩, hs₁, h⟩ := Except.bind_eq_ok.mp h
    have hrest' : done ++ [r] ++ rest = st.functionRelocations := by
      rw [List.append_assoc]
      exact hrest
    obtain ⟨hadvanced, hloop, hfound⟩ := linkRelocation_spec happend hs hst ⟨rest, hrest'⟩ hs₁
    dsimp only at h
    by_cases herr : err₁ = ""
    · rw [if_neg (not_not.mpr herr)] at h
      obtain ⟨hadvanced', hloop', hfound'⟩ := ih hrest' (hloop herr) h
      subst herr
      exact ⟨hadvanced.trans hadvanced', hloop', hfound'⟩
    · rw [if_pos herr] at h
      cases h
      exact ⟨hadvanced, fun herr' => absurd herr' herr, hfound⟩

/-- Every call of `append_subprograms` links its program. -/
theorem appends_appendSubprograms (hst : st.Loaded F (programPlaces F)) (fuel : ℕ) :
    Appends F st desiredSection (appendSubprograms F st.functionRelocations fuel) := by
  induction fuel with
  | zero =>
    intro i s err s' _ h
    cases h
  | succ fuel ih =>
    intro i s err s' hs h
    rw [appendSubprograms] at h
    by_cases hresolved : i ∈ s.resolved
    · rw [if_pos hresolved] at h
      cases h
      exact ⟨hs.advanced _ _, fun _ => hresolved, fun _ _ => rfl⟩
    rw [if_neg hresolved] at h
    obtain ⟨hvisiting, h⟩ := Except.guard_eq_ok.mp h
    obtain ⟨⟨err₁, s₁⟩, hs₁, h⟩ := Except.bind_eq_ok.mp h
    have hloop : Linker.InLoop F st desiredSection i [] { s with visiting := i :: s.visiting } [] := by
      refine ⟨⟨hs.signatures, ?_, ?_, hs.linked⟩, List.mem_cons_self, fun hclean p q hp hq => ?_⟩
      · intro k hk
        rcases List.mem_cons.mp hk with rfl | hk
        · exact hresolved
        · exact hs.apart k hk
      · intro k pk qk hk hk' hpk hqk
        exact hs.original k pk qk hk (fun hk'' => hk' (List.mem_cons_of_mem _ hk'')) hpk hqk
      · refine ⟨q.prog, [], ?_, partlyLinked_nil, by simp, by simp⟩
        rw [hs.original i p q hresolved hvisiting hp hq]
        simp
    obtain ⟨hadvanced, hdone, hfound⟩ := linkRelocations_spec ih hst (List.nil_append _) hloop hs₁
    have huntouched : ∀ k ∈ s.visiting, s₁.rawPrograms[k]? = s.rawPrograms[k]? := fun k hk =>
      hadvanced.untouched k (List.mem_cons_of_mem _ hk) (by rintro rfl; exact hvisiting hk)
    have hsubset : s.visiting ⊆ s₁.visiting := fun k hk => hadvanced.visiting (List.mem_cons_of_mem _ hk)
    dsimp only at h
    by_cases herr : err₁ = ""
    · rw [if_neg (not_not.mpr herr)] at h
      cases h
      obtain ⟨offsets, hdone⟩ := hdone herr
      have hsteady : s₁.visiting.erase i = s.visiting := by
        rw [hadvanced.steady herr, List.erase_cons_head]
      refine ⟨⟨⟨hdone.valid.signatures, ?_, ?_, ?_⟩, ?_, ?_, fun k hk _ => huntouched k hk, fun _ => hsteady⟩,
        fun _ => List.mem_cons_self, fun _ _ => rfl⟩
      · intro k hk hk'
        rw [hsteady] at hk
        rcases List.mem_cons.mp hk' with rfl | hk'
        · exact hvisiting hk
        · exact hdone.valid.apart k (hsubset hk) hk'
      · intro k pk qk hk hk' hpk hqk
        rw [hsteady] at hk'
        refine hdone.valid.original k pk qk (fun hk'' => hk (List.mem_cons_of_mem _ hk'')) ?_ hpk hqk
        rw [hadvanced.steady herr]
        intro hk''
        rcases List.mem_cons.mp hk'' with rfl | hk''
        · exact hk List.mem_cons_self
        · exact hk' hk''
      · intro k hk pk hpk hclean
        rcases List.mem_cons.mp hk with rfl | hk
        · obtain ⟨q, hq, -⟩ := exists_of_signatures hdone.valid.signatures hpk
          obtain ⟨own, copies, hcode, hpartly, hlinked, -⟩ := hdone.progress hclean pk q hpk hq
          rw [hcode]
          exact .intro hq hpartly hlinked
        · exact hdone.valid.linked k hk pk hpk hclean
      · exact fun k hk => List.mem_cons_of_mem _ (hadvanced.kept hk)
      · rw [hsteady]
        exact fun k hk => hk
    · rw [if_pos herr] at h
      cases h
      exact ⟨⟨hadvanced.valid, hadvanced.kept, hsubset, fun k hk _ => huntouched k hk,
        fun herr' => absurd herr' herr⟩, fun herr' => absurd herr' herr, hfound⟩

/-! ## All programs -/

variable (F st desiredSection) in
/-- The programs that are returned are linked, as far as `ok` says so. -/
def Linker.ReturnsLinked (ok : ℕ → Prop) (s : Linker) : Prop :=
  ∀ i p, s.rawPrograms[i]? = some p → p.desired desiredSection = true → ok i → LinkedCode F st i p.prog

/-- One turn resolves its program, if that is returned and nothing is confused. -/
theorem linkProgram_spec (hst : st.Loaded F (programPlaces F)) (hs : s.Valid F st desiredSection)
    (h : linkProgram F st.functionRelocations desiredSection s i = .ok s') :
    s'.Valid F st desiredSection ∧ s.resolved ⊆ s'.resolved ∧
      ∀ p, s'.rawPrograms[i]? = some p → p.desired desiredSection = true →
        UnconfusedFrom F st desiredSection i → i ∈ s'.resolved := by
  obtain ⟨⟨err, s₁⟩, hs₁, h⟩ := Except.bind_eq_ok.mp h
  have hcall := appends_appendSubprograms hst _ i s err s₁ hs hs₁
  obtain ⟨herr, h⟩ := Except.guard_eq_ok.mp h
  cases h
  refine ⟨hcall.valid, hcall.kept, fun p hp hdesired hclean => hcall.resolved ?_⟩
  by_cases hsection : desiredSection = ""
  · exact hcall.found hclean hsection
  · have hname : p.sectionName = desiredSection := by
      rw [RawProgram.desired, Bool.or_eq_true, decide_eq_true_eq, decide_eq_true_eq] at hdesired
      exact hdesired.resolve_left hsection
    by_contra hne
    refine herr ⟨hne, ?_⟩
    rw [hp, ← hname]
    rfl

theorem returnsLinked_of_linkPrograms (hst : st.Loaded F (programPlaces F))
    (h : linkPrograms F st.functionRelocations desiredSection st.rawPrograms = .ok s) :
    signatures s.rawPrograms = signatures st.rawPrograms ∧
      s.ReturnsLinked F st desiredSection (UnconfusedFrom F st desiredSection) := by
  have hvalid : Linker.Valid F st desiredSection ⟨st.rawPrograms, [], []⟩ := by
    refine ⟨rfl, by simp, fun i p q _ _ hp hq => ?_, by simp⟩
    rw [Option.some.inj (hp.symm.trans hq)]
  have hrun := Except.foldlM_induction (fun done (s : Linker) => s.Valid F st desiredSection ∧
      ∀ i ∈ done, ∀ p, s.rawPrograms[i]? = some p → p.desired desiredSection = true →
        UnconfusedFrom F st desiredSection i → i ∈ s.resolved) h ⟨hvalid, by simp⟩
    fun done i s s' _ hs hstep => by
      obtain ⟨hs', hkept, hresolved⟩ := linkProgram_spec hst hs.1 hstep
      refine ⟨hs', fun k hk p hp hdesired hclean => ?_⟩
      rcases List.mem_append.mp hk with hk | hk
      · obtain ⟨q, hq, hsection, -⟩ := exists_of_signatures (hs'.signatures.trans hs.1.signatures.symm) hp
        refine hkept (hs.2 k hk q hq ?_ hclean)
        rw [RawProgram.desired, hsection]
        exact hdesired
      · obtain rfl := List.mem_singleton.mp hk
        exact hresolved p hp hdesired hclean
  refine ⟨hrun.1.signatures, fun i p hp hdesired hclean => hrun.1.linked i (hrun.2 i ?_ p hp hdesired hclean) p hp
    hclean⟩
  have hlength : s.rawPrograms.length = st.rawPrograms.length := by
    have hnames := congrArg List.length hrun.1.signatures
    rwa [signatures, signatures, List.length_map, List.length_map] at hnames
  rw [List.mem_range, ← hlength]
  exact (List.getElem?_eq_some_iff.mp hp).1

/-- The programs that are returned have the descriptors of the file. -/
theorem mapDescriptors_of_readPrograms {L : Libbtf} {G : ElfGlobalData}
    (h : readPrograms L F G desiredSection = .ok programs) :
    ∀ p ∈ programs, p.mapDescriptors = G.mapDescriptors := by
  obtain ⟨st, hst, h⟩ := Except.bind_eq_ok.mp h
  obtain ⟨s, hs, h⟩ := Except.bind_eq_ok.mp h
  obtain ⟨-, h⟩ := Except.guard_eq_ok.mp h
  cases h
  intro p hp
  obtain ⟨i, hi⟩ := List.mem_iff_getElem?.mp (List.mem_filter.mp hp).1
  obtain ⟨q, hq, -, -, hdescriptors⟩ := exists_of_signatures
    (returnsLinked_of_linkPrograms (loaded_of_loadPrograms hst) hs).1 hi
  rw [← hdescriptors, mapDescriptors_of_loadPrograms hst q (List.mem_of_getElem? hq)]

/-- The programs that `read_elf` returns are linked when nothing is confused. -/
theorem linked_of_readElf {L : Libbtf} {cache cache' : MapCache}
    (h : (readElf L F desiredSection).read cache = (.ok programs, cache')) :
    ∃ G st s, (extractGlobalData L F).read cache = (.ok G, cache') ∧ loadPrograms L F G = .ok st ∧
      linkPrograms F st.functionRelocations desiredSection st.rawPrograms = .ok s ∧
      programs = s.rawPrograms.filter (·.desired desiredSection) ∧
      signatures s.rawPrograms = signatures st.rawPrograms ∧
      s.ReturnsLinked F st desiredSection (UnconfusedFrom F st desiredSection) := by
  obtain ⟨G, cache₁, hG, h⟩ := ReadM.read_bind_eq_ok.mp h
  obtain ⟨hread, rfl⟩ := ReadM.read_ofExcept_eq_ok.mp h
  obtain ⟨st, hst, h⟩ := Except.bind_eq_ok.mp hread
  obtain ⟨s, hs, h⟩ := Except.bind_eq_ok.mp h
  obtain ⟨-, h⟩ := Except.guard_eq_ok.mp h
  cases h
  obtain ⟨hnames, hlinked⟩ := returnsLinked_of_linkPrograms (loaded_of_loadPrograms hst) hs
  exact ⟨G, st, s, hG, hst, hs, rfl, hnames, hlinked⟩

/-! ## Two functions of one name -/

namespace TwoFunctions

/-- A section of code. -/
def code (name : String) (bytes : List (BitVec 8)) : ElfSection :=
  ⟨name, shtProgbits, true, bytes.length, some bytes, [], ElfSection.size_some _⟩

/-- `main` calls two functions by their symbols. There is a function `f` in `x` and one in `y`. -/
def file (symbol symbol' : ℕ) : ElfFile where
  sections := [
    ⟨"", 0, false, 0, none, [], ElfSection.size_none⟩,
    code "main" [0x85, 0x10, 0, 0, 0xff, 0xff, 0xff, 0xff, 0x85, 0x10, 0, 0, 0xff, 0xff, 0xff, 0xff,
      0x95, 0, 0, 0, 0, 0, 0, 0],
    code "x" [0xb7, 0, 0, 0, 1, 0, 0, 0, 0x95, 0, 0, 0, 0, 0, 0, 0],
    code "y" [0xb7, 0, 0, 0, 2, 0, 0, 0, 0x95, 0, 0, 0, 0, 0, 0, 0],
    ⟨".relmain", 9, false, 0, some [], [⟨0, symbol, 10, 0⟩, ⟨8, symbol', 10, 0⟩],
      ElfSection.size_nil⟩]
  symbols := [⟨"", 0, 0, 0, 0⟩, ⟨"main", 0, 24, 2, 1⟩, ⟨"f", 0, 16, 2, 2⟩, ⟨"f", 0, 16, 2, 3⟩]

def noTypes : Libbtf :=
  ⟨fun _ => .error .thrown, fun _ => .error .thrown, fun _ _ => .error .thrown⟩

def call (imm : BitVec 32) : EbpfInst := ⟨0x85, 0, 1, 0, imm⟩

def mov (imm : BitVec 32) : EbpfInst := ⟨0xb7, 0, 0, 0, imm⟩

def exit : EbpfInst := ⟨0x95, 0, 0, 0, 0⟩

def program (sectionName functionName : String) (prog : List EbpfInst) : RawProgram :=
  ⟨sectionName, 0, functionName, prog, [], ∅⟩

/-- The programs before they are linked. -/
def loaded (symbol symbol' : ℕ) : ProgramReader :=
  ⟨[program "main" "main" [call (-1), call (-1), exit], program "x" "f" [mov 1, exit],
    program "y" "f" [mov 2, exit]], [⟨0, 0, symbol, "f"⟩, ⟨0, 1, symbol', "f"⟩], []⟩

/-- The programs when they are linked: both calls of `main` jump to the function of `x`. -/
def linked : Linker :=
  ⟨[program "main" "main" [call 2, call 1, exit, mov 1, exit], program "x" "f" [mov 1, exit],
    program "y" "f" [mov 2, exit]], [2, 0, 1], []⟩

theorem places (symbol symbol' : ℕ) : (programPlaces (file symbol symbol')).map (fun place => place.1.2) =
    [1, 2, 3] := rfl

theorem denotes {symbol symbol' : ℕ} {r : FunctionRelocation} {j : ℕ}
    (h : Denotes (file symbol symbol') (loaded symbol symbol') r j) :
    ((file symbol symbol').getSymbolDetails r.relocationEntryIndex).sectionIndex = j + 1 := by
  obtain ⟨p, place, -, hplace, hsection, -⟩ := h
  have hindex : [1, 2, 3][j]? = some place.1.2 := by
    rw [← places symbol symbol', List.getElem?_map, hplace]
    rfl
  rw [← hsection]
  match j, hindex with
  | 0, h | 1, h | 2, h => exact (Option.some.inj h).symm

/-- The second call of `main` does not jump to its function. -/
theorem not_linkedCode : ¬ LinkedCode (file 2 3) (loaded 2 3) 0
    [call 2, call 1, exit, mov 1, exit] := by
  intro h
  obtain ⟨j, callee, inst, target, hdenotes, hcallee, hinst, htarget, hprefix⟩ :=
    h.call (r := ⟨0, 1, 3, "f"⟩) (by decide) rfl
  have hplace : 3 = j + 1 := denotes hdenotes
  obtain rfl : j = 2 := by omega
  obtain rfl : call 1 = inst := Option.some.inj hinst
  have hjump : (1 : ℤ) + 1 + 1 = target := htarget
  obtain rfl : target = 3 := by omega
  -- The function of `y` loads two, and what the call jumps to loads one.
  obtain ⟨p, hp, hown⟩ := hcallee.own
  obtain rfl : program "y" "f" [mov 2, exit] = p := Option.some.inj hp
  have htwo : callee[0]? = some (mov 2) := hown 0 (by decide) (by decide)
  obtain ⟨rest, hrest⟩ := hprefix
  have hone : (callee ++ rest)[0]? = some (mov 1) := by
    rw [hrest]
    rfl
  rw [List.getElem?_append_left (List.getElem?_eq_some_iff.mp htwo).1, htwo] at hone
  exact absurd hone (by decide)

theorem mem_relocations {symbol symbol' : ℕ} {r : FunctionRelocation}
    (h : r ∈ (loaded symbol symbol').functionRelocations) :
    r = ⟨0, 0, symbol, "f"⟩ ∨ r = ⟨0, 1, symbol', "f"⟩ := by
  rcases List.mem_cons.mp h with rfl | h
  · exact Or.inl rfl
  · exact Or.inr (List.mem_singleton.mp h)

theorem finds {r : FunctionRelocation} {j : ℕ} (hr : r ∈ (loaded 2 2).functionRelocations)
    (h : Finds (file 2 2) (loaded 2 2) r j) : j = 1 := by
  have hfound : findSubprogram (loaded 2 2).rawPrograms "x" "f" = some 1 := by decide
  rcases mem_relocations hr with rfl | rfl <;> exact Option.some.inj (h.symm.trans hfound)

/-- Both calls of `main` may be for the function of `x`. -/
theorem unconfused {i : ℕ} (hi : i = 0 ∨ i = 1) : Unconfused (file 2 2) (loaded 2 2) "main" i := by
  refine ⟨?_, ?_, ?_, fun h => absurd h (by decide)⟩
  · intro r hr p q hp hq hname
    have hr0 : r.progIndex = 0 := by rcases mem_relocations hr with rfl | rfl <;> rfl
    rw [hr0] at hq ⊢
    rcases hi with rfl | rfl
    · rfl
    · cases hp
      cases hq
      exact absurd hname (by decide)
  · intro r hr r' hr' _ _ _
    rcases mem_relocations hr with rfl | rfl <;> rcases mem_relocations hr' with rfl | rfl <;>
      exact ⟨rfl, rfl⟩
  · intro r hr _ j hfinds
    obtain rfl := finds hr hfinds
    refine ⟨_, _, rfl, rfl, ?_⟩
    rcases mem_relocations hr with rfl | rfl <;> exact ⟨rfl, rfl⟩

theorem unconfusedFrom : UnconfusedFrom (file 2 2) (loaded 2 2) "main" 0 := by
  intro i hi
  refine unconfused ?_
  induction hi with
  | refl => exact Or.inl rfl
  | @tail _ j _ hcalls _ =>
    obtain ⟨r, hr, -, hfinds⟩ := hcalls
    exact Or.inr (finds hr hfinds)

end TwoFunctions

open TwoFunctions in
/-- Functions in different sections that share a name are confused. -/
theorem not_linked_twoFunctions : ∃ programs st s,
    (readElf noTypes (file 2 3) "main").read [] = (.ok programs, []) ∧
      loadPrograms noTypes (file 2 3) ⟨[], [], .inr [], []⟩ = .ok st ∧
      linkPrograms (file 2 3) st.functionRelocations "main" st.rawPrograms = .ok s ∧
      programs = s.rawPrograms.filter (·.desired "main") ∧
      ¬ s.ReturnsLinked (file 2 3) st "main" fun _ => True := by
  refine ⟨[program "main" "main" [call 2, call 1, exit, mov 1, exit]], loaded 2 3, linked, ?_, ?_, ?_, ?_,
    fun h => not_linkedCode (h 0 _ rfl (by decide) trivial)⟩
  · decide
  · decide
  · decide
  · decide

open TwoFunctions in
theorem linked_of_readElf_twoCalls : ∃ programs st s,
    (extractGlobalData noTypes (file 2 2)).read [] = (.ok ⟨[], [], .inr [], []⟩, []) ∧
      loadPrograms noTypes (file 2 2) ⟨[], [], .inr [], []⟩ = .ok st ∧
      linkPrograms (file 2 2) st.functionRelocations "main" st.rawPrograms = .ok s ∧
      programs = s.rawPrograms.filter (·.desired "main") ∧
      ∃ p, s.rawPrograms[0]? = some p ∧ LinkedCode (file 2 2) st 0 p.prog := by
  have hread : (readElf noTypes (file 2 2) "main").read [] =
      (.ok [program "main" "main" [call 2, call 1, exit, mov 1, exit]], []) := by
    decide
  obtain ⟨G, st, s, hG, hst, hs, hprograms, -, hlinked⟩ := linked_of_readElf hread
  have hG' : (extractGlobalData noTypes (file 2 2)).read [] = (.ok ⟨[], [], .inr [], []⟩, []) := by
    decide
  obtain rfl := Except.ok.inj (Prod.mk.inj (hG'.symm.trans hG)).1
  have hst' : loadPrograms noTypes (file 2 2) ⟨[], [], .inr [], []⟩ = .ok (loaded 2 2) := by
    decide
  obtain rfl := Except.ok.inj (hst'.symm.trans hst)
  have hs' : linkPrograms (file 2 2) (loaded 2 2).functionRelocations "main" (loaded 2 2).rawPrograms =
      .ok linked := by
    decide
  obtain rfl := Except.ok.inj (hs'.symm.trans hs)
  exact ⟨_, _, _, hG', hst', hs', hprograms, _, rfl, hlinked 0 _ rfl (by decide) unconfusedFrom⟩

end Prevail
