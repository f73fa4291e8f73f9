import Prevail.Elf.FieldAccess
import Prevail.Elf.Subprograms

/-!
# Relocated fields

A CO-RE relocation sets the immediate of one instruction, in the first program that holds its offset
(`applyToFirst_eq_ok`). For the offset of a field this is what it should do when that program is in the
section of the relocation and when the first index, read as a member or an element, happens to give the
offset that it has in C (`relocatesField_iff`).
-/

namespace Prevail

/-! ## Setting an immediate -/

variable {programs out qs : List RawProgram} {p : RawProgram} {i j i' j' offset : ℕ} {c c' : BitVec 32}

/-- The immediate of one instruction is set. -/
def setImm (programs : List RawProgram) (i j : ℕ) (c : BitVec 32) : List RawProgram :=
  programs.modify i fun p => { p with prog := p.prog.modify j fun inst => { inst with imm := c } }

def immAt (programs : List RawProgram) (i j : ℕ) : Option (BitVec 32) :=
  (programs[i]?.bind fun p => p.prog[j]?).map EbpfInst.imm

theorem immAt_setImm : immAt (setImm programs i j c) i' j' =
    if i = i' ∧ j = j' then (immAt programs i j).map fun _ => c else immAt programs i' j' := by
  unfold immAt setImm
  rw [List.getElem?_modify]
  by_cases hi : i = i'
  · subst hi
    cases hp : programs[i]? with
    | none => simp
    | some p =>
      by_cases hj : j = j'
      · subst hj
        cases hinst : p.prog[j]? <;> simp [hinst]
      · simp [hj]
  · simp [hi]

/-- The same sections, offsets and numbers of instructions. -/
structure SameLayout (p q : RawProgram) : Prop where
  sectionName : p.sectionName = q.sectionName
  insnOff : p.insnOff = q.insnOff
  length : p.prog.length = q.prog.length

/-- The step sets one immediate, whatever the instructions are. -/
def SetsImmediate (step : List RawProgram → Except ElfError (List RawProgram)) (programs : List RawProgram)
    (i j : ℕ) (c : BitVec 32) : Prop :=
  ∀ qs, List.Forall₂ SameLayout programs qs → step qs = .ok (setImm qs i j c)

/-- All immediates are `v`. -/
def blank (v : BitVec 32) (p : RawProgram) : RawProgram :=
  { p with prog := p.prog.map fun inst => { inst with imm := v } }

theorem sameLayout_blank (v : BitVec 32) (programs : List RawProgram) :
    List.Forall₂ SameLayout programs (programs.map (blank v)) := by
  rw [List.forall₂_map_right_iff]
  exact List.forall₂_same.mpr fun p _ => ⟨rfl, rfl, (List.length_map _).symm⟩

theorem immAt_blank {v : BitVec 32} (hp : programs[i]? = some p) (hj : j < p.prog.length) :
    immAt (programs.map (blank v)) i j = some v := by
  unfold immAt blank
  rw [List.getElem?_map, hp]
  simp [hj]

theorem exists_ne_both (c c' : BitVec 32) : ∃ v, v ≠ c ∧ v ≠ c' := by
  by_cases h0 : c = 0 ∨ c' = 0
  · by_cases h1 : c = 1 ∨ c' = 1
    · exact ⟨2, by grind⟩
    · exact ⟨1, by grind⟩
  · exact ⟨0, by grind⟩

/-- A step sets at most one immediate to one value. -/
theorem SetsImmediate.unique {step : List RawProgram → Except ElfError (List RawProgram)}
    (h : SetsImmediate step programs i j c) (h' : SetsImmediate step programs i' j' c')
    (hp : programs[i]? = some p) (hj : j < p.prog.length) : i' = i ∧ j' = j ∧ c' = c := by
  -- the immediates are told apart in programs that have none of the two values
  obtain ⟨v, hvc, -⟩ := exists_ne_both c c'
  have hlayout := sameLayout_blank v programs
  have hset : setImm (programs.map (blank v)) i j c = setImm (programs.map (blank v)) i' j' c' :=
    Except.ok.inj ((h _ hlayout).symm.trans (h' _ hlayout))
  have himm := congrArg (immAt · i j) hset
  simp only [immAt_setImm, and_self, if_true, immAt_blank hp hj, Option.map_some] at himm
  split_ifs at himm with hplace
  · obtain ⟨rfl, rfl⟩ := hplace
    rw [immAt_blank hp hj] at himm
    exact ⟨rfl, rfl, (Option.some.inj himm).symm⟩
  · exact absurd (Option.some.inj himm).symm hvc

/-! ## The program of a relocation -/

/-- The first program that holds an offset. -/
structure FirstHolder (programs : List RawProgram) (offset i : ℕ) (p : RawProgram) : Prop where
  get : programs[i]? = some p
  holds : p.Holds offset
  first : ∀ k q, k < i → programs[k]? = some q → ¬ q.Holds offset

theorem RawProgram.Holds.lt_length (h : p.Holds offset) : (offset - p.insnOff) / 8 < p.prog.length := by
  obtain ⟨hle, hlt⟩ := h
  omega

theorem SameLayout.holds_iff {q : RawProgram} (h : SameLayout p q) : p.Holds offset ↔ q.Holds offset := by
  unfold RawProgram.Holds
  rw [h.insnOff, h.length]

theorem FirstHolder.sameLayout (h : FirstHolder programs offset i p)
    (hqs : List.Forall₂ SameLayout programs qs) : ∃ q, FirstHolder qs offset i q ∧ SameLayout p q := by
  obtain ⟨hi, rfl⟩ := List.getElem?_eq_some_iff.mp h.get
  have hi' : i < qs.length := hqs.length_eq ▸ hi
  have hlayout : SameLayout programs[i] qs[i] := hqs.get hi hi'
  refine ⟨qs[i], ⟨List.getElem?_eq_getElem hi', hlayout.holds_iff.mp h.holds, fun k q hk hq hholds => ?_⟩,
    hlayout⟩
  obtain ⟨hk', rfl⟩ := List.getElem?_eq_some_iff.mp hq
  have hk'' : k < programs.length := hqs.length_eq ▸ hk'
  exact h.first k _ hk (List.getElem?_eq_getElem hk'') ((hqs.get hk'' hk').holds_iff.mpr hholds)

variable {B : BtfTypeData} {btf : List (BitVec 8)} {relo : BpfCoreRelo}

theorem applyCoreRelocation_eq_ok {q : RawProgram} (hp : p.Holds relo.insnOff) :
    applyCoreRelocation B btf relo p = .ok q ↔ ∃ imm, coreImmediate B btf relo = .ok imm ∧
      q = { p with prog := p.prog.modify ((relo.insnOff - p.insnOff) / 8) fun inst =>
        { inst with imm := imm } } := by
  have hget := List.getElem?_eq_getElem hp.lt_length
  unfold applyCoreRelocation
  simp only [hget, List.modify_eq_set_getElem?, Option.map_eq_map, Option.map_some, Option.getD_some]
  rw [Except.bind_eq_ok]
  refine exists_congr fun imm => and_congr Iff.rfl ?_
  exact ⟨fun h => (Except.ok.inj h).symm, fun h => congrArg _ h.symm⟩

theorem FirstHolder.cons_iff {p' : RawProgram} : FirstHolder (p :: programs) offset i p' ↔
    (i = 0 ∧ p' = p ∧ p.Holds offset) ∨
      ∃ k, i = k + 1 ∧ ¬ p.Holds offset ∧ FirstHolder programs offset k p' := by
  constructor
  · rintro ⟨hget, hholds, hfirst⟩
    cases i with
    | zero =>
      obtain rfl := Option.some.inj hget
      exact Or.inl ⟨rfl, rfl, hholds⟩
    | succ k =>
      exact Or.inr ⟨k, rfl, hfirst 0 p (Nat.succ_pos k) rfl, hget, hholds,
        fun m q hm hq => hfirst (m + 1) q (Nat.succ_lt_succ hm) hq⟩
  · rintro (⟨rfl, rfl, hholds⟩ | ⟨k, rfl, hp, h⟩)
    · exact ⟨rfl, hholds, fun k _ hk => absurd hk (Nat.not_lt_zero k)⟩
    · refine ⟨h.get, h.holds, fun m q hm hq => ?_⟩
      cases m with
      | zero => exact Option.some.inj hq ▸ hp
      | succ m => exact h.first m q (Nat.lt_of_succ_lt_succ hm) hq

/-- A relocation sets one immediate. -/
theorem applyToFirst_eq_ok : applyToFirst B btf relo programs = .ok out ↔
    ∃ imm i p, coreImmediate B btf relo = .ok imm ∧ FirstHolder programs relo.insnOff i p ∧
      out = setImm programs i ((relo.insnOff - p.insnOff) / 8) imm := by
  induction programs generalizing out with
  | nil =>
    constructor
    · intro h
      cases h
    · rintro ⟨_, _, _, -, h, -⟩
      cases h.get
  | cons p programs ih =>
    rw [applyToFirst]
    by_cases hp : p.Holds relo.insnOff
    · rw [if_pos hp, Except.bind_eq_ok]
      constructor
      · rintro ⟨q, hq, hout⟩
        obtain ⟨imm, himm, rfl⟩ := (applyCoreRelocation_eq_ok hp).mp hq
        exact ⟨imm, 0, p, himm, FirstHolder.cons_iff.mpr (Or.inl ⟨rfl, rfl, hp⟩),
          (Except.ok.inj hout).symm⟩
      · rintro ⟨imm, i, p', himm, hfirst, rfl⟩
        rcases FirstHolder.cons_iff.mp hfirst with ⟨rfl, rfl, -⟩ | ⟨k, -, hno, -⟩
        · exact ⟨_, (applyCoreRelocation_eq_ok hp).mpr ⟨imm, himm, rfl⟩, rfl⟩
        · exact absurd hp hno
    · rw [if_neg hp, Except.bind_eq_ok]
      constructor
      · rintro ⟨rest, hrest, hout⟩
        obtain ⟨imm, k, p', himm, hfirst, rfl⟩ := ih.mp hrest
        exact ⟨imm, k + 1, p', himm, FirstHolder.cons_iff.mpr (Or.inr ⟨k, rfl, hp, hfirst⟩),
          (Except.ok.inj hout).symm⟩
      · rintro ⟨imm, i, p', himm, hfirst, rfl⟩
        rcases FirstHolder.cons_iff.mp hfirst with ⟨-, -, hholds⟩ | ⟨k, rfl, -, hfirst'⟩
        · exact absurd hholds hp
        · exact ⟨_, ih.mpr ⟨imm, k, p', himm, hfirst', rfl⟩, rfl⟩

/-! ## Fields -/

/-- The offset in C of the field that a relocation accesses: the first index counts values of the type. -/
def IsFieldOffset (B : BtfTypeData) (btf : List (BitVec 8)) (relo : BpfCoreRelo) (offset : ℕ) : Prop :=
  ∃ s first rest size bits, accessString btf relo = .ok s ∧ WritesIndices s (first :: rest) ∧
    B.size relo.typeId = .ok size ∧ Access B relo.typeId rest bits ∧ offset = (first * size * 8 + bits) / 8

/-- The step sets the immediate of the instruction at the offset of the relocation in its section to the
offset of its field. -/
def RelocatesField (B : BtfTypeData) (btf : List (BitVec 8)) (relo : BpfCoreRelo) (sectionName : String)
    (step : List RawProgram → Except ElfError (List RawProgram)) (programs : List RawProgram) : Prop :=
  ∃ i j p offset, programs[i]? = some p ∧ p.sectionName = sectionName ∧ j < p.prog.length ∧
    p.insnOff + 8 * j = relo.insnOff ∧ IsFieldOffset B btf relo offset ∧ offset < 2 ^ 31 ∧
      SetsImmediate step programs i j (BitVec.ofNat 32 offset)

/-- The first program that holds the offset is in the section, and the offset is that of an instruction. -/
def OwnProgramFirst (programs : List RawProgram) (offset : ℕ) (sectionName : String) : Prop :=
  ∃ i p, FirstHolder programs offset i p ∧ p.sectionName = sectionName ∧ 8 ∣ offset - p.insnOff

/-- The first index selects a member or an element of the type, and the bits before it with those of the
further indices in it are, in 32 bits, as far as the field is in C. -/
def FirstIndexAgrees (B : BtfTypeData) (btf : List (BitVec 8)) (relo : BpfCoreRelo) : Prop :=
  ∃ s first rest size bits start t more, accessString btf relo = .ok s ∧ WritesIndices s (first :: rest) ∧
    B.size relo.typeId = .ok size ∧ Access B relo.typeId rest bits ∧
      Selects B relo.typeId (first % 2 ^ 32) start t ∧ Access B t (rest.map (· % 2 ^ 32)) more ∧
        (first * size * 8 + bits) / 8 = (start + more) % 2 ^ 32 / 8

theorem coreImmediate_field {imm : BitVec 32} (hkind : relo.kind = 0)
    (h : coreImmediate B btf relo = .ok imm) : ∃ s indices bits, accessString btf relo = .ok s ∧
      parseCoreAccessString s = .ok indices ∧ Access B relo.typeId indices bits ∧
        bits % 2 ^ 32 < 2 ^ 31 ∧ imm = BitVec.ofNat 32 (bits % 2 ^ 32 / 8) := by
  unfold coreImmediate at h
  rw [hkind] at h
  obtain ⟨s, hs, h⟩ := Except.bind_eq_ok.mp h
  obtain ⟨indices, hindices, h⟩ := Except.bind_eq_ok.mp h
  obtain ⟨⟨t, r⟩, hwalk, h⟩ := Except.bind_eq_ok.mp h
  obtain ⟨hlt, h⟩ := Except.guard_eq_ok.mp h
  obtain ⟨bits, haccess, hr⟩ := foldlM_accessStep hwalk (Nat.two_pow_pos 32)
  rw [Nat.zero_add] at hr
  subst hr
  exact ⟨s, indices, bits, hs, hindices, haccess, not_le.mp hlt, (Except.ok.inj h).symm⟩

/-- A relocation of a field does what it should when the first program is the right one and the first index
agrees. -/
theorem relocatesField_iff {step : List RawProgram → Except ElfError (List RawProgram)} {sectionName : String}
    (hstep : ∀ qs, step qs = applyToFirst B btf relo qs) (hkind : relo.kind = 0)
    (hok : step programs = .ok out) : RelocatesField B btf relo sectionName step programs ↔
      OwnProgramFirst programs relo.insnOff sectionName ∧ FirstIndexAgrees B btf relo := by
  rw [hstep] at hok
  obtain ⟨imm, i, p, himm, hfirst, -⟩ := applyToFirst_eq_ok.mp hok
  obtain ⟨s, indices, bits, hs, hindices, haccess, hlt, himm'⟩ := coreImmediate_field hkind himm
  have hsets : SetsImmediate step programs i ((relo.insnOff - p.insnOff) / 8) imm := by
    intro qs hqs
    obtain ⟨q, hq, hlayout⟩ := hfirst.sameLayout hqs
    rw [hstep, applyToFirst_eq_ok]
    exact ⟨imm, i, q, himm, hq, by rw [hlayout.insnOff]⟩
  constructor
  · rintro ⟨i', j', p', offset, hp', hsection, hj', hplace, hfield, hoffset, hsets'⟩
    obtain ⟨rfl, hj, heq⟩ := hsets'.unique hsets hp' hj'
    obtain rfl := Option.some.inj (hp'.symm.trans hfirst.get)
    refine ⟨⟨i, p', hfirst, hsection, by omega⟩, ?_⟩
    obtain ⟨s', first, rest, size, bits', hs', hwrites, hsize, haccess', rfl⟩ := hfield
    obtain rfl := Except.ok.inj (hs.symm.trans hs')
    rw [parseCoreAccessString_writes hwrites hindices, List.map_cons] at haccess
    cases haccess with
    | @cons _ _ start t more _ hselects hmore =>
      refine ⟨s, first, rest, size, bits', start, t, more, hs, hwrites, hsize, haccess', hselects, hmore, ?_⟩
      have hnat := congrArg BitVec.toNat (himm'.symm.trans heq)
      rw [BitVec.toNat_ofNat, BitVec.toNat_ofNat] at hnat
      omega
  · rintro ⟨⟨i', p', hfirst', hsection, hdvd⟩, s', first, rest, size, bits', start, t, more, hs', hwrites,
      hsize, haccess', hselects, hmore, hagrees⟩
    have hi : i' = i := by
      rcases lt_trichotomy i' i with h | h | h
      · exact absurd hfirst'.holds (hfirst.first _ _ h hfirst'.get)
      · exact h
      · exact absurd hfirst.holds (hfirst'.first _ _ h hfirst.get)
    subst hi
    obtain rfl := Option.some.inj (hfirst'.get.symm.trans hfirst.get)
    obtain rfl := Except.ok.inj (hs.symm.trans hs')
    rw [parseCoreAccessString_writes hwrites hindices, List.map_cons] at haccess
    obtain rfl := haccess.unique (.cons hselects hmore)
    have hle := hfirst'.holds.1
    refine ⟨i', _, p', _, hfirst'.get, hsection, hfirst'.holds.lt_length, by omega,
      ⟨s, first, rest, size, bits', hs, hwrites, hsize, haccess', rfl⟩, by omega, ?_⟩
    rw [hagrees, ← himm']
    exact hsets

/-! ## Files -/

/-- What the relocations of a file read: its types, and the sections of the entries and of the records. -/
structure CoreInput (L : Libbtf) (F : ElfFile) where
  btf : List (BitVec 8)
  types : BtfTypeData
  relocs : ElfSection
  ext : List (BitVec 8)
  btf_eq : ∃ sec, F.findSection ".BTF" = some sec ∧ bytesOf sec = .ok btf
  types_eq : L.typeData btf = .ok types
  relocs_eq : (F.findSection ".rel.BTF").or (F.findSection ".rela.BTF") = some relocs
  ext_eq : ∃ sec, F.findSection ".BTF.ext" = some sec ∧ sec.data.getD [] = ext

namespace CoreInput

variable {L : Libbtf} {F : ElfFile} (I : CoreInput L F)

/-- The place of the record of an entry. -/
def recordPlace (F : ElfFile) (e : RelocEntry) : ℕ := (F.getSymbolDetails e.symbol).value

/-- The record of an entry. -/
def record (e : RelocEntry) : BpfCoreRelo :=
  let value := recordPlace F e
  ⟨wordAt I.ext value, wordAt I.ext (value + 4), wordAt I.ext (value + 8), wordAt I.ext (value + 12)⟩

/-- One relocation. -/
def step (e : RelocEntry) (programs : List RawProgram) : Except ElfError (List RawProgram) :=
  processCoreRelocation F I.types I.btf I.ext programs e

theorem step_eq {e : RelocEntry} (htype : e.type = rBpf64Nodyld32) (hok : I.step e programs = .ok out)
    (qs : List RawProgram) : I.step e qs = applyToFirst I.types I.btf (I.record e) qs := by
  unfold step processCoreRelocation at hok ⊢
  rw [if_neg (not_not.mpr htype)] at hok ⊢
  obtain ⟨hbound, hok⟩ := Except.guard_eq_ok.mp hok
  obtain ⟨hbound', -⟩ := Except.guard_eq_ok.mp hok
  rw [if_neg hbound, if_neg hbound']
  rfl

theorem foldlM_step (h : relocateTypes L F programs = .ok out) :
    I.relocs.entries.foldlM (fun programs e => I.step e programs) programs = .ok out := by
  obtain ⟨sec, hsec, hbtf⟩ := I.btf_eq
  obtain ⟨ext, hext, hdata⟩ := I.ext_eq
  unfold relocateTypes at h
  simp only [hsec] at h
  obtain ⟨btf, hbtf', h⟩ := Except.bind_eq_ok.mp h
  obtain rfl := Except.ok.inj (hbtf.symm.trans hbtf')
  obtain ⟨types, htypes, h⟩ := Except.bind_eq_ok.mp h
  obtain rfl := Except.ok.inj (I.types_eq.symm.trans htypes)
  unfold processCoreRelocations at h
  simp only [I.relocs_eq, hext, hdata] at h
  exact h

end CoreInput

/-- In a file that is read, each relocation of the offset of a field sets the immediate of the instruction
in its section to the offset of the field exactly when the first program with its offset is there and the
first index agrees. -/
theorem relocatesField_iff_of_readElf {L : Libbtf} {F : ElfFile} {desiredSection : String}
    {programs : List RawProgram} {cache cache' : MapCache} (own : ℕ → String)
    (hread : (readElf L F desiredSection).read cache = (.ok programs, cache')) :
    ∃ G st, (extractGlobalData L F).read cache = (.ok G, cache') ∧ readSections F G = .ok st ∧
      ∀ (I : CoreInput L F) (done : List RelocEntry) (e : RelocEntry) (rest : List RelocEntry),
        I.relocs.entries = done ++ e :: rest → e.type = rBpf64Nodyld32 → (I.record e).kind = 0 →
          ∃ before after, done.foldlM (fun programs e => I.step e programs) st.rawPrograms = .ok before ∧
            I.step e before = .ok after ∧
              (RelocatesField I.types I.btf (I.record e) (own (CoreInput.recordPlace F e)) (I.step e) before ↔
                OwnProgramFirst before (I.record e).insnOff (own (CoreInput.recordPlace F e)) ∧
                  FirstIndexAgrees I.types I.btf (I.record e)) := by
  obtain ⟨G, cache₁, hG, hread⟩ := ReadM.read_bind_eq_ok.mp hread
  obtain ⟨hprograms, rfl⟩ := ReadM.read_ofExcept_eq_ok.mp hread
  obtain ⟨st, hst, -⟩ := Except.bind_eq_ok.mp hprograms
  unfold loadPrograms at hst
  obtain ⟨st₀, hst₀, hst⟩ := Except.bind_eq_ok.mp hst
  obtain ⟨relocated, hrelocated, -⟩ := Except.bind_eq_ok.mp hst
  refine ⟨G, st₀, hG, hst₀, fun I done e rest hentries htype hkind => ?_⟩
  have hrun := I.foldlM_step hrelocated
  rw [hentries, List.foldlM_append] at hrun
  obtain ⟨before, hbefore, hrun⟩ := Except.bind_eq_ok.mp hrun
  rw [List.foldlM_cons] at hrun
  obtain ⟨after, hafter, -⟩ := Except.bind_eq_ok.mp hrun
  exact ⟨before, after, hbefore, hafter, relocatesField_iff (I.step_eq htype hafter) hkind hafter⟩

/-! ## A structure in a structure -/

namespace NestedStructs

open TwoFunctions

def word (n : ℕ) : List (BitVec 8) :=
  [BitVec.ofNat 8 n, BitVec.ofNat 8 (n / 2 ^ 8), BitVec.ofNat 8 (n / 2 ^ 16), BitVec.ofNat 8 (n / 2 ^ 24)]

/-- The strings of `.BTF`. The access strings are at 28 and at 32. -/
def strings : List (BitVec 8) :=
  ["", "int", "S", "T", "t", "z", "x", "y", "main", "other", "0:1", "0"].flatMap fun name =>
    name.toList.map (fun c => BitVec.ofNat 8 c.toNat) ++ [0]

/-- `struct S { struct T { int x; int y; } t; int z; }`, as the types 1, 2 and 3. -/
def typeWords : List ℕ :=
  [5, 0x04000002, 12, 9, 2, 0, 11, 3, 64, 7, 0x04000002, 8, 13, 3, 0, 15, 3, 32, 1, 0x01000000, 4, 0x01000020]

/-- `.BTF`, with its header. -/
def btfBytes : List (BitVec 8) :=
  ([0x0001eb9f, 24, 0, 88, 88, 34] ++ typeWords).flatMap word ++ strings

/-- `.BTF.ext` with one record, which is for the type 1 and the first instruction of a section. -/
def extBytes (sectionName accessStr : ℕ) : List (BitVec 8) :=
  [0x0001eb9f, 32, 0, 0, 0, 0, 0, 28, 16, sectionName, 1, 0, 1, accessStr, 0].flatMap word

/-- The types as they are read. -/
def structs : BtfTypeData where
  kind
    | 1 => .ok (.struct [(0, 2), (64, 3)])
    | 2 => .ok (.struct [(0, 3), (32, 3)])
    | 3 => .ok .other
    | _ => .error .thrown
  size
    | 1 => .ok 12
    | 2 => .ok 8
    | 3 => .ok 4
    | _ => .error .thrown

def library : Libbtf := ⟨fun _ => .ok structs, fun _ => .ok [], fun _ _ => .ok []⟩

/-- A section of data. -/
def dataOf (name : String) (bytes : List (BitVec 8)) : ElfSection :=
  ⟨name, shtProgbits, false, bytes.length, some bytes, [], ElfSection.size_some _⟩

def entry : RelocEntry := ⟨44, 3, rBpf64Nodyld32, 0⟩

/-- The entries of `.BTF`, of which there is one. -/
def relocs : ElfSection := ⟨".rel.BTF", 9, false, 0, some [], [entry], ElfSection.size_nil⟩

/-- Two programs that load seven, and a relocation. -/
def file (sectionName accessStr : ℕ) : ElfFile where
  sections := [
    ⟨"", 0, false, 0, none, [], ElfSection.size_none⟩,
    code "main" [0xb7, 0, 0, 0, 7, 0, 0, 0, 0x95, 0, 0, 0, 0, 0, 0, 0],
    code "other" [0xb7, 0, 0, 0, 7, 0, 0, 0, 0x95, 0, 0, 0, 0, 0, 0, 0],
    dataOf ".BTF" btfBytes, dataOf ".BTF.ext" (extBytes sectionName accessStr), relocs]
  symbols := [⟨"", 0, 0, 0, 0⟩, ⟨"main", 0, 16, 2, 1⟩, ⟨"other", 0, 16, 2, 2⟩, ⟨"", 44, 0, 3, 4⟩]

def input (sectionName accessStr : ℕ) : CoreInput library (file sectionName accessStr) where
  btf := btfBytes
  types := structs
  relocs := relocs
  ext := extBytes sectionName accessStr
  btf_eq := ⟨dataOf ".BTF" btfBytes, rfl, by decide +kernel⟩
  types_eq := rfl
  relocs_eq := rfl
  ext_eq := ⟨dataOf ".BTF.ext" (extBytes sectionName accessStr), rfl, rfl⟩

/-- The programs, of which the first one has an immediate in its first instruction. -/
def loads (c : BitVec 32) : List RawProgram :=
  [program "main" "main" [mov c, exit], program "other" "other" [mov 7, exit]]

/-- The access `0:1` is read as four bytes, that of the second member in the first. -/
theorem read_nested : (readElf library (file 17 28) "").read [] = (.ok (loads 4), []) ∧
    (input 17 28).step entry (loads 7) = .ok (loads 4) := by
  decide +kernel

/-- The relocation of the second section changes the first one. -/
theorem read_other : (readElf library (file 22 32) "").read [] = (.ok (loads 0), []) ∧
    (input 22 32).step entry (loads 7) = .ok (loads 0) := by
  decide +kernel

theorem behind_struct : Behind structs 1 (.struct [(0, 2), (64, 3)]) := .here rfl rfl

theorem writes_nested {indices : List ℕ} (h : WritesIndices ['0', ':', '1'] indices) : indices = [0, 1] := by
  cases h with
  | cons h₀ h =>
    cases h with
    | cons h₁ h =>
      cases h
      rw [← h₀.value, ← h₁.value]
      rfl

/-- The second member is eight bytes behind the start. -/
theorem not_firstIndexAgrees : ¬ FirstIndexAgrees structs btfBytes ((input 17 28).record entry) := by
  rintro ⟨s, first, rest, size, bits, start, t, more, hs, hwrites, -, haccess, hselects, hmore, hagrees⟩
  have hstring : accessString btfBytes ((input 17 28).record entry) = .ok ['0', ':', '1'] := by decide
  have htype : ((input 17 28).record entry).typeId = 1 := by decide
  rw [htype] at haccess hselects
  obtain rfl := Except.ok.inj (hstring.symm.trans hs)
  obtain ⟨rfl, rfl⟩ := List.cons.inj (writes_nested hwrites)
  obtain rfl : bits = 64 + 0 := haccess.unique (.cons (.member behind_struct rfl) .nil)
  obtain ⟨rfl, rfl⟩ := hselects.unique (.member behind_struct rfl)
  obtain rfl : more = 32 + 0 := hmore.unique (.cons (.member (.here rfl rfl) rfl) .nil)
  simp at hagrees

end NestedStructs

open NestedStructs in
/-- The first index is taken for a member, and a program of another section with the same offset is changed. -/
theorem not_relocatesField :
    ((readElf library (file 17 28) "").read [] = (.ok (loads 4), []) ∧
      (input 17 28).step entry (loads 7) = .ok (loads 4) ∧
      ¬ RelocatesField structs btfBytes ((input 17 28).record entry) "main" ((input 17 28).step entry)
        (loads 7)) ∧
    (readElf library (file 22 32) "").read [] = (.ok (loads 0), []) ∧
      (input 22 32).step entry (loads 7) = .ok (loads 0) ∧
      ¬ RelocatesField structs btfBytes ((input 22 32).record entry) "other" ((input 22 32).step entry)
        (loads 7) := by
  refine ⟨⟨read_nested.1, read_nested.2, fun h => ?_⟩, read_other.1, read_other.2, fun h => ?_⟩
  · have hstep := (input 17 28).step_eq rfl read_nested.2
    exact not_firstIndexAgrees ((relocatesField_iff hstep (by decide) read_nested.2).mp h).2
  · have hstep := (input 22 32).step_eq rfl read_other.2
    obtain ⟨i, p, hfirst, hsection, -⟩ :=
      ((relocatesField_iff hstep (by decide) read_other.2).mp h).1
    have hoffset : ((input 22 32).record entry).insnOff = 0 := by decide
    rw [hoffset] at hfirst
    cases i with
    | zero =>
      obtain rfl := Option.some.inj hfirst.get
      exact absurd hsection (by decide)
    | succ i => exact hfirst.first 0 _ (Nat.succ_pos i) rfl (by decide)

/-! ## An array behind a structure -/

namespace FlexibleArray

open TwoFunctions NestedStructs

/-- The strings of `.BTF`. The access string is at 19. -/
def strings : List (BitVec 8) :=
  ["", "int", "S", "x", "data", "main", "1"].flatMap fun name =>
    name.toList.map (fun c => BitVec.ofNat 8 c.toNat) ++ [0]

/-- `struct S { int x; int data[]; }`, `int` and `int[]`, as the types 1, 2 and 3. -/
def typeWords : List ℕ :=
  [5, 0x04000002, 4, 7, 2, 0, 9, 3, 32, 1, 0x01000000, 4, 0x01000020, 0, 0x03000000, 0, 2, 2, 0]

/-- `.BTF`, with its header. -/
def btfBytes : List (BitVec 8) :=
  ([0x0001eb9f, 24, 0, 76, 76, 21] ++ typeWords).flatMap word ++ strings

/-- `.BTF.ext` with one record, which is for the type 1 and the second instruction of `main`. -/
def extBytes : List (BitVec 8) :=
  [0x0001eb9f, 32, 0, 0, 0, 0, 0, 28, 16, 14, 1, 8, 1, 19, 0].flatMap word

/-- The types as they are read. -/
def types : BtfTypeData where
  kind
    | 1 => .ok (.struct [(0, 2), (32, 3)])
    | 2 => .ok .other
    | 3 => .ok (.array 2)
    | _ => .error .thrown
  size
    | 1 => .ok 4
    | 2 => .ok 4
    | 3 => .ok 0
    | _ => .error .thrown

def library : Libbtf := ⟨fun _ => .ok types, fun _ => .ok [], fun _ _ => .ok []⟩

/-- A program that loads six and seven, and a relocation. -/
def file : ElfFile where
  sections := [
    ⟨"", 0, false, 0, none, [], ElfSection.size_none⟩,
    code "main" [0xb7, 1, 0, 0, 6, 0, 0, 0, 0xb7, 0, 0, 0, 7, 0, 0, 0, 0x95, 0, 0, 0, 0, 0, 0, 0],
    dataOf ".BTF" btfBytes, dataOf ".BTF.ext" extBytes, ⟨".rel.BTF", 9, false, 0, some [],
      [⟨44, 2, rBpf64Nodyld32, 0⟩], ElfSection.size_nil⟩]
  symbols := [⟨"", 0, 0, 0, 0⟩, ⟨"main", 0, 24, 2, 1⟩, ⟨"", 44, 0, 3, 3⟩]

def entry : RelocEntry := ⟨44, 2, rBpf64Nodyld32, 0⟩

def input : CoreInput library file where
  btf := btfBytes
  types := types
  relocs := ⟨".rel.BTF", 9, false, 0, some [], [entry], ElfSection.size_nil⟩
  ext := extBytes
  btf_eq := ⟨dataOf ".BTF" btfBytes, rfl, by decide +kernel⟩
  types_eq := rfl
  relocs_eq := rfl
  ext_eq := ⟨dataOf ".BTF.ext" extBytes, rfl, rfl⟩

/-- The program, with an immediate in its second instruction. -/
def loads (c : BitVec 32) : List RawProgram :=
  [program "main" "main" [⟨0xb7, 1, 0, 0, 6⟩, mov c, exit]]

/-- The array is as far from the start of the structure as the next structure. -/
theorem firstIndexAgrees : FirstIndexAgrees types btfBytes (input.record entry) := by
  have htype : (input.record entry).typeId = 1 := by decide
  have hselects : Selects types 1 1 32 3 := .member (.here rfl rfl) rfl
  have hnumeral : IsNumeral ['1'] 1 :=
    ⟨List.cons_ne_nil _ _, fun c hc => List.mem_singleton.mp hc ▸ rfl, rfl⟩
  refine ⟨['1'], 1, [], 4, 0, 32, 3, 0, by decide, .cons hnumeral .nil, ?_⟩
  rw [htype]
  exact ⟨rfl, .nil, hselects, .nil, rfl⟩

theorem read_file : (readElf library file "").read [] = (.ok (loads 4), []) ∧
    (extractGlobalData library file).read [] = (.ok ⟨[], [], .inr [], []⟩, []) ∧
      readSections file ⟨[], [], .inr [], []⟩ = .ok ⟨loads 7, [], []⟩ := by
  decide +kernel

theorem ownProgramFirst : OwnProgramFirst (loads 7) (input.record entry).insnOff "main" := by
  have hoffset : (input.record entry).insnOff = 8 := by decide
  rw [hoffset]
  exact ⟨0, _, ⟨rfl, by decide, fun k _ hk => absurd hk (Nat.not_lt_zero k)⟩, rfl, by decide⟩

end FlexibleArray

open FlexibleArray in
/-- The immediate of the second instruction is set to four. -/
theorem relocatesField_iff_of_readElf_array : ∃ G st after,
    (extractGlobalData library file).read [] = (.ok G, []) ∧
      readSections file G = .ok st ∧ input.step entry st.rawPrograms = .ok after ∧
      RelocatesField types btfBytes (input.record entry) "main" (input.step entry) st.rawPrograms := by
  obtain ⟨hread, hdata, hsections⟩ := read_file
  obtain ⟨G, st, hG, hst, hall⟩ := relocatesField_iff_of_readElf (fun _ => "main") hread
  obtain rfl := Except.ok.inj (Prod.mk.inj (hdata.symm.trans hG)).1
  obtain rfl := Except.ok.inj (hsections.symm.trans hst)
  obtain ⟨before, after, hbefore, hafter, hiff⟩ := hall input [] entry [] rfl rfl (by decide)
  obtain rfl := Except.ok.inj hbefore
  exact ⟨_, _, after, hG, hst, hafter, hiff.mpr ⟨ownProgramFirst, firstIndexAgrees⟩⟩

end Prevail
