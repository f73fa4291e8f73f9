import Prevail.Elf.Link
import Prevail.Lib.Numbering
import Prevail.Lib.Result

/-!
# The numbers of legacy maps

Every cache that a thread can have holds the numbers of the keys that were asked for (`ThreadCache`). A
file asks for the keys of its records of maps, and its descriptors have their numbers
(`parseMapSections_spec`).
-/

namespace Prevail

open Numbering

variable {α β : Type}

/-! ## The cache of a thread -/

/-- The keys of a cache, from the oldest on. -/
def cacheKeys (cache : MapCache) : List EquivalenceKey := (cache.map Prod.fst).reverse

/-- The cache holds the numbers of its keys. -/
def Numbered (cache : MapCache) : Prop := Records cache (cacheKeys cache)

namespace ReadM

/-- Whatever is read, the cache holds numbers afterwards. -/
def KeepsNumbered (x : ReadM α) : Prop := ∀ cache, Numbered cache → Numbered (x.read cache).2

theorem keepsNumbered_ofExcept (x : Except ElfError α) : (ofExcept x).KeepsNumbered := fun _ h => h

theorem keepsNumbered_pure (a : α) : (pure a : ReadM α).KeepsNumbered := fun _ h => h

theorem keepsNumbered_throw (e : ElfError) : (throw e : ReadM α).KeepsNumbered := fun _ h => h

theorem KeepsNumbered.bind {x : ReadM α} {f : α → ReadM β} (hx : x.KeepsNumbered)
    (hf : ∀ a, (f a).KeepsNumbered) : (x >>= f).KeepsNumbered := by
  intro cache h
  have hx := hx cache h
  unfold read at hx ⊢
  rw [ExceptT.run_bind, StateT.run_bind]
  obtain ⟨⟨res, cache₁⟩, hres⟩ : ∃ res, StateT.run (ExceptT.run x) cache = res := ⟨_, rfl⟩
  rw [hres] at hx ⊢
  cases res with
  | error e => exact hx
  | ok a => exact hf a cache₁ hx

theorem keepsNumbered_mapM {f : α → ReadM β} (hf : ∀ a, (f a).KeepsNumbered) (l : List α) :
    (l.mapM f).KeepsNumbered := by
  induction l with
  | nil =>
    rw [List.mapM_nil]
    exact keepsNumbered_pure []
  | cons a l ih =>
    rw [List.mapM_cons]
    exact (hf a).bind fun _ => ih.bind fun _ => keepsNumbered_pure _

theorem keepsNumbered_foldlM {f : β → α → ReadM β} (hf : ∀ b a, (f b a).KeepsNumbered) (l : List α)
    (b : β) : (l.foldlM f b).KeepsNumbered := by
  induction l generalizing b with
  | nil =>
    rw [List.foldlM_nil]
    exact keepsNumbered_pure b
  | cons a l ih =>
    rw [List.foldlM_cons]
    exact (hf b a).bind ih

/-! ## Loops that succeed -/

variable {cache cache' : MapCache}

theorem read_pure_eq_ok {a r : α} : (pure a : ReadM α).read cache = (.ok r, cache') ↔ a = r ∧ cache = cache' := by
  constructor
  · rintro ⟨⟩
    exact ⟨rfl, rfl⟩
  · rintro ⟨rfl, rfl⟩
    rfl

/-- What every step keeps holds after the loop. -/
theorem foldlM_induction {l : List α} {f : β → α → ReadM β} {b r : β} (P : List α → β → MapCache → Prop)
    (h : (l.foldlM f b).read cache = (.ok r, cache')) (h0 : P [] b cache)
    (hstep : ∀ done x b c b' c', done ++ [x] <+: l → P done b c → (f b x).read c = (.ok b', c') →
      P (done ++ [x]) b' c') : P l r cache' := by
  suffices key : ∀ (rest done : List α) (b : β) (c : MapCache), done ++ rest = l → P done b c →
      (rest.foldlM f b).read c = (.ok r, cache') → P l r cache' from key l [] b cache rfl h0 h
  clear h h0
  intro rest
  induction rest with
  | nil =>
    intro done b c hl hP h
    rw [List.foldlM_nil] at h
    obtain ⟨rfl, rfl⟩ := read_pure_eq_ok.mp h
    rwa [← hl, List.append_nil]
  | cons x rest ih =>
    intro done b c hl hP h
    rw [List.foldlM_cons] at h
    obtain ⟨b', c', hb', h⟩ := read_bind_eq_ok.mp h
    have hl' : done ++ [x] ++ rest = l := by rw [List.append_assoc]; exact hl
    exact ih (done ++ [x]) b' c' hl' (hstep done x b c b' c' ⟨rest, hl'⟩ hP hb') h

end ReadM

/-! ## One map -/

variable {cache cache' : MapCache}

theorem cacheKeys_cons {k : EquivalenceKey} {n : ℤ} :
    cacheKeys ((k, n) :: cache) = cacheKeys cache ++ [k] := by
  rw [cacheKeys, List.map_cons, List.reverse_cons, cacheKeys]

theorem createMapCrab_spec {type : MapType} {keySize valueSize maxEntries : ℕ} {fd : ℤ}
    (h : Numbered cache)
    (hread : (createMapCrab type keySize valueSize maxEntries).read cache = (.ok fd, cache')) :
    Numbered cache' ∧
      cacheKeys cache' = ask (cacheKeys cache) (equivalenceKey type keySize valueSize maxEntries) ∧
      fd = number (cacheKeys cache') (equivalenceKey type keySize valueSize maxEntries) := by
  change createMapCrab type keySize valueSize maxEntries cache = (.ok fd, cache') at hread
  unfold createMapCrab at hread
  dsimp only at hread
  split at hread
  · next n hn =>
    cases hread
    obtain ⟨hmem, rfl⟩ := Records.lookup_eq_some h hn
    exact ⟨h, (ask_of_mem hmem).symm, rfl⟩
  · next hnone =>
    split_ifs at hread
    · cases hread
    · have hnew := Records.lookup_eq_none h hnone
      obtain ⟨hfd, rfl⟩ := Prod.mk.inj hread
      obtain rfl := Except.ok.inj hfd
      rw [Numbered, cacheKeys_cons, ← ask_of_not_mem hnew]
      refine ⟨Records.cons h hnew, rfl, ?_⟩
      rw [number_ask_of_not_mem hnew, h.length]

theorem keepsNumbered_createMapCrab (type : MapType) (keySize valueSize maxEntries : ℕ) :
    (createMapCrab type keySize valueSize maxEntries).KeepsNumbered := by
  intro cache h
  obtain ⟨⟨res, cache'⟩, hres⟩ : ∃ res, (createMapCrab type keySize valueSize maxEntries).read cache =
    res := ⟨_, rfl⟩
  rw [hres]
  cases res with
  | ok fd => exact (createMapCrab_spec h hres).1
  | error e =>
    change createMapCrab type keySize valueSize maxEntries cache = (.error e, cache') at hres
    unfold createMapCrab at hres
    dsimp only at hres
    split at hres
    · cases hres
    · split_ifs at hres
      · cases hres
        exact h
      · cases hres

/-- The key of a map. -/
def BpfLoadMapDef.key (s : BpfLoadMapDef) : EquivalenceKey :=
  equivalenceKey (getMapTypeLinux s.type) s.keySize s.valueSize s.maxEntries

/-- The descriptor of a map with its number, and the index of the inner map. -/
def BpfLoadMapDef.descriptor (keys : List EquivalenceKey) (s : BpfLoadMapDef) : EbpfMapDescriptor :=
  ⟨number keys s.key, s.type, s.keySize, s.valueSize, s.maxEntries, s.innerMapIdx⟩

theorem legacyDescriptor_spec {s : BpfLoadMapDef} {d : EbpfMapDescriptor} (h : Numbered cache)
    (hread : (legacyDescriptor s).read cache = (.ok d, cache')) :
    Numbered cache' ∧ cacheKeys cache' = ask (cacheKeys cache) s.key ∧
      d = s.descriptor (cacheKeys cache') := by
  obtain ⟨fd, cache₁, hfd, hread⟩ := ReadM.read_bind_eq_ok.mp hread
  obtain ⟨hnumbered, hkeys, rfl⟩ := createMapCrab_spec h hfd
  split_ifs at hread
  · cases hread
  · obtain ⟨rfl, rfl⟩ := ReadM.read_pure_eq_ok.mp hread
    exact ⟨hnumbered, hkeys, rfl⟩

theorem keepsNumbered_legacyDescriptor (s : BpfLoadMapDef) : (legacyDescriptor s).KeepsNumbered := by
  refine (keepsNumbered_createMapCrab _ _ _ _).bind fun fd => ?_
  split_ifs
  · exact ReadM.keepsNumbered_throw _
  · exact ReadM.keepsNumbered_pure _

/-- The maps of a section have the numbers of their keys. -/
theorem mapM_legacyDescriptor_spec {defs : List BpfLoadMapDef} {ds : List EbpfMapDescriptor}
    (h : Numbered cache) (hread : (defs.mapM legacyDescriptor).read cache = (.ok ds, cache')) :
    Numbered cache' ∧ cacheKeys cache' = askAll (cacheKeys cache) (defs.map BpfLoadMapDef.key) ∧
      ds = defs.map (BpfLoadMapDef.descriptor (cacheKeys cache')) := by
  induction defs generalizing cache ds with
  | nil =>
    rw [List.mapM_nil] at hread
    obtain ⟨rfl, rfl⟩ := ReadM.read_pure_eq_ok.mp hread
    exact ⟨h, rfl, rfl⟩
  | cons s defs ih =>
    rw [List.mapM_cons] at hread
    obtain ⟨d, cache₁, hd, hread⟩ := ReadM.read_bind_eq_ok.mp hread
    obtain ⟨rest, cache₂, hrest, hread⟩ := ReadM.read_bind_eq_ok.mp hread
    obtain ⟨rfl, rfl⟩ := ReadM.read_pure_eq_ok.mp hread
    obtain ⟨hnumbered, hkeys, rfl⟩ := legacyDescriptor_spec h hd
    obtain ⟨hnumbered', hkeys', rfl⟩ := ih hnumbered hrest
    refine ⟨hnumbered', ?_, ?_⟩
    · rw [hkeys', hkeys]
      rfl
    · rw [List.map_cons, BpfLoadMapDef.descriptor, BpfLoadMapDef.descriptor, hkeys', number_askAll]
      rw [hkeys]
      exact mem_ask_self

/-! ## All sections of maps -/

variable {F : ElfFile}

/-- The size of the records of a section of maps. -/
def recordSize (F : ElfFile) (s : ElfSection × ℕ) : ℕ := s.1.size / mapCount F s.2

/-- The records of a section of maps. -/
def sectionRecords (F : ElfFile) (s : ElfSection × ℕ) : List BpfLoadMapDef :=
  (List.range (mapCount F s.2)).map fun i =>
    mapDefAt (s.1.data.getD []) (recordSize F s) (i * recordSize F s)

/-- The records of maps in a file. -/
def mapRecords (F : ElfFile) : List BpfLoadMapDef := (mapSections F).flatMap (sectionRecords F)

theorem length_sectionRecords (s : ElfSection × ℕ) : (sectionRecords F s).length = mapCount F s.2 := by
  rw [sectionRecords, List.length_map, List.length_range]

theorem sectionRecords_of_mapCount {s : ElfSection × ℕ} (h : mapCount F s.2 = 0) :
    sectionRecords F s = [] := List.length_eq_zero_iff.mp ((length_sectionRecords s).trans h)

/-- What is noted of the sections that are parsed. -/
structure Noted (F : ElfFile) (done : List (ElfSection × ℕ)) (sections : List MapSection) : Prop where
  sound : ∀ e ∈ sections, ∃ pre s post, done = pre ++ s :: post ∧ s.1.data.isSome ∧
    e = ⟨s.2, recordSize F s, (pre.flatMap (sectionRecords F)).length⟩
  complete : ∀ s ∈ done, mapCount F s.2 ≠ 0 → ∃ e ∈ sections, e.index = s.2

variable {done : List (ElfSection × ℕ)} {s : ElfSection × ℕ} {sections : List MapSection}

theorem Noted.sound_append (h : Noted F done sections) {e : MapSection} (he : e ∈ sections) :
    ∃ pre s' post, done ++ [s] = pre ++ s' :: post ∧ s'.1.data.isSome ∧
      e = ⟨s'.2, recordSize F s', (pre.flatMap (sectionRecords F)).length⟩ := by
  obtain ⟨pre, s', post, rfl, hdata, rfl⟩ := h.sound e he
  exact ⟨pre, s', post ++ [s], by rw [List.append_assoc, List.cons_append], hdata, rfl⟩

/-- A section without maps is not noted. -/
theorem Noted.skip (h : Noted F done sections) (hs : mapCount F s.2 = 0) : Noted F (done ++ [s]) sections := by
  refine ⟨fun e he => h.sound_append he, fun s' hs' hcount => ?_⟩
  rcases List.mem_append.mp hs' with hs' | hs'
  · exact h.complete s' hs' hcount
  · obtain rfl := List.mem_singleton.mp hs'
    exact absurd hs hcount

theorem Noted.add (h : Noted F done sections) (hs : s.1.data.isSome) :
    Noted F (done ++ [s])
      (⟨s.2, recordSize F s, (done.flatMap (sectionRecords F)).length⟩ :: sections) := by
  refine ⟨fun e he => ?_, fun s' hs' hcount => ?_⟩
  · rcases List.mem_cons.mp he with rfl | he
    · exact ⟨done, s, [], rfl, hs, rfl⟩
    · exact h.sound_append he
  · rcases List.mem_append.mp hs' with hs' | hs'
    · obtain ⟨e, he, hindex⟩ := h.complete s' hs' hcount
      exact ⟨e, List.mem_cons_of_mem _ he, hindex⟩
    · obtain rfl := List.mem_singleton.mp hs'
      exact ⟨_, List.mem_cons_self, rfl⟩

/-- The sections of `done` are parsed. -/
structure Parsed (F : ElfFile) (keys : List EquivalenceKey) (done : List (ElfSection × ℕ))
    (res : List EbpfMapDescriptor × List MapSection) (cache : MapCache) : Prop where
  numbered : Numbered cache
  keys : cacheKeys cache = askAll keys ((done.flatMap (sectionRecords F)).map BpfLoadMapDef.key)
  descriptors : res.1 = (done.flatMap (sectionRecords F)).map (BpfLoadMapDef.descriptor (cacheKeys cache))
  noted : Noted F done res.2

/-- The descriptors of a section are put behind those of the sections before. -/
theorem parseMapSection_spec {keys : List EquivalenceKey}
    {res res' : List EbpfMapDescriptor × List MapSection} (h : Parsed F keys done res cache)
    (hread : (parseMapSection F res s).read cache = (.ok res', cache')) :
    Parsed F keys (done ++ [s]) res' cache' := by
  unfold parseMapSection at hread
  dsimp only at hread
  by_cases hcount : mapCount F s.2 = 0
  · rw [if_pos hcount] at hread
    obtain ⟨rfl, rfl⟩ := ReadM.read_pure_eq_ok.mp hread
    have hdone : (done ++ [s]).flatMap (sectionRecords F) = done.flatMap (sectionRecords F) := by
      rw [List.flatMap_append, List.flatMap_singleton, sectionRecords_of_mapCount hcount,
        List.append_nil]
    refine ⟨h.numbered, ?_, ?_, h.noted.skip hcount⟩
    · rw [hdone, h.keys]
    · rw [hdone, h.descriptors]
  rw [if_neg hcount] at hread
  split at hread
  · cases hread
  · next data hdata =>
    split_ifs at hread with hsize
    · cases hread
    obtain ⟨ds, cache₁, hread₁, hread⟩ := ReadM.read_bind_eq_ok.mp hread
    obtain ⟨rfl, rfl⟩ := ReadM.read_pure_eq_ok.mp hread
    obtain ⟨new, cache₂, hnew, hread₁⟩ := ReadM.read_bind_eq_ok.mp hread₁
    obtain ⟨rfl, rfl⟩ := ReadM.read_pure_eq_ok.mp hread₁
    have hrecords : ((List.range (mapCount F s.2)).map fun i =>
        mapDefAt data (s.1.size / mapCount F s.2) (i * (s.1.size / mapCount F s.2))) =
        sectionRecords F s := by
      rw [sectionRecords, hdata]
      rfl
    rw [hrecords] at hnew
    obtain ⟨hnumbered, hkeys, rfl⟩ := mapM_legacyDescriptor_spec h.numbered hnew
    have hlength : res.1.length = (done.flatMap (sectionRecords F)).length := by
      rw [h.descriptors, List.length_map]
    refine ⟨hnumbered, ?_, ?_, ?_⟩
    · rw [hkeys, h.keys, List.flatMap_append, List.flatMap_singleton, List.map_append, askAll_append]
    · have hkept : ∀ r ∈ done.flatMap (sectionRecords F),
          r.descriptor (cacheKeys cache) = r.descriptor (cacheKeys cache₂) := fun r hr => by
        rw [BpfLoadMapDef.descriptor, BpfLoadMapDef.descriptor, hkeys, number_askAll]
        rw [h.keys]
        exact mem_askAll.mpr (Or.inr (List.mem_map_of_mem hr))
      rw [List.flatMap_append, List.flatMap_singleton, List.map_append, h.descriptors,
        List.map_congr_left hkept]
    · rw [hlength]
      exact h.noted.add (by rw [hdata]; rfl)

theorem keepsNumbered_parseMapSection (res : List EbpfMapDescriptor × List MapSection)
    (s : ElfSection × ℕ) : (parseMapSection F res s).KeepsNumbered := by
  unfold parseMapSection
  dsimp only
  by_cases hcount : mapCount F s.2 = 0
  · rw [if_pos hcount]
    exact ReadM.keepsNumbered_pure _
  · rw [if_neg hcount]
    split
    · exact ReadM.keepsNumbered_throw _
    · split_ifs
      · exact ReadM.keepsNumbered_throw _
      · refine ReadM.KeepsNumbered.bind ?_ fun _ => ReadM.keepsNumbered_pure _
        refine ReadM.KeepsNumbered.bind ?_ fun _ => ReadM.keepsNumbered_pure _
        exact ReadM.keepsNumbered_mapM keepsNumbered_legacyDescriptor _

/-! ## All files of a thread -/

theorem keepsNumbered_extractGlobalData (L : Libbtf) (F : ElfFile) :
    (extractGlobalData L F).KeepsNumbered := by
  unfold extractGlobalData
  split_ifs
  · refine ReadM.KeepsNumbered.bind ?_ fun res => ?_
    · exact ReadM.keepsNumbered_foldlM keepsNumbered_parseMapSection _ _
    · refine (ReadM.keepsNumbered_ofExcept _).bind fun _ => ?_
      exact (ReadM.keepsNumbered_ofExcept _).bind fun _ => ReadM.keepsNumbered_ofExcept _
  · split
    · exact ReadM.keepsNumbered_ofExcept _
    · exact ReadM.keepsNumbered_ofExcept _

/-- The caches that a thread can have. It is empty at first, and when the information of a program takes
the place of what the thread had. -/
inductive ThreadCache : MapCache → Prop
  | empty : ThreadCache []
  | read {cache : MapCache} (L : Libbtf) (F : ElfFile) (desiredSection : String) :
    ThreadCache cache → ThreadCache ((readElf L F desiredSection).read cache).2

theorem ThreadCache.numbered (h : ThreadCache cache) : Numbered cache := by
  induction h with
  | empty => exact records_nil
  | read L F desiredSection _ ih =>
    exact (keepsNumbered_extractGlobalData L F).bind (fun _ => ReadM.keepsNumbered_ofExcept _) _ ih

/-! ## The names of the maps -/

/-- The offset of a symbol in a section of maps is that of a record. -/
structure AtRecord (F : ElfFile) (sections : List MapSection) (sym : ElfSymbol) (val : ℕ) : Prop where
  noted : ∃ e ∈ sections, e.index = sym.sectionIndex ∧ sym.value % e.recordSize = 0 ∧
    val = e.baseIndex + sym.value / e.recordSize
  inside : ∃ sec, F.sections[sym.sectionIndex]? = some sec ∧ sym.value < sec.size

/-- A name that is noted is that of a symbol, and its index is that of the record there. -/
theorem atRecord_of_mapOffset {ds : List EbpfMapDescriptor} {symbols : List ElfSymbol}
    {offsets : MapOffsets} (hread : symbols.foldlM (mapOffset F ds sections) [] = .ok offsets)
    {name : String} {val : ℕ} (hval : offsets.lookup name = some val) :
    ∃ sym ∈ symbols, sym.name = name ∧ sym.name ≠ "" ∧ AtRecord F sections sym val := by
  refine Except.foldlM_induction (fun done (offsets : MapOffsets) => ∀ name val,
    offsets.lookup name = some val →
      ∃ sym ∈ done, sym.name = name ∧ sym.name ≠ "" ∧ AtRecord F sections sym val) hread
    (fun _ _ h => nomatch h) (fun done sym offsets offsets' _ ih hstep => ?_) name val hval
  have hkept : ∀ name val, offsets.lookup name = some val →
      ∃ sym' ∈ done ++ [sym], sym'.name = name ∧ sym'.name ≠ "" ∧ AtRecord F sections sym' val :=
    fun name val hval => by
      obtain ⟨sym', hsym', h⟩ := ih name val hval
      exact ⟨sym', List.mem_append_left _ hsym', h⟩
  unfold mapOffset at hstep
  by_cases hname : sym.name = ""
  · rw [if_pos hname] at hstep
    cases hstep
    exact hkept
  rw [if_neg hname] at hstep
  split at hstep
  · next e sec he hsec =>
    obtain ⟨hvalue, hstep⟩ := Except.guard_eq_ok.mp hstep
    obtain ⟨-, hstep⟩ := Except.guard_eq_ok.mp hstep
    cases hstep
    rw [not_or, not_not, not_le] at hvalue
    intro name val hval
    rw [List.lookup_cons] at hval
    split at hval
    · next hbeq =>
      obtain rfl := Option.some.inj hval
      refine ⟨sym, List.mem_append_right _ (List.mem_singleton_self sym), (beq_iff_eq.mp hbeq).symm,
        hname, ⟨e, List.mem_of_find?_eq_some he, ?_, hvalue.1, rfl⟩, sec, hsec, hvalue.2⟩
      have hfound := List.find?_some he
      exact of_decide_eq_true hfound
    · exact hkept name val hval
  · cases hstep
    exact hkept

theorem mem_mapSections {s : ElfSection × ℕ} (h : s ∈ mapSections F) :
    F.sections[s.2]? = some s.1 ∧ isMapSection s.1.name = true := by
  obtain ⟨hzip, hmap⟩ := List.mem_filter.mp h
  exact ⟨List.mem_zipIdx_iff_getElem?.mp hzip, hmap⟩

/-- The record at the offset of a symbol, when the section has one record of its size for each name. -/
theorem AtRecord.record {sym : ElfSymbol} {val : ℕ} (h : AtRecord F sections sym val)
    (hnoted : Noted F (mapSections F) sections)
    (hsize : ∀ sec, F.sections[sym.sectionIndex]? = some sec →
      sec.size = sym.size * mapCount F sym.sectionIndex) :
    ∃ sec bytes, F.sections[sym.sectionIndex]? = some sec ∧ isMapSection sec.name = true ∧
      sec.data = some bytes ∧ (mapRecords F)[val]? = some (mapDefAt bytes sym.size sym.value) := by
  obtain ⟨e, he, hindex, hmod, rfl⟩ := h.noted
  obtain ⟨sec, hsec, hinside⟩ := h.inside
  obtain ⟨pre, s, post, hsections, hdata, rfl⟩ := hnoted.sound e he
  have hs : s ∈ mapSections F := by
    rw [hsections]
    exact List.mem_append_right _ List.mem_cons_self
  obtain ⟨hs, hmap⟩ := mem_mapSections hs
  have hindex : s.2 = sym.sectionIndex := hindex
  rw [hindex, hsec] at hs
  obtain rfl := Option.some.inj hs
  obtain ⟨bytes, hbytes⟩ := Option.isSome_iff_exists.mp hdata
  have hsize := hsize s.1 hsec
  have hcount : 0 < mapCount F sym.sectionIndex := by
    rw [Nat.pos_iff_ne_zero]
    intro hzero
    rw [hsize, hzero, Nat.mul_zero] at hinside
    exact absurd hinside (Nat.not_lt_zero _)
  have hrecord : recordSize F s = sym.size := by
    rw [recordSize, hindex, hsize, Nat.mul_div_cancel _ hcount]
  refine ⟨s.1, bytes, hsec, hmap, hbytes, ?_⟩
  dsimp only at hmod ⊢
  rw [hrecord] at hmod ⊢
  have hlt : sym.value / sym.size < mapCount F s.2 := by
    rw [hindex]
    exact Nat.div_lt_of_lt_mul (hsize ▸ hinside)
  have hsplit : mapRecords F = pre.flatMap (sectionRecords F) ++
      (sectionRecords F s ++ post.flatMap (sectionRecords F)) := by
    rw [mapRecords, hsections, List.flatMap_append, List.flatMap_cons]
  rw [hsplit, List.getElem?_append_right (Nat.le_add_right _ _), Nat.add_sub_cancel_left,
    List.getElem?_append_left (by rwa [length_sectionRecords]), sectionRecords, List.getElem?_map,
    List.getElem?_range hlt, hbytes, hrecord]
  show some (mapDefAt bytes sym.size (sym.value / sym.size * sym.size)) = _
  rw [Nat.div_mul_cancel (Nat.dvd_of_mod_eq_zero hmod)]

end Prevail
