import Prevail.Lib.BitString

/-!
# The keys of the radix tree

`offset_t` is a key of the tree that keeps the cells of an array: an index of 64 bits of which the first
`prefixLength` count. The tree takes keys apart and puts them together as if they were strings of bits. The
native shifts of `radix_substr` and `radix_join` do that as long as they shift by less than 64, which fails
for an empty slice at either end of a key and behind a key of full length (`radixSubstr_iff`,
`radixJoin_iff`).
-/

namespace Prevail

open BitString

/-- `offset_t`. -/
structure OffsetKey where
  index : BitVec 64
  prefixLength : ℕ
  deriving DecidableEq

namespace OffsetKey

/-- `<<` of an `Index`: shifting by 64 or more means nothing. -/
def shiftLeft (x : BitVec 64) (count : ℤ) : Option (BitVec 64) :=
  if 0 ≤ count ∧ count < 64 then some (x <<< count.toNat) else none

/-- `>>` of an `Index`. -/
def shiftRight (x : BitVec 64) (count : ℤ) : Option (BitVec 64) :=
  if 0 ≤ count ∧ count < 64 then some (x >>> count.toNat) else none

/-- The constructor from an index. -/
def ofIndex (index : BitVec 64) : OffsetKey := ⟨index, 64⟩

/-- `operator[]`. -/
def bitAt (key : OffsetKey) (n : ℤ) : Option (BitVec 64) := do
  return (← shiftRight key.index (64 - 1 - n)) &&& 1

/-- `radix_length`. -/
def radixLength (key : OffsetKey) : ℕ := key.prefixLength

/-- The first value of `mask` in `radix_substr`. -/
def sliceMask (length : ℕ) : Option (BitVec 64) := if length = 64 then some 0 else shiftLeft 1 length

/-- `radix_substr`. -/
def radixSubstr (key : OffsetKey) (start length : ℕ) : Option OffsetKey := do
  let mask ← shiftLeft ((← sliceMask length) - 1) (64 - length - start)
  return ⟨← shiftLeft (key.index &&& mask) start, length⟩

/-- `radix_join`. -/
def radixJoin (entry1 entry2 : OffsetKey) : Option OffsetKey := do
  return ⟨entry1.index ||| (← shiftRight entry2.index entry1.prefixLength),
    entry1.prefixLength + entry2.prefixLength⟩

/-! ## Strings of bits -/

/-- The key stands for a string of bits: these come first, and zeros behind them. -/
structure Is (key : OffsetKey) (bs : List Bool) : Prop where
  length : key.radixLength = bs.length
  bits : BitString.bits key.index bs.length = bs
  padded : Padded key.index bs.length
  le : bs.length ≤ 64

variable {key key' a b : OffsetKey} {bs cs : List Bool} {start length n : ℕ} {x y : BitVec 64} {count : ℤ}

theorem is_ofIndex (k : BitVec 64) : (ofIndex k).Is (BitString.bits k 64) where
  length := (length_bits k 64).symm
  bits := by
    rw [length_bits]
    rfl
  padded := by
    rw [length_bits]
    exact padded_width k
  le := (length_bits k 64).le

/-- A key is known by its string. -/
theorem Is.unique (h : key.Is bs) (h' : key'.Is bs) : key = key' := by
  obtain ⟨index, n⟩ := key
  obtain ⟨index', n'⟩ := key'
  have hindex : index = index' := h.padded.eq_of_bits h'.padded (h.bits.trans h'.bits.symm)
  have hlength : n = n' := h.length.trans h'.length.symm
  rw [hindex, hlength]

theorem shiftLeft_eq_some : shiftLeft x count = some y ↔ (0 ≤ count ∧ count < 64) ∧ y = x <<< count.toNat := by
  unfold shiftLeft
  split_ifs with h
  · simp [h, eq_comm]
  · simp [h]

theorem shiftRight_eq_some :
    shiftRight x count = some y ↔ (0 ≤ count ∧ count < 64) ∧ y = x >>> count.toNat := by
  unfold shiftRight
  split_ifs with h
  · simp [h, eq_comm]
  · simp [h]

/-- The mask of a slice before it is shifted. -/
theorem getLsbD_ones {mask : BitVec 64} (h : sliceMask length = some mask) (i : ℕ) :
    (mask - 1).getLsbD i = decide (i < length) := by
  unfold sliceMask at h
  by_cases hfull : length = 64
  · rw [if_pos hfull] at h
    obtain rfl := Option.some.inj h
    rw [hfull]
    exact BitVec.getLsbD_allOnes
  · rw [if_neg hfull, shiftLeft_eq_some] at h
    obtain ⟨⟨-, hlt⟩, rfl⟩ := h
    exact getLsbD_one_shiftLeft_sub_one (by omega)

theorem radixSubstr_eq_some : radixSubstr key start length = some key' ↔
    ∃ mask, sliceMask length = some mask ∧ (length + start ≤ 64 ∧ 0 < length + start) ∧ start < 64 ∧
      key' = ⟨(key.index &&& ((mask - 1) <<< (64 - length - start))) <<< start, length⟩ := by
  have hcount : ((64 : ℤ) - length - start).toNat = 64 - length - start := by omega
  unfold radixSubstr
  simp only [Option.bind_eq_bind, Option.bind_eq_some_iff, shiftLeft_eq_some, Option.pure_def,
    Option.some.injEq, hcount, Int.toNat_natCast]
  refine exists_congr fun mask => and_congr Iff.rfl ?_
  constructor
  · rintro ⟨_, ⟨hmask, rfl⟩, _, ⟨hstart, rfl⟩, rfl⟩
    exact ⟨by omega, by omega, rfl⟩
  · rintro ⟨hmask, hstart, rfl⟩
    exact ⟨_, ⟨by omega, rfl⟩, _, ⟨by omega, rfl⟩, rfl⟩

/-- A slice is the slice of the string, unless it is empty and at an end of a full key. -/
theorem radixSubstr_iff (h : key.Is bs) (hle : start + length ≤ bs.length) :
    (∃ s, radixSubstr key start length = some s ∧ s.Is ((bs.drop start).take length)) ↔
      ¬ (length = 0 ∧ (start = 0 ∨ start = 64)) := by
  have h64 := h.le
  constructor
  · rintro ⟨s, hs, -⟩ ⟨rfl, hstart⟩
    obtain ⟨mask, -, hcount, hlt, -⟩ := radixSubstr_eq_some.mp hs
    omega
  · intro hends
    have hmask : ∃ mask, sliceMask length = some mask := by
      unfold sliceMask
      by_cases hfull : length = 64
      · exact ⟨0, if_pos hfull⟩
      · exact ⟨_, (if_neg hfull).trans (shiftLeft_eq_some.mpr ⟨by omega, rfl⟩)⟩
    obtain ⟨mask, hmask⟩ := hmask
    refine ⟨_, radixSubstr_eq_some.mpr ⟨mask, hmask, by omega, by omega, rfl⟩, ?_⟩
    have hones : ∀ i, ((mask - 1) <<< (64 - length - start)).getMsbD i =
        decide (start ≤ i ∧ i < start + length) := fun i =>
      getMsbD_ones_shiftLeft (getLsbD_ones hmask) (by omega)
    have hlength : ((bs.drop start).take length).length = length := by
      rw [List.length_take, List.length_drop]
      omega
    refine ⟨hlength.symm, ?_, hlength.symm ▸ padded_slice hones, by omega⟩
    rw [hlength, bits_slice hones, ← bits_take key.index hle, h.bits, List.drop_take, List.take_take]
    congr 1
    omega

/-- A join is the concatenation of the strings, unless the first key is full. -/
theorem radixJoin_iff (ha : a.Is bs) (hb : b.Is cs) (hle : bs.length + cs.length ≤ 64) :
    (∃ s, radixJoin a b = some s ∧ s.Is (bs ++ cs)) ↔ bs.length < 64 := by
  have hlength : a.prefixLength = bs.length := ha.length
  have hlength' : b.prefixLength = cs.length := hb.length
  unfold radixJoin
  simp only [Option.bind_eq_bind, Option.bind_eq_some_iff, shiftRight_eq_some, Option.pure_def,
    Option.some.injEq]
  constructor
  · rintro ⟨s, ⟨shifted, ⟨⟨-, hlt⟩, -⟩, -⟩, -⟩
    omega
  · intro hlt
    refine ⟨_, ⟨_, ⟨by omega, rfl⟩, rfl⟩, ?_⟩
    rw [Int.toNat_natCast, hlength]
    refine ⟨?_, ?_, ?_, ?_⟩
    · show bs.length + b.prefixLength = _
      rw [hlength', List.length_append]
    · rw [List.length_append, bits_or_shiftRight ha.padded hle, ha.bits, hb.bits]
    · rw [List.length_append]
      exact ha.padded.or_shiftRight hb.padded
    · rwa [List.length_append]

/-- A bit of a key. -/
theorem bitAt_eq (key : OffsetKey) (hn : n < 64) :
    bitAt key n = some (BitVec.setWidth 64 (.ofBool (key.index.getMsbD n))) := by
  have hcount : ((64 : ℤ) - 1 - n).toNat = 63 - n := by omega
  unfold bitAt
  rw [Option.bind_eq_bind, Option.bind_eq_some_iff]
  refine ⟨_, shiftRight_eq_some.mpr ⟨by omega, rfl⟩, ?_⟩
  rw [hcount, Option.pure_def, Option.some.injEq]
  refine BitVec.eq_of_getLsbD_eq fun i hi => ?_
  rw [BitVec.getLsbD_and, BitVec.getLsbD_ushiftRight, BitVec.getLsbD_setWidth, BitVec.getLsbD_ofBool,
    BitVec.getMsbD_eq_getLsbD, decide_eq_true hn, decide_eq_true hi]
  by_cases h0 : i = 0
  · subst h0
    simp
  · simp [h0]

/-- Both slices of a key are taken, and together they are the key. -/
def SplitsAt (k : BitVec 64) (n : ℕ) : Prop :=
  ∃ a b, radixSubstr (ofIndex k) 0 n = some a ∧ radixSubstr (ofIndex k) n (64 - n) = some b ∧
    radixJoin a b = some (ofIndex k)

theorem splitsAt_iff (k : BitVec 64) (hn : n ≤ 64) : SplitsAt k n ↔ 0 < n ∧ n < 64 := by
  constructor
  · rintro ⟨a, b, ha, hb, -⟩
    obtain ⟨-, -, hpos, -⟩ := radixSubstr_eq_some.mp ha
    obtain ⟨-, -, -, hlt, -⟩ := radixSubstr_eq_some.mp hb
    omega
  · rintro ⟨hpos, hlt⟩
    have hk := is_ofIndex k
    have hlength := length_bits k 64
    obtain ⟨a, ha, hais⟩ := (radixSubstr_iff hk (show 0 + n ≤ _ by omega)).mpr (by omega)
    obtain ⟨b, hb, hbis⟩ := (radixSubstr_iff hk (show n + (64 - n) ≤ _ by omega)).mpr (by omega)
    rw [List.drop_zero] at hais
    rw [List.take_of_length_le (by rw [List.length_drop, hlength])] at hbis
    have htake : ((BitString.bits k 64).take n).length = n := by
      rw [List.length_take, hlength, Nat.min_eq_left hn]
    have hdrop : ((BitString.bits k 64).drop n).length = 64 - n := by rw [List.length_drop, hlength]
    obtain ⟨s, hs, hsis⟩ := (radixJoin_iff hais hbis (by omega)).mpr (by omega)
    rw [List.take_append_drop] at hsis
    exact ⟨a, b, ha, hb, hs.trans (congrArg some (hsis.unique hk))⟩

/-- A key falls apart anywhere but at its ends. Slices and joins are those of the strings of bits, for all
but the empty slices at the ends of a full key and what is joined behind a full key. -/
theorem radixKeys_iff (k : BitVec 64) {n start length : ℕ} {key key₁ key₂ : OffsetKey}
    {bs bs₁ bs₂ : List Bool} (hn : n ≤ 64) (hkey : key.Is bs) (hle : start + length ≤ bs.length)
    (hkey₁ : key₁.Is bs₁) (hkey₂ : key₂.Is bs₂) (hjoin : bs₁.length + bs₂.length ≤ 64) :
    (n < 64 → bitAt (ofIndex k) n = some (BitVec.setWidth 64 (.ofBool (k.getMsbD n)))) ∧
    (SplitsAt k n ↔ 0 < n ∧ n < 64) ∧
    ((∃ s, radixSubstr key start length = some s ∧ s.Is ((bs.drop start).take length)) ↔
      ¬ (length = 0 ∧ (start = 0 ∨ start = 64))) ∧
    ((∃ s, radixJoin key₁ key₂ = some s ∧ s.Is (bs₁ ++ bs₂)) ↔ bs₁.length < 64) :=
  ⟨fun hlt => bitAt_eq (ofIndex k) hlt, splitsAt_iff k hn, radixSubstr_iff hkey hle,
    radixJoin_iff hkey₁ hkey₂ hjoin⟩

/-- The key of the offset `-8`. -/
theorem radixKeys_iff_minusEight :
    (61 < 64 → bitAt (ofIndex (-8)) 61 =
      some (BitVec.setWidth 64 (.ofBool ((-8 : BitVec 64).getMsbD 61)))) ∧
    (SplitsAt (-8) 61 ↔ 0 < 61 ∧ 61 < 64) ∧
    ((∃ s, radixSubstr (ofIndex (-8)) 60 3 = some s ∧
        s.Is (((BitString.bits (-8 : BitVec 64) 64).drop 60).take 3)) ↔ ¬ (3 = 0 ∧ (60 = 0 ∨ 60 = 64))) ∧
    ((∃ s, radixJoin ⟨0, 0⟩ (ofIndex (-8)) = some s ∧
        s.Is ([] ++ BitString.bits (-8 : BitVec 64) 64)) ↔ ([] : List Bool).length < 64) :=
  radixKeys_iff (-8) (by decide) (is_ofIndex (-8)) (by decide) ⟨rfl, rfl, fun i _ => by simp, by decide⟩
    (is_ofIndex (-8)) (by decide)

/-- A slice or a join at an end shifts by 64. -/
theorem not_splitsAt_ends : ¬ SplitsAt (-8) 0 ∧ ¬ SplitsAt (-8) 64 := by
  rw [splitsAt_iff _ (by decide), splitsAt_iff _ (by decide)]
  decide

end OffsetKey

end Prevail
