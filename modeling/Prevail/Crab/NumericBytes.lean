import Mathlib.Data.List.TakeWhile
import Prevail.Crab.StackCells
import Prevail.Crab.TypeSplit

/-!
# What the marked bytes of the stack say

A concrete state has a set of stack bytes that hold numbers, and a byte that a `BitsetDomain` marks as
a number has to be in it. A store to a range that is not known may be to any of its offsets, with any of
its widths. `store_type` and `store_numbers` keep the marks right, but `havoc_type` leaves every mark
where it is when the range is not known, and a known range whose width is no `int` changes no mark in
either of them.
-/

namespace Prevail

open StateT

namespace BitsetDomain

variable {x y : BitsetDomain} {lb i : ℕ} {n : ℤ}

/-- The byte is marked as a number. -/
def Marked (x : BitsetDomain) (i : ℕ) : Prop :=
  i < totalStackSize ∧ x.nonNumericalBytes.getLsbD i = false

instance : Decidable (x.Marked i) := inferInstanceAs (Decidable (_ ∧ _))

theorem marked_of_le (h : x.le y = true) (hy : y.Marked i) : x.Marked i := by
  refine ⟨hy.1, ?_⟩
  cases hx : x.nonNumericalBytes.getLsbD i with
  | false => rfl
  | true =>
    have hbit := le_iff.mp h i hx
    rw [hy.2] at hbit
    cases hbit

theorem marked_meet : (x.meet y).Marked i ↔ x.Marked i ∨ y.Marked i := by
  simp only [Marked, meet, BitVec.getLsbD_and, Bool.and_eq_false_iff]
  tauto

theorem getLsbD_foldl_havoc (bits : BitVec totalStackSize) (lb m i : ℕ) :
    ((List.range m).foldl (fun bits i => bits ||| BitVec.twoPow _ (lb + i)) bits).getLsbD i =
      (bits.getLsbD i || decide (i < totalStackSize ∧ lb ≤ i ∧ i < lb + m)) := by
  induction m with
  | zero =>
    have hnot : ¬ (i < totalStackSize ∧ lb ≤ i ∧ i < lb + 0) := by omega
    simp only [List.range_zero, List.foldl_nil, hnot, decide_false, Bool.or_false]
  | succ m ih =>
    rw [List.range_succ, List.foldl_append, List.foldl_cons, List.foldl_nil, BitVec.getLsbD_or, ih,
      BitVec.getLsbD_twoPow, Bool.or_assoc]
    congr 1
    rw [← Bool.decide_and, ← Bool.decide_or, decide_eq_decide]
    omega

theorem getLsbD_foldl_reset (bits : BitVec totalStackSize) (lb m i : ℕ) :
    ((List.range m).foldl (fun bits i => bits &&& ~~~BitVec.twoPow _ (lb + i)) bits).getLsbD i =
      (bits.getLsbD i && !decide (lb ≤ i ∧ i < lb + m)) := by
  induction m with
  | zero =>
    have hnot : ¬ (lb ≤ i ∧ i < lb + 0) := by omega
    simp only [List.range_zero, List.foldl_nil, hnot, decide_false, Bool.not_false, Bool.and_true]
  | succ m ih =>
    rw [List.range_succ, List.foldl_append, List.foldl_cons, List.foldl_nil, BitVec.getLsbD_and, ih,
      BitVec.getLsbD_not, BitVec.getLsbD_twoPow]
    by_cases hi : i < totalStackSize
    · rw [Bool.and_assoc]
      congr 1
      simp only [hi, decide_true, Bool.true_and]
      rw [← Bool.not_or, ← Bool.decide_and, ← Bool.decide_or, Bool.not_inj_iff, decide_eq_decide]
      omega
    · rw [BitVec.getLsbD_of_ge _ _ (not_lt.mp hi), Bool.false_and, Bool.false_and, Bool.false_and]

/-- The marks that stay when a range is no longer known. -/
theorem marked_havoc : (x.havoc lb n).Marked i ↔ x.Marked i ∧ ¬ (lb ≤ i ∧ (i : ℤ) < lb + n) := by
  unfold havoc Marked
  split_ifs with hlb
  · refine ⟨fun h => ⟨h, fun hi => ?_⟩, fun h => h.1⟩
    have := h.1
    omega
  · simp only [getLsbD_foldl_havoc, Bool.or_eq_false_iff, decide_eq_false_iff_not]
    constructor
    · rintro ⟨hi, hbit, hnot⟩
      exact ⟨⟨hi, hbit⟩, by omega⟩
    · rintro ⟨⟨hi, hbit⟩, hnot⟩
      exact ⟨hi, hbit, by omega⟩

/-- The marks when a range is known to hold numbers. -/
theorem marked_reset : (x.reset lb n).Marked i ↔
    x.Marked i ∨ i < totalStackSize ∧ lb ≤ i ∧ (i : ℤ) < lb + n := by
  unfold reset Marked
  split_ifs with hlb
  · refine ⟨Or.inl, ?_⟩
    rintro (h | h)
    · exact h
    · omega
  · simp only [getLsbD_foldl_reset, Bool.and_eq_false_iff, Bool.not_eq_false', decide_eq_true_eq]
    constructor
    · rintro ⟨hi, hbit | hrange⟩
      · exact Or.inl ⟨hi, hbit⟩
      · exact Or.inr ⟨hi, by omega⟩
    · rintro (⟨hi, hbit⟩ | ⟨hi, hrange⟩)
      · exact ⟨hi, Or.inl hbit⟩
      · exact ⟨hi, Or.inr (by omega)⟩

/-- The bytes that are counted are marked. -/
theorem marked_of_lt_allNumWidth {j : ℕ} (h : j < x.allNumWidth lb) : x.Marked (lb + j) := by
  unfold allNumWidth at h
  split_ifs at h with hlb
  · omega
  · have hprefix := List.takeWhile_prefix
      (fun j => !x.nonNumericalBytes.getLsbD (lb + j)) (l := List.range (totalStackSize - lb))
    have hlen := hprefix.length_le
    rw [List.length_range] at hlen
    have hget := hprefix.getElem h
    rw [List.getElem_range] at hget
    have hall := List.mem_takeWhile_imp (List.getElem_mem h)
    rw [hget, Bool.not_eq_true'] at hall
    exact ⟨by omega, hall⟩

theorem allNumWidth_of_le (h : totalStackSize ≤ lb) : x.allNumWidth lb = 0 := if_pos h

theorem allNumWidth_le : x.allNumWidth lb ≤ totalStackSize := by
  unfold allNumWidth
  split_ifs with hlb
  · exact Nat.zero_le _
  · have hprefix := List.takeWhile_prefix
      (fun j => !x.nonNumericalBytes.getLsbD (lb + j)) (l := List.range (totalStackSize - lb))
    have hlen := hprefix.length_le
    rw [List.length_range] at hlen
    omega

end BitsetDomain

/-! ## Operations on the bitset -/

/-- The byte is in one of the ranges. -/
def Touches (idx width : Interval) (i : ℕ) : Prop :=
  ∃ o ∈ idx, ∃ w ∈ width, o ≤ (i : ℤ) ∧ (i : ℤ) < o + w

/-- `s'` are the bytes that hold numbers when one of the ranges is written in `s`: the bytes written
hold numbers, or anything. -/
def Written (isNum : Bool) (idx width : Interval) (s s' : Set ℕ) : Prop :=
  ∃ o ∈ idx, ∃ w ∈ width, ∀ i : ℕ,
    if o ≤ (i : ℤ) ∧ (i : ℤ) < o + w then isNum = true → i ∈ s' else i ∈ s' ↔ i ∈ s

/-- What changes the bitset. -/
inductive StackOp where
  | storeType (idx width : Interval) (isNum : Bool)
  | havocType (idx width : Interval)
  | storeNumbers (idx width : Interval)

namespace StackOp

/-- The operation on the bytes. -/
def Effect : StackOp → Set ℕ → Set ℕ → Prop
  | storeType idx width isNum => Written isNum idx width
  | havocType idx width => Written false idx width
  | storeNumbers idx width => Written true idx width

variable {V : Type} [LinearOrder V] (R : ProgramVariables V) (bigEndian : Bool)

/-- The operation on the bitset, with whatever values, types and cells there are. -/
def Runs (a a' : ArrayDomain) : StackOp → Prop
  | storeType idx width isNum => ∃ inv arrays v inv' arrays',
    a.storeType R bigEndian inv idx width isNum arrays = some ((v, inv', a'), arrays')
  | havocType idx width => ∃ inv arrays inv' arrays',
    a.havocType R bigEndian inv idx width arrays = some ((inv', a'), arrays')
  | storeNumbers idx width => a.storeNumbers idx width = some a'

/-- No byte that may be touched is marked. -/
def Clear (a : ArrayDomain) (idx width : Interval) : Prop :=
  ∀ i, a.numBytes.Marked i → ¬ Touches idx width i

/-- The marks of the bytes that may be touched are taken away, unless numbers are written or there are
none. -/
def Covers (a : ArrayDomain) : StackOp → Prop
  | storeType idx width isNum => isNum = true ∨
    (∀ o w, idx.singleton = some o → width.singleton = some w → w < 2 ^ 31) ∨ Clear a idx width
  | havocType idx width =>
    (∃ o w, idx.singleton = some o ∧ width.singleton = some w ∧ w < 2 ^ 31) ∨ Clear a idx width
  | storeNumbers _ _ => True

end StackOp

namespace ArrayDomain

/-- All marked bytes hold numbers. -/
def Admits (a : ArrayDomain) (s : Set ℕ) : Prop := ∀ i, a.numBytes.Marked i → i ∈ s

variable {V : Type} [LinearOrder V] (R : ProgramVariables V) (bigEndian : Bool)

/-- The bitset and the sets of bytes that hold numbers after some operations, each of which is as `ok`
says. -/
inductive Reached (ok : ArrayDomain → StackOp → Prop) : ArrayDomain → Set (Set ℕ) → Prop
  | start {a : ArrayDomain} {S : Set (Set ℕ)} : (∀ s ∈ S, a.Admits s) → Reached ok a S
  | step {a a' : ArrayDomain} {S : Set (Set ℕ)} {op : StackOp} : Reached ok a S → ok a op →
    op.Runs R bigEndian a a' → Reached ok a' {s' | ∃ s ∈ S, op.Effect s s'}
  | join {a b : ArrayDomain} {S T : Set (Set ℕ)} : Reached ok a S → Reached ok b T →
    Reached ok (a.join b) (S ∪ T)
  | meet {a b : ArrayDomain} {S T : Set (Set ℕ)} : Reached ok a S → Reached ok b T →
    Reached ok (a.meet b) (S ∩ T)
  | widen {a b : ArrayDomain} {S T : Set (Set ℕ)} : Reached ok a S → Reached ok b T →
    Reached ok (a.widen b) (S ∪ T)

/-- The interval is longer than an `int`, between ends that are `int`s. -/
def LongerThanInt (I : Interval) : Prop :=
  ∃ lb ub, I = ⟨.fin lb, .fin ub⟩ ∧ Number.FitsS 32 lb ∧ Number.FitsS 32 ub ∧ 2 ^ 31 < ub - lb

end ArrayDomain

/-! ## Ranges -/

namespace Interval

theorem between_of_bound {I : Interval} {lb ub l u : ℤ} (h : I.bound lb ub = some (l, u)) :
    lb ≤ l ∧ u ≤ ub := by
  unfold bound at h
  simp only at h
  split_ifs at h with hbot
  obtain ⟨l', hl, h⟩ := Option.bind_eq_some_iff.mp h
  obtain ⟨u', hu, h⟩ := Option.bind_eq_some_iff.mp h
  obtain ⟨rfl, rfl⟩ := Prod.mk.inj (Option.some.inj h)
  set J := (ofInts lb ub).meet I with hJ
  cases hlb : J.lb <;> rw [hlb] at hl <;> cases hl
  cases hub : J.ub <;> rw [hub] at hu <;> cases hu
  have hle : l' ≤ u' := by
    rw [isBottom, decide_eq_true_eq, Bound.lt_iff, not_not, hlb, hub] at hbot
    exact Bound.fin_le_fin.mp hbot
  have hl : l' ∈ J := ⟨hlb ▸ Bound.le_refl _, hub ▸ Bound.fin_le_fin.mpr hle⟩
  have hu : u' ∈ J := ⟨hlb ▸ Bound.fin_le_fin.mpr hle, hub ▸ Bound.le_refl _⟩
  exact ⟨(mem_ofInts.mp (mem_meet.mp hl).1).1, (mem_ofInts.mp (mem_meet.mp hu).1).2⟩

end Interval

section

variable {idx width : Interval} {lb ub : ℤ} {i size : ℕ}

/-- The range of bytes that is computed has every byte that may be touched. -/
theorem Touches.between (h : Touches idx width i)
    (hrange : ArrayDomain.asNumbytesRange idx width = some (lb, ub)) (hi : i < totalStackSize) :
    lb ≤ i ∧ (i : ℤ) < ub := by
  obtain ⟨o, ho, w, hw, hle, hlt⟩ := h
  set J := idx.join (idx.add width) with hJ
  have hfirst : o ∈ J := Interval.mem_join (Or.inl ho)
  have hlast : o + w ∈ J := Interval.mem_join (Or.inr (Interval.mem_add ho hw))
  have hmem : (i : ℤ) ∈ J := Interval.mem_of_between hfirst hlast hle hlt.le
  have hnext : (i : ℤ) + 1 ∈ J := Interval.mem_of_between hfirst hlast (by omega) (by omega)
  have hleft := TypeDomain.mem_bound hrange hmem (by omega) (by omega)
  have hright := TypeDomain.mem_bound hrange hnext (by omega) (by omega)
  omega

theorem narrowU_eq_some {w : ℕ} {n : ℤ} {k : ℕ} :
    narrowU w n = some k ↔ Number.FitsU w n ∧ n.toNat = k := by
  unfold narrowU
  split_ifs with h
  · simp [h]
  · simp [h]

theorem narrowS_eq_some {w : ℕ} {n k : ℤ} :
    narrowS w n = some k ↔ Number.FitsS w n ∧ n = k := by
  unfold narrowS
  split_ifs with h
  · simp [h]
  · simp [h]

theorem touches_singleton {o w : ℤ} (ho : idx.singleton = some o) (hw : width.singleton = some w)
    (h : Touches idx width i) : o ≤ i ∧ (i : ℤ) < o + w := by
  obtain ⟨o', ho', w', hw', hle, hlt⟩ := h
  obtain rfl := Interval.eq_of_singleton ho ho'
  obtain rfl := Interval.eq_of_singleton hw hw'
  exact ⟨hle, hlt⟩

/-- A size as an `int`: itself, or negative. -/
theorem signExtend_size (h : size < 2 ^ 32) : Number.signExtend 32 size = size ∧ size < 2 ^ 31 ∨
    Number.signExtend 32 size < 0 ∧ 2 ^ 31 ≤ size := by
  unfold Number.signExtend
  split_ifs <;> omega

end

/-! ## One operation -/

namespace ArrayDomain

variable {V : Type} [LinearOrder V] {R : ProgramVariables V} {bigEndian : Bool} {a a' : ArrayDomain}
  {idx width : Interval} {isNum : Bool} {s s' : Set ℕ} {S : Set (Set ℕ)} {op : StackOp}

/-- A range of the types is known when its offset and its width are. -/
theorem splitAndFindVar_types {inv inv' : AddBottom V} {arrays arrays' : ArrayMap}
    {res : Option (ℕ × ℕ)}
    (h : a.splitAndFindVar R bigEndian inv .types idx width arrays = some ((res, inv'), arrays')) :
    (∃ o size : ℕ, size < 2 ^ 32 ∧ idx.singleton = some (o : ℤ) ∧ width.singleton = some (size : ℤ) ∧
      res = some (o, size)) ∨ (idx.singleton = none ∨ width.singleton = none) ∧ res = none := by
  obtain ⟨inv₁, arrays₁, hsplit, h⟩ := bind_eq_some.mp h
  obtain ⟨⟨res', cells⟩, arrays₂, hres, h⟩ := bind_eq_some.mp h
  obtain ⟨-, arrays₃, -, h⟩ := bind_eq_some.mp h
  obtain ⟨rfl, -⟩ := Prod.mk.inj (Prod.mk.inj (Option.some.inj h)).1
  cases ho : idx.singleton with
  | none =>
    rw [ho] at hres
    obtain ⟨found, arrays₄, -, hres⟩ := bind_eq_some.mp hres
    cases hres
    exact Or.inr ⟨Or.inl rfl, rfl⟩
  | some n =>
    cases hw : width.singleton with
    | none =>
      rw [ho, hw] at hres
      obtain ⟨found, arrays₄, -, hres⟩ := bind_eq_some.mp hres
      cases hres
      exact Or.inr ⟨Or.inr rfl, rfl⟩
    | some bytes =>
      rw [ho, hw] at hres
      obtain ⟨size, arrays₄, hsize, hres⟩ := bind_eq_some.mp hres
      obtain ⟨o, arrays₅, ho', hres⟩ := bind_eq_some.mp hres
      obtain ⟨found, arrays₆, -, hres⟩ := bind_eq_some.mp hres
      cases hres
      obtain ⟨hn, rfl⟩ := narrowU_eq_some.mp (liftM_eq_some.mp ho').1
      obtain ⟨hbytes, rfl⟩ := narrowU_eq_some.mp (liftM_eq_some.mp hsize).1
      have hlt := hbytes.2
      rw [Number.maxUint_eq] at hlt
      refine Or.inl ⟨n.toNat, bytes.toNat, by omega, ?_, ?_, rfl⟩
      · rw [Int.toNat_of_nonneg hn.1]
      · rw [Int.toNat_of_nonneg hbytes.1]

/-- What `store_type` does to the bitset. -/
theorem storeType_cases {inv inv' : TypeDomain V} {arrays arrays' : ArrayMap} {v : Option V}
    (h : a.storeType R bigEndian inv idx width isNum arrays = some ((v, inv', a'), arrays')) :
    (∃ o size : ℕ, size < 2 ^ 32 ∧ idx.singleton = some (o : ℤ) ∧ width.singleton = some (size : ℤ) ∧
      a'.numBytes = if isNum then a.numBytes.reset o (Number.signExtend 32 size)
        else a.numBytes.havoc o (Number.signExtend 32 size)) ∨
    (idx.singleton = none ∨ width.singleton = none) ∧ ∃ lb ub,
      asNumbytesRange idx width = some (lb, ub) ∧ a'.numBytes = a.numBytes.havoc (toSize lb) ub := by
  obtain ⟨⟨res, inv₁⟩, arrays₁, hsplit, h⟩ := bind_eq_some.mp h
  rcases splitAndFindVar_types hsplit with ⟨o, size, hsize, ho, hw, rfl⟩ | ⟨hnone, rfl⟩
  · obtain ⟨c, arrays₂, -, h⟩ := bind_eq_some.mp h
    cases h
    exact Or.inl ⟨o, size, hsize, ho, hw, rfl⟩
  · obtain ⟨⟨lb, ub⟩, arrays₂, hrange, h⟩ := bind_eq_some.mp h
    cases h
    exact Or.inr ⟨hnone, lb, ub, (liftM_eq_some.mp hrange).1, rfl⟩

/-- What `havoc_type` does to the bitset: nothing when the range is not known. -/
theorem havocType_cases {inv inv' : TypeDomain V} {arrays arrays' : ArrayMap}
    (h : a.havocType R bigEndian inv idx width arrays = some ((inv', a'), arrays')) :
    (∃ o size : ℕ, size < 2 ^ 32 ∧ idx.singleton = some (o : ℤ) ∧ width.singleton = some (size : ℤ) ∧
      a'.numBytes = a.numBytes.havoc o (Number.signExtend 32 size)) ∨
    (idx.singleton = none ∨ width.singleton = none) ∧ a' = a := by
  obtain ⟨⟨res, inv₁⟩, arrays₁, hsplit, h⟩ := bind_eq_some.mp h
  rcases splitAndFindVar_types hsplit with ⟨o, size, hsize, ho, hw, rfl⟩ | ⟨hnone, rfl⟩
  · cases h
    exact Or.inl ⟨o, size, hsize, ho, hw, rfl⟩
  · cases h
    exact Or.inr ⟨hnone, rfl⟩

/-- A range that starts before the stack or ends behind it is not marked. -/
theorem storeNumbers_marks {i : ℕ} (h : a.storeNumbers idx width = some a')
    (hi : a'.numBytes.Marked i) :
    a.numBytes.Marked i ∨ ∀ o ∈ idx, ∀ w ∈ width, o ≤ (i : ℤ) ∧ (i : ℤ) < o + w := by
  unfold storeNumbers at h
  cases ho : idx.singleton with
  | none =>
    rw [ho] at h
    cases h
    exact Or.inl hi
  | some n =>
    cases hw : width.singleton with
    | none =>
      rw [ho, hw] at h
      cases h
      exact Or.inl hi
    | some w =>
      rw [ho, hw] at h
      simp only at h
      split_ifs at h with hend
      · cases h
        exact Or.inl hi
      · obtain ⟨n', hn, h⟩ := Option.bind_eq_some_iff.mp h
        obtain ⟨w', hw', h⟩ := Option.bind_eq_some_iff.mp h
        cases h
        obtain ⟨hfits, rfl⟩ := narrowS_eq_some.mp hn
        obtain ⟨-, rfl⟩ := narrowS_eq_some.mp hw'
        refine (BitsetDomain.marked_reset.mp hi).imp id fun ⟨hlt, hle, hend'⟩ => ?_
        intro o' ho' w' hw'
        obtain rfl := Interval.eq_of_singleton ho ho'
        obtain rfl := Interval.eq_of_singleton hw hw'
        obtain ⟨hmin, hmax⟩ := hfits
        unfold Number.minInt Number.maxInt at *
        unfold totalStackSize at hlt
        unfold toSize at hle hend'
        omega

section

variable {x : BitsetDomain} {i o size : ℕ} {lb ub : ℤ}

theorem marked_reset_size (hsize : size < 2 ^ 32) (ho : idx.singleton = some (o : ℤ))
    (hw : width.singleton = some (size : ℤ))
    (h : (x.reset o (Number.signExtend 32 size)).Marked i) :
    x.Marked i ∨ ∀ o ∈ idx, ∀ w ∈ width, o ≤ (i : ℤ) ∧ (i : ℤ) < o + w := by
  refine (BitsetDomain.marked_reset.mp h).imp id fun ⟨_, hle, hlt⟩ => ?_
  intro o' ho' w' hw'
  obtain rfl := Interval.eq_of_singleton ho ho'
  obtain rfl := Interval.eq_of_singleton hw hw'
  have := signExtend_size hsize
  omega

theorem marked_havoc_size (hsize : size < 2 ^ 31) (ho : idx.singleton = some (o : ℤ))
    (hw : width.singleton = some (size : ℤ))
    (h : (x.havoc o (Number.signExtend 32 size)).Marked i) : x.Marked i ∧ ¬ Touches idx width i := by
  refine (BitsetDomain.marked_havoc.mp h).imp id fun hnot htouch => hnot ?_
  have := touches_singleton ho hw htouch
  have := signExtend_size (show size < 2 ^ 32 by omega)
  omega

/-- A size that is no `int` takes no marks away. -/
theorem marked_havoc_large (hsize : size < 2 ^ 32) (hlarge : 2 ^ 31 ≤ size) (h : x.Marked i) :
    (x.havoc o (Number.signExtend 32 size)).Marked i := by
  refine BitsetDomain.marked_havoc.mpr ⟨h, ?_⟩
  have := signExtend_size hsize
  omega

/-- The source passes the upper end of the range as its width, which is more than enough. -/
theorem marked_havoc_range (hrange : asNumbytesRange idx width = some (lb, ub))
    (h : (x.havoc (toSize lb) ub).Marked i) : x.Marked i ∧ ¬ Touches idx width i := by
  obtain ⟨hmark, hnot⟩ := BitsetDomain.marked_havoc.mp h
  refine ⟨hmark, fun htouch => hnot ?_⟩
  have hbetween := htouch.between hrange hmark.1
  have hends := Interval.between_of_bound hrange
  have hsize : (toSize lb : ℤ) = lb := by
    have hi := hmark.1
    unfold totalStackSize at hi
    unfold toSize
    omega
  omega

end

/-- The bytes that are marked afterwards were marked and not touched, or numbers were written. -/
theorem Admits.written (h : a.Admits s) (hw : Written isNum idx width s s')
    (hmarks : ∀ i, a'.numBytes.Marked i →
      a.numBytes.Marked i ∧ (isNum = true ∨ ¬ Touches idx width i) ∨
      isNum = true ∧ ∀ o ∈ idx, ∀ w ∈ width, o ≤ (i : ℤ) ∧ (i : ℤ) < o + w) : a'.Admits s' := by
  intro i hi
  obtain ⟨o, ho, w, hw, hs'⟩ := hw
  have hbyte := hs' i
  split_ifs at hbyte with hin
  · refine hbyte ?_
    rcases hmarks i hi with ⟨-, hnum | hnot⟩ | ⟨hnum, -⟩
    · exact hnum
    · exact absurd ⟨o, ho, w, hw, hin⟩ hnot
    · exact hnum
  · refine hbyte.mpr ?_
    rcases hmarks i hi with ⟨hmark, -⟩ | ⟨-, hall⟩
    · exact h i hmark
    · exact absurd (hall o ho w hw) hin

/-- A byte that may be touched need not hold a number any more. -/
theorem exists_written_not_mem {i : ℕ} (h : Touches idx width i) (s : Set ℕ) :
    ∃ s', Written false idx width s s' ∧ i ∉ s' := by
  obtain ⟨o, ho, w, hw, hin⟩ := h
  refine ⟨{j | j ∈ s ∧ ¬ (o ≤ (j : ℤ) ∧ (j : ℤ) < o + w)}, ⟨o, ho, w, hw, fun j => ?_⟩,
    fun hi => hi.2 hin⟩
  split_ifs with hj
  · intro hnum
    cases hnum
  · exact ⟨fun h => h.1, fun h => ⟨h, hj⟩⟩

/-- An operation keeps the marks right exactly when it takes those away that may have become wrong. -/
theorem admits_iff_covers (hrun : op.Runs R bigEndian a a') (hS : S.Nonempty)
    (h : ∀ s ∈ S, a.Admits s) :
    (∀ s ∈ S, ∀ s', op.Effect s s' → a'.Admits s') ↔ op.Covers a := by
  -- what is not covered keeps all marks, one of which is of a byte that may be touched
  have hlost : ∀ {idx width}, (∀ i, a.numBytes.Marked i → a'.numBytes.Marked i) →
      ¬ StackOp.Clear a idx width → ¬ ∀ s ∈ S, ∀ s', Written false idx width s s' → a'.Admits s' := by
    intro idx width hkeep hclear hall
    simp only [StackOp.Clear, not_forall, not_not] at hclear
    obtain ⟨i, hmark, htouch⟩ := hclear
    obtain ⟨s, hs⟩ := hS
    obtain ⟨s', hw, hnot⟩ := exists_written_not_mem htouch s
    exact hnot (hall s hs s' hw i (hkeep i hmark))
  cases op with
  | storeType idx width isNum =>
    obtain ⟨inv, arrays, v, inv', arrays', hrun⟩ := hrun
    constructor
    · intro hall
      by_contra hcovers
      simp only [StackOp.Covers, not_or, Bool.not_eq_true] at hcovers
      obtain ⟨rfl, hlarge, hclear⟩ := hcovers
      simp only [not_forall, not_lt] at hlarge
      obtain ⟨o, w, ho, hw, hlarge⟩ := hlarge
      refine hlost (fun i hi => ?_) hclear hall
      rcases storeType_cases hrun with ⟨o', size, hsize, ho', hw', heq⟩ | ⟨hnone, -⟩
      · obtain rfl := Option.some.inj (hw.symm.trans hw')
        rw [heq, if_neg (by decide)]
        exact marked_havoc_large hsize (by omega) hi
      · rw [ho, hw] at hnone
        rcases hnone with hnone | hnone <;> cases hnone
    · intro hcovers s hs s' heffect
      refine (h s hs).written heffect fun i hi => ?_
      rcases storeType_cases hrun with ⟨o, size, hsize, ho, hw, heq⟩ | ⟨-, lb, ub, hrange, heq⟩
      · rw [heq] at hi
        cases isNum with
        | true =>
          exact (marked_reset_size hsize ho hw hi).imp (fun hmark => ⟨hmark, Or.inl rfl⟩)
            fun hall => ⟨rfl, hall⟩
        | false =>
          rcases hcovers with hnum | hsmall | hclear
          · cases hnum
          · have hlt : size < 2 ^ 31 := by exact_mod_cast hsmall o size ho hw
            exact Or.inl ((marked_havoc_size hlt ho hw hi).imp id Or.inr)
          · have hmark := (BitsetDomain.marked_havoc.mp hi).1
            exact Or.inl ⟨hmark, Or.inr (hclear i hmark)⟩
      · rw [heq] at hi
        exact Or.inl ((marked_havoc_range hrange hi).imp id Or.inr)
  | havocType idx width =>
    obtain ⟨inv, arrays, inv', arrays', hrun⟩ := hrun
    constructor
    · intro hall
      by_contra hcovers
      simp only [StackOp.Covers, not_or, not_exists, not_and, not_lt] at hcovers
      obtain ⟨hlarge, hclear⟩ := hcovers
      refine hlost (fun i hi => ?_) hclear hall
      rcases havocType_cases hrun with ⟨o, size, hsize, ho, hw, heq⟩ | ⟨-, rfl⟩
      · have hle : 2 ^ 31 ≤ size := by exact_mod_cast hlarge o size ho hw
        rw [heq]
        exact marked_havoc_large hsize hle hi
      · exact hi
    · intro hcovers s hs s' heffect
      refine (h s hs).written heffect fun i hi => Or.inl ?_
      rcases havocType_cases hrun with ⟨o, size, hsize, ho, hw, heq⟩ | ⟨hnone, rfl⟩
      · rw [heq] at hi
        rcases hcovers with ⟨o', w, ho', hw', hsmall⟩ | hclear
        · obtain rfl := Option.some.inj (hw.symm.trans hw')
          have hlt : size < 2 ^ 31 := by exact_mod_cast hsmall
          exact (marked_havoc_size hlt ho hw hi).imp id Or.inr
        · have hmark := (BitsetDomain.marked_havoc.mp hi).1
          exact ⟨hmark, Or.inr (hclear i hmark)⟩
      · rcases hcovers with ⟨o', w, ho', hw', -⟩ | hclear
        · rw [ho', hw'] at hnone
          rcases hnone with hnone | hnone <;> cases hnone
        · exact ⟨hi, Or.inr (hclear i hi)⟩
  | storeNumbers idx width =>
    refine iff_of_true (fun s hs s' heffect => (h s hs).written heffect fun i hi => ?_) trivial
    exact (storeNumbers_marks hrun hi).imp (fun hmark => ⟨hmark, Or.inl rfl⟩) fun hall => ⟨rfl, hall⟩

/-! ## All operations -/

theorem Admits.of_le {b : ArrayDomain} (h : a.Admits s) (hle : a.le b = true) : b.Admits s :=
  fun i hi => h i (BitsetDomain.marked_of_le hle hi)

theorem Admits.meet {b : ArrayDomain} (ha : a.Admits s) (hb : b.Admits s) : (a.meet b).Admits s :=
  fun i hi => (BitsetDomain.marked_meet.mp hi).elim (ha i) (hb i)

/-- Operations that cover the bytes they touch keep the marks right. -/
theorem Reached.admits (h : Reached R bigEndian (fun a op => op.Covers a) a S) (hs : s ∈ S) :
    a.Admits s := by
  induction h generalizing s with
  | start h => exact h s hs
  | step h hcovers hrun ih =>
    obtain ⟨s₀, hs₀, heffect⟩ := hs
    exact (admits_iff_covers hrun ⟨s₀, hs₀⟩ fun s hs => ih hs).mpr hcovers s₀ hs₀ s heffect
  | join ha hb iha ihb =>
    rcases hs with hs | hs
    · exact (iha hs).of_le (BitsetDomain.le_join_left _ _)
    · exact (ihb hs).of_le (BitsetDomain.le_join_right _ _)
  | meet ha hb iha ihb => exact (iha hs.1).meet (ihb hs.2)
  | widen ha hb iha ihb =>
    rcases hs with hs | hs
    · exact (iha hs).of_le (BitsetDomain.le_join_left _ _)
    · exact (ihb hs).of_le (BitsetDomain.le_join_right _ _)

/-- The bytes that are counted are marked from every offset of an interval on, unless the interval is
longer than an `int`. -/
theorem minAllNumSize_iff (a : ArrayDomain) (inv : AddBottom V) (offset : V) :
    (∀ o ∈ inv.evalInterval (.var offset), ∀ j, o ≤ j → j < o + a.minAllNumSize inv offset →
      ∃ i : ℕ, j = i ∧ a.numBytes.Marked i) ↔ ¬ LongerThanInt (inv.evalInterval (.var offset)) := by
  unfold minAllNumSize
  generalize inv.evalInterval (.var offset) = I
  simp only
  constructor
  · rintro hall ⟨lb, ub, rfl, hlb, hub, hlong⟩
    -- the interval starts before the stack, where no byte is a number
    have hnone : a.numBytes.allNumWidth (toSize lb) = 0 := by
      refine BitsetDomain.allNumWidth_of_le ?_
      obtain ⟨hmin, -⟩ := hlb
      obtain ⟨-, hmax⟩ := hub
      unfold Number.minInt Number.maxInt at *
      unfold toSize totalStackSize
      omega
    have hpos : 0 < Number.signExtend 32 (((0 : ℕ) : ℤ) - (ub - lb)) := by
      obtain ⟨hmin, -⟩ := hlb
      obtain ⟨-, hmax⟩ := hub
      unfold Number.minInt Number.maxInt at *
      unfold Number.signExtend
      split_ifs <;> omega
    have hmem : lb ∈ (⟨.fin lb, .fin ub⟩ : Interval) :=
      ⟨Bound.le_refl _, Bound.fin_le_fin.mpr (by omega)⟩
    have hbyte := hall lb hmem lb le_rfl
    simp only [Bound.number, if_pos (And.intro hlb hub), hnone] at hbyte
    obtain ⟨i, hi, -⟩ := hbyte (by omega)
    obtain ⟨hmin, -⟩ := hlb
    obtain ⟨-, hmax⟩ := hub
    unfold Number.minInt Number.maxInt at *
    omega
  · intro hshort o ho j hoj hj
    obtain ⟨l, u⟩ := I
    cases l with
    | negInf => simp only [Bound.number] at hj; omega
    | posInf => simp only [Bound.number] at hj; omega
    | fin lb =>
      cases u with
      | negInf => simp only [Bound.number] at hj; omega
      | posInf => simp only [Bound.number] at hj; omega
      | fin ub =>
        simp only [Bound.number] at hj
        split_ifs at hj with hfits
        · obtain ⟨hlo, hou⟩ := ho
          rw [Bound.fin_le_fin] at hlo hou
          have hlen : ub - lb ≤ 2 ^ 31 := by
            by_contra hlong
            exact hshort ⟨lb, ub, rfl, hfits.1, hfits.2, not_le.mp hlong⟩
          have hle := @BitsetDomain.allNumWidth_le a.numBytes (toSize lb)
          have hmarked := @BitsetDomain.marked_of_lt_allNumWidth a.numBytes (toSize lb)
          have hout := @BitsetDomain.allNumWidth_of_le a.numBytes (toSize lb)
          generalize a.numBytes.allNumWidth (toSize lb) = n at *
          have hfit : Number.FitsS 32 ((n : ℤ) - (ub - lb)) := by
            unfold Number.FitsS Number.minInt Number.maxInt
            unfold totalStackSize at hle
            omega
          rw [Number.signExtend_of_fits (by decide) hfit] at hj
          obtain ⟨⟨hmin, hmax⟩, -⟩ := hfits
          unfold Number.minInt at hmin
          unfold Number.maxInt at hmax
          have hin : toSize lb < totalStackSize := by
            by_contra hge
            have := hout (not_lt.mp hge)
            omega
          have hsize : (toSize lb : ℤ) = lb := by
            unfold toSize totalStackSize at *
            omega
          refine ⟨toSize lb + (j - lb).toNat, by omega, hmarked (by omega)⟩
        · omega

/-- Along operations that cover the bytes they touch every marked byte holds a number, and an operation
that does not cover them breaks this at once. The count of bytes holds for every offset of an interval
that is no longer than an `int`. -/
theorem numBytes_sound (h : Reached R bigEndian (fun a op => op.Covers a) a S) :
    (∀ s ∈ S, a.Admits s) ∧
      (∀ (op : StackOp) (a' : ArrayDomain), S.Nonempty → op.Runs R bigEndian a a' →
        ((∀ s ∈ S, ∀ s', op.Effect s s' → a'.Admits s') ↔ op.Covers a)) ∧
      ∀ (inv : AddBottom V) (offset : V), (∀ o ∈ inv.evalInterval (.var offset), ∀ j, o ≤ j →
        j < o + a.minAllNumSize inv offset → ∃ i : ℕ, j = i ∧ a.numBytes.Marked i) ↔
          ¬ LongerThanInt (inv.evalInterval (.var offset)) := by
  have hadmits : ∀ s ∈ S, a.Admits s := fun s hs => h.admits hs
  exact ⟨hadmits, fun op a' hS hrun => admits_iff_covers hrun hS hadmits, minAllNumSize_iff a⟩

/-- The first eight bytes are numbers. -/
def eightNumbers : ArrayDomain := ⟨BitsetDomain.top.reset 0 8⟩

theorem admits_top (s : Set ℕ) : top.Admits s := by
  rintro i ⟨hi, hbit⟩
  rw [top, BitsetDomain.top, BitVec.getLsbD_allOnes, decide_eq_false_iff_not] at hbit
  exact absurd hi hbit

theorem runs_eightNumbers (R : ProgramVariables V) : (StackOp.storeNumbers (.const 0) (.const 8)).Runs
    R false top eightNumbers := rfl

theorem reached_eightNumbers (R : ProgramVariables V) {ok : ArrayDomain → StackOp → Prop}
    (hok : ok top (.storeNumbers (.const 0) (.const 8))) : Reached R false ok eightNumbers
      {s' | ∃ s ∈ ({∅} : Set (Set ℕ)), (StackOp.storeNumbers (.const 0) (.const 8)).Effect s s'} :=
  .step (.start fun s _ => admits_top s) hok (runs_eightNumbers R)

theorem effect_eightNumbers : {i | i < 8} ∈ {s' : Set ℕ | ∃ s ∈ ({∅} : Set (Set ℕ)),
    (StackOp.storeNumbers (.const 0) (.const 8)).Effect s s'} := by
  refine ⟨∅, rfl, 0, Interval.mem_const.mpr rfl, 8, Interval.mem_const.mpr rfl, fun i => ?_⟩
  split_ifs with hi
  · intro _
    show i < 8
    omega
  · refine iff_of_false (fun hlt => hi ?_) (Set.notMem_empty i)
    have hlt : i < 8 := hlt
    omega

theorem numBytes_sound_eightNumbers : eightNumbers.Admits {i | i < 8} := by
  have hreached : Reached (.named []) false (fun a op => op.Covers a) eightNumbers _ :=
    reached_eightNumbers (.named []) trivial
  exact (numBytes_sound hreached).1 _ effect_eightNumbers

/-- Forgetting the types of eight bytes at an offset that is `0` or `1` leaves the marks. -/
theorem exists_stale_mark : ∃ a S s i, Reached (ProgramVariables.named []) false (fun _ _ => True) a S ∧
    s ∈ S ∧ a.numBytes.Marked i ∧ i ∉ s := by
  have hruns : (StackOp.havocType (.ofInts 0 1) (.const 8)).Runs (ProgramVariables.named []) false
      eightNumbers eightNumbers := ⟨⟨.top⟩, fun _ => .empty, ⟨.top⟩, _, rfl⟩
  have hmarked : eightNumbers.numBytes.Marked 0 :=
    BitsetDomain.marked_reset.mpr (Or.inr ⟨by decide, by omega, by omega⟩)
  have htouch : Touches (.ofInts 0 1) (.const 8) 0 :=
    ⟨0, Interval.mem_ofInts.mpr ⟨by omega, by omega⟩, 8, Interval.mem_const.mpr rfl, by omega, by omega⟩
  obtain ⟨s', hw, hnot⟩ := exists_written_not_mem htouch {i | i < 8}
  exact ⟨eightNumbers, _, s', 0, .step (reached_eightNumbers (.named []) trivial) trivial hruns,
    ⟨_, effect_eightNumbers, hw⟩, hmarked, hnot⟩

end ArrayDomain

end Prevail
