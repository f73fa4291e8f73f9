import Prevail.Arith.Bitwise
import Prevail.Arith.Division

/-!
# Shifts of intervals

`shl` multiplies by a power of two and `ashr` divides by one, when the count is a single number that is
not too large; `lshr` shifts the ends. The counts and the results are masked to the width of the
operation first.
-/

namespace Prevail

open Number

/-- The value that an operation of `w` bits keeps of a result. -/
def Number.masked (w : ℕ) (n : ℤ) : ℤ := if w < 64 then n % 2 ^ w else n

namespace Interval

/-- `shl`. -/
def shl (I x : Interval) : Interval :=
  if I.isBottom || x.isBottom then bottom
  else match x.singleton with
    | some k => if 0 ≤ k ∧ k ≤ 128 then I.mul (const (2 ^ k.toNat)) else top
    | none => top

/-- `ashr`. -/
def ashr (I x : Interval) : Interval :=
  if I.isBottom || x.isBottom then bottom
  else match x.singleton with
    | some k => if 0 ≤ k ∧ k ≤ 128 then I.divConst (2 ^ k.toNat) else top
    | none => top

/-- `lshr`. A count that does not fit 32 bits is an error. -/
def lshr (I x : Interval) : Option Interval :=
  if I.isBottom || x.isBottom then some bottom
  else match x.singleton, I.lb, I.ub with
    | some k, .fin lb, .fin ub =>
      if 0 < k ∧ 0 ≤ lb then
        if FitsS 32 k then some (ofInts (lb / 2 ^ k.toNat) (ub / 2 ^ k.toNat)) else none
      else some top
    | _, _, _ => some top

/-- `mask_value`. -/
def maskValue (I : Interval) (w : ℕ) : Interval :=
  if 0 < w ∧ w < 64 then I.bitwiseAnd (const (2 ^ w - 1)) else I

/-- `mask_shift_count`. -/
def maskShiftCount (I : Interval) (w : ℕ) : Interval :=
  if 0 < w then I.bitwiseAnd (const (w - 1)) else I

variable {I x : Interval} {k n : ℤ} {w : ℕ}

theorem finiteSize_fin (l u : ℤ) : (⟨.fin l, .fin u⟩ : Interval).finiteSize = some (u + -l) := rfl

/-- An interval with a number is finite or reaches arbitrarily far. -/
theorem finite_or_far (hn : n ∈ I) : (∃ l u, I = ⟨.fin l, .fin u⟩ ∧ l ≤ n ∧ n ≤ u) ∨
    I.finiteSize = none ∧ ∀ M, ∃ m ∈ I, ∃ m' ∈ I, M ≤ m' - m := by
  obtain ⟨lb, ub⟩ := I
  obtain ⟨hl, hu⟩ := hn
  cases lb with
  | posInf => exact absurd hl (Bound.not_posInf_le_fin n)
  | negInf =>
    refine Or.inr ⟨by cases ub <;> rfl, fun M => ⟨n - max M 0, ⟨Bound.negInf_le _, ?_⟩, n, ⟨hl, hu⟩, by omega⟩⟩
    exact Bound.le_trans (Bound.fin_le_fin.mpr (by omega)) hu
  | fin l =>
    cases ub with
    | negInf => exact absurd hu (Bound.not_fin_le_negInf n)
    | posInf =>
      refine Or.inr ⟨rfl, fun M => ⟨n, ⟨hl, hu⟩, n + max M 0, ⟨?_, Bound.le_posInf _⟩, by omega⟩⟩
      exact Bound.le_trans hl (Bound.fin_le_fin.mpr (by omega))
    | fin u => exact Or.inl ⟨l, u, rfl, Bound.fin_le_fin.mp hl, Bound.fin_le_fin.mp hu⟩

theorem mem_shl (hn : n ∈ I) (hk : k ∈ x) : n * 2 ^ k.toNat ∈ I.shl x := by
  unfold shl
  rw [isBottom_eq_false_of_mem hn, isBottom_eq_false_of_mem hk]
  simp only [Bool.or_self, Bool.false_eq_true, if_false]
  split
  · next m hm =>
    obtain rfl := eq_of_singleton hm hk
    split_ifs
    · exact mem_mul hn (mem_const.mpr rfl)
    · exact mem_top _
  · exact mem_top _

theorem mem_divConst {c : ℤ} (hc : 0 < c) (hn : n ∈ I) : n.tdiv c ∈ I.divConst c := by
  unfold divConst
  rw [isBottom_eq_false_of_mem hn, if_neg Bool.false_ne_true]
  split_ifs with hone
  · rwa [hone, Int.tdiv_one]
  · obtain ⟨hl, hu⟩ := hn
    refine mem_ofBounds.mpr ⟨?_, ?_⟩
    · cases hlb : I.lb with
      | fin l =>
        rw [hlb, Bound.fin_le_fin] at hl
        exact Bound.fin_le_fin.mpr (Int.tdiv_le_tdiv hc hl)
      | negInf => exact Bound.negInf_le _
      | posInf =>
        rw [hlb] at hl
        exact absurd hl (Bound.not_posInf_le_fin n)
    · cases hub : I.ub with
      | fin u =>
        rw [hub, Bound.fin_le_fin] at hu
        exact Bound.fin_le_fin.mpr (Int.tdiv_le_tdiv hc hu)
      | negInf =>
        rw [hub] at hu
        exact absurd hu (Bound.not_fin_le_negInf n)
      | posInf => exact Bound.le_posInf _

theorem mem_ashr (hn : n ∈ I) (hk : k ∈ x) : n.tdiv (2 ^ k.toNat) ∈ I.ashr x := by
  unfold ashr
  rw [isBottom_eq_false_of_mem hn, isBottom_eq_false_of_mem hk]
  simp only [Bool.or_self, Bool.false_eq_true, if_false]
  split
  · next m hm =>
    obtain rfl := eq_of_singleton hm hk
    split_ifs
    · exact mem_divConst (two_pow_pos _) hn
    · exact mem_top _
  · exact mem_top _

/-- A count that fits 32 bits is no error. -/
theorem mem_lshr (hn : n ∈ I) (hk : k ∈ x) (hfits : FitsS 32 k) :
    ∃ r, I.lshr x = some r ∧ n / 2 ^ k.toNat ∈ r := by
  unfold lshr
  rw [isBottom_eq_false_of_mem hn, isBottom_eq_false_of_mem hk]
  simp only [Bool.or_self, Bool.false_eq_true, if_false]
  split
  · next m lb ub hm hlb hub =>
    obtain rfl := eq_of_singleton hm hk
    split_ifs with hpos
    · refine ⟨_, rfl, mem_ofInts.mpr ?_⟩
      have hl := hn.1
      have hu := hn.2
      rw [hlb, Bound.fin_le_fin] at hl
      rw [hub, Bound.fin_le_fin] at hu
      exact ⟨Int.ediv_le_ediv (two_pow_pos _) hl, Int.ediv_le_ediv (two_pow_pos _) hu⟩
    · exact ⟨_, rfl, mem_top _⟩
  · exact ⟨_, rfl, mem_top _⟩

/-- The low bits of a number that is not negative. -/
theorem land_two_pow_sub_one (hn : 0 ≤ n) (w : ℕ) : n.land (2 ^ w - 1) = n % 2 ^ w := by
  obtain ⟨m, rfl⟩ := Int.eq_ofNat_of_zero_le hn
  have hmask : (2 ^ w - 1 : ℤ) = ((2 ^ w - 1 : ℕ) : ℤ) := by
    rw [Int.ofNat_sub Nat.one_le_two_pow]
    push_cast
    rfl
  rw [hmask]
  show ((m &&& (2 ^ w - 1) : ℕ) : ℤ) = _
  rw [Nat.and_two_pow_sub_one_eq_mod]
  push_cast
  rfl

theorem singleton_const (c : ℤ) : (const c).singleton = some c := if_pos rfl

theorem mem_maskValue (hw : w = 32 ∨ w = 64) (hn : n ∈ I) (h0 : 0 ≤ n) : masked w n ∈ I.maskValue w := by
  rcases hw with rfl | rfl
  · unfold maskValue masked
    rw [if_pos (by decide), if_pos (by decide)]
    unfold bitwiseAnd
    rw [isBottom_eq_false_of_mem hn, show (const (2 ^ 32 - 1)).isBottom = false by decide, singleton_const]
    simp only [Bool.or_self, Bool.false_eq_true, if_false]
    split_ifs with hzero
    · rcases hzero with rfl | hzero
      · rw [mem_const.mp hn]
        exact mem_const.mpr rfl
      · exact absurd hzero (by decide)
    · split
      · next right left hright hleft =>
        obtain rfl := Option.some.inj hright
        obtain rfl := eq_of_singleton hleft hn
        exact mem_const.mpr (land_two_pow_sub_one h0 32).symm
      · next right hright hleft =>
        obtain rfl := Option.some.inj hright
        rw [if_pos (by decide)]
        exact mem_zeroExtend 32 hn
      · next hright => cases hright
  · exact hn

/-- A count is masked to the width, whatever its interval. -/
theorem mem_maskShiftCount (hw : w = 32 ∨ w = 64) (hn : n ∈ I) (hfits : FitsU 64 n) :
    n % w ∈ I.maskShiftCount w := by
  have hland : ∀ v ≤ 6, n % 2 ^ v ∈ I.bitwiseAnd (const (2 ^ v - 1)) := by
    intro v hv
    have hsmall : (const (2 ^ v - 1)).contains (maxUint 64) = false ∧ FitsU 64 (2 ^ v - 1) := by
      interval_cases v <;> decide
    have hmem := land_mem_bitwiseAnd (fun hmask => absurd hmask (by simp [hsmall.1])) hn
      (mem_const.mpr rfl) hfits hsmall.2
    rwa [land_two_pow_sub_one hfits.1] at hmem
  unfold maskShiftCount
  rcases hw with rfl | rfl
  · exact hland 5 (by decide)
  · exact hland 6 (by decide)

/-! ## Masked conjunctions -/

/-- When conjunctions that are masked to the width lose nothing with the mask of 64 bits: the left
operand is not within the unsigned numbers or covers all numbers of the width, or its lower end is a
multiple of a power of two from which on the width ends or all numbers of the other operand have all
bits. -/
def AndExactAt (w : ℕ) (I x : Interval) : Prop :=
  match I with
  | ⟨.fin l, .fin u⟩ => x.contains (maxUint 64) = true → 0 ≤ l → u ≤ maxUint 64 → u - l + 1 < 2 ^ w →
    l % 2 ^ w ≤ u % 2 ^ w → ∃ t ≤ w, 2 ^ t ∣ l ∧ (t = w ∨ 2 ^ 64 ≤ x.lb.number.getD 0 + 2 ^ t)
  | _ => True

/-- A number of the width is in the truncation that keeps the ends apart. -/
theorem mem_zeroExtend_of_ends {l u : ℤ} (hlu : l ≤ u) (h0 : 0 ≤ n) (hn : n ≤ maxUint w)
    (h : u - l + 1 < 2 ^ w → l % 2 ^ w ≤ u % 2 ^ w → l % 2 ^ w ≤ n ∧ n ≤ u % 2 ^ w) :
    n ∈ (⟨.fin l, .fin u⟩ : Interval).zeroExtend w := by
  have hsize : (Interval.mk (.fin l) (.fin u)).size = .fin (u - l + 1) := by
    rw [← ofInts_of_le hlu, size_ofInts hlu]
  have hfull : n ∈ unsignedInt w := mem_ofInts.mpr ⟨h0, hn⟩
  unfold zeroExtend extend
  rw [hsize, unsignedInt, size_ofInts (h0.trans hn)]
  simp only [Bound.fin_lt_fin]
  split_ifs with hlt hends
  · rw [maxUint_eq] at hlt
    exact h (by omega) hends
  · exact hfull
  · exact hfull

theorem infinite_of_finiteSize (h : I.finiteSize = none) :
    I.lb.isInfinite = true ∨ I.ub.isInfinite = true := by
  rcases I with ⟨lb, ub⟩
  cases lb with
  | fin l =>
    cases ub with
    | fin u => cases h
    | _ => exact Or.inr rfl
  | _ => exact Or.inl rfl

theorem zeroExtend_const (hw : 0 < w) (c : ℤ) : (const c).zeroExtend w = const (c % 2 ^ w) := by
  have hsize : (const c).size = .fin 1 := by
    rw [← ofInts_self, size_ofInts le_rfl, sub_self, zero_add]
  have hone : (1 : ℤ) < 2 ^ w := one_lt_pow₀ one_lt_two hw.ne'
  have hlt : (Bound.fin 1) < (unsignedInt w).size := by
    rw [unsignedInt, maxUint_eq, size_ofInts (by omega)]
    exact Bound.fin_lt_fin.mpr (by omega)
  unfold zeroExtend extend
  rw [hsize, if_pos hlt]
  exact if_pos le_rfl

/-- Only an interval within the unsigned numbers is kept apart from the other ones by the truncation. -/
theorem within_of_not_mem_zeroExtend {m : ℤ} (hm : m ∈ I) (hmU : FitsU 64 m) (h0 : 0 ≤ n)
    (hn : n ≤ maxUint 64) (hnot : n ∉ I.zeroExtend 64) :
    ∃ l u, I = ⟨.fin l, .fin u⟩ ∧ 0 ≤ l ∧ u ≤ maxUint 64 := by
  rcases finite_or_far hm with ⟨l, u, rfl, hlm, hmu⟩ | ⟨hsize, -⟩
  · refine ⟨l, u, rfl, ?_⟩
    by_contra hout
    refine hnot (mem_zeroExtend_of_ends (hlm.trans hmu) h0 hn fun hsize hends => absurd hends ?_)
    obtain ⟨hm0, hm1⟩ := hmU
    rw [maxUint_64] at hm1 hout
    rcases lt_or_ge l 0 with hl | hl
    · have hmod : l % 2 ^ 64 = l + 2 ^ 64 := by omega
      omega
    · have hmod : u % 2 ^ 64 = u - 2 ^ 64 := by omega
      omega
  · refine absurd ?_ hnot
    rw [Interval.zeroExtend, extend_of_infinite (infinite_of_finiteSize hsize)]
    exact mem_ofInts.mpr ⟨h0, hn⟩

/-- The mask of 32 bits truncates. -/
theorem mem_maskValue_of_mem_zeroExtend {m : ℤ} (hm : m ∈ I) (h0 : 0 ≤ m) (hn : n ∈ I.zeroExtend 32) :
    n ∈ I.maskValue 32 := by
  have hself : ∀ c, I = const c → n = c.land (2 ^ 32 - 1) := by
    rintro c rfl
    obtain rfl := mem_const.mp hm
    rw [zeroExtend_const (by decide)] at hn
    rw [land_two_pow_sub_one h0]
    exact mem_const.mp hn
  unfold maskValue
  rw [if_pos (by decide)]
  unfold bitwiseAnd
  rw [isBottom_eq_false_of_mem hm, show (const (2 ^ 32 - 1)).isBottom = false by decide, singleton_const]
  simp only [Bool.or_self, Bool.false_eq_true, if_false]
  split_ifs with hzero
  · rcases hzero with hI | hzero
    · exact mem_const.mpr (hself 0 hI)
    · exact absurd hzero (by decide)
  · split
    · next right left hright hleft =>
      obtain rfl := Option.some.inj hright
      exact mem_const.mpr (hself left (eq_const_of_singleton hleft))
    · next right hright hleft =>
      obtain rfl := Option.some.inj hright
      rw [if_pos (by decide)]
      exact hn
    · next hright => cases hright

/-- A conjunction is at most its left operand at every width. -/
theorem land_emod_le {m : ℤ} (hm : FitsU 64 m) (hn : FitsU 64 n) (w : ℕ) :
    m.land n % 2 ^ w ≤ m % 2 ^ w := by
  obtain ⟨a, rfl, -⟩ := hm.exists_nat
  obtain ⟨b, rfl, -⟩ := hn.exists_nat
  have hand : (a &&& b) % 2 ^ w ≤ a % 2 ^ w := by
    rw [Nat.and_mod_two_pow]
    exact Nat.and_le_left
  show ((a &&& b : ℕ) : ℤ) % 2 ^ w ≤ a % 2 ^ w
  exact_mod_cast hand

/-- With the mask of 64 bits among the numbers of the other operand, the left operand is only
truncated, or a conjunction is computed. -/
theorem bitwiseAnd_of_contains {m : ℤ} (hx : x.contains (maxUint 64) = true) (hm : m ∈ I) (hn : n ∈ x)
    (hmU : FitsU 64 m) (hnU : FitsU 64 n) : I.bitwiseAnd x = I.zeroExtend 64 ∨ m.land n ∈ I.bitwiseAnd x := by
  have hrange : bitwiseAnd.andRange I x = I.zeroExtend 64 := if_pos hx
  unfold bitwiseAnd
  rw [isBottom_eq_false_of_mem hm, isBottom_eq_false_of_mem hn]
  simp only [Bool.or_self, Bool.false_eq_true, if_false]
  split_ifs with hzero
  · rcases hzero with rfl | rfl
    · obtain rfl := mem_const.mp hm
      obtain ⟨h0, hle, -⟩ := land_le hmU hnU
      exact Or.inr (mem_const.mpr (le_antisymm hle h0))
    · exact absurd hx (by decide)
  split
  · next right left hright hleft =>
    obtain rfl := eq_of_singleton hright hn
    obtain rfl := eq_of_singleton hleft hm
    exact Or.inr (mem_const.mpr rfl)
  · next right hright hleft =>
    obtain rfl := eq_of_singleton hright (contains_iff.mp hx)
    rw [if_neg (by decide), if_neg (by decide), if_neg (by decide)]
    exact Or.inl hrange
  · exact Or.inl hrange

/-- The conjunctions with unsigned numbers, reduced to the width, are in the truncated operand. -/
theorem land_mem_zeroExtend_of_andExactAt {l u m : ℤ} (hw : w ≤ 64)
    (hexact : AndExactAt w ⟨.fin l, .fin u⟩ x) (hx : x.contains (maxUint 64) = true) (h0 : 0 ≤ l)
    (hu : u ≤ maxUint 64) (hlm : l ≤ m) (hmu : m ≤ u) (hn : n ∈ x) (hnU : FitsU 64 n) :
    m.land n % 2 ^ w ∈ (⟨.fin l, .fin u⟩ : Interval).zeroExtend w := by
  have hmU : FitsU 64 m := ⟨h0.trans hlm, hmu.trans hu⟩
  obtain ⟨hland, hle, -⟩ := land_le hmU hnU
  by_cases hge : l ≤ m.land n
  · exact mem_zeroExtend w ⟨Bound.fin_le_fin.mpr hge, Bound.fin_le_fin.mpr (hle.trans hmu)⟩
  refine mem_zeroExtend_of_ends (hlm.trans hmu) (Int.emod_nonneg _ (two_pow_pos w).ne') ?_ ?_
  · have hlt := Int.emod_lt_of_pos (m.land n) (two_pow_pos w)
    rw [maxUint_eq]
    omega
  intro hsize hends
  obtain ⟨t, ht, hdvd, rfl | hmask⟩ := hexact hx h0 hu hsize hends
  · -- the lower end is zero at the width, and a conjunction is at most its left operand there
    have hzero : l % 2 ^ t = 0 := Int.emod_eq_zero_of_dvd hdvd
    have hmod : ∀ k, l ≤ k → k ≤ u → k % 2 ^ t = k - l := fun k hlk hku => by
      rw [← Int.emod_eq_of_lt (a := k - l) (by omega) (by omega : k - l < 2 ^ t), Int.sub_emod, hzero,
        sub_zero, Int.emod_emod_of_dvd _ dvd_rfl]
    refine ⟨hzero ▸ Int.emod_nonneg _ (two_pow_pos t).ne', ?_⟩
    calc m.land n % 2 ^ t ≤ m % 2 ^ t := land_emod_le hmU hnU t
      _ = m - l := hmod m hlm hmu
      _ ≤ u - l := by omega
      _ = u % 2 ^ t := (hmod u (hlm.trans hmu) le_rfl).symm
  · have hp : x.lb.number.getD 0 ≤ n := number_lb_le hn hnU.1
    obtain ⟨a, rfl, ha⟩ := hmU.exists_nat
    obtain ⟨b, rfl, hb⟩ := hnU.exists_nat
    lift l to ℕ using h0
    have hdvd' : 2 ^ t ∣ l := by exact_mod_cast hdvd
    have hkept : l ≤ a &&& b :=
      le_land (ht.trans hw) hdvd' (Int.ofNat_le.mp hlm) ha hb (by zify; omega)
    exact absurd (Int.ofNat_le.mpr hkept) hge

/-- A masked conjunction loses nothing when the mask of 64 bits loses nothing at the width. -/
theorem mem_maskValue_bitwiseAnd {m : ℤ} (hw : w = 32 ∨ w = 64) (hexact : AndExactAt w I x) (hm : m ∈ I)
    (hn : n ∈ x) (hmU : FitsU 64 m) (hnU : FitsU 64 n) :
    masked w (m.land n) ∈ (I.bitwiseAnd x).maskValue w := by
  obtain ⟨hland, hle, -⟩ := land_le hmU hnU
  by_cases hx : x.contains (maxUint 64) = true
  swap
  · exact mem_maskValue hw (land_mem_bitwiseAnd (fun hmask => absurd hmask hx) hm hn hmU hnU) hland
  rcases bitwiseAnd_of_contains hx hm hn hmU hnU with heq | hmem
  swap
  · exact mem_maskValue hw hmem hland
  rw [heq]
  by_cases hmem : m.land n ∈ I.zeroExtend 64
  · exact mem_maskValue hw hmem hland
  obtain ⟨l, u, rfl, h0, hu⟩ := within_of_not_mem_zeroExtend hm hmU hland (hle.trans hmU.2) hmem
  have hlm : l ≤ m := hm.1
  have hmu : m ≤ u := hm.2
  have hmod := land_mem_zeroExtend_of_andExactAt (by omega) hexact hx h0 hu hlm hmu hn hnU
  rw [zeroExtend_of_fits h0 (hlm.trans hmu) hu] at hmem ⊢
  rcases hw with rfl | rfl
  · exact mem_maskValue_of_mem_zeroExtend hm hmU.1 hmod
  · have hfits : m.land n % 2 ^ 64 = m.land n := by
      refine Int.emod_eq_of_lt hland ?_
      have hlt := hle.trans hmU.2
      rw [maxUint_64] at hlt
      omega
    rw [zeroExtend_of_fits h0 (hlm.trans hmu) hu, hfits] at hmod
    exact hmod

end Interval

end Prevail
