import Mathlib.Data.Nat.Bitwise
import Mathlib.Data.Nat.Multiplicity
import Prevail.Arith.Truncation

/-!
# Bitwise operations on intervals

`bitwiseAnd` takes the left operand as it is when the other operand has the mask of 64 bits among its
numbers, and then loses the conjunctions with the others: all of them are in the interval only when they
keep the bits of its lower end (`AndExact`). The bounds of `bitwiseOr` and `bitwiseXor` are numbers of
ones above both operands.
-/

namespace Prevail

open Number

/-- `fill_ones`: the bits below the highest one are set. -/
def Number.fillOnes (n : ℤ) : ℤ := if n = 0 then 0 else 2 ^ (n.toNat.log2 + 1) - 1

namespace Number

theorem maxUint_64 : maxUint 64 = 2 ^ 64 - 1 := rfl

theorem FitsU.exists_nat {n : ℤ} (h : FitsU 64 n) : ∃ k : ℕ, n = k ∧ k < 2 ^ 64 := by
  obtain ⟨h0, h1⟩ := h
  rw [maxUint_64] at h1
  exact ⟨n.toNat, by omega, by omega⟩

end Number

namespace Interval

/-- `bitwise_and`. That an operand with a bound is not negative is asserted in the source. -/
def bitwiseAnd (I x : Interval) : Interval :=
  if I.isBottom || x.isBottom then bottom
  else if I = const 0 ∨ x = const 0 then const 0
  else match x.singleton, I.singleton with
    | some right, some left => const (left.land right)
    | some right, none =>
      if right = maxUint 32 then I.zeroExtend 32
      else if right = maxUint 16 then I.zeroExtend 16
      else if right = maxUint 8 then I.zeroExtend 8
      else andRange I x
    | none, _ => andRange I x
where
  /-- The cases after those for a single mask. -/
  andRange (I x : Interval) : Interval :=
    if x.contains (maxUint 64) then I.zeroExtend 64
    else if !I.isTop && !x.isTop then ofBounds (.fin 0) (I.ub.min x.ub)
    else if !x.isTop then ofBounds (.fin 0) x.ub
    else if !I.isTop then ofBounds (.fin 0) I.ub
    else top

/-- What `bitwise_or` and `bitwise_xor` return for operands that are not single numbers. -/
def orRange (I x : Interval) : Interval :=
  if .fin 0 ≤ I.lb ∧ .fin 0 ≤ x.lb then
    match I.ub.number, x.ub.number with
    | some leftUb, some rightUb => ofInts 0 (fillOnes (max leftUb rightUb))
    | _, _ => ofBounds (.fin 0) .posInf
  else top

/-- `bitwise_or`. -/
def bitwiseOr (I x : Interval) : Interval :=
  if I.isBottom || x.isBottom then bottom
  else match I.singleton, x.singleton with
    | some left, some right => const (left.lor right)
    | _, _ => orRange I x

/-- `bitwise_xor`. -/
def bitwiseXor (I x : Interval) : Interval :=
  if I.isBottom || x.isBottom then bottom
  else match I.singleton, x.singleton with
    | some left, some right => const (left.xor right)
    | _, _ => bitwiseOr I x

/-! ## Bits of natural numbers -/

section

variable {l m n p t : ℕ}

/-- A mask without the lowest bit of a number takes the bit away. -/
theorem land_lt (hbit : l.testBit t = true) : l &&& (2 ^ 64 - (2 ^ t + 1)) < l := by
  refine lt_of_le_of_ne Nat.and_le_left fun heq => ?_
  have hmask : (2 ^ 64 - (2 ^ t + 1)).testBit t = false := by
    by_cases ht : t < 64
    · rw [Nat.testBit_two_pow_sub_succ (Nat.pow_lt_pow_right one_lt_two ht), Nat.testBit_two_pow_self]
      simp
    · have hpow : 2 ^ 64 ≤ 2 ^ t := Nat.pow_le_pow_right two_pos (not_lt.mp ht)
      rw [Nat.sub_eq_zero_of_le (by omega), Nat.zero_testBit]
  rw [← heq, Nat.testBit_and, hmask, Bool.and_false] at hbit
  cases hbit

/-- A mask whose upper bits are set keeps a multiple of the first of them. -/
theorem le_land (ht : t ≤ 64) (hdvd : 2 ^ t ∣ l) (hlm : l ≤ m) (hm : m < 2 ^ 64) (hn : n < 2 ^ 64)
    (hmask : 2 ^ 64 ≤ n + 2 ^ t) : l ≤ m &&& n := by
  have hsplit : 2 ^ 64 = 2 ^ (64 - t) * 2 ^ t := by rw [← pow_add, Nat.sub_add_cancel ht]
  have hpos : 0 < 2 ^ t := Nat.two_pow_pos t
  have hones : n >>> t = 2 ^ (64 - t) - 1 := by
    rw [Nat.shiftRight_eq_div_pow]
    refine Nat.div_eq_of_lt_le ?_ ?_
    · rw [Nat.sub_mul, ← hsplit]
      omega
    · rw [Nat.sub_add_cancel (Nat.two_pow_pos _), ← hsplit]
      exact hn
  have hupper : (m &&& n) / 2 ^ t = m / 2 ^ t := by
    rw [← Nat.shiftRight_eq_div_pow, Nat.shiftRight_and_distrib, hones, Nat.and_two_pow_sub_one_eq_mod,
      Nat.shiftRight_eq_div_pow]
    refine Nat.mod_eq_of_lt ((Nat.div_lt_iff_lt_mul hpos).mpr ?_)
    rwa [← hsplit]
  calc l = l / 2 ^ t * 2 ^ t := (Nat.div_mul_cancel hdvd).symm
    _ ≤ m / 2 ^ t * 2 ^ t := Nat.mul_le_mul_right _ (Nat.div_le_div_right hlm)
    _ = (m &&& n) / 2 ^ t * 2 ^ t := by rw [hupper]
    _ ≤ m &&& n := Nat.div_mul_le_self _ _

/-- A number that is not zero is an odd multiple of a power of two. -/
theorem exists_lowest_bit (hl : l ≠ 0) : ∃ t, 2 ^ t ∣ l ∧ l.testBit t = true := by
  obtain ⟨t, k, hk, rfl⟩ := Nat.exists_eq_two_pow_mul_odd hl
  refine ⟨t, dvd_mul_right _ _, ?_⟩
  rw [Nat.testBit_two_pow_mul, Nat.sub_self, Nat.testBit_zero]
  simpa [Nat.odd_iff] using hk

end

/-! ## Operands -/

/-- An interval of unsigned numbers of 64 bits, as it is asserted, or of all numbers. -/
structure OverUnsigned (I : Interval) : Prop where
  lower : I.isTop = true ∨ .fin 0 ≤ I.lb
  upper : ∀ u, I.ub = .fin u → u ≤ maxUint 64

/-- The result has `f m n` for the unsigned numbers of the operands. -/
def HasAll (f : ℤ → ℤ → ℤ) (I x r : Interval) : Prop :=
  ∀ m ∈ I, ∀ n ∈ x, FitsU 64 m → FitsU 64 n → f m n ∈ r

/-- When conjunctions with the mask of 64 bits and the numbers below it lose nothing: the numbers from
the lower end of the mask operand on have all bits from one on which the other operand's lower end is a
multiple of. -/
def AndExact (I x : Interval) : Prop :=
  match I with
  | ⟨.fin l, .fin u⟩ => l ≤ u → x.contains (maxUint 64) = true →
    ∃ t ≤ 64, 2 ^ t ∣ l ∧ 2 ^ 64 ≤ x.lb.number.getD 0 + 2 ^ t
  | _ => True

section

variable {I x : Interval} {m n : ℤ}

theorem land_le (hm : FitsU 64 m) (hn : FitsU 64 n) : 0 ≤ m.land n ∧ m.land n ≤ m ∧ m.land n ≤ n := by
  obtain ⟨m, rfl, -⟩ := hm.exists_nat
  obtain ⟨n, rfl, -⟩ := hn.exists_nat
  have hleft : m &&& n ≤ m := Nat.and_le_left
  have hright : m &&& n ≤ n := Nat.and_le_right
  exact ⟨Int.natCast_nonneg _, Int.ofNat_le.mpr hleft, Int.ofNat_le.mpr hright⟩

/-- The conjunction with a mask of ones is a truncation. -/
theorem land_maxUint (hm : FitsU 64 m) (w : ℕ) : m.land (maxUint w) = Number.zeroExtend w m := by
  obtain ⟨m, rfl, -⟩ := hm.exists_nat
  have hmask : maxUint w = ((2 ^ w - 1 : ℕ) : ℤ) := by
    rw [maxUint_eq, Int.ofNat_sub Nat.one_le_two_pow]
    push_cast
    rfl
  have hmod : (m : ℤ).land ((2 ^ w - 1 : ℕ) : ℤ) = ((m &&& (2 ^ w - 1) : ℕ) : ℤ) := rfl
  rw [hmask, hmod, Nat.and_two_pow_sub_one_eq_mod]
  unfold Number.zeroExtend
  push_cast
  rfl

theorem extend_of_infinite {ext : ℤ → ℤ} {full : Interval}
    (h : I.lb.isInfinite = true ∨ I.ub.isInfinite = true) : extend ext full I = full := by
  rcases I with ⟨lb, ub⟩
  unfold extend
  split_ifs
  · cases lb <;> cases ub <;> first | rfl | simp [Bound.isInfinite] at h
  · rfl

theorem OverUnsigned.zeroExtend (h : I.OverUnsigned) {l u : ℤ} (hI : I = ⟨.fin l, .fin u⟩) (hlu : l ≤ u) :
    0 ≤ l ∧ u ≤ maxUint 64 ∧ I.zeroExtend 64 = I := by
  have hl : 0 ≤ l := by
    have hlower := h.lower
    rw [hI] at hlower
    exact hlower.resolve_left (by simp [isTop, Bound.isInfinite])
  have hu := h.upper u (by rw [hI])
  refine ⟨hl, hu, ?_⟩
  rw [hI]
  exact zeroExtend_of_fits hl hlu hu

/-- Zero stands for a lower bound without a number. -/
theorem number_lb_le (hn : n ∈ x) (h0 : 0 ≤ n) : x.lb.number.getD 0 ≤ n := by
  obtain ⟨hn, -⟩ := hn
  cases hlb : x.lb with
  | negInf => exact h0
  | fin p =>
    rw [hlb] at hn
    exact hn
  | posInf =>
    rw [hlb] at hn
    exact absurd hn (Bound.not_posInf_le_fin n)

/-! ## Conjunctions -/

/-- The truncated operand has the conjunctions with all numbers of the other one. -/
theorem land_mem_zeroExtend (hI : I.OverUnsigned) (hexact : AndExact I x)
    (hx : x.contains (maxUint 64) = true) (hmI : m ∈ I) (hnx : n ∈ x) (hm : FitsU 64 m) (hn : FitsU 64 n) :
    m.land n ∈ I.zeroExtend 64 := by
  obtain ⟨h0, hle, -⟩ := land_le hm hn
  by_cases hfinite : I.lb.isInfinite = true ∨ I.ub.isInfinite = true
  · rw [Interval.zeroExtend, extend_of_infinite hfinite]
    exact mem_ofInts.mpr ⟨h0, hle.trans hm.2⟩
  rcases I with ⟨lb, ub⟩
  cases lb with
  | negInf => exact absurd (Or.inl rfl) hfinite
  | posInf => exact absurd (Or.inl rfl) hfinite
  | fin l =>
    cases ub with
    | negInf => exact absurd (Or.inr rfl) hfinite
    | posInf => exact absurd (Or.inr rfl) hfinite
    | fin u =>
      have hlm : l ≤ m := hmI.1
      have hmu : m ≤ u := hmI.2
      obtain ⟨hl, -, heq⟩ := hI.zeroExtend rfl (hlm.trans hmu)
      obtain ⟨t, ht, hdvd, hmask⟩ := hexact (hlm.trans hmu) hx
      have hp := number_lb_le hnx hn.1
      rw [heq]
      refine ⟨?_, Bound.fin_le_fin.mpr (hle.trans hmu)⟩
      obtain ⟨m, rfl, hm64⟩ := hm.exists_nat
      obtain ⟨n, rfl, hn64⟩ := hn.exists_nat
      lift l to ℕ using hl
      have hdvd' : 2 ^ t ∣ l := by exact_mod_cast hdvd
      exact Bound.fin_le_fin.mpr (Int.ofNat_le.mpr
        (le_land ht hdvd' (Int.ofNat_le.mp hlm) hm64 hn64 (by zify; omega)))

theorem land_mem_andRange (hmask : x.contains (maxUint 64) = true → m.land n ∈ I.zeroExtend 64)
    (hmI : m ∈ I) (hnx : n ∈ x) (hm : FitsU 64 m) (hn : FitsU 64 n) :
    m.land n ∈ bitwiseAnd.andRange I x := by
  obtain ⟨h0, hleft, hright⟩ := land_le hm hn
  have hI' : .fin (m.land n) ≤ I.ub := Bound.le_trans (Bound.fin_le_fin.mpr hleft) hmI.2
  have hx' : .fin (m.land n) ≤ x.ub := Bound.le_trans (Bound.fin_le_fin.mpr hright) hnx.2
  unfold bitwiseAnd.andRange
  split_ifs with hcontains
  · exact hmask hcontains
  · exact mem_ofBounds.mpr ⟨h0, Bound.le_min.mpr ⟨hI', hx'⟩⟩
  · exact mem_ofBounds.mpr ⟨h0, hx'⟩
  · exact mem_ofBounds.mpr ⟨h0, hI'⟩
  · exact mem_top _

/-- A conjunction is kept when the mask of 64 bits, if it is a number of the other operand, keeps it. -/
theorem land_mem_bitwiseAnd (hmask : x.contains (maxUint 64) = true → m.land n ∈ I.zeroExtend 64)
    (hmI : m ∈ I) (hnx : n ∈ x) (hm : FitsU 64 m) (hn : FitsU 64 n) : m.land n ∈ bitwiseAnd I x := by
  have hrange := land_mem_andRange hmask hmI hnx hm hn
  obtain ⟨h0, hleft, hright⟩ := land_le hm hn
  unfold bitwiseAnd
  rw [isBottom_eq_false_of_mem hmI, isBottom_eq_false_of_mem hnx]
  simp only [Bool.or_self, Bool.false_eq_true, if_false]
  split_ifs with hzero
  · have hzero' : m = 0 ∨ n = 0 := by
      rcases hzero with rfl | rfl
      · exact Or.inl (mem_const.mp hmI)
      · exact Or.inr (mem_const.mp hnx)
    exact mem_const.mpr (by omega)
  split
  · next right left hright hleft =>
    rw [eq_of_singleton hright hnx, eq_of_singleton hleft hmI]
    exact mem_const.mpr rfl
  · next right hright _ =>
    obtain rfl := eq_of_singleton hright hnx
    split_ifs with h32 h16 h8
    · rw [h32, land_maxUint hm]
      exact mem_zeroExtend 32 hmI
    · rw [h16, land_maxUint hm]
      exact mem_zeroExtend 16 hmI
    · rw [h8, land_maxUint hm]
      exact mem_zeroExtend 8 hmI
    · exact hrange
  · exact hrange

theorem hasAll_bitwiseAnd (hI : I.OverUnsigned) (hexact : AndExact I x) :
    HasAll Int.land I x (bitwiseAnd I x) := fun _ hmI _ hnx hm hn =>
  land_mem_bitwiseAnd (fun hmask => land_mem_zeroExtend hI hexact hmask hmI hnx hm hn) hmI hnx hm hn

/-- A conjunction below the lower end is lost. -/
theorem andExact_of_hasAll (hI : I.OverUnsigned) (hx : x.OverUnsigned)
    (h : HasAll Int.land I x (bitwiseAnd I x)) : AndExact I x := by
  unfold AndExact
  split
  swap
  · trivial
  next l u =>
  intro hlu hmask
  obtain ⟨hl, hu, hext⟩ := hI.zeroExtend rfl hlu
  rcases hl.eq_or_lt with rfl | hl
  · refine ⟨64, le_rfl, dvd_zero _, ?_⟩
    have hp : 0 ≤ x.lb.number.getD 0 := by
      rcases hx.lower with htop | hlower
      · cases hlb : x.lb with
        | fin p => simp [isTop, hlb, Bound.isInfinite] at htop
        | negInf => exact le_rfl
        | posInf => exact le_rfl
      · cases hlb : x.lb with
        | fin p => rwa [hlb] at hlower
        | negInf => exact le_rfl
        | posInf => exact le_rfl
    omega
  have hmem := contains_iff.mp hmask
  have hfits : FitsU 64 l := ⟨hl.le, hlu.trans hu⟩
  lift l to ℕ using hl.le
  obtain ⟨t, hdvd, hbit⟩ := exists_lowest_bit (l := l) (by omega)
  have hle : 2 ^ t ≤ l := Nat.le_of_dvd (by omega) hdvd
  have ht : t < 64 := by
    refine (Nat.pow_lt_pow_iff_right one_lt_two).mp (hle.trans_lt ?_)
    rw [FitsU, maxUint_64] at hfits
    omega
  refine ⟨t, ht.le, by exact_mod_cast hdvd, ?_⟩
  by_contra hlt
  -- the mask without the lowest bit of the lower end is a number of the other operand
  have hpow : 2 ^ t < 2 ^ 64 := Nat.pow_lt_pow_right one_lt_two ht
  have hcast : ((2 ^ 64 - (2 ^ t + 1) : ℕ) : ℤ) = 2 ^ 64 - (2 ^ t + 1) := by
    rw [Int.ofNat_sub (by omega)]
    push_cast
    rfl
  have hn : ((2 ^ 64 - (2 ^ t + 1) : ℕ) : ℤ) ∈ x := by
    obtain ⟨hlower, hupper⟩ := hmem
    refine ⟨?_, Bound.le_trans (Bound.fin_le_fin.mpr ?_) hupper⟩
    · cases hlb : x.lb with
      | negInf => exact Bound.negInf_le _
      | posInf =>
        rw [hlb] at hlower
        exact absurd hlower (Bound.not_posInf_le_fin _)
      | fin p =>
        rw [hlb] at hlt
        rw [Bound.fin_le_fin, hcast]
        simp only [Bound.number, Option.getD_some] at hlt
        omega
    · rw [hcast, maxUint_64]
      omega
  have hsingle : x.singleton = none := by
    cases hs : x.singleton with
    | none => rfl
    | some k =>
      have h1 := eq_of_singleton hs hmem
      have h2 := eq_of_singleton hs hn
      rw [hcast] at h2
      rw [maxUint_64] at h1
      omega
  have hlI : (l : ℤ) ∈ Interval.mk (.fin l) (.fin u) := ⟨Bound.le_refl _, Bound.fin_le_fin.mpr hlu⟩
  have hresult : bitwiseAnd ⟨.fin l, .fin u⟩ x = ⟨.fin l, .fin u⟩ := by
    have hI0 : ¬ ((⟨.fin l, .fin u⟩ : Interval) = const 0 ∨ x = const 0) := by
      rintro (heq | rfl)
      · have h0 := (Bound.fin.inj (Interval.mk.inj heq).1)
        omega
      · exact absurd (mem_const.mp hmem) (by decide)
    unfold bitwiseAnd
    rw [isBottom_eq_false_of_mem hmem, isBottom_eq_false_of_mem hlI, if_neg (by simp), if_neg hI0,
      hsingle]
    dsimp only
    unfold bitwiseAnd.andRange
    rw [if_pos hmask, hext]
  have hland := h l hlI _ hn hfits ⟨Int.natCast_nonneg _, by rw [hcast, maxUint_64]; omega⟩
  rw [hresult] at hland
  have hge : (l : ℤ) ≤ ((l &&& (2 ^ 64 - (2 ^ t + 1)) : ℕ) : ℤ) := hland.1
  exact absurd (Int.ofNat_le.mp hge) (not_le.mpr (land_lt hbit))

/-! ## Disjunctions -/

theorem lt_fillOnes {k b : ℕ} (h : k ≤ b) : (k : ℤ) ≤ fillOnes b ∧ ∃ w, fillOnes b = 2 ^ w - 1 := by
  unfold fillOnes
  split_ifs with hb
  · exact ⟨by omega, 0, rfl⟩
  · have hlog : k < 2 ^ (b.log2 + 1) := h.trans_lt Nat.lt_log2_self
    rw [Int.toNat_natCast]
    refine ⟨?_, _, rfl⟩
    have hcast : (k : ℤ) < 2 ^ (b.log2 + 1) := by exact_mod_cast hlog
    omega

/-- An operation that sets no bit above those of its operands has its results in the range. -/
theorem mem_orRange {f : ℕ → ℕ → ℕ} (hf : ∀ {w a b}, a < 2 ^ w → b < 2 ^ w → f a b < 2 ^ w) {m n : ℕ}
    (hm : (m : ℤ) ∈ I) (hn : (n : ℤ) ∈ x) : (f m n : ℤ) ∈ orRange I x := by
  unfold orRange
  split_ifs with hlower
  · split
    · next leftUb rightUb hl hr =>
      have hmax : (m : ℤ) ≤ max leftUb rightUb ∧ (n : ℤ) ≤ max leftUb rightUb := by
        have hmu := hm.2
        have hnu := hn.2
        cases hIub : I.ub <;> rw [hIub] at hl hmu <;> cases hl
        cases hxub : x.ub <;> rw [hxub] at hr hnu <;> cases hr
        exact ⟨le_max_of_le_left hmu, le_max_of_le_right hnu⟩
      obtain ⟨b, hb⟩ := Int.eq_ofNat_of_zero_le (le_trans (Int.natCast_nonneg m) hmax.1)
      rw [hb] at hmax ⊢
      obtain ⟨hm', w, hw⟩ := lt_fillOnes (Int.ofNat_le.mp hmax.1)
      obtain ⟨hn', -⟩ := lt_fillOnes (Int.ofNat_le.mp hmax.2)
      rw [hw] at hm' hn' ⊢
      have hlt := hf (w := w) (a := m) (b := n) (by zify; omega) (by zify; omega)
      refine mem_ofInts.mpr ⟨Int.natCast_nonneg _, ?_⟩
      zify at hlt
      omega
    · exact mem_ofBounds.mpr ⟨Int.natCast_nonneg _, Bound.le_posInf _⟩
  · exact mem_top _

theorem hasAll_bitwiseOr : HasAll Int.lor I x (bitwiseOr I x) := by
  intro m hmI n hnx hm hn
  unfold bitwiseOr
  rw [isBottom_eq_false_of_mem hmI, isBottom_eq_false_of_mem hnx, if_neg (by simp)]
  split
  · next left right hleft hright =>
    rw [eq_of_singleton hright hnx, eq_of_singleton hleft hmI]
    exact mem_const.mpr rfl
  · obtain ⟨m, rfl, -⟩ := hm.exists_nat
    obtain ⟨n, rfl, -⟩ := hn.exists_nat
    exact mem_orRange Nat.or_lt_two_pow hmI hnx

theorem hasAll_bitwiseXor : HasAll Int.xor I x (bitwiseXor I x) := by
  intro m hmI n hnx hm hn
  have hbot : ¬ (I.isBottom || x.isBottom) = true := by
    rw [isBottom_eq_false_of_mem hmI, isBottom_eq_false_of_mem hnx]
    simp
  unfold bitwiseXor
  rw [if_neg hbot]
  split
  · next left right hleft hright =>
    rw [eq_of_singleton hright hnx, eq_of_singleton hleft hmI]
    exact mem_const.mpr rfl
  · next hne =>
    obtain ⟨m, rfl, -⟩ := hm.exists_nat
    obtain ⟨n, rfl, -⟩ := hn.exists_nat
    unfold bitwiseOr
    rw [if_neg hbot]
    split
    · next left right hleft hright => exact absurd hright (hne left right hleft)
    · exact mem_orRange Nat.xor_lt_two_pow hmI hnx

/-! ## All operations -/

/-- Of unsigned operands, `bitwiseOr` and `bitwiseXor` have all results, and `bitwiseAnd` has them
exactly when the mask loses none. -/
theorem hasAll_bitwise_iff (hI : I.OverUnsigned) (hx : x.OverUnsigned) :
    (HasAll Int.land I x (bitwiseAnd I x) ↔ AndExact I x) ∧ HasAll Int.lor I x (bitwiseOr I x) ∧
      HasAll Int.xor I x (bitwiseXor I x) :=
  ⟨⟨andExact_of_hasAll hI hx, hasAll_bitwiseAnd hI⟩, hasAll_bitwiseOr, hasAll_bitwiseXor⟩

end

theorem overUnsigned_ofInts {l u : ℤ} (hl : 0 ≤ l) (hlu : l ≤ u) (hu : u ≤ maxUint 64) :
    (ofInts l u).OverUnsigned := by
  rw [ofInts_of_le hlu]
  exact ⟨Or.inr hl, fun _ h => Bound.fin.inj h ▸ hu⟩

theorem hasAll_bitwise_iff_bytes :
    (HasAll Int.land (ofInts 5 10) (ofInts 0 255) (bitwiseAnd (ofInts 5 10) (ofInts 0 255)) ↔
        AndExact (ofInts 5 10) (ofInts 0 255)) ∧
      HasAll Int.lor (ofInts 5 10) (ofInts 0 255) (bitwiseOr (ofInts 5 10) (ofInts 0 255)) ∧
      HasAll Int.xor (ofInts 5 10) (ofInts 0 255) (bitwiseXor (ofInts 5 10) (ofInts 0 255)) :=
  hasAll_bitwise_iff (overUnsigned_ofInts (by decide) (by decide) (by decide))
    (overUnsigned_ofInts (by decide) (by decide) (by decide))

/-- The conjunction of five and zero, when the other operand is any unsigned number. -/
theorem not_hasAll_bitwiseAnd : (ofInts 5 10).OverUnsigned ∧ (ofInts 0 (maxUint 64)).OverUnsigned ∧
    ¬ HasAll Int.land (ofInts 5 10) (ofInts 0 (maxUint 64))
      (bitwiseAnd (ofInts 5 10) (ofInts 0 (maxUint 64))) := by
  refine ⟨overUnsigned_ofInts (by decide) (by decide) (by decide),
    overUnsigned_ofInts le_rfl (by decide) le_rfl, fun h => ?_⟩
  have hzero := h 5 (mem_ofInts.mpr (by decide)) 0 (mem_ofInts.mpr (by decide)) (by decide) (by decide)
  rw [show bitwiseAnd (ofInts 5 10) (ofInts 0 (maxUint 64)) = ofInts 5 10 by decide] at hzero
  exact absurd (mem_ofInts.mp hzero) (by decide)

end Interval

end Prevail
