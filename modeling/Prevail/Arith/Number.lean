import Mathlib.Data.Int.Basic
import Mathlib.Data.Int.Bitwise
import Mathlib.Data.Int.Order.Basic
import Mathlib.Algebra.Order.Ring.Int
import Mathlib.Tactic.Linarith
import Mathlib.Tactic.Ring
import Mathlib.Tactic.NormNum
import Mathlib.Tactic.SplitIfs

/-!
# Numbers

`Number` wraps an unbounded integer, so a number is an `ℤ` here. A finite width enters through
the range tests (`fits`), the casts (`cast_to`, which raise an error on a number that fits
neither signedness) and the truncations (`sign_extend`, `zero_extend`, which never do).

Truncation is described by `signExtend_eq` and `zeroExtend_eq`: the result differs from the
number by a multiple of `2 ^ w` and lies in the signed or unsigned range.
-/

namespace Prevail

namespace Number

/-! ## Ranges -/

/-- `Number::max_int`. -/
def maxInt (w : ℕ) : ℤ := 2 ^ (w - 1) - 1

/-- `Number::min_int`. -/
def minInt (w : ℕ) : ℤ := -2 ^ (w - 1)

/-- `Number::max_uint`. -/
def maxUint (w : ℕ) : ℤ := maxInt (w + 1)

/-- `fits<intw_t>`. -/
def FitsS (w : ℕ) (n : ℤ) : Prop := minInt w ≤ n ∧ n ≤ maxInt w

/-- `fits<uintw_t>`. -/
def FitsU (w : ℕ) (n : ℤ) : Prop := 0 ≤ n ∧ n ≤ maxUint w

instance (w : ℕ) (n : ℤ) : Decidable (FitsS w n) := inferInstanceAs (Decidable (_ ∧ _))

instance (w : ℕ) (n : ℤ) : Decidable (FitsU w n) := inferInstanceAs (Decidable (_ ∧ _))

/-- `fits_cast_to`, which asks for either signedness. -/
def FitsCast (w : ℕ) (n : ℤ) : Prop := FitsS w n ∨ FitsU w n

instance (w : ℕ) (n : ℤ) : Decidable (FitsCast w n) := inferInstanceAs (Decidable (_ ∨ _))

theorem maxUint_eq (w : ℕ) : maxUint w = 2 ^ w - 1 := rfl

/-! ## Casts -/

/-- `cast_to<intw_t>`; `none` is the error of a number that fits neither signedness. -/
def castToS (w : ℕ) (n : ℤ) : Option ℤ :=
  if FitsS w n then some n else if FitsU w n then some (n - 2 ^ w) else none

/-- `cast_to<uintw_t>`. -/
def castToU (w : ℕ) (n : ℤ) : Option ℤ :=
  if FitsU w n then some n else if FitsS w n then some (n + 2 ^ w) else none

/-! ## Truncation -/

/-- `sign_extend`: keep the low `w` bits and read them as a signed number. -/
def signExtend (w : ℕ) (n : ℤ) : ℤ :=
  if 2 ^ (w - 1) ≤ n % 2 ^ w then n % 2 ^ w - 2 ^ w else n % 2 ^ w

/-- `zero_extend`: keep the low `w` bits. -/
def zeroExtend (w : ℕ) (n : ℤ) : ℤ := n % 2 ^ w

theorem two_pow_pos (w : ℕ) : (0 : ℤ) < 2 ^ w := by positivity

theorem two_pow_eq {w : ℕ} (hw : 0 < w) : (2 : ℤ) ^ w = 2 * 2 ^ (w - 1) := by
  obtain ⟨v, rfl⟩ : ∃ v, w = v + 1 := ⟨w - 1, by omega⟩
  rw [Nat.add_sub_cancel, pow_succ]
  ring

/-- The truncation is the number less a multiple of `2 ^ w`, within the signed range. -/
theorem signExtend_eq {w : ℕ} (hw : 0 < w) (n : ℤ) :
    ∃ q, signExtend w n = n - 2 ^ w * q ∧ minInt w ≤ signExtend w n ∧
      signExtend w n ≤ maxInt w := by
  have h0 := Int.emod_nonneg n (two_pow_pos w).ne'
  have h1 := Int.emod_lt_of_pos n (two_pow_pos w)
  have h2 := Int.emod_add_mul_ediv n (2 ^ w)
  have h3 := two_pow_eq hw
  unfold signExtend minInt maxInt
  split_ifs with h
  · refine ⟨n / 2 ^ w + 1, ?_, ?_, ?_⟩ <;> linarith
  · refine ⟨n / 2 ^ w, ?_, ?_, ?_⟩ <;> linarith

/-- The truncation is the number less a multiple of `2 ^ w`, within the unsigned range. -/
theorem zeroExtend_eq (w : ℕ) (n : ℤ) :
    ∃ q, zeroExtend w n = n - 2 ^ w * q ∧ 0 ≤ zeroExtend w n ∧ zeroExtend w n ≤ maxUint w := by
  have h0 := Int.emod_nonneg n (two_pow_pos w).ne'
  have h1 := Int.emod_lt_of_pos n (two_pow_pos w)
  have h2 := Int.emod_add_mul_ediv n (2 ^ w)
  refine ⟨n / 2 ^ w, ?_, h0, ?_⟩
  · unfold zeroExtend
    linarith
  · rw [maxUint_eq]
    unfold zeroExtend
    linarith

/-- Two numbers of one window of width `M` that agree modulo `M` are equal. -/
theorem eq_of_window {M a b q : ℤ} (h : a = b - M * q) (hlo : b - M < a) (hhi : a < b + M) :
    a = b := by
  have hM : 0 < M := by linarith
  have hq : q = 0 := by
    have h1 : -1 < q := by by_contra hc; nlinarith
    have h2 : q < 1 := by by_contra hc; nlinarith
    omega
  rw [hq] at h
  linarith

theorem signExtend_of_fits {w : ℕ} (hw : 0 < w) {n : ℤ} (h : FitsS w n) :
    signExtend w n = n := by
  obtain ⟨q, hq, hlo, hhi⟩ := signExtend_eq hw n
  have h3 := two_pow_eq hw
  unfold FitsS at h
  unfold minInt maxInt at *
  exact eq_of_window hq (by linarith [h.1, h.2]) (by linarith [h.1, h.2])

theorem zeroExtend_of_fits {w : ℕ} {n : ℤ} (h : FitsU w n) : zeroExtend w n = n := by
  obtain ⟨q, hq, hlo, hhi⟩ := zeroExtend_eq w n
  unfold FitsU at h
  rw [maxUint_eq] at *
  exact eq_of_window hq (by linarith [h.1, h.2]) (by linarith [h.1, h.2])

end Number

end Prevail
