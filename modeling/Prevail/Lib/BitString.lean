import Mathlib.Data.BitVec
import Mathlib.Data.List.Basic

/-!
# The bits of a word as a string

`bits x n` are the first `n` bits of a word, the most significant one first. A word is padded behind `n` bits
when the others are zero; it is then known by its first `n` bits (`Padded.eq_of_bits`). A shift to the left
drops bits from the string and a shift to the right puts zeros in front of it.
-/

namespace BitString

variable {w n m i : ℕ} {x y : BitVec w}

/-- The first bits of a word. -/
def bits (x : BitVec w) (n : ℕ) : List Bool := (List.range n).map x.getMsbD

/-- The bits of a word behind the first `n` are zero. -/
def Padded (x : BitVec w) (n : ℕ) : Prop := ∀ i, n ≤ i → x.getMsbD i = false

@[simp] theorem length_bits (x : BitVec w) (n : ℕ) : (bits x n).length = n := by simp [bits]

theorem getElem?_bits : (bits x n)[i]? = if i < n then some (x.getMsbD i) else none := by
  unfold bits
  split_ifs with h <;> simp [h]

theorem padded_width (x : BitVec w) : Padded x w := fun i hi => by
  rw [BitVec.getMsbD_eq_getLsbD, decide_eq_false (not_lt.mpr hi), Bool.false_and]

theorem Padded.eq_of_bits (hx : Padded x n) (hy : Padded y n) (h : bits x n = bits y n) : x = y := by
  refine BitVec.eq_of_getMsbD_eq fun i _ => ?_
  by_cases hi : i < n
  · have hbit : (bits x n)[i]? = (bits y n)[i]? := congrArg (fun bs : List Bool => bs[i]?) h
    rw [getElem?_bits, getElem?_bits, if_pos hi, if_pos hi] at hbit
    exact Option.some.inj hbit
  · rw [hx i (not_lt.mp hi), hy i (not_lt.mp hi)]

/-- A string in front of another one. -/
theorem bits_or_shiftRight (hx : Padded x m) (hm : m + n ≤ w) :
    bits (x ||| y >>> m) (m + n) = bits x m ++ bits y n := by
  refine List.ext_getElem? fun i => ?_
  rw [getElem?_bits, List.getElem?_append, length_bits, getElem?_bits, getElem?_bits,
    BitVec.getMsbD_or, BitVec.getMsbD_ushiftRight]
  by_cases hi : i < m
  · have hlt : i < m + n := by omega
    simp [hi, hlt]
  · have hw : i < m + n → i < w := by omega
    have hn : i < m + n ↔ i - m < n := by omega
    rw [hx i (not_lt.mp hi)]
    by_cases hlt : i < m + n
    · simp [hi, hlt, hw hlt, hn.mp hlt]
    · simp [hi, hlt, hn.not.mp hlt]

theorem Padded.or_shiftRight (hx : Padded x m) (hy : Padded y n) : Padded (x ||| y >>> m) (m + n) := by
  intro i hi
  rw [BitVec.getMsbD_or, BitVec.getMsbD_ushiftRight, hx i (by omega), hy (i - m) (by omega)]
  simp

/-- A word whose last bits are ones. -/
theorem getLsbD_one_shiftLeft_sub_one (h : n < w) :
    ((1#w <<< n) - 1#w).getLsbD i = decide (i < n) := by
  have hone : (1#w).toNat = 1 := by
    rw [BitVec.toNat_ofNat, Nat.mod_eq_of_lt (Nat.one_lt_two_pow (by omega))]
  have hpow : (1#w <<< n).toNat = 2 ^ n := BitVec.toNat_twoPow_of_lt h
  have hle : 1#w ≤ 1#w <<< n := by
    rw [BitVec.le_def, hone, hpow]
    exact Nat.one_le_two_pow
  rw [← BitVec.testBit_toNat, BitVec.toNat_sub_of_le hle, hone, hpow, Nat.testBit_two_pow_sub_one]

/-- Ones that are shifted to the places from `m` on. -/
theorem getMsbD_ones_shiftLeft {ones : BitVec w} (hones : ∀ i, ones.getLsbD i = decide (i < n))
    (h : m + n ≤ w) : (ones <<< (w - n - m)).getMsbD i = decide (m ≤ i ∧ i < m + n) := by
  rw [BitVec.getMsbD_shiftLeft, BitVec.getMsbD_eq_getLsbD, hones, ← Bool.decide_and]
  exact decide_eq_decide.mpr (by omega)

/-- The bits from `m` on, of which a mask leaves `n`. -/
theorem bits_slice {mask : BitVec w} (hmask : ∀ i, mask.getMsbD i = decide (m ≤ i ∧ i < m + n)) :
    bits ((x &&& mask) <<< m) n = ((bits x (m + n)).drop m).take n := by
  refine List.ext_getElem? fun i => ?_
  rw [getElem?_bits, List.getElem?_take, List.getElem?_drop, getElem?_bits]
  by_cases hi : i < n
  · have hplace : m ≤ i + m ∧ i + m < m + n := by omega
    rw [if_pos hi, if_pos hi, if_pos (by omega), BitVec.getMsbD_shiftLeft, BitVec.getMsbD_and, hmask,
      decide_eq_true hplace, Bool.and_true, Nat.add_comm]
  · rw [if_neg hi, if_neg hi]

theorem padded_slice {mask : BitVec w} (hmask : ∀ i, mask.getMsbD i = decide (m ≤ i ∧ i < m + n)) :
    Padded ((x &&& mask) <<< m) n := by
  intro i hi
  have hplace : ¬ (m ≤ i + m ∧ i + m < m + n) := by omega
  rw [BitVec.getMsbD_shiftLeft, BitVec.getMsbD_and, hmask, decide_eq_false hplace, Bool.and_false]

theorem bits_take (x : BitVec w) (h : n ≤ m) : (bits x m).take n = bits x n := by
  unfold bits
  rw [← List.map_take, List.take_range, Nat.min_eq_left h]

end BitString
