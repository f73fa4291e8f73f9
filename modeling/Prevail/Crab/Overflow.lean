import Mathlib.Data.BitVec
import Prevail.Arith.Truncation
import Prevail.Crab.FiniteDomain
import Prevail.Crab.SplitDbmSound

/-!
# Wrapping around

The result of an operation on words is first an unbounded number. `overflow_bounds` then reduces the
variables of the word to its width: a variable whose interval is reduced to another one is set to it, and
one whose interval wraps in the middle is forgotten, so that a relation to another variable is kept only
when the whole interval is left as it is.
-/

namespace Prevail

open Number LinearExpression

/-! ## Words -/

namespace Number

/-- What the variable of a word holds for a number, at a width of `w` bits: a result of 32 bits is not
sign-extended. -/
def wrapped (w : ℕ) (isSigned : Bool) (n : ℤ) : ℤ :=
  if isSigned then signExtend 64 (zeroExtend w n) else zeroExtend w n

/-- The word of a number that is reduced to `w` bits. -/
def word (w : ℕ) (n : ℤ) : BitVec 64 := (BitVec.ofInt w n).setWidth 64

variable {w : ℕ} {n : ℤ}

theorem toNat_word (hw : w ≤ 64) : ((word w n).toNat : ℤ) = zeroExtend w n := by
  have hlt : (n % 2 ^ w).toNat < 2 ^ 64 := by
    have hnonneg := Int.emod_nonneg n (two_pow_pos w).ne'
    have hmod := Int.emod_lt_of_pos n (two_pow_pos w)
    have hpow : (2 : ℤ) ^ w ≤ 2 ^ 64 := pow_le_pow_right₀ (by norm_num) hw
    omega
  unfold word zeroExtend
  rw [BitVec.toNat_setWidth, BitVec.toNat_ofInt, show ((2 ^ w : ℕ) : ℤ) = 2 ^ w by push_cast; rfl,
    Nat.mod_eq_of_lt hlt]
  exact Int.toNat_of_nonneg (Int.emod_nonneg n (two_pow_pos w).ne')

theorem wrapped_false (hw : w ≤ 64) : wrapped w false n = (word w n).toNat := (toNat_word hw).symm

theorem wrapped_true (hw : w ≤ 64) : wrapped w true n = (word w n).toInt := by
  rw [BitVec.toInt_eq_toNat_bmod, toNat_word hw, ← signExtend_eq_bmod (by decide)]
  rfl

/-- A variable is reduced to a window of `2 ^ w` numbers. -/
theorem exists_truncates_wrapped (hw : w = 32 ∨ w = 64) (isSigned : Bool) :
    ∃ lo, Interval.Truncates (wrapped w isSigned) lo (2 ^ w) := by
  cases isSigned with
  | false => exact ⟨0, Interval.truncates_zeroExtend w⟩
  | true =>
    rcases hw with rfl | rfl
    · refine ⟨0, ?_⟩
      have heq : wrapped 32 true = zeroExtend 32 := by
        funext n
        obtain ⟨-, -, hlo, hhi⟩ := zeroExtend_eq 32 n
        exact signExtend_of_fits (by decide) ⟨by rw [minInt]; omega, hhi.trans (by decide)⟩
      rw [heq]
      exact Interval.truncates_zeroExtend 32
    · refine ⟨minInt 64, ?_⟩
      have heq : wrapped 64 true = signExtend 64 := by
        funext n
        show signExtend 64 (zeroExtend 64 n) = _
        unfold signExtend zeroExtend
        rw [Int.emod_emod_of_dvd n dvd_rfl]
      rw [heq]
      exact Interval.truncates_signExtend (by decide)

end Number

/-- The ends of an interval with a number that is shorter than a range. -/
theorem Interval.exists_ends_of_size_lt {i : Interval} {n M : ℤ} (hn : n ∈ i) (h : i.size < .fin M) :
    ∃ l u, i = ⟨.fin l, .fin u⟩ ∧ l ≤ n ∧ n ≤ u ∧ u - l + 1 < M := by
  have hbot := Interval.isBottom_eq_false_of_mem hn
  unfold Interval.size at h
  rw [hbot] at h
  obtain ⟨lb, ub⟩ := i
  obtain ⟨hl, hu⟩ := hn
  cases lb with
  | posInf => exact absurd hl (Bound.not_posInf_le_fin n)
  | negInf =>
    cases ub with
    | negInf => exact absurd hu (Bound.not_fin_le_negInf n)
    | fin u => exact absurd (Bound.le_posInf (.fin M)) h
    | posInf => exact absurd (Bound.le_posInf (.fin M)) h
  | fin l =>
    cases ub with
    | negInf => exact absurd hu (Bound.not_fin_le_negInf n)
    | posInf => exact absurd (Bound.le_posInf (.fin M)) h
    | fin u =>
      have hlt : u + -l + 1 < M := Bound.fin_lt_fin.mp h
      exact ⟨l, u, rfl, Bound.fin_le_fin.mp hl, Bound.fin_le_fin.mp hu, by omega⟩

namespace FiniteDomain

variable {V : Type} [LinearOrder V]

/-- `overflow_bounds` of one variable. -/
def overflowBound (d : SplitDbm V) (lhs : V) (w : ℕ) (isSigned : Bool) : Option (SplitDbm V) :=
  let interval := d.evalInterval (.var lhs)
  if ¬ interval.size < (Interval.unsignedInt w).size then some (d.havoc lhs)
  else if interval.isBottom then some (d.havoc lhs)
  else do
    let lb := wrapped w isSigned (← interval.lb.number)
    let ub := wrapped w isSigned (← interval.ub.number)
    if ub < lb then return d.havoc lhs
    else
      let newInterval := Interval.ofInts lb ub
      return if newInterval ≠ interval then d.set lhs newInterval else d

/-- `overflow_bounds` of both variables of a word. -/
def overflowBounds (d : SplitDbm V) (svalue uvalue : V) (w : ℕ) : Option (SplitDbm V) := do
  overflowBound (← overflowBound d svalue w true) uvalue w false

variable {d : SplitDbm V} {σ : V → ℤ} {v svalue uvalue : V} {w : ℕ} {isSigned : Bool}

theorem unsignedInt_size (w : ℕ) : (Interval.unsignedInt w).size = .fin (2 ^ w) := by
  have hpos := two_pow_pos w
  unfold Interval.unsignedInt
  rw [Interval.size_ofInts (by rw [maxUint_eq]; omega), maxUint_eq, sub_zero, sub_add_cancel]

/-- What `overflow_bounds` may do to a variable: it is forgotten, or set to an interval of the wrapped numbers,
or left as it is because nothing wraps around. -/
theorem overflowBound_cases (hsat : ∃ σ, d.Models σ) (hw : w = 32 ∨ w = 64) :
    ∃ d', overflowBound d v w isSigned = some d' ∧
      (d' = d.havoc v ∨ (∃ i, d' = d.set v i ∧ ∀ σ, d.Models σ → wrapped w isSigned (σ v) ∈ i) ∨
        d' = d ∧ ∀ σ, d.Models σ → wrapped w isSigned (σ v) = σ v) := by
  obtain ⟨lo, htrunc⟩ := exists_truncates_wrapped hw isSigned
  have hmem : ∀ {σ}, d.Models σ → σ v ∈ d.evalInterval (.var v) := by
    intro σ hσ
    have hmem := SplitDbm.mem_evalInterval hσ (.var v)
    rwa [eval_var] at hmem
  obtain ⟨σ₀, hσ₀⟩ := hsat
  unfold overflowBound
  simp only
  generalize d.evalInterval (.var v) = i at hmem
  rw [Interval.isBottom_eq_false_of_mem (hmem hσ₀)]
  simp only [Bool.false_eq_true, if_false]
  rw [unsignedInt_size]
  split_ifs with hsize
  swap
  · exact ⟨_, rfl, Or.inl rfl⟩
  obtain ⟨l, u, rfl, hl, hu, hlt⟩ := Interval.exists_ends_of_size_lt (hmem hσ₀) hsize
  have hbounds : ∀ {σ}, d.Models σ → l ≤ σ v ∧ σ v ≤ u :=
    fun hσ => ⟨Bound.fin_le_fin.mp (hmem hσ).1, Bound.fin_le_fin.mp (hmem hσ).2⟩
  simp only [Bound.number, Option.bind_eq_bind, Option.bind_some, Option.pure_def]
  split_ifs with hwraps hnew
  · exact ⟨_, rfl, Or.inl rfl⟩
  · refine ⟨_, rfl, Or.inr (Or.inl ⟨_, rfl, fun σ hσ => ?_⟩)⟩
    obtain ⟨hlσ, hσu⟩ := hbounds hσ
    exact Interval.mem_ofInts.mpr (htrunc.between hlσ hσu hlt (not_lt.mp hwraps))
  · -- the ends are those of the window, so that the numbers between them do not wrap
    rw [not_not, Interval.ofInts_of_le (not_lt.mp hwraps)] at hnew
    injection hnew with hlower hupper
    have hlo := htrunc.lower l
    have hhi := htrunc.upper u
    rw [Bound.fin.inj hlower] at hlo
    rw [Bound.fin.inj hupper] at hhi
    refine ⟨_, rfl, Or.inr (Or.inr ⟨rfl, fun σ hσ => ?_⟩)⟩
    obtain ⟨hlσ, hσu⟩ := hbounds hσ
    exact htrunc.eq_of_dvd (by rw [sub_self]; exact dvd_zero _) (hlo.trans hlσ) (hσu.trans hhi)

/-- The variable wraps around; nothing else changes. -/
theorem overflowBound_spec (hd : d.WF) (hsat : ∃ σ, d.Models σ) (hw : w = 32 ∨ w = 64) :
    ∃ d', overflowBound d v w isSigned = some d' ∧ d'.WF ∧
      ∀ σ, d.Models σ → d'.Models (Function.update σ v (wrapped w isSigned (σ v))) := by
  obtain ⟨d', hd', rfl | ⟨i, rfl, hi⟩ | ⟨rfl, hself⟩⟩ := @overflowBound_cases _ _ d v w isSigned hsat hw
  · exact ⟨_, hd', SplitDbm.wf_havoc hd v, fun σ hσ => SplitDbm.models_havoc hd v hσ _⟩
  · exact ⟨_, hd', SplitDbm.wf_set hd v i, fun σ hσ => SplitDbm.models_set hd hσ (hi σ hσ)⟩
  · refine ⟨_, hd', hd, fun σ hσ => ?_⟩
    rwa [hself σ hσ, Function.update_eq_self]

/-- A variable that takes numbers too far apart is forgotten. -/
theorem overflowBound_of_far {σ' : V → ℤ} (hσ : d.Models σ) (hσ' : d.Models σ') (hfar : 2 ^ w ≤ σ' v - σ v) :
    overflowBound d v w isSigned = some (d.havoc v) := by
  have hmem : ∀ {σ}, d.Models σ → σ v ∈ d.evalInterval (.var v) := by
    intro σ hσ
    have hmem := SplitDbm.mem_evalInterval hσ (.var v)
    rwa [eval_var] at hmem
  refine if_pos fun hlt => ?_
  rw [unsignedInt_size] at hlt
  obtain ⟨l, u, heq, hl, hu, hsize⟩ := Interval.exists_ends_of_size_lt (hmem hσ) hlt
  have hmem' := hmem hσ'
  rw [heq] at hmem'
  have hu' := Bound.fin_le_fin.mp hmem'.2
  omega

/-- The variables of a word that hold the number `k` after an operation hold the word of `k`. -/
theorem overflowBounds_spec (hd : d.WF) (hsat : ∃ σ, d.Models σ) (hne : svalue ≠ uvalue)
    (hw : w = 32 ∨ w = 64) :
    ∃ d', overflowBounds d svalue uvalue w = some d' ∧ d'.WF ∧ ∀ σ, d.Models σ →
      d'.Models (Function.update (Function.update σ svalue (word w (σ svalue)).toInt) uvalue
        (word w (σ uvalue)).toNat) := by
  have hle : w ≤ 64 := by omega
  obtain ⟨d₁, hd₁, hwf₁, hmodels₁⟩ := @overflowBound_spec _ _ d svalue w true hd hsat hw
  obtain ⟨σ₀, hσ₀⟩ := hsat
  obtain ⟨d₂, hd₂, hwf₂, hmodels₂⟩ :=
    @overflowBound_spec _ _ d₁ uvalue w false hwf₁ ⟨_, hmodels₁ σ₀ hσ₀⟩ hw
  refine ⟨d₂, Option.bind_eq_some_iff.mpr ⟨d₁, hd₁, hd₂⟩, hwf₂, fun σ hσ => ?_⟩
  have hσ₂ := hmodels₂ _ (hmodels₁ σ hσ)
  rwa [Function.update_of_ne hne.symm, wrapped_true hle, wrapped_false hle] at hσ₂

end FiniteDomain

end Prevail
