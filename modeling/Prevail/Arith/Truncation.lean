import Prevail.Arith.Interval

/-!
# The least truncation

`signExtend` and `zeroExtend` truncate the ends of an interval. When the ends keep their order and the
interval is shorter than the window, all between them do; otherwise the interval has a number that is
truncated to the first of the window and one that is truncated to the last, so that no smaller interval
has all truncated numbers.
-/

namespace Prevail

open Number

namespace Number

/-- The truncation to a signed number is the balanced remainder. -/
theorem signExtend_eq_bmod {w : ℕ} (hw : 0 < w) (n : ℤ) : signExtend w n = n.bmod (2 ^ w) := by
  have hpow := two_pow_eq hw
  have hcast : ((2 ^ w : ℕ) : ℤ) = 2 ^ w := by push_cast; rfl
  have hhalf : ((2 : ℤ) ^ w + 1) / 2 = 2 ^ (w - 1) := by omega
  unfold signExtend
  rw [Int.bmod_def, hcast, hhalf]
  split_ifs with h h' h'
  · omega
  · rfl
  · rfl
  · omega

end Number

namespace Interval

/-- The least interval with the numbers of a set. -/
structure IsHull (S : ℤ → Prop) (I : Interval) : Prop where
  mem : ∀ n, S n → n ∈ I
  least : ∀ J : Interval, (∀ n, S n → n ∈ J) → I ≤ J

/-- An interval within another is below it. -/
theorem le_of_bounds_mem {J : Interval} {l u : ℤ} (hl : l ∈ J) (hu : u ∈ J) :
    Interval.mk (.fin l) (.fin u) ≤ J := by
  change Le _ J
  unfold Le
  rw [isBottom_eq_false_of_mem hl]
  split_ifs
  · trivial
  · exact ⟨hl.1, hu.2⟩

section

variable {I J K : Interval} {S : ℤ → Prop} {k : ℤ}

theorem join_le (hI : I ≤ K) (hJ : J ≤ K) : I.join J ≤ K := by
  unfold join
  split_ifs with hbI hbJ
  · exact hJ
  · exact hI
  change Le I K at hI
  change Le J K at hJ
  change Le _ K
  unfold Le at hI hJ
  rw [if_neg hbI] at hI
  rw [if_neg hbJ] at hJ
  by_cases hK : K.isBottom = true
  · rw [if_pos hK] at hI
    exact hI.elim
  rw [if_neg hK] at hI hJ
  unfold ofBounds
  split_ifs with hlt
  · trivial
  · unfold Le
    rw [if_neg hK]
    split_ifs
    exact ⟨Bound.le_min.mpr ⟨hI.1, hJ.1⟩, Bound.max_le.mpr ⟨hI.2, hJ.2⟩⟩

theorem const_le (h : k ∈ K) : const k ≤ K := le_of_bounds_mem h h

theorem IsHull.bottom (h : ∀ n, ¬ S n) : IsHull S bottom :=
  ⟨fun n hn => absurd hn (h n), fun _ _ => trivial⟩

/-- One more number. -/
theorem IsHull.join_const (h : IsHull S I) (k : ℤ) : IsHull (fun n => S n ∨ n = k) (I.join (const k)) := by
  constructor
  · rintro n (hn | rfl)
    · exact mem_join (Or.inl (h.mem n hn))
    · exact mem_join (Or.inr (mem_const.mpr rfl))
  · intro K hK
    exact join_le (h.least K fun n hn => hK n (Or.inl hn)) (const_le (hK k (Or.inr rfl)))

end

section

variable {ext : ℤ → ℤ} {lo M : ℤ}

/-- A number of the window is the truncation of each number that differs by a multiple of the width. -/
theorem Truncates.eq_of_dvd (h : Truncates ext lo M) {n v : ℤ} (hdvd : M ∣ n - v) (hv : lo ≤ v)
    (hv' : v ≤ lo + M - 1) : ext n = v := by
  obtain ⟨q, hq⟩ := h.eq n
  obtain ⟨k, hk⟩ := hdvd
  have hlower := h.lower n
  have hupper := h.upper n
  refine eq_of_window (M := M) (q := q - k) ?_ (by omega) (by omega)
  rw [hq, mul_sub, ← hk]
  ring

/-- A range as wide as the window has a number for each truncated one. -/
theorem Truncates.exists_eq (h : Truncates ext lo M) {l u v : ℤ} (hsize : M ≤ u - l + 1) (hv : lo ≤ v)
    (hv' : v ≤ lo + M - 1) : ∃ n, l ≤ n ∧ n ≤ u ∧ ext n = v := by
  have hnonneg := Int.emod_nonneg (v - l) h.pos.ne'
  have hlt := Int.emod_lt_of_pos (v - l) h.pos
  refine ⟨l + (v - l) % M, by omega, by omega, h.eq_of_dvd ?_ hv hv'⟩
  have hdvd := Int.dvd_self_sub_emod (x := v - l) (m := M)
  rw [show l + (v - l) % M - v = -((v - l) - (v - l) % M) by ring]
  exact Int.dvd_neg.mpr hdvd

/-- A range whose ends change their order runs over the end of the window. -/
theorem Truncates.exists_wrap (h : Truncates ext lo M) {l u : ℤ} (hlu : l ≤ u) (hord : ext u < ext l) :
    ∃ n, l ≤ n ∧ n + 1 ≤ u ∧ ext n = lo + M - 1 ∧ ext (n + 1) = lo := by
  obtain ⟨q, hq⟩ := h.eq l
  have hpos := h.pos
  have hupper := h.upper l
  have hdvd : M ∣ l - ext l := ⟨q, by omega⟩
  have hshift : ∀ k, l + k - (ext l + k) = l - ext l := fun k => by ring
  refine ⟨l + (lo + M - 1 - ext l), by omega, ?_, ?_, ?_⟩
  · by_contra hlt
    have heq : ext (l + (u - l)) = ext l + (u - l) := by
      refine h.eq_of_dvd ?_ ?_ (by omega)
      · rwa [hshift]
      · have hlower := h.lower l
        omega
    rw [add_sub_cancel] at heq
    omega
  · refine h.eq_of_dvd ?_ (by omega) le_rfl
    rwa [show l + (lo + M - 1 - ext l) - (lo + M - 1) = l - ext l by ring]
  · refine h.eq_of_dvd ?_ le_rfl (by omega)
    rw [show l + (lo + M - 1 - ext l) + 1 - lo = l - ext l + M by ring]
    exact Int.dvd_add hdvd (Int.dvd_refl M)

/-- An interval that is not shorter than the window has a range as wide as the window. -/
theorem exists_range {I : Interval} {n : ℤ} (hn : n ∈ I) (hsize : ¬ I.size < .fin M) (hM : 0 < M) :
    ∃ l u, l ∈ I ∧ u ∈ I ∧ M ≤ u - l + 1 := by
  have hbot := isBottom_eq_false_of_mem hn
  rcases I with ⟨lb, ub⟩
  obtain ⟨hl, hu⟩ := hn
  have hmem : ∀ m, lb ≤ .fin m → .fin m ≤ ub → m ∈ Interval.mk lb ub := fun m h h' => ⟨h, h'⟩
  cases lb with
  | posInf => exact absurd hl (Bound.not_posInf_le_fin n)
  | negInf =>
    have hle : .fin (n - M) ≤ ub := Bound.le_trans (Bound.fin_le_fin.mpr (by omega)) hu
    exact ⟨n - M, n, hmem _ (Bound.negInf_le _) hle, hmem _ hl hu, by omega⟩
  | fin l =>
    cases ub with
    | negInf => exact absurd hu (Bound.not_fin_le_negInf n)
    | posInf =>
      have hle : Bound.fin l ≤ .fin (n + M) := Bound.le_trans hl (Bound.fin_le_fin.mpr (by omega))
      exact ⟨n, n + M, hmem _ hl hu, hmem _ hle (Bound.le_posInf _), by omega⟩
    | fin u =>
      have hlu : l ≤ u := Bound.fin_le_fin.mp (Bound.le_trans hl hu)
      refine ⟨l, u, hmem _ (Bound.le_refl _) hlu, hmem _ hlu (Bound.le_refl _), ?_⟩
      rw [← ofInts_of_le hlu, size_ofInts hlu, Bound.fin_lt_fin] at hsize
      omega

/-- An interval within the signed range is its own truncation. -/
theorem signExtend_of_fits {w : ℕ} (hw : 0 < w) {l u : ℤ} (hl : minInt w ≤ l) (hlu : l ≤ u)
    (hu : u ≤ maxInt w) : (Interval.mk (.fin l) (.fin u)).signExtend w = ⟨.fin l, .fin u⟩ := by
  have hsize : (Interval.mk (.fin l) (.fin u)).size = .fin (u - l + 1) := by
    rw [← ofInts_of_le hlu, size_ofInts hlu]
  unfold signExtend extend
  rw [hsize, signedInt, size_ofInts (hl.trans (hlu.trans hu))]
  simp only [Bound.fin_lt_fin, Number.signExtend_of_fits hw ⟨hl, hlu.trans hu⟩,
    Number.signExtend_of_fits hw ⟨hl.trans hlu, hu⟩, if_pos hlu]
  split_ifs with h
  · rfl
  · obtain rfl : l = minInt w := by omega
    obtain rfl : u = maxInt w := by omega
    exact ofInts_of_le hlu

/-- No smaller interval has all the truncated numbers. -/
theorem extend_le (h : Truncates ext lo M) {I J : Interval} {n : ℤ} (hn : n ∈ I)
    (hJ : ∀ n ∈ I, ext n ∈ J) : extend ext (ofInts lo (lo + M - 1)) I ≤ J := by
  have hpos := h.pos
  have hfull : lo ∈ J → lo + M - 1 ∈ J → ofInts lo (lo + M - 1) ≤ J := by
    intro hlo hhi
    rw [ofInts_of_le (by omega)]
    exact le_of_bounds_mem hlo hhi
  unfold extend
  rw [size_ofInts (by omega), show lo + M - 1 - lo + 1 = M by ring]
  split_ifs with hsize
  swap
  · obtain ⟨l, u, hl, hu, hwide⟩ := exists_range hn hsize hpos
    have hbetween : ∀ m, l ≤ m → m ≤ u → m ∈ I := fun m hlm hmu =>
      ⟨Bound.le_trans hl.1 (Bound.fin_le_fin.mpr hlm), Bound.le_trans (Bound.fin_le_fin.mpr hmu) hu.2⟩
    obtain ⟨a, hla, hau, ha⟩ := h.exists_eq hwide le_rfl (by omega)
    obtain ⟨b, hlb, hbu, hb⟩ := h.exists_eq hwide (v := lo + M - 1) (by omega) le_rfl
    exact hfull (ha ▸ hJ a (hbetween a hla hau)) (hb ▸ hJ b (hbetween b hlb hbu))
  rcases I with ⟨lb, ub⟩
  cases lb with
  | posInf => exact absurd hn.1 (Bound.not_posInf_le_fin n)
  | negInf =>
    rw [size, isBottom_eq_false_of_mem hn] at hsize
    cases ub with
    | negInf => exact absurd hn.2 (Bound.not_fin_le_negInf n)
    | fin u => exact absurd (Bound.le_posInf _) hsize
    | posInf => exact absurd (Bound.le_posInf _) hsize
  | fin l =>
    cases ub with
    | negInf => exact absurd hn.2 (Bound.not_fin_le_negInf n)
    | posInf =>
      rw [size, isBottom_eq_false_of_mem hn] at hsize
      exact absurd (Bound.le_posInf _) hsize
    | fin u =>
      have hlu : l ≤ u := Bound.fin_le_fin.mp (Bound.le_trans hn.1 hn.2)
      have hmem : ∀ m, l ≤ m → m ≤ u → ext m ∈ J := fun m hlm hmu => hJ m ⟨hlm, hmu⟩
      dsimp only
      split_ifs with hord
      · exact le_of_bounds_mem (hmem l le_rfl hlu) (hmem u hlu le_rfl)
      · obtain ⟨m, hlm, hmu, hlast, hfirst⟩ := h.exists_wrap hlu (not_le.mp hord)
        exact hfull (hfirst ▸ hmem _ (by omega) hmu) (hlast ▸ hmem _ hlm (by omega))

theorem isHull_extend (h : Truncates ext lo M) {I : Interval} (hI : ∃ n, n ∈ I) :
    IsHull (fun k => ∃ n ∈ I, k = ext n) (extend ext (ofInts lo (lo + M - 1)) I) := by
  obtain ⟨n, hn⟩ := hI
  refine ⟨?_, fun J hJ => extend_le h hn fun m hm => hJ _ ⟨m, hm, rfl⟩⟩
  rintro _ ⟨m, hm, rfl⟩
  exact mem_extend h hm

end

/-- The truncations of an interval with a number are the least intervals with the numbers reduced to
the signed and to the unsigned range of the width. -/
theorem isHull_truncations {w : ℕ} (hw : 0 < w) {I : Interval} (hI : ∃ n, n ∈ I) :
    IsHull (fun k => ∃ n ∈ I, k = n.bmod (2 ^ w)) (I.signExtend w) ∧
      IsHull (fun k => ∃ n ∈ I, k = n % 2 ^ w) (I.zeroExtend w) := by
  constructor
  · have hhull := isHull_extend (truncates_signExtend hw) hI
    rw [← signedInt_eq hw] at hhull
    simp only [signExtend_eq_bmod hw] at hhull
    exact hhull
  · have hhull := isHull_extend (truncates_zeroExtend w) hI
    rw [← unsignedInt_eq] at hhull
    exact hhull

/-- An interval of 17 numbers around the end of the signed range of 5 bits. -/
theorem isHull_truncations_wrap :
    IsHull (fun k => ∃ n ∈ ofInts 15 31, k = n.bmod (2 ^ 5)) ((ofInts 15 31).signExtend 5) ∧
      IsHull (fun k => ∃ n ∈ ofInts 15 31, k = n % 2 ^ 5) ((ofInts 15 31).zeroExtend 5) :=
  isHull_truncations (by decide) ⟨15, mem_ofInts.mpr (by decide)⟩

end Interval

end Prevail
