import Prevail.Arith.Remainder

/-!
# Exact remainders

When the result of `urem` has all remainders of the numbers read as unsigned. Without a zero in the
operands its four cases are exact under conditions of their own (`covers_nonzero_iff`); a dividend with a
zero adds itself, which is enough (`covers_zero_dividend`); and a divisor with a zero leaves the dividend
unchanged, of which negative numbers are large unsigned ones (`covers_zero_divisor_iff`).
-/

namespace Prevail

open Number

namespace Interval

section

variable {I x y : Interval} {k m n p q u : ℤ} {b : Bound}

/-! ## Operands without a zero -/

/-- The interval has all remainders. -/
def Covers (r I x : Interval) : Prop := ∀ m ∈ I, ∀ n ∈ x, unsignedRem m n ∈ r

/-- `urem` has all remainders, for operands without a zero. -/
def CoveredNonzero (I x : Interval) : Prop :=
  match x.lb, x.ub with
  | .fin p, .fin q =>
    match I.ub with
    | .fin u => Number.zeroExtend 64 u < Number.zeroExtend 64 p →
        0 < u ∧ q ≤ 2 ^ 64 ∨ I.lb = .fin u ∧ p = q
    | _ => -2 ^ 64 < p
  | _, _ => I.ub < .fin 0 ∨ .fin (2 ^ 64) ≤ I.ub

theorem mem_join_iff (hI : I.isBottom = false) (hJ : y.isBottom = false) :
    k ∈ I.join y ↔ (I.lb ≤ .fin k ∨ y.lb ≤ .fin k) ∧ (.fin k ≤ I.ub ∨ .fin k ≤ y.ub) := by
  unfold join
  rw [hI, hJ]
  simp only [Bool.false_eq_true, if_false]
  rw [mem_ofBounds, Bound.min_le, Bound.le_max]

/-- What `urem` returns for a positive dividend and a divisor without a bound. -/
theorem mem_decremented (hm : m ∈ I) (hl : ∀ n ∈ I, 0 < n) :
    k ∈ (I.sub (const 1)).join (const 0) ↔ 0 ≤ k ∧ .fin (k + 1) ≤ I.ub := by
  have hsub : I.sub (const 1) = ofBounds (I.lb.sub (.fin 1)) (I.ub.sub (.fin 1)) := by
    unfold sub
    rw [isBottom_eq_false_of_mem hm, isBottom_eq_false_of_mem (mem_const.mpr rfl)]
    rfl
  have hm1 : m - 1 ∈ I.sub (const 1) := mem_sub hm (mem_const.mpr rfl)
  have hpos := hl m hm
  rw [mem_join_iff (isBottom_eq_false_of_mem hm1) (isBottom_eq_false_of_mem (mem_const.mpr rfl)), hsub]
  rw [hsub, mem_ofBounds] at hm1
  rw [ofBounds, if_neg fun hlt => hlt (Bound.le_trans hm1.1 hm1.2)]
  rcases I with ⟨lb, ub⟩
  obtain ⟨hlb, hub⟩ : lb ≤ .fin m ∧ .fin m ≤ ub := hm
  cases lb with
  | posInf => exact absurd hlb (Bound.not_posInf_le_fin m)
  | negInf =>
    have hneg := hl 0 ⟨Bound.negInf_le _, Bound.le_trans (Bound.fin_le_fin.mpr (by omega)) hub⟩
    omega
  | fin l =>
    have hlpos : 0 < l := hl l ⟨Bound.le_refl _, Bound.le_trans hlb hub⟩
    cases ub with
    | negInf => exact absurd hub (Bound.not_fin_le_negInf m)
    | posInf =>
      simp only [Bound.sub, Bound.neg, Bound.add, const, Bound.fin_le_fin, Bound.le_posInf, true_or,
        and_true]
      omega
    | fin u =>
      have hmu : m ≤ u := hub
      simp only [Bound.sub, Bound.neg, Bound.add, const, Bound.fin_le_fin]
      omega

theorem pos_or_neg (h0 : 0 ∉ I) : (∀ n ∈ I, 0 < n) ∨ ∀ n ∈ I, n < 0 := by
  refine or_iff_not_imp_left.mpr fun hpos n hn => ?_
  push Not at hpos
  obtain ⟨m, hm, hm0⟩ := hpos
  by_contra hn0
  exact h0 (mem_of_between hm hn hm0 (not_lt.mp hn0))

theorem ub_lt_zero_iff (h0 : 0 ∉ I) (hm : m ∈ I) : I.ub < .fin 0 ↔ m < 0 := by
  constructor
  · exact fun hub => Bound.fin_lt_fin.mp (Bound.lt_of_le_of_lt hm.2 hub)
  · intro hlt hub
    exact h0 ⟨Bound.le_trans hm.1 (Bound.fin_le_fin.mpr hlt.le), hub⟩

/-- A divisor without a bound has one that is zero as an unsigned number. -/
theorem exists_word_zero (h : x.lb.isInfinite = true ∨ x.ub.isInfinite = true) (hn : n ∈ x) :
    ∃ k ∈ x, Number.zeroExtend 64 k = 0 := by
  rcases x with ⟨lb, ub⟩
  obtain ⟨hlb, hub⟩ : lb ≤ .fin n ∧ .fin n ≤ ub := hn
  rcases h with h | h
  · cases lb with
    | fin p => cases h
    | posInf => exact absurd hlb (Bound.not_posInf_le_fin n)
    | negInf =>
      refine ⟨18446744073709551616 * (min n 0), ⟨Bound.negInf_le _, ?_⟩, ?_⟩
      · exact Bound.le_trans (Bound.fin_le_fin.mpr (by omega)) hub
      · rw [word_eq]
        omega
  · cases ub with
    | fin q => cases h
    | negInf => exact absurd hub (Bound.not_fin_le_negInf n)
    | posInf =>
      refine ⟨18446744073709551616 * (max n 0), ⟨?_, Bound.le_posInf _⟩, ?_⟩
      · exact Bound.le_trans hlb (Bound.fin_le_fin.mpr (by omega))
      · rw [word_eq]
        omega

theorem covers_infinite (h : x.lb.isInfinite = true ∨ x.ub.isInfinite = true) (hI0 : 0 ∉ I)
    (hm : m ∈ I) (hn : n ∈ x) :
    Covers (if I.ub < .fin 0 then top else (I.sub (const 1)).join (const 0)) I x ↔
      I.ub < .fin 0 ∨ .fin (2 ^ 64) ≤ I.ub := by
  split_ifs with hub
  · exact iff_of_true (fun _ _ _ _ => mem_top _) (Or.inl hub)
  rw [or_iff_right hub]
  have hpos : ∀ n ∈ I, 0 < n := (pos_or_neg hI0).resolve_right fun hneg =>
    hub ((ub_lt_zero_iff hI0 hm).mpr (hneg m hm))
  constructor
  · intro hcovers
    by_contra hlt
    obtain ⟨u, hu⟩ : ∃ u, I.ub = .fin u := by
      cases hcase : I.ub with
      | fin u => exact ⟨u, rfl⟩
      | negInf => exact absurd (hcase ▸ hm.2) (Bound.not_fin_le_negInf m)
      | posInf => exact absurd (hcase ▸ Bound.le_posInf _) hlt
    have hmem : u ∈ I := ⟨Bound.le_trans hm.1 (hu ▸ hm.2), hu ▸ Bound.le_refl _⟩
    rw [hu, Bound.fin_le_fin] at hlt
    obtain ⟨k, hk, hword⟩ := exists_word_zero h hn
    have hrem := (mem_decremented hm hpos).mp (hcovers u hmem k hk)
    rw [(unsignedRem_bounds u k).2.2.2.1 hword, hu, Bound.fin_le_fin, word_eq] at hrem
    have hu0 := hpos u hmem
    omega
  · intro hle a _ b _
    have hbounds := unsignedRem_bounds a b
    have hword := word_bounds a
    rw [mem_decremented hm hpos]
    exact ⟨hbounds.1, Bound.le_trans (Bound.fin_le_fin.mpr (by omega)) hle⟩

theorem covers_ofInts (hx0 : ¬ (p ≤ 0 ∧ 0 ≤ q)) (hp : -2 ^ 64 < p) (hq : FitsCast 64 q) :
    Covers (ofInts 0 (Number.zeroExtend 64 q - 1)) I ⟨.fin p, .fin q⟩ := by
  intro m _ n hn
  obtain ⟨hpn, hnq⟩ : p ≤ n ∧ n ≤ q := hn
  have hbounds := unsignedRem_bounds m n
  have hq' := fitsCast_iff.mp hq
  obtain ⟨hn0, hle⟩ : Number.zeroExtend 64 n ≠ 0 ∧
      Number.zeroExtend 64 n ≤ Number.zeroExtend 64 q := by
    rw [word_eq, word_eq]
    omega
  have hlt := hbounds.2.2.1 hn0
  rw [mem_ofInts]
  omega

theorem covers_posInf (hub : I.ub = .posInf) (hm : m ∈ I) (hx0 : ¬ (p ≤ 0 ∧ 0 ≤ q))
    (hq : FitsCast 64 q) :
    Covers (ofInts 0 (Number.zeroExtend 64 q - 1)) I ⟨.fin p, .fin q⟩ ↔ -2 ^ 64 < p := by
  refine ⟨fun hcovers => ?_, fun hp => covers_ofInts hx0 hp hq⟩
  by_contra hp
  have hq' := fitsCast_iff.mp hq
  -- a divisor that is zero as an unsigned number, and the greatest dividend
  have hdividend : 18446744073709551616 * (max m 0) + 18446744073709551615 ∈ I :=
    ⟨Bound.le_trans hm.1 (Bound.fin_le_fin.mpr (by omega)), hub ▸ Bound.le_posInf _⟩
  have hdivisor : -18446744073709551616 ∈ Interval.mk (.fin p) (.fin q) :=
    ⟨Bound.fin_le_fin.mpr (by omega), Bound.fin_le_fin.mpr (by omega)⟩
  have hrem := mem_ofInts.mp (hcovers _ hdividend _ hdivisor)
  rw [(unsignedRem_bounds _ _).2.2.2.1 (by rw [word_eq]; omega), word_eq, word_eq] at hrem
  omega

theorem covers_self (hI0 : 0 ∉ I) (hub : I.ub = .fin u) (hm : m ∈ I) (hx0 : ¬ (p ≤ 0 ∧ 0 ≤ q))
    (hpq : p ≤ q) (hu : FitsCast 64 u) (hp : FitsCast 64 p)
    (hlt : Number.zeroExtend 64 u < Number.zeroExtend 64 p) :
    Covers I I ⟨.fin p, .fin q⟩ ↔ 0 < u ∧ q ≤ 2 ^ 64 := by
  have hu' := fitsCast_iff.mp hu
  have hp' := fitsCast_iff.mp hp
  have hmu : m ≤ u := by
    have hle := hm.2
    rwa [hub, Bound.fin_le_fin] at hle
  have hmem : u ∈ I := ⟨Bound.le_trans hm.1 (Bound.fin_le_fin.mpr hmu), hub ▸ Bound.le_refl _⟩
  have hleft : p ∈ Interval.mk (.fin p) (.fin q) := ⟨Bound.le_refl _, Bound.fin_le_fin.mpr hpq⟩
  constructor
  · intro hcovers
    rcases pos_or_neg hI0 with hpos | hneg
    · have hu0 := hpos u hmem
      refine ⟨hu0, ?_⟩
      by_contra hq
      -- a divisor that is one as an unsigned number
      have hone : 18446744073709551617 ∈ Interval.mk (.fin p) (.fin q) :=
        ⟨Bound.fin_le_fin.mpr (by omega), Bound.fin_le_fin.mpr (by omega)⟩
      have hword : Number.zeroExtend 64 18446744073709551617 = 1 := rfl
      have hbounds := (unsignedRem_bounds u 18446744073709551617).2.2.1
      rw [hword] at hbounds
      have hrem := hpos _ (hcovers u hmem _ hone)
      have hlt1 := hbounds one_ne_zero
      omega
    · have hrem := hneg _ (hcovers u hmem p hleft)
      have hbounds := (unsignedRem_bounds u p).1
      omega
  · rintro ⟨hu0, hq⟩ a ha n hn
    obtain ⟨hpn, hnq⟩ : p ≤ n ∧ n ≤ q := hn
    have hau : a ≤ u := by
      have hle := ha.2
      rwa [hub, Bound.fin_le_fin] at hle
    have ha0 : 0 < a := by
      rcases pos_or_neg hI0 with hpos | hneg
      · exact hpos a ha
      · have := hneg u hmem
        omega
    have hbounds := unsignedRem_bounds a n
    have hword : Number.zeroExtend 64 a = a := by
      rw [word_eq]
      omega
    have heq : unsignedRem a n = a := by
      rw [hword] at hbounds
      rcases eq_or_ne (Number.zeroExtend 64 n) 0 with h0 | h0
      · exact hbounds.2.2.2.1 h0
      · apply hbounds.2.2.2.2
        rw [word_eq] at hlt h0 ⊢
        rw [word_eq] at hlt
        omega
    rwa [heq]

/-- The cases of `urem` for operands without a zero. -/
theorem urem_cases {r : Interval} (hI0 : 0 ∉ I) (hx0 : 0 ∉ x) (hm : m ∈ I) (hn : n ∈ x)
    (hr : urem I x = some r) :
    (∃ a b, FitsCast 64 a ∧ FitsCast 64 b ∧ I = const a ∧ x = const b ∧ r = const (unsignedRem a b)) ∨
    ((x.lb.isInfinite = true ∨ x.ub.isInfinite = true) ∧
      r = if I.ub < .fin 0 then top else (I.sub (const 1)).join (const 0)) ∨
    (∃ u p q, I.ub = .fin u ∧ x = ⟨.fin p, .fin q⟩ ∧ FitsCast 64 u ∧ FitsCast 64 p ∧
      Number.zeroExtend 64 u < Number.zeroExtend 64 p ∧ ¬ (I.lb = .fin u ∧ p = q) ∧ r = I) ∨
    ∃ p q, x = ⟨.fin p, .fin q⟩ ∧ FitsCast 64 q ∧
      (∀ u, I.ub = .fin u → FitsCast 64 u ∧ FitsCast 64 p ∧
        Number.zeroExtend 64 p ≤ Number.zeroExtend 64 u) ∧
      r = ofInts 0 (Number.zeroExtend 64 q - 1) := by
  have hcasts : CastsNonzero I.ub x := (isSome_urem_nonzero hI0 hx0).mp (hr ▸ rfl)
    (isBottom_eq_false_of_mem hm) (isBottom_eq_false_of_mem hn)
  by_cases h : Single I x
  · obtain ⟨a, b, ha, hb, rfl, rfl⟩ := h
    rw [urem_const ha hb, if_neg fun h0 => hx0 (mem_const.mpr h0.symm), Option.some.injEq] at hr
    exact Or.inl ⟨a, b, ha, hb, rfl, rfl, hr.symm⟩
  rw [urem_nonzero (isBottom_eq_false_of_mem hm) (isBottom_eq_false_of_mem hn) h hI0 hx0] at hr
  rcases x with ⟨lb, ub⟩
  rcases Bool.eq_false_or_eq_true (lb.isInfinite || ub.isInfinite) with hinf | hfin
  · rw [Bool.or_eq_true_iff] at hinf
    rw [uremNonzero_of_infinite hinf, Option.some.injEq] at hr
    exact Or.inr (Or.inl ⟨hinf, hr.symm⟩)
  cases lb with
  | negInf => cases hfin
  | posInf => cases hfin
  | fin p =>
    cases ub with
    | negInf => cases hfin
    | posInf => cases hfin
    | fin q =>
      cases hub : I.ub with
      | negInf => exact absurd (hub ▸ hm.2) (Bound.not_fin_le_negInf m)
      | posInf =>
        rw [hub] at hcasts
        rw [uremNonzero_of_posInf hub hcasts, Option.some.injEq] at hr
        exact Or.inr (Or.inr (Or.inr ⟨p, q, rfl, hcasts, fun u hu => (by cases hu), hr.symm⟩))
      | fin u =>
        rw [hub] at hcasts
        obtain ⟨hu, hp, hq⟩ := hcasts
        rcases lt_or_ge (Number.zeroExtend 64 u) (Number.zeroExtend 64 p) with hlt | hle
        · rw [uremNonzero_of_lt hub hu hp hlt, Option.some.injEq] at hr
          refine Or.inr (Or.inr (Or.inl ⟨u, p, q, rfl, rfl, hu, hp, hlt, ?_, hr.symm⟩))
          rintro ⟨hlb, rfl⟩
          exact h ⟨u, p, hu, hp, congrArg₂ Interval.mk hlb hub, rfl⟩
        · rw [uremNonzero_of_le hub hu hp (hq hle) hle, Option.some.injEq] at hr
          refine Or.inr (Or.inr (Or.inr ⟨p, q, rfl, hq hle, ?_, hr.symm⟩))
          intro u' hu'
          obtain rfl := Bound.fin.inj hu'
          exact ⟨hu, hp, hle⟩

/-- For operands without a zero, `urem` has all remainders exactly when they are covered. -/
theorem covers_nonzero_iff {r : Interval} (hI0 : 0 ∉ I) (hx0 : 0 ∉ x) (hm : m ∈ I) (hn : n ∈ x)
    (hr : urem I x = some r) : Covers r I x ↔ CoveredNonzero I x := by
  rcases urem_cases hI0 hx0 hm hn hr with ⟨a, b, -, -, rfl, rfl, rfl⟩ | ⟨hinf, rfl⟩ |
    ⟨u, p, q, hub, rfl, hu, hp, hlt, hne, rfl⟩ | ⟨p, q, rfl, hq, hfin, rfl⟩
  · refine iff_of_true ?_ fun _ => Or.inr ⟨rfl, rfl⟩
    intro a' ha' b' hb'
    rw [mem_const] at ha' hb' ⊢
    rw [ha', hb']
  · rw [covers_infinite hinf hI0 hm hn]
    rcases x with ⟨lb, ub⟩
    cases lb <;> cases ub <;> first | exact Iff.rfl | (rcases hinf with h | h <;> cases h)
  · have hpq : p ≤ q := le_trans (show p ≤ n from hn.1) hn.2
    rw [covers_self hI0 hub hm hx0 hpq hu hp hlt]
    unfold CoveredNonzero
    rw [hub]
    exact ⟨fun h _ => Or.inl h, fun h => (h hlt).resolve_right hne⟩
  · cases hub : I.ub with
    | negInf => exact absurd (hub ▸ hm.2) (Bound.not_fin_le_negInf m)
    | posInf =>
      rw [covers_posInf hub hm hx0 hq]
      unfold CoveredNonzero
      rw [hub]
    | fin u =>
      obtain ⟨-, hp, hle⟩ := hfin u hub
      have hp' := fitsCast_iff.mp hp
      refine iff_of_true (covers_ofInts hx0 (by omega) hq) ?_
      unfold CoveredNonzero
      rw [hub]
      exact fun hlt => absurd hlt (not_lt.mpr hle)

theorem coveredNonzero_neg_one (hub : I.ub = .fin (-1)) : CoveredNonzero I x := by
  unfold CoveredNonzero
  split
  next p q _ _ =>
    rw [hub]
    intro hlt
    have hword := word_bounds p
    rw [word_eq (-1)] at hlt
    omega
  next => exact Or.inl (hub ▸ Bound.fin_lt_fin.mpr (by omega))

/-! ## A dividend with zero -/

theorem covers_zero_dividend {r : Interval} (hI0 : 0 ∈ I) (hx0 : 0 ∉ x) (hr : urem I x = some r) :
    Covers r I x := by
  intro m hm n hn
  have hx := isBottom_eq_false_of_mem hn
  by_cases h : Single I x
  · obtain ⟨a, b, ha, hb, rfl, rfl⟩ := h
    obtain rfl := mem_const.mp hm
    obtain rfl := mem_const.mp hn
    rw [urem_const ha hb, if_neg fun h0 => hx0 (mem_const.mpr h0.symm), Option.some.injEq] at hr
    rw [← hr, mem_const]
  rw [urem_zero_dividend hx h hI0 hx0] at hr
  obtain ⟨l, u, hl, -, rfl⟩ := joins_eq_some hr
  have hbounds := unsignedRem_bounds m n
  rcases lt_or_ge m 0 with hneg | hpos
  · have hmem : m ∈ I.below := mem_below.mpr ⟨hm.1, by omega⟩
    refine mem_join (Or.inl (mem_join (Or.inl ?_)))
    have hub : I.below.ub = .fin (-1) := by rw [below_eq hmem]
    exact (covers_nonzero_iff zero_not_mem_below hx0 hmem hn hl).mpr (coveredNonzero_neg_one hub) m hmem n hn
  · refine mem_join (Or.inr (mem_of_between hI0 hm hbounds.1 ?_))
    rw [word_eq m] at hbounds
    omega

/-! ## A divisor with zero -/

/-- `urem` has all remainders, for a divisor with a zero. -/
def CoveredZeroDivisor (I x : Interval) : Prop :=
  if .fin 0 ≤ I.lb then x = const 0 → I.lb = .fin 0 ∨ I.ub < .fin (2 ^ 64)
  else x.lb.isInfinite = true ∨ x.ub.isInfinite = true ∨ .fin (2 ^ 64 - 1) ≤ I.ub ∨
    .fin (-2 ^ 64) ≤ I.lb ∧ I.ub ≤ .fin (-2) ∧
      (x.lb ≤ I.ub ∨ x.lb = .fin (-1) ∧ I.lb = I.ub ∨ I.ub.add (.fin (2 ^ 64)) < x.ub)

theorem unsignedRem_zero (m : ℤ) : unsignedRem m 0 = Number.zeroExtend 64 m := Int.emod_zero _

theorem word_of_mem (h : 0 ≤ m) : Number.zeroExtend 64 m ≤ m := by
  rw [word_eq]
  omega

theorem covers_const_zero (hm : m ∈ I) : Covers I I (const 0) ↔ CoveredZeroDivisor I (const 0) := by
  have hcovers : Covers I I (const 0) ↔ ∀ k ∈ I, Number.zeroExtend 64 k ∈ I := by
    constructor
    · intro h k hk
      rw [← unsignedRem_zero]
      exact h k hk 0 (mem_const.mpr rfl)
    · intro h k hk n hn
      rw [mem_const.mp hn, unsignedRem_zero]
      exact h k hk
  rw [hcovers]
  unfold CoveredZeroDivisor
  split_ifs with hlb
  · have hpos : ∀ k ∈ I, 0 ≤ k := fun k hk => Bound.fin_le_fin.mp (Bound.le_trans hlb hk.1)
    constructor
    · intro h _
      by_contra hno
      obtain ⟨hl, hu⟩ := not_or.mp hno
      have hu : .fin (2 ^ 64) ≤ I.ub := not_not.mp hu
      obtain ⟨l, hl'⟩ : ∃ l, I.lb = .fin l := by
        cases hcase : I.lb with
        | fin l => exact ⟨l, rfl⟩
        | negInf => exact absurd (hcase ▸ hlb) (Bound.not_fin_le_negInf 0)
        | posInf => exact absurd (hcase ▸ hm.1) (Bound.not_posInf_le_fin m)
      have hlm : l ≤ m := Bound.fin_le_fin.mp (hl' ▸ hm.1)
      have hlmem : l ∈ I := ⟨hl' ▸ Bound.le_refl _, Bound.le_trans (Bound.fin_le_fin.mpr hlm) hm.2⟩
      have hl0 := hpos l hlmem
      have hlne : l ≠ 0 := fun h0 => hl (h0 ▸ hl')
      have hmax : max l (2 ^ 64) ∈ I := by
        rcases max_cases l (2 ^ 64) with ⟨heq, -⟩ | ⟨heq, hlt⟩
        · rwa [heq]
        · rw [heq]
          exact ⟨hl' ▸ Bound.fin_le_fin.mpr hlt.le, hu⟩
      have hword := (h _ hmax).1
      rw [hl', Bound.fin_le_fin, word_eq] at hword
      omega
    · intro h k hk
      have hk0 := hpos k hk
      rcases h rfl with hl | hu
      · have h0 : (0 : ℤ) ∈ I := ⟨hl ▸ Bound.le_refl _, Bound.le_trans (Bound.fin_le_fin.mpr hk0) hk.2⟩
        exact mem_of_between h0 hk (word_bounds k).1 (word_of_mem hk0)
      · have hlt : k < 18446744073709551616 := Bound.fin_lt_fin.mp (Bound.lt_of_le_of_lt hk.2 hu)
        rwa [word_eq, Int.emod_eq_of_lt hk0 hlt]
  · have hlb' := Bound.le_neg_one hlb
    constructor
    · intro h
      refine Or.inr (Or.inr (Or.inl ?_))
      have hneg : -1 ∈ I := by
        refine ⟨hlb', ?_⟩
        have hle := (h m hm).2
        exact Bound.le_trans (Bound.fin_le_fin.mpr (by have := (word_bounds m).1; omega)) hle
      exact (h (-1) hneg).2
    · intro h k hk
      have hge : .fin (2 ^ 64 - 1) ≤ I.ub := by
        rcases h with h | h | h | ⟨hl, hub, h | ⟨h, -⟩ | h⟩
        · cases h
        · cases h
        · exact h
        · exact absurd (Bound.le_trans h hub) (by decide)
        · cases h
        · have hm0 := Bound.fin_le_fin.mp (Bound.le_trans hl hm.1)
          have hsum := Bound.fin_lt_fin.mp
            (Bound.lt_of_le_of_lt (Bound.le_add hm.2 (Bound.le_refl (.fin (2 ^ 64)))) h)
          omega
      have hbounds := word_bounds k
      refine ⟨Bound.le_trans hlb' ?_, Bound.le_trans ?_ hge⟩ <;>
        exact Bound.fin_le_fin.mpr (by omega)

/-- A divisor with a zero and another number is split. -/
theorem exists_parts {r : Interval} (hm : m ∈ I) (h0 : 0 ∈ x) (hx : x ≠ const 0) (hr : urem I x = some r) :
    ∃ l u, urem I x.below = some l ∧ urem I x.above = some u ∧ r = (l.join u).join I := by
  refine joins_eq_some ((urem_zero_divisor (isBottom_eq_false_of_mem hm) ?_ h0).symm.trans hr)
  rintro ⟨a, b, -, -, -, rfl⟩
  exact hx (congrArg const (mem_const.mp h0).symm)

theorem neg_one_or_one_mem (h0 : 0 ∈ x) (hx : x ≠ const 0) : -1 ∈ x ∨ 1 ∈ x := by
  rcases x with ⟨lb, ub⟩
  obtain ⟨hlb, hub⟩ : lb ≤ .fin 0 ∧ .fin 0 ≤ ub := h0
  by_cases hl : .fin 0 ≤ lb
  · refine Or.inr ⟨Bound.le_trans hlb (Bound.fin_le_fin.mpr zero_le_one), ?_⟩
    cases lb with
    | negInf => exact absurd hl (Bound.not_fin_le_negInf 0)
    | posInf => exact absurd hlb (Bound.not_posInf_le_fin 0)
    | fin p =>
      cases ub with
      | negInf => exact absurd hub (Bound.not_fin_le_negInf 0)
      | posInf => exact Bound.le_posInf _
      | fin q =>
        rw [Bound.fin_le_fin] at hl hlb hub ⊢
        by_contra hq
        exact hx (congrArg₂ (fun a b => Interval.mk (.fin a) (.fin b)) (by omega) (by omega))
  · exact Or.inl ⟨Bound.le_neg_one hl, Bound.le_trans (Bound.fin_le_fin.mpr (by omega)) hub⟩

/-- A positive dividend has a remainder of zero by the numbers from one on. -/
theorem zero_mem_above {r : Interval} (hpos : ∀ k ∈ I, 0 < k) (hm : m ∈ I) (h1 : 1 ∈ x)
    (hr : urem I x.above = some r) : 0 ∈ r := by
  have hI0 : 0 ∉ I := fun h => lt_irrefl 0 (hpos 0 h)
  have hmem : 1 ∈ x.above := mem_above.mpr ⟨le_rfl, h1.2⟩
  rcases urem_cases hI0 zero_not_mem_above hm hmem hr with ⟨a, b, -, -, -, hb, rfl⟩ | ⟨-, rfl⟩ |
    ⟨u, p, q, hub, hx, hu, -, hlt, -, -⟩ | ⟨p, q, hx, hq, -, rfl⟩
  · obtain rfl : 1 = b := mem_const.mp (hb ▸ hmem)
    have hbounds := unsignedRem_bounds a 1
    have hword : Number.zeroExtend 64 1 = 1 := rfl
    rw [hword] at hbounds
    have hlt := hbounds.2.2.1 one_ne_zero
    rw [mem_const]
    omega
  · rw [if_neg ((ub_lt_zero_iff hI0 hm).not.mpr (by have := hpos m hm; omega)), mem_decremented hm hpos]
    exact ⟨le_rfl, Bound.le_trans (Bound.fin_le_fin.mpr (hpos m hm)) hm.2⟩
  · rw [above_eq hmem] at hx
    obtain rfl : 1 = p := Bound.fin.inj (congrArg Interval.lb hx)
    have hu0 : 0 < u := hpos u ⟨Bound.le_trans hm.1 (hub ▸ hm.2), hub ▸ Bound.le_refl _⟩
    have hu' := fitsCast_iff.mp hu
    rw [word_eq, word_eq] at hlt
    omega
  · have hq1 : 1 ≤ q := Bound.fin_le_fin.mp (hx ▸ hmem).2
    have hq' := fitsCast_iff.mp hq
    rw [mem_ofInts, word_eq]
    omega

/-- A positive dividend has a remainder of zero by negative numbers, or is below all of them. -/
theorem zero_mem_below {r : Interval} (hpos : ∀ k ∈ I, 0 < k) (hm : m ∈ I) (h1 : -1 ∈ x)
    (hr : urem I x.below = some r) :
    0 ∈ r ∨ ∀ k ∈ I, ∀ n ∈ x.below, k < Number.zeroExtend 64 n := by
  have hI0 : 0 ∉ I := fun h => lt_irrefl 0 (hpos 0 h)
  have hmem : -1 ∈ x.below := mem_below.mpr ⟨h1.1, le_rfl⟩
  rcases urem_cases hI0 zero_not_mem_below hm hmem hr with ⟨a, b, ha, -, rfl, hb, rfl⟩ | ⟨-, rfl⟩ |
    ⟨u, p, q, hub, hx, hu, hp, hlt, -, -⟩ | ⟨p, q, hx, hq, -, rfl⟩
  · obtain rfl : -1 = b := mem_const.mp (hb ▸ hmem)
    have hword : Number.zeroExtend 64 (-1) = 18446744073709551615 := rfl
    have ha0 := hpos a (mem_const.mpr rfl)
    have ha' := fitsCast_iff.mp ha
    rcases eq_or_ne a 18446744073709551615 with rfl | hne
    · exact Or.inl (mem_const.mpr rfl)
    · refine Or.inr fun k hk n hn => ?_
      rw [hb] at hn
      rw [mem_const.mp hk, mem_const.mp hn, hword]
      omega
  · rw [if_neg ((ub_lt_zero_iff hI0 hm).not.mpr (by have := hpos m hm; omega)), mem_decremented hm hpos]
    exact Or.inl ⟨le_rfl, Bound.le_trans (Bound.fin_le_fin.mpr (hpos m hm)) hm.2⟩
  · refine Or.inr fun k hk n hn => ?_
    rw [hx] at hn hmem
    obtain ⟨hpn, hnq⟩ : p ≤ n ∧ n ≤ q := hn
    have hp1 : p ≤ -1 := Bound.fin_le_fin.mp hmem.1
    have hnq : n ≤ -1 := (mem_below.mp (hx ▸ (show n ∈ Interval.mk (.fin p) (.fin q) from ⟨hpn, hnq⟩))).2
    have hku : k ≤ u := Bound.fin_le_fin.mp (hub ▸ hk.2)
    have hk0 := hpos k hk
    have hu' := fitsCast_iff.mp hu
    have hp' := fitsCast_iff.mp hp
    rw [word_eq, word_eq] at hlt
    rw [word_eq]
    omega
  · have hq1 : -1 ≤ q := Bound.fin_le_fin.mp (hx ▸ hmem).2
    have hword : 0 < Number.zeroExtend 64 q := by
      rw [below_eq hmem] at hx
      obtain rfl : -1 = q := Bound.fin.inj (congrArg Interval.ub hx)
      exact (by decide : (0 : ℤ) < Number.zeroExtend 64 (-1))
    rw [mem_ofInts]
    exact Or.inl (by omega)

/-- A dividend with negative numbers has any remainder by a divisor without a bound. -/
theorem mem_of_infinite {r : Interval} (hx0 : 0 ∉ x) (hm : m ∈ I) (hneg : m < 0) (hn : n ∈ x)
    (hinf : x.lb.isInfinite = true ∨ x.ub.isInfinite = true) (hr : urem I x = some r) (k : ℤ) : k ∈ r := by
  have htop : ∀ {J r}, 0 ∉ J → m ∈ J → urem J x = some r → k ∈ r := by
    intro J r hJ0 hmJ hr
    rcases urem_cases hJ0 hx0 hmJ hn hr with ⟨a, b, -, -, -, rfl, -⟩ | ⟨-, rfl⟩ |
      ⟨u, p, q, -, rfl, -⟩ | ⟨p, q, rfl, -⟩
    · rcases hinf with h | h <;> cases h
    · rw [if_pos ((ub_lt_zero_iff hJ0 hmJ).mpr hneg)]
      exact mem_top k
    · rcases hinf with h | h <;> cases h
    · rcases hinf with h | h <;> cases h
  by_cases hI0 : 0 ∈ I
  swap
  · exact htop hI0 hm hr
  have hsingle : ¬ Single I x := by
    rintro ⟨a, b, -, -, -, rfl⟩
    rcases hinf with h | h <;> cases h
  rw [urem_zero_dividend (isBottom_eq_false_of_mem hn) hsingle hI0 hx0] at hr
  obtain ⟨l, u, hl, -, rfl⟩ := joins_eq_some hr
  have hmem : m ∈ I.below := mem_below.mpr ⟨hm.1, by omega⟩
  exact mem_join (Or.inl (mem_join (Or.inl (htop zero_not_mem_below hmem hl))))

theorem le_of_ub (h : I.ub ≤ .fin k) : I ≤ ⟨.negInf, .fin k⟩ := by
  change Le _ _
  unfold Le
  split_ifs with hI
  · trivial
  · exact ⟨Bound.negInf_le _, h⟩

/-- The remainders are below the dividend or the greatest divisor. -/
theorem urem_le {r : Interval} (hx0 : 0 ∉ x) (hm : m ∈ I) (hn : n ∈ x) (hub : I.ub ≤ .fin k) (hq : x.ub = .fin q)
    (hfin : x.lb.isInfinite = false) (hk : Number.zeroExtend 64 q - 1 ≤ k) (hr : urem I x = some r) :
    r ≤ ⟨.negInf, .fin k⟩ := by
  have hconst : ∀ {a b}, FitsCast 64 b → x = const b → const (unsignedRem a b) ≤ ⟨.negInf, .fin k⟩ := by
    intro a b hb hx
    have hbq : b = q := by
      rw [hx] at hq
      exact Bound.fin.inj hq
    have hb0 : b ≠ 0 := fun h0 => hx0 (hx ▸ mem_const.mpr h0.symm)
    have hb' := fitsCast_iff.mp hb
    have hword : Number.zeroExtend 64 b ≠ 0 := by
      rw [word_eq]
      omega
    have hlt := (unsignedRem_bounds a b).2.2.1 hword
    rw [← hbq] at hk
    exact le_of_ub (Bound.fin_le_fin.mpr (by omega))
  have hnonzero : ∀ {J r m}, 0 ∉ J → m ∈ J → J.ub ≤ .fin k → urem J x = some r →
      r ≤ ⟨.negInf, .fin k⟩ := by
    intro J r m hJ0 hmJ hJub hr
    rcases urem_cases hJ0 hx0 hmJ hn hr with ⟨a, b, -, hb, -, hx, rfl⟩ | ⟨hinf, -⟩ |
      ⟨u, p, q, -, -, -, -, -, -, rfl⟩ | ⟨p, q', hx, -, -, rfl⟩
    · exact hconst hb hx
    · rw [hfin, hq] at hinf
      rcases hinf with h | h <;> cases h
    · exact le_of_ub hJub
    · obtain rfl : q' = q := by
        rw [hx] at hq
        exact Bound.fin.inj hq
      rcases lt_or_ge (Number.zeroExtend 64 q' - 1) 0 with hneg | hnonneg
      · rw [ofInts, ofBounds, if_pos (Bound.fin_lt_fin.mpr hneg)]
        trivial
      · rw [ofInts_of_le hnonneg]
        exact le_of_ub (Bound.fin_le_fin.mpr hk)
  by_cases hI0 : 0 ∈ I
  swap
  · exact hnonzero hI0 hm hub hr
  by_cases hsingle : Single I x
  · obtain ⟨a, b, ha, hb, rfl, rfl⟩ := hsingle
    rw [urem_const ha hb, if_neg fun h0 => hx0 (mem_const.mpr h0.symm), Option.some.injEq] at hr
    rw [← hr]
    exact hconst hb rfl
  rw [urem_zero_dividend (isBottom_eq_false_of_mem hn) hsingle hI0 hx0] at hr
  obtain ⟨l, u, hl, hu, rfl⟩ := joins_eq_some hr
  refine join_le (join_le ?_ ?_) (le_of_ub hub)
  · rcases below_eq_bottom_or I with hbot | hmem
    · rw [hbot, urem_of_isBottom (Or.inl rfl), Option.some.injEq] at hl
      rw [← hl]
      trivial
    · refine hnonzero zero_not_mem_below hmem ?_ hl
      rw [below_eq hmem]
      exact Bound.le_trans (Bound.fin_le_fin.mpr (by omega)) (Bound.le_trans hI0.2 hub)
  · rcases above_eq_bottom_or I with hbot | hmem
    · rw [hbot, urem_of_isBottom (Or.inl rfl), Option.some.injEq] at hu
      rw [← hu]
      trivial
    · refine hnonzero zero_not_mem_above hmem ?_ hu
      rw [above_eq hmem]
      exact hub

theorem covers_of_nonneg {r : Interval} (h0 : 0 ∈ x) (hx : x ≠ const 0) (hm : m ∈ I)
    (hlb : .fin 0 ≤ I.lb) (hr : urem I x = some r) : Covers r I x := by
  have hnonneg : ∀ k ∈ I, 0 ≤ k := fun k hk => Bound.fin_le_fin.mp (Bound.le_trans hlb hk.1)
  obtain ⟨l, u, hl, hu, rfl⟩ := exists_parts hm h0 hx hr
  have hIr : ∀ k ∈ I, k ∈ (l.join u).join I := fun k hk => mem_join (Or.inr hk)
  have hzero : 0 ∈ (l.join u).join I → Covers ((l.join u).join I) I x := by
    intro hz a ha n _
    have hbounds := unsignedRem_bounds a n
    exact mem_of_between hz (hIr a ha) hbounds.1 (hbounds.2.1.trans (word_of_mem (hnonneg a ha)))
  by_cases hI0 : 0 ∈ I
  · exact hzero (hIr 0 hI0)
  have hpos : ∀ k ∈ I, 0 < k := fun k hk =>
    lt_of_le_of_ne (hnonneg k hk) fun heq => hI0 (heq ▸ hk)
  by_cases h1 : 1 ∈ x
  · exact hzero (mem_join (Or.inl (mem_join (Or.inr (zero_mem_above hpos hm h1 hu)))))
  have hneg := (neg_one_or_one_mem h0 hx).resolve_right h1
  rcases zero_mem_below hpos hm hneg hl with hz | hlt
  · exact hzero (mem_join (Or.inl (mem_join (Or.inl hz))))
  -- all divisors but zero are above the dividends
  intro a ha n hn
  have hbounds := unsignedRem_bounds a n
  have hword : Number.zeroExtend 64 a = a := by
    have ha1 := hlt a ha (-1) (mem_below.mpr ⟨hneg.1, le_rfl⟩)
    have hword1 := word_bounds (-1)
    rw [word_eq]
    exact Int.emod_eq_of_lt (hnonneg a ha) (ha1.trans hword1.2)
  have heq : unsignedRem a n = a := by
    rcases lt_trichotomy n 0 with hn0 | rfl | hn0
    · rw [hbounds.2.2.2.2 (hword.symm ▸ hlt a ha n (mem_below.mpr ⟨hn.1, by omega⟩)), hword]
    · rw [unsignedRem_zero, hword]
    · exact absurd (mem_of_between h0 hn zero_le_one hn0) h1
  rw [heq]
  exact hIr a ha

theorem mem_below_of_lb (h : ¬ .fin 0 ≤ x.lb) : -1 ∈ x.below :=
  mem_below.mpr ⟨Bound.le_neg_one h, le_rfl⟩

/-- The parts of a divisor with zero keep its infinite ends. -/
theorem covers_of_infinite {r : Interval} (h0 : 0 ∈ x) (hx : x ≠ const 0) (hm : m ∈ I) (hneg : m < 0)
    (hinf : x.lb.isInfinite = true ∨ x.ub.isInfinite = true) (hr : urem I x = some r) :
    Covers r I x := by
  obtain ⟨l, u, hl, hu, rfl⟩ := exists_parts hm h0 hx hr
  intro a _ n _
  refine mem_join (Or.inl (mem_join ?_))
  rcases hinf with h | h
  · have hmem : -1 ∈ x.below := by
      refine mem_below_of_lb fun hle => ?_
      cases hlb : x.lb with
      | fin p => rw [hlb] at h; cases h
      | negInf => exact Bound.not_fin_le_negInf 0 (hlb ▸ hle)
      | posInf => exact Bound.not_posInf_le_fin 0 (hlb ▸ h0.1)
    exact Or.inl (mem_of_infinite zero_not_mem_below hm hneg hmem (Or.inl (by rwa [below_eq hmem])) hl _)
  · have hmem : 1 ∈ x.above := by
      refine mem_above.mpr ⟨le_rfl, ?_⟩
      cases hub : x.ub with
      | fin q => rw [hub] at h; cases h
      | negInf => exact absurd (hub ▸ h0.2) (Bound.not_fin_le_negInf 0)
      | posInf => exact Bound.le_posInf _
    exact Or.inr (mem_of_infinite zero_not_mem_above hm hneg hmem (Or.inr (by rwa [above_eq hmem])) hu _)

/-- The dividends are negative from `-2 ^ 64` on, and no remainder is above the last as an unsigned
number. -/
theorem unsignedRem_le_of_low (hl : .fin (-2 ^ 64) ≤ I.lb) (hub : I.ub = .fin u) (hu : u ≤ -2) :
    0 ∉ I ∧ ∀ k ∈ I, ∀ n, 0 ≤ unsignedRem k n ∧ unsignedRem k n ≤ u + 18446744073709551616 := by
  have hrange : ∀ k ∈ I, -2 ^ 64 ≤ k ∧ k ≤ u := fun k hk =>
    ⟨Bound.fin_le_fin.mp (Bound.le_trans hl hk.1), Bound.fin_le_fin.mp (hub ▸ hk.2)⟩
  refine ⟨fun h => ?_, fun k hk n => ?_⟩
  · have hle := (hrange 0 h).2
    omega
  · have hbounds := unsignedRem_bounds k n
    have hk' := hrange k hk
    have hword : Number.zeroExtend 64 k ≤ u + 18446744073709551616 := by
      rw [word_eq]
      omega
    omega

/-- The divisors below zero reach down to the dividends. -/
theorem mem_of_reaching_below {r : Interval} (hI0 : 0 ∉ I) (hm : m ∈ I) (hub : I.ub = .fin u) (hu : u ≤ -2)
    (hpu : p ≤ u) (hr : urem I ⟨.fin p, .fin (-1)⟩ = some r) (hk : 0 ≤ k)
    (hku : k ≤ u + 18446744073709551616) : k ∈ r := by
  have hmem : -1 ∈ Interval.mk (.fin p) (.fin (-1)) :=
    mem_def.mpr ⟨Bound.fin_le_fin.mpr (by omega), Bound.le_refl _⟩
  have hx0 : 0 ∉ Interval.mk (.fin p) (.fin (-1)) := fun h => by
    have hle : (0 : ℤ) ≤ -1 := h.2
    omega
  rcases urem_cases hI0 hx0 hm hmem hr with ⟨a, b, -, -, -, hb, -⟩ | ⟨hinf, -⟩ |
    ⟨u', p', q', hub', hx, hu', hp', hlt, -, -⟩ | ⟨p', q', hx, -, -, rfl⟩
  · have hb1 : p = b := Bound.fin.inj (congrArg Interval.lb hb)
    have hb2 : -1 = b := Bound.fin.inj (congrArg Interval.ub hb)
    omega
  · rcases hinf with h | h <;> cases h
  · obtain rfl : p = p' := Bound.fin.inj (congrArg Interval.lb hx)
    obtain rfl : u = u' := Bound.fin.inj (hub.symm.trans hub')
    have hu'' := fitsCast_iff.mp hu'
    have hp'' := fitsCast_iff.mp hp'
    rw [word_eq, word_eq] at hlt
    omega
  · obtain rfl : -1 = q' := Bound.fin.inj (congrArg Interval.ub hx)
    rw [mem_ofInts, word_eq]
    omega

/-- The divisors above zero reach above the dividends. -/
theorem mem_of_reaching_above {r : Interval} (hI0 : 0 ∉ I) (hm : m ∈ I) (hub : I.ub = .fin u) (hu : u ≤ -2)
    (hu64 : -2 ^ 64 ≤ u) (hq : u + 18446744073709551616 < q) (hr : urem I ⟨.fin 1, .fin q⟩ = some r)
    (hk : 0 ≤ k) (hku : k ≤ u + 18446744073709551616) : k ∈ r := by
  have hmem : 1 ∈ Interval.mk (.fin 1) (.fin q) :=
    mem_def.mpr ⟨Bound.le_refl _, Bound.fin_le_fin.mpr (by omega)⟩
  have hx0 : 0 ∉ Interval.mk (.fin 1) (.fin q) := fun h => by
    have hle : (1 : ℤ) ≤ 0 := h.1
    omega
  rcases urem_cases hI0 hx0 hm hmem hr with ⟨a, b, ha, -, hI, hb, -⟩ | ⟨hinf, -⟩ |
    ⟨u', p', q', hub', hx, hu', -, hlt, -, -⟩ | ⟨p', q', hx, hq', -, rfl⟩
  · have hb1 : 1 = b := Bound.fin.inj (congrArg Interval.lb hb)
    have hb2 : q = b := Bound.fin.inj (congrArg Interval.ub hb)
    have hau : a = u := by
      rw [hI] at hub
      exact Bound.fin.inj hub
    have ha' := fitsCast_iff.mp ha
    omega
  · rcases hinf with h | h <;> cases h
  · obtain rfl : 1 = p' := Bound.fin.inj (congrArg Interval.lb hx)
    obtain rfl : u = u' := Bound.fin.inj (hub.symm.trans hub')
    have hu'' := fitsCast_iff.mp hu'
    rw [word_eq, word_eq] at hlt
    omega
  · obtain rfl : q = q' := Bound.fin.inj (congrArg Interval.ub hx)
    have hq'' := fitsCast_iff.mp hq'
    rw [mem_ofInts, word_eq]
    omega

/-- A single negative dividend, by minus one, zero and positive divisors. -/
theorem covers_single_low {r : Interval} (h0 : 0 ∈ (⟨.fin (-1), .fin q⟩ : Interval)) (hu : u ≤ -2)
    (hr : urem (const u) ⟨.fin (-1), .fin q⟩ = some r) : Covers r (const u) ⟨.fin (-1), .fin q⟩ := by
  have hm : u ∈ const u := mem_const.mpr rfl
  have hI0 : 0 ∉ const u := fun h => by
    have heq := mem_const.mp h
    omega
  have hmem : -1 ∈ below ⟨.fin (-1), .fin q⟩ := mem_below.mpr ⟨Bound.le_refl _, le_rfl⟩
  have hbelow : below ⟨.fin (-1), .fin q⟩ = const (-1) := below_eq hmem
  obtain ⟨l, v, hl, hv, rfl⟩ := exists_parts hm h0 (fun h => by cases congrArg Interval.lb h) hr
  have hfits : FitsCast 64 u := by
    have hsome : (urem (const u) (below ⟨.fin (-1), .fin q⟩)).isSome = true := by
      rw [hl]
      rfl
    have hcasts := (isSome_urem_nonzero hI0 zero_not_mem_below).mp hsome (isBottom_eq_false_of_mem hm)
      (isBottom_eq_false_of_mem hmem)
    rw [below_eq hmem] at hcasts
    exact hcasts.1
  have hfits' := fitsCast_iff.mp hfits
  have hword : Number.zeroExtend 64 u = u + 18446744073709551616 := by
    rw [word_eq]
    omega
  have hlt : Number.zeroExtend 64 u < Number.zeroExtend 64 (-1) := by
    rw [hword, word_eq]
    omega
  have hself : Number.zeroExtend 64 u ∈ (l.join v).join (const u) := by
    have hfits1 : FitsCast 64 (-1) := by decide
    rw [hbelow, urem_const hfits hfits1, if_neg (by omega), Option.some.injEq] at hl
    refine mem_join (Or.inl (mem_join (Or.inl ?_)))
    rw [← hl, mem_const, (unsignedRem_bounds u (-1)).2.2.2.2 hlt]
  intro k hk n hn
  obtain rfl := mem_const.mp hk
  rcases lt_trichotomy n 0 with hn0 | rfl | hn0
  · obtain rfl : n = -1 := by
      have hn1 : -1 ≤ n := hn.1
      omega
    rwa [(unsignedRem_bounds k (-1)).2.2.2.2 hlt]
  · rwa [unsignedRem_zero]
  · have hmem' : n ∈ above ⟨.fin (-1), .fin q⟩ := mem_above.mpr ⟨by omega, hn.2⟩
    refine mem_join (Or.inl (mem_join (Or.inr ?_)))
    refine (covers_nonzero_iff hI0 zero_not_mem_above hk hmem' hv).mpr ?_ k hk n hmem'
    rw [above_eq hmem']
    intro hlt
    rw [hword, word_eq 1] at hlt
    omega

theorem urem_const_zero (hm : m ∈ I) : urem I (const 0) = some I := by
  by_cases h : Single I (const 0)
  · obtain ⟨a, b, ha, hb, rfl, heq⟩ := h
    obtain rfl : 0 = b := Bound.fin.inj (congrArg Interval.lb heq)
    rw [urem_const ha hb, if_pos rfl]
  · rw [urem_zero_divisor (isBottom_eq_false_of_mem hm) h (mem_const.mpr rfl)]
    have hbelow : (const 0).below.isBottom = true := rfl
    have habove : (const 0).above.isBottom = true := rfl
    rw [urem_of_isBottom (Or.inr hbelow), urem_of_isBottom (Or.inr habove)]
    rfl

/-- The remainders by both parts of a divisor are at most `k` if those that `urem` casts are. -/
theorem le_of_parts {r : Interval} (h0 : 0 ∈ (⟨.fin p, .fin q⟩ : Interval))
    (hx : (⟨.fin p, .fin q⟩ : Interval) ≠ const 0) (hm : m ∈ I) (hub : I.ub ≤ .fin k)
    (hbelow : -1 ∈ below ⟨.fin p, .fin q⟩ → ∀ l, urem I (below ⟨.fin p, .fin q⟩) = some l →
      l ≤ ⟨.negInf, .fin k⟩)
    (habove : 1 ≤ q → Number.zeroExtend 64 q - 1 ≤ k) (hr : urem I ⟨.fin p, .fin q⟩ = some r) :
    r ≤ ⟨.negInf, .fin k⟩ := by
  obtain ⟨l, v, hl, hv, rfl⟩ := exists_parts hm h0 hx hr
  refine join_le (join_le ?_ ?_) (le_of_ub hub)
  · rcases below_eq_bottom_or ⟨.fin p, .fin q⟩ with hbot | hmem
    · rw [hbot, urem_of_isBottom (Or.inr rfl), Option.some.injEq] at hl
      rw [← hl]
      trivial
    · exact hbelow hmem l hl
  · rcases above_eq_bottom_or ⟨.fin p, .fin q⟩ with hbot | hmem
    · rw [hbot, urem_of_isBottom (Or.inr rfl), Option.some.injEq] at hv
      rw [← hv]
      trivial
    · have hq : 1 ≤ q := Bound.fin_le_fin.mp (mem_above.mp hmem).2
      refine urem_le zero_not_mem_above hm hmem hub ?_ ?_ (habove hq) hv
      · rw [above_eq hmem]
      · rw [above_eq hmem]
        rfl

/-- The upper end of a dividend below zero is cast for a divisor with a zero. -/
theorem fitsCast_of_urem {r : Interval} (h0 : 0 ∈ (⟨.fin p, .fin q⟩ : Interval))
    (hx : (⟨.fin p, .fin q⟩ : Interval) ≠ const 0) (hI0 : 0 ∉ I) (hm : m ∈ I) (hub : I.ub = .fin u)
    (hr : urem I ⟨.fin p, .fin q⟩ = some r) : FitsCast 64 u := by
  have hcast : ∀ {p q n : ℤ} {l}, 0 ∉ (⟨.fin p, .fin q⟩ : Interval) → n ∈ (⟨.fin p, .fin q⟩ : Interval) →
      urem I ⟨.fin p, .fin q⟩ = some l → FitsCast 64 u := by
    intro p q n l hx0 hn hl
    have hsome : (urem I ⟨.fin p, .fin q⟩).isSome = true := hl ▸ rfl
    have hcasts := (isSome_urem_nonzero hI0 hx0).mp hsome (isBottom_eq_false_of_mem hm)
      (isBottom_eq_false_of_mem hn)
    rw [hub] at hcasts
    exact hcasts.1
  obtain ⟨l, v, hl, hv, -⟩ := exists_parts hm h0 hx hr
  rcases neg_one_or_one_mem h0 hx with h | h
  · have hmem : -1 ∈ below ⟨.fin p, .fin q⟩ := mem_below.mpr ⟨h.1, le_rfl⟩
    have hzero := zero_not_mem_below (I := ⟨.fin p, .fin q⟩)
    have heq := below_eq hmem
    rw [heq] at hl hmem hzero
    exact hcast hzero hmem hl
  · have hmem : 1 ∈ above ⟨.fin p, .fin q⟩ := mem_above.mpr ⟨le_rfl, h.2⟩
    have hzero := zero_not_mem_above (I := ⟨.fin p, .fin q⟩)
    have heq := above_eq hmem
    rw [heq] at hv hmem hzero
    exact hcast hzero hmem hv

/-- When negative dividends have all remainders, they are low. -/
theorem low_of_covers {r : Interval} (h0 : 0 ∈ (⟨.fin p, .fin q⟩ : Interval))
    (hx : (⟨.fin p, .fin q⟩ : Interval) ≠ const 0) (hm : m ∈ I) (hlb : I.lb ≤ .fin (-1))
    (hub : I.ub = .fin u) (hu : u < 18446744073709551615) (hr : urem I ⟨.fin p, .fin q⟩ = some r)
    (hcovers : Covers r I ⟨.fin p, .fin q⟩) :
    .fin (-2 ^ 64) ≤ I.lb ∧ u ≤ -2 ∧ (p ≤ u ∨ p = -1 ∧ I.lb = .fin u ∨ u + 18446744073709551616 < q) := by
  have hword : ∀ k ∈ I, Number.zeroExtend 64 k ∈ r := by
    intro k hk
    rw [← unsignedRem_zero]
    exact hcovers k hk 0 h0
  have hrange : ∀ k, I.lb ≤ .fin k → k ≤ u → k ∈ I := fun k hk hku =>
    ⟨hk, hub ▸ Bound.fin_le_fin.mpr hku⟩
  have hmu : m ≤ u := Bound.fin_le_fin.mp (hub ▸ hm.2)
  -- no remainder is the greatest unsigned number
  have hle : r ≤ ⟨.negInf, .fin 18446744073709551614⟩ := by
    refine le_of_parts h0 hx hm ?_ ?_ ?_ hr
    · rw [hub]
      exact Bound.fin_le_fin.mpr (by omega)
    · intro hmem l hl
      refine urem_le zero_not_mem_below hm hmem ?_ (q := -1) ?_ ?_ (by decide) hl
      · rw [hub]
        exact Bound.fin_le_fin.mpr (by omega)
      · rw [below_eq hmem]
      · rw [below_eq hmem]
        rfl
    · intro _
      have hbounds := word_bounds q
      omega
  have hlast : ∀ k ∈ I, Number.zeroExtend 64 k ≠ 18446744073709551615 := by
    intro k hk heq
    have hmem := (mem_of_le hle (hword k hk)).2
    rw [heq, Bound.fin_le_fin] at hmem
    omega
  have hu2 : u ≤ -2 := by
    by_contra hlt
    exact hlast (-1) (hrange (-1) hlb (by omega)) rfl
  have hI0 : 0 ∉ I := fun h => by
    have hle0 : (0 : ℤ) ≤ u := Bound.fin_le_fin.mp (hub ▸ h.2)
    omega
  have hfits := fitsCast_iff.mp (fitsCast_of_urem h0 hx hI0 hm hub hr)
  have hlow : .fin (-2 ^ 64) ≤ I.lb := by
    by_contra hlt
    refine hlast (-18446744073709551617) (hrange _ ?_ (by omega)) rfl
    cases hcase : I.lb with
    | negInf => exact Bound.negInf_le _
    | posInf => exact absurd (hcase ▸ Bound.le_posInf _) hlt
    | fin l =>
      rw [hcase, Bound.fin_le_fin] at hlt
      exact Bound.fin_le_fin.mpr (by omega)
  refine ⟨hlow, hu2, ?_⟩
  by_contra hno
  push Not at hno
  obtain ⟨hpu, hsingle, hq⟩ := hno
  -- no remainder is the last dividend as an unsigned number
  have hle : r ≤ ⟨.negInf, .fin (u + 18446744073709551615)⟩ := by
    have hubk : I.ub ≤ .fin (u + 18446744073709551615) := by
      rw [hub]
      exact Bound.fin_le_fin.mpr (by omega)
    refine le_of_parts h0 hx hm hubk ?_ ?_ hr
    · intro hmem l hl
      have hp1 : p ≤ -1 := Bound.fin_le_fin.mp (mem_below.mp hmem).1
      rcases urem_cases hI0 zero_not_mem_below hm hmem hl with ⟨a, b, -, -, hI, hb, -⟩ | ⟨hinf, -⟩ |
        ⟨u', p', q', -, -, -, -, -, -, rfl⟩ | ⟨p', q', hx', -, hfin, -⟩
      · rw [below_eq hmem] at hb
        have hb1 : p = b := Bound.fin.inj (congrArg Interval.lb hb)
        have hb2 : -1 = b := Bound.fin.inj (congrArg Interval.ub hb)
        refine absurd ?_ (hsingle (hb1.trans hb2.symm))
        rw [hI] at hub ⊢
        exact hub
      · rw [below_eq hmem] at hinf
        rcases hinf with h | h <;> cases h
      · exact le_of_ub hubk
      · rw [below_eq hmem] at hx'
        obtain rfl : p = p' := Bound.fin.inj (congrArg Interval.lb hx')
        obtain ⟨-, hp, hwords⟩ := hfin u hub
        have hp' := fitsCast_iff.mp hp
        rw [word_eq, word_eq] at hwords
        omega
    · intro hq1
      rw [word_eq]
      omega
  have hmem := (mem_of_le hle (hword u (hrange u (Bound.le_trans hm.1 (Bound.fin_le_fin.mpr hmu)) le_rfl))).2
  rw [word_eq, Bound.fin_le_fin] at hmem
  omega

/-- For a divisor with a zero, `urem` has all remainders exactly when they are covered. -/
theorem covers_zero_divisor_iff {r : Interval} (h0 : 0 ∈ x) (hm : m ∈ I) (hr : urem I x = some r) :
    Covers r I x ↔ CoveredZeroDivisor I x := by
  by_cases hx : x = const 0
  · subst hx
    rw [urem_const_zero hm, Option.some.injEq] at hr
    rw [← hr]
    exact covers_const_zero hm
  by_cases hlb : .fin 0 ≤ I.lb
  · refine iff_of_true (covers_of_nonneg h0 hx hm hlb hr) ?_
    unfold CoveredZeroDivisor
    rw [if_pos hlb]
    exact fun h => absurd h hx
  have hlb' := Bound.le_neg_one hlb
  unfold CoveredZeroDivisor
  rw [if_neg hlb]
  obtain ⟨m', hm', hneg⟩ : ∃ k ∈ I, k < 0 := by
    refine ⟨min m (-1), ?_, by omega⟩
    rcases min_cases m (-1) with ⟨heq, -⟩ | ⟨heq, hle⟩
    · rwa [heq]
    · rw [heq]
      exact ⟨hlb', Bound.le_trans (Bound.fin_le_fin.mpr hle.le) hm.2⟩
  have hinfinite : x.lb.isInfinite = true ∨ x.ub.isInfinite = true → Covers r I x := fun h =>
    covers_of_infinite h0 hx hm' hneg h hr
  rcases x with ⟨lb, ub⟩
  cases lb with
  | negInf => exact iff_of_true (hinfinite (Or.inl rfl)) (Or.inl rfl)
  | posInf => exact iff_of_true (hinfinite (Or.inl rfl)) (Or.inl rfl)
  | fin p =>
    cases ub with
    | negInf => exact iff_of_true (hinfinite (Or.inr rfl)) (Or.inr (Or.inl rfl))
    | posInf => exact iff_of_true (hinfinite (Or.inr rfl)) (Or.inr (Or.inl rfl))
    | fin q =>
      rw [or_iff_right (by simp [Bound.isInfinite]), or_iff_right (by simp [Bound.isInfinite])]
      by_cases hhigh : .fin (2 ^ 64 - 1) ≤ I.ub
      · refine iff_of_true (fun a _ n _ => ?_) (Or.inl hhigh)
        obtain ⟨l, u, -, -, rfl⟩ := exists_parts hm h0 hx hr
        have hbounds := unsignedRem_bounds a n
        have hword := word_bounds a
        exact mem_join (Or.inr ⟨Bound.le_trans hlb' (Bound.fin_le_fin.mpr (by omega)),
          Bound.le_trans (Bound.fin_le_fin.mpr (by omega)) hhigh⟩)
      rw [or_iff_right hhigh]
      obtain ⟨u, hub⟩ : ∃ u, I.ub = .fin u := by
        cases hcase : I.ub with
        | fin u => exact ⟨u, rfl⟩
        | negInf => exact absurd (hcase ▸ hm.2) (Bound.not_fin_le_negInf m)
        | posInf => exact absurd (hcase ▸ Bound.le_posInf _) hhigh
      rw [hub, Bound.fin_le_fin] at hhigh
      rw [hub]
      show _ ↔ _ ∧ u ≤ -2 ∧ (p ≤ u ∨ Bound.fin p = .fin (-1) ∧ _ ∨
        Bound.fin (u + 18446744073709551616) < .fin q)
      rw [Bound.fin_lt_fin, Bound.fin.injEq]
      constructor
      · exact low_of_covers h0 hx hm hlb' hub (by omega) hr
      · rintro ⟨hl, hu2, hcase⟩
        obtain ⟨hI0, hrem⟩ := unsignedRem_le_of_low hl hub hu2
        rcases hcase with hpu | ⟨rfl, hlbu⟩ | hq
        · obtain ⟨l, v, hl', -, rfl⟩ := exists_parts hm h0 hx hr
          have hmem : -1 ∈ below ⟨.fin p, .fin q⟩ :=
            mem_below.mpr ⟨Bound.fin_le_fin.mpr (by omega), le_rfl⟩
          rw [below_eq hmem] at hl'
          intro k hk n _
          have hbounds := hrem k hk n
          exact mem_join (Or.inl (mem_join (Or.inl
            (mem_of_reaching_below hI0 hm hub hu2 hpu hl' hbounds.1 hbounds.2))))
        · obtain rfl : I = const u := congrArg₂ Interval.mk hlbu hub
          exact covers_single_low h0 hu2 hr
        · obtain ⟨l, v, -, hv, rfl⟩ := exists_parts hm h0 hx hr
          have hu64 : -2 ^ 64 ≤ u := Bound.fin_le_fin.mp (Bound.le_trans hl (Bound.le_trans hm.1 (hub ▸ hm.2)))
          have hmem : 1 ∈ above ⟨.fin p, .fin q⟩ :=
            mem_above.mpr ⟨le_rfl, Bound.fin_le_fin.mpr (by omega)⟩
          rw [above_eq hmem] at hv
          intro k hk n _
          have hbounds := hrem k hk n
          exact mem_join (Or.inl (mem_join (Or.inr
            (mem_of_reaching_above hI0 hm hub hu2 hu64 hq hv hbounds.1 hbounds.2))))

end

/-! ## Both remainders -/

/-- `urem` raises no error and has all remainders of the numbers read as unsigned. -/
def UremExact (I x : Interval) : Prop :=
  UremCasts I x ∧
    if x.contains 0 then CoveredZeroDivisor I x else I.contains 0 = false → CoveredNonzero I x

/-- The results have the signed and the unsigned remainders of the numbers of the operands. -/
def RemaindersExact (I x : Interval) : Prop :=
  ∀ m ∈ I, ∀ n ∈ x, m.tmod n ∈ srem I x ∧ ∃ r, urem I x = some r ∧ unsignedRem m n ∈ r

theorem covers_urem_iff {I x r : Interval} {m n : ℤ} (hm : m ∈ I) (hn : n ∈ x) (hr : urem I x = some r) :
    Covers r I x ↔
      if x.contains 0 then CoveredZeroDivisor I x else I.contains 0 = false → CoveredNonzero I x := by
  split_ifs with h0
  · exact covers_zero_divisor_iff (contains_iff.mp h0) hm hr
  · have hx0 : 0 ∉ x := fun h => h0 (contains_iff.mpr h)
    by_cases hI0 : 0 ∈ I
    · refine iff_of_true (covers_zero_dividend hI0 hx0 hr) fun h => ?_
      rw [contains_iff.mpr hI0] at h
      cases h
    · rw [covers_nonzero_iff hI0 hx0 hm hn hr, forall_prop_of_true]
      rwa [← Bool.not_eq_true, contains_iff]

theorem UremExact.covers {I x : Interval} (h : UremExact I x) {m n : ℤ} (hm : m ∈ I) (hn : n ∈ x) :
    ∃ r, urem I x = some r ∧ Covers r I x := by
  obtain ⟨r, hr⟩ := Option.isSome_iff_exists.mp (isSome_urem.mpr h.1)
  exact ⟨r, hr, (covers_urem_iff hm hn hr).mpr h.2⟩

theorem remaindersExact_iff (I x : Interval) :
    RemaindersExact I x ↔ ((∃ m, m ∈ I) → (∃ n, n ∈ x) → UremExact I x) := by
  constructor
  · rintro h ⟨m, hm⟩ ⟨n, hn⟩
    obtain ⟨-, r, hr, -⟩ := h m hm n hn
    refine ⟨isSome_urem.mp (hr ▸ rfl), (covers_urem_iff hm hn hr).mp fun a ha b hb => ?_⟩
    obtain ⟨-, r', hr', hmem⟩ := h a ha b hb
    obtain rfl := Option.some.inj (hr.symm.trans hr')
    exact hmem
  · intro h m hm n hn
    obtain ⟨r, hr, hcovers⟩ := (h ⟨m, hm⟩ ⟨n, hn⟩).covers hm hn
    exact ⟨mem_srem hm hn, r, hr, hcovers m hm n hn⟩

/-- The remainder of 10 by 11 is 10. -/
theorem not_remaindersExact : ¬ RemaindersExact (const 10) ⟨.fin 5, .posInf⟩ := by
  intro h
  obtain ⟨-, r, hr, hmem⟩ := h 10 (mem_const.mpr rfl) 11 ⟨Bound.fin_le_fin.mpr (by omega), Bound.le_posInf _⟩
  have heval : urem (const 10) ⟨.fin 5, .posInf⟩ = some (ofInts 0 9) := by decide
  obtain rfl := Option.some.inj (heval.symm.trans hr)
  have hlt := (mem_ofInts.mp hmem).2
  revert hlt
  decide

end Interval

end Prevail
