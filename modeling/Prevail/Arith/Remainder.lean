import Prevail.Arith.Truncation

/-!
# Remainders of intervals

`srem` is the range of the remainders by the signs and the greatest absolute value of the divisors, and
has all of them (`mem_srem`). `urem` reads ends as unsigned numbers of 64 bits: it raises an error on an
end that fits no such number, and forgets that a dividend below all divisors is its own remainder, that
numbers above `2 ^ 64` wrap, and that a negative dividend is a large unsigned number. Here is when it
raises one (`isSome_urem`).
-/

namespace Prevail

open Number

namespace Bound

theorem lt_of_le_of_lt {a b c : Bound} (h : a ≤ b) (h' : b < c) : a < c :=
  fun hca => h' (Bound.le_trans hca h)

theorem le_neg_one {b : Bound} (h : ¬ .fin 0 ≤ b) : b ≤ .fin (-1) := by
  cases b with
  | negInf => exact negInf_le _
  | fin n =>
    rw [fin_le_fin] at h ⊢
    omega
  | posInf => exact absurd (le_posInf _) h

end Bound

namespace Interval

/-- The case of `srem` for a divisor without a zero. -/
def sremRange (I x : Interval) : Interval :=
  match x.lb, x.ub with
  | .fin xlb, .fin xub =>
    let minDivisor := min |xlb| |xub|
    let maxDivisor := max |xlb| |xub|
    if I.ub < .fin minDivisor ∧ I.lb.neg < .fin minDivisor then I
    else if I.lb < .fin 0 then
      if .fin 0 < I.ub then ofInts (-(maxDivisor - 1)) (maxDivisor - 1)
      else ofInts (-(maxDivisor - 1)) 0
    else ofInts 0 (maxDivisor - 1)
  | _, _ => I.join (const 0)

/-- The part of an interval below zero. -/
def below (I : Interval) : Interval := ofBounds I.lb (.fin (-1))

/-- The part of an interval above zero. -/
def above (I : Interval) : Interval := ofBounds (.fin 1) I.ub

/-- The steps of `srem`: the parts of a divisor with zero are left to `rec`. -/
def sremStep (rec : Interval → Interval → Interval) (I x : Interval) : Interval :=
  if I.isBottom || x.isBottom then bottom
  else match I.singleton, x.singleton with
    | some dividend, some divisor =>
      if divisor = 0 then const dividend else const (dividend.tmod divisor)
    | _, _ =>
      if x.contains 0 then ((rec I x.below).join (rec I x.above)).join I else sremRange I x

/-- `srem`; the parts of a divisor have no zero, so that one nested call is enough. -/
def srem : Interval → Interval → Interval := sremStep (sremStep fun _ _ => bottom)

/-- The case of `urem` for a dividend and a divisor that are single numbers. -/
def uremSingle (dividend divisor : ℤ) : Option Interval :=
  if divisor = 0 then some (const dividend)
  else do return const ((← castToU 64 dividend) % (← castToU 64 divisor))

/-- The case of `urem` without a zero in either operand. -/
def uremNonzero (I x : Interval) : Option Interval :=
  match x.lb, x.ub with
  | .fin xlb, .fin xub => do
    let lower ← match I.ub with
      | .fin ub => (do return decide ((← castToU 64 ub) < (← castToU 64 xlb)) : Option Bool)
      | _ => some false
    if lower then return I
    return ofInts 0 ((← castToU 64 xub) - 1)
  | _, _ => some (if I.ub < .fin 0 then top else (I.sub (const 1)).join (const 0))

/-- The cases of `urem` for ranges: the parts of an operand with zero are left to `rec`. -/
def uremRange (rec : Interval → Interval → Option Interval) (I x : Interval) : Option Interval :=
  if x.contains 0 then do return ((← rec I x.below).join (← rec I x.above)).join I
  else if I.contains 0 then do return ((← rec I.below x).join (← rec I.above x)).join I
  else uremNonzero I x

/-- The steps of `urem`. -/
def uremStep (rec : Interval → Interval → Option Interval) (I x : Interval) : Option Interval :=
  if I.isBottom || x.isBottom then some bottom
  else match I.singleton.filter fun n => FitsCast 64 n, x.singleton.filter fun n => FitsCast 64 n with
    | some dividend, some divisor => uremSingle dividend divisor
    | _, _ => uremRange rec I x

/-- `urem`; the parts of an operand have no zero, so that two nested calls are enough. -/
def urem : Interval → Interval → Option Interval := uremStep (uremStep (uremStep fun _ _ => none))

/-! ## The recursion -/

section

variable {I x : Interval} {k m n : ℤ}

theorem mem_below : n ∈ I.below ↔ I.lb ≤ .fin n ∧ n ≤ -1 := mem_ofBounds

theorem mem_above : n ∈ I.above ↔ 1 ≤ n ∧ .fin n ≤ I.ub := mem_ofBounds

theorem below_eq (h : n ∈ I.below) : I.below = ⟨I.lb, .fin (-1)⟩ :=
  if_neg fun hlt => hlt (Bound.le_trans (mem_below.mp h).1 (Bound.fin_le_fin.mpr (mem_below.mp h).2))

theorem above_eq (h : n ∈ I.above) : I.above = ⟨.fin 1, I.ub⟩ :=
  if_neg fun hlt => hlt (Bound.le_trans (Bound.fin_le_fin.mpr (mem_above.mp h).1) (mem_above.mp h).2)

theorem below_eq_bottom_or (I : Interval) : I.below = bottom ∨ -1 ∈ I.below := by
  by_cases h : Bound.fin (-1) < I.lb
  · exact Or.inl (if_pos h)
  · exact Or.inr (mem_below.mpr ⟨not_not.mp h, le_rfl⟩)

theorem above_eq_bottom_or (I : Interval) : I.above = bottom ∨ 1 ∈ I.above := by
  by_cases h : I.ub < Bound.fin 1
  · exact Or.inl (if_pos h)
  · exact Or.inr (mem_above.mpr ⟨le_rfl, not_not.mp h⟩)

theorem contains_below : I.below.contains 0 = false := by
  rw [Bool.eq_false_iff, Ne, contains_iff, mem_below]
  omega

theorem contains_above : I.above.contains 0 = false := by
  rw [Bool.eq_false_iff, Ne, contains_iff, mem_above]
  omega

/-- Only the parts without zero are passed to the inner call. -/
theorem uremStep_congr {rec rec' : Interval → Interval → Option Interval}
    (hx : x.contains 0 = true → ∀ y, y.contains 0 = false → rec I y = rec' I y)
    (hI : x.contains 0 = false → I.contains 0 = true → ∀ J, J.contains 0 = false → rec J x = rec' J x) :
    uremStep rec I x = uremStep rec' I x := by
  have hrange : uremRange rec I x = uremRange rec' I x := by
    unfold uremRange
    split_ifs with hx0 hI0
    · rw [hx hx0 _ contains_below, hx hx0 _ contains_above]
    · have hx0' : x.contains 0 = false := by simpa using hx0
      rw [hI hx0' hI0 _ contains_below, hI hx0' hI0 _ contains_above]
    · rfl
  unfold uremStep
  rw [hrange]

/-- `urem` satisfies the recursion of the source. -/
theorem urem_eq (I x : Interval) : urem I x = uremStep urem I x := by
  apply uremStep_congr
  · intro _ y hy
    refine uremStep_congr (fun h => by rw [hy] at h; cases h) fun _ _ J hJ => ?_
    exact uremStep_congr (fun h => by rw [hy] at h; cases h) fun _ h => by rw [hJ] at h; cases h
  · intro hx _ J hJ
    refine uremStep_congr (fun h => by rw [hx] at h; cases h) fun _ h => by rw [hJ] at h; cases h

end

/-! ## Signed remainders -/

section

variable {I x : Interval} {k m n : ℤ}

/-- A remainder has the sign of the dividend and is below the dividend and the divisor. -/
theorem tmod_of_nonneg (hm : 0 ≤ m) (n : ℤ) :
    0 ≤ m.tmod n ∧ m.tmod n ≤ m ∧ (n ≠ 0 → m.tmod n < |n|) ∧ (m < |n| → m.tmod n = m) := by
  rw [Int.tmod_eq_emod_of_nonneg hm, ← Int.emod_abs]
  have hle : m % |n| ≤ m := by
    rcases eq_or_ne n 0 with rfl | hn
    · rw [abs_zero, Int.emod_zero]
    · have hdiv := Int.ediv_nonneg hm (abs_nonneg n)
      have hsplit := Int.emod_add_mul_ediv m |n|
      nlinarith [abs_nonneg n]
  refine ⟨?_, hle, fun hn => Int.emod_lt_of_pos m (abs_pos.mpr hn), fun hlt => Int.emod_eq_of_lt hm hlt⟩
  rcases eq_or_ne n 0 with rfl | hn
  · rwa [abs_zero, Int.emod_zero]
  · exact Int.emod_nonneg m (abs_ne_zero.mpr hn)

theorem mem_sremRange (h0 : 0 ∉ x) (hm : m ∈ I) (hn : n ∈ x) : m.tmod n ∈ sremRange I x := by
  have hpos := fun h : 0 ≤ m => tmod_of_nonneg h n
  have hneg : m ≤ 0 → m.tmod n ≤ 0 ∧ m ≤ m.tmod n ∧ (n ≠ 0 → -|n| < m.tmod n) ∧
      (-|n| < m → m.tmod n = m) := by
    intro h
    obtain ⟨h1, h2, h3, h4⟩ := tmod_of_nonneg (neg_nonneg.mpr h) n
    rw [Int.neg_tmod] at h1 h2 h3 h4
    exact ⟨by omega, by omega, fun hn => by have := h3 hn; omega, fun hlt => by
      have := h4 (by omega); omega⟩
  have hn0 : n ≠ 0 := fun heq => h0 (heq ▸ hn)
  have hjoin : m.tmod n ∈ I.join (const 0) := by
    have hm' : m ∈ I.join (const 0) := mem_join (Or.inl hm)
    have h0' : 0 ∈ I.join (const 0) := mem_join (Or.inr (mem_const.mpr rfl))
    rcases le_total 0 m with h | h
    · exact mem_of_between h0' hm' (hpos h).1 (hpos h).2.1
    · exact mem_of_between hm' h0' (hneg h).2.1 (hneg h).1
  rcases x with ⟨p, q⟩
  cases p with
  | negInf => exact hjoin
  | posInf => exact hjoin
  | fin p =>
    cases q with
    | negInf => exact hjoin
    | posInf => exact hjoin
    | fin q =>
      obtain ⟨hpn, hnq⟩ : p ≤ n ∧ n ≤ q := hn
      have hnot : ¬ (p ≤ 0 ∧ 0 ≤ q) := h0
      obtain ⟨hmin, hmax⟩ : min |p| |q| ≤ |n| ∧ |n| ≤ max |p| |q| := by
        rcases lt_or_gt_of_ne hn0 with h | h
        · rw [abs_of_neg h, abs_of_neg (show p < 0 by omega), abs_of_neg (show q < 0 by omega)]
          omega
        · rw [abs_of_pos h, abs_of_pos (show 0 < p by omega), abs_of_pos (show 0 < q by omega)]
          omega
      show _ ∈ (if _ then _ else _ : Interval)
      split_ifs with hsmall hlb hub
      · -- the dividend is the remainder
        have hupper := Bound.fin_lt_fin.mp (Bound.lt_of_le_of_lt hm.2 hsmall.1)
        have hlower := Bound.fin_lt_fin.mp (Bound.lt_of_le_of_lt (Bound.le_neg hm.1) hsmall.2)
        rcases le_total 0 m with h | h
        · rwa [(hpos h).2.2.2 (by omega)]
        · rwa [(hneg h).2.2.2 (by omega)]
      · rw [mem_ofInts]
        rcases le_total 0 m with h | h
        · have hlt := (hpos h).2.2.1 hn0
          have hge := (hpos h).1
          omega
        · have hlt := (hneg h).2.2.1 hn0
          have hle := (hneg h).1
          omega
      · have h : m ≤ 0 := Bound.fin_le_fin.mp (Bound.le_trans hm.2 (not_not.mp hub))
        have hlt := (hneg h).2.2.1 hn0
        rw [mem_ofInts]
        exact ⟨by omega, (hneg h).1⟩
      · have h : 0 ≤ m := Bound.fin_le_fin.mp (Bound.le_trans (not_not.mp hlb) hm.1)
        have hlt := (hpos h).2.2.1 hn0
        rw [mem_ofInts]
        exact ⟨(hpos h).1, by omega⟩

theorem mem_sremStep {rec : Interval → Interval → Interval}
    (hrec : 0 ∈ x → ∀ y : Interval, 0 ∉ y → n ∈ y → m.tmod n ∈ rec I y) (hm : m ∈ I) (hn : n ∈ x) :
    m.tmod n ∈ sremStep rec I x := by
  unfold sremStep
  rw [isBottom_eq_false_of_mem hm, isBottom_eq_false_of_mem hn]
  show _ ∈ (match I.singleton, x.singleton with
    | some dividend, some divisor =>
      if divisor = 0 then const dividend else const (dividend.tmod divisor)
    | _, _ =>
      if x.contains 0 then ((rec I x.below).join (rec I x.above)).join I else sremRange I x : Interval)
  split
  next _ _ dividend divisor hdividend hdivisor =>
    rw [eq_of_singleton hdividend hm, eq_of_singleton hdivisor hn]
    split_ifs with h
    · rw [h, Int.tmod_zero, mem_const]
    · rw [mem_const]
  next =>
    split_ifs with h0
    · have h0' := hrec (contains_iff.mp h0)
      rcases lt_trichotomy n 0 with h | rfl | h
      · refine mem_join (Or.inl (mem_join (Or.inl (h0' _ ?_ (mem_below.mpr ⟨hn.1, by omega⟩)))))
        rw [mem_below]
        omega
      · rw [Int.tmod_zero]
        exact mem_join (Or.inr hm)
      · refine mem_join (Or.inl (mem_join (Or.inr (h0' _ ?_ (mem_above.mpr ⟨by omega, hn.2⟩)))))
        rw [mem_above]
        omega
    · exact mem_sremRange (fun h => h0 (contains_iff.mpr h)) hm hn

/-- `srem` loses no remainder; a remainder by zero is the dividend. -/
theorem mem_srem (hm : m ∈ I) (hn : n ∈ x) : m.tmod n ∈ srem I x := by
  refine mem_sremStep (fun _ y hy hny => ?_) hm hn
  exact mem_sremStep (fun h => absurd h hy) hm hny

end

/-! ## Unsigned remainders -/

/-- The remainder of two numbers read as unsigned numbers of 64 bits; a remainder by zero is the dividend,
as for `%`. -/
def unsignedRem (m n : ℤ) : ℤ := Number.zeroExtend 64 m % Number.zeroExtend 64 n

/-- The parts of an interval without zero that have a number. -/
def parts (I : Interval) : List Interval :=
  (if I.contains 0 then [I.below, I.above] else [I]).filter fun J => !J.isBottom

/-- The ends that `urem` casts fit 64 bits: those of a divisor, and the upper end of a dividend. -/
def CastsNonzero (ub : Bound) (x : Interval) : Prop :=
  match x.lb, x.ub with
  | .fin p, .fin q =>
    match ub with
    | .fin u => FitsCast 64 u ∧ FitsCast 64 p ∧
        (Number.zeroExtend 64 p ≤ Number.zeroExtend 64 u → FitsCast 64 q)
    | _ => FitsCast 64 q
  | _, _ => True

/-- `urem` raises no error. -/
def UremCasts (I x : Interval) : Prop := ∀ y ∈ x.parts, ∀ J ∈ I.parts, CastsNonzero J.ub y

section

variable {I x y : Interval} {k m n p q u : ℤ} {b : Bound}

theorem word_eq (n : ℤ) : Number.zeroExtend 64 n = n % 18446744073709551616 := rfl

theorem fitsCast_iff : FitsCast 64 n ↔ -9223372036854775808 ≤ n ∧ n < 18446744073709551616 := by
  unfold FitsCast FitsS FitsU maxUint minInt maxInt
  norm_num
  omega

theorem castToU_of_fits (h : FitsCast 64 n) : castToU 64 n = some (Number.zeroExtend 64 n) := by
  have hbounds := fitsCast_iff.mp h
  unfold castToU
  split_ifs with hU hS
  · rw [Number.zeroExtend_of_fits hU]
  · have hneg : n < 0 := by
      unfold FitsU maxUint maxInt at hU
      norm_num at hU
      omega
    rw [word_eq]
    congr 1
    omega
  · exact absurd h (not_or.mpr ⟨hS, hU⟩)

theorem castToU_of_not_fits (h : ¬ FitsCast 64 n) : castToU 64 n = none := by
  obtain ⟨hS, hU⟩ := not_or.mp h
  unfold castToU
  rw [if_neg hU, if_neg hS]

theorem word_bounds (n : ℤ) :
    0 ≤ Number.zeroExtend 64 n ∧ Number.zeroExtend 64 n < 18446744073709551616 := by
  rw [word_eq]
  omega

theorem unsignedRem_bounds (m n : ℤ) :
    0 ≤ unsignedRem m n ∧ unsignedRem m n ≤ Number.zeroExtend 64 m ∧
      (Number.zeroExtend 64 n ≠ 0 → unsignedRem m n < Number.zeroExtend 64 n) ∧
      (Number.zeroExtend 64 n = 0 → unsignedRem m n = Number.zeroExtend 64 m) ∧
      (Number.zeroExtend 64 m < Number.zeroExtend 64 n → unsignedRem m n = Number.zeroExtend 64 m) := by
  have hm := (word_bounds m).1
  have hn := (word_bounds n).1
  obtain ⟨h1, h2, h3, h4⟩ := tmod_of_nonneg hm (Number.zeroExtend 64 n)
  rw [Int.tmod_eq_emod_of_nonneg hm, abs_of_nonneg hn] at *
  refine ⟨h1, h2, h3, fun h => ?_, h4⟩
  unfold unsignedRem
  rw [h, Int.emod_zero]

/-! ### Errors -/

theorem urem_of_isBottom (h : I.isBottom = true ∨ x.isBottom = true) : urem I x = some bottom := by
  rw [urem_eq]
  exact if_pos (Bool.or_eq_true_iff.mpr h)

/-- The operands are single numbers that fit 64 bits. -/
def Single (I x : Interval) : Prop :=
  ∃ m n, FitsCast 64 m ∧ FitsCast 64 n ∧ I = const m ∧ x = const n

theorem urem_const (hm : FitsCast 64 m) (hn : FitsCast 64 n) :
    urem (const m) (const n) =
      if n = 0 then some (const m) else some (const (unsignedRem m n)) := by
  have hsingle : ∀ {k : ℤ}, FitsCast 64 k → (const k).singleton.filter (fun n => FitsCast 64 n) = some k := by
    intro k hk
    rw [show (const k).singleton = some k from if_pos rfl]
    exact if_pos (decide_eq_true hk)
  rw [urem_eq]
  unfold uremStep
  rw [isBottom_eq_false_of_mem (mem_const.mpr rfl), isBottom_eq_false_of_mem (mem_const.mpr rfl),
    hsingle hm, hsingle hn]
  show uremSingle m n = _
  unfold uremSingle
  rw [castToU_of_fits hm, castToU_of_fits hn]
  rfl

theorem urem_range (hI : I.isBottom = false) (hx : x.isBottom = false) (h : ¬ Single I x) :
    urem I x = uremRange urem I x := by
  conv_lhs => rw [urem_eq]
  unfold uremStep
  rw [hI, hx]
  simp only [Bool.or_self, Bool.false_eq_true, if_false]
  split
  next _ _ m n hm hn =>
    rw [Option.filter_eq_some_iff, decide_eq_true_eq] at hm hn
    exact absurd ⟨m, n, hm.2, hn.2, eq_const_of_singleton hm.1, eq_const_of_singleton hn.1⟩ h
  next => rfl

theorem isSome_uremNonzero : (uremNonzero I x).isSome ↔ CastsNonzero I.ub x := by
  unfold uremNonzero CastsNonzero
  split
  swap
  · exact iff_of_true rfl trivial
  next xlb xub _ _ =>
    split
    next ub hub =>
      rcases em (FitsCast 64 ub) with hu | hu
      swap
      · rw [castToU_of_not_fits hu]
        exact iff_of_false (by simp) fun h => hu h.1
      rcases em (FitsCast 64 xlb) with hp | hp
      swap
      · rw [castToU_of_not_fits hp, castToU_of_fits hu]
        exact iff_of_false (by simp) fun h => hp h.2.1
      rw [castToU_of_fits hu, castToU_of_fits hp]
      rcases lt_or_ge (Number.zeroExtend 64 ub) (Number.zeroExtend 64 xlb) with hlt | hge
      · refine iff_of_true ?_ ⟨hu, hp, fun hle => absurd hlt (not_lt.mpr hle)⟩
        simp [hlt]
      · rcases em (FitsCast 64 xub) with hq | hq
        · refine iff_of_true ?_ ⟨hu, hp, fun _ => hq⟩
          simp [not_lt.mpr hge, castToU_of_fits hq]
        · refine iff_of_false ?_ fun h => hq (h.2.2 hge)
          simp [not_lt.mpr hge, castToU_of_not_fits hq]
    next hub =>
      rcases em (FitsCast 64 xub) with hq | hq
      · refine iff_of_true ?_ hq
        simp [castToU_of_fits hq]
      · refine iff_of_false ?_ hq
        simp [castToU_of_not_fits hq]

theorem uremNonzero_of_infinite (h : x.lb.isInfinite = true ∨ x.ub.isInfinite = true) :
    uremNonzero I x = some (if I.ub < .fin 0 then top else (I.sub (const 1)).join (const 0)) := by
  rcases x with ⟨lb, ub⟩
  rcases h with h | h
  · cases lb with
    | fin p => cases h
    | _ => rfl
  · cases ub with
    | fin q => cases h
    | _ => cases lb <;> rfl

theorem uremNonzero_of_lt (hub : I.ub = .fin u) (hu : FitsCast 64 u) (hp : FitsCast 64 p)
    (hlt : Number.zeroExtend 64 u < Number.zeroExtend 64 p) :
    uremNonzero I ⟨.fin p, .fin q⟩ = some I := by
  unfold uremNonzero
  rw [hub]
  simp [castToU_of_fits hu, castToU_of_fits hp, hlt]

theorem uremNonzero_of_le (hub : I.ub = .fin u) (hu : FitsCast 64 u) (hp : FitsCast 64 p)
    (hq : FitsCast 64 q) (hle : Number.zeroExtend 64 p ≤ Number.zeroExtend 64 u) :
    uremNonzero I ⟨.fin p, .fin q⟩ = some (ofInts 0 (Number.zeroExtend 64 q - 1)) := by
  unfold uremNonzero
  rw [hub]
  simp [castToU_of_fits hu, castToU_of_fits hp, castToU_of_fits hq, not_lt.mpr hle]

theorem uremNonzero_of_posInf (hub : I.ub = .posInf) (hq : FitsCast 64 q) :
    uremNonzero I ⟨.fin p, .fin q⟩ = some (ofInts 0 (Number.zeroExtend 64 q - 1)) := by
  unfold uremNonzero
  rw [hub]
  simp [castToU_of_fits hq]

theorem urem_nonzero (hI : I.isBottom = false) (hx : x.isBottom = false) (h : ¬ Single I x)
    (hI0 : 0 ∉ I) (hx0 : 0 ∉ x) : urem I x = uremNonzero I x := by
  rw [urem_range hI hx h]
  unfold uremRange
  rw [if_neg (contains_iff.not.mpr hx0), if_neg (contains_iff.not.mpr hI0)]

theorem urem_zero_dividend (hx : x.isBottom = false) (h : ¬ Single I x) (hI0 : 0 ∈ I) (hx0 : 0 ∉ x) :
    urem I x = do return ((← urem I.below x).join (← urem I.above x)).join I := by
  rw [urem_range (isBottom_eq_false_of_mem hI0) hx h]
  unfold uremRange
  rw [if_neg (contains_iff.not.mpr hx0), if_pos (contains_iff.mpr hI0)]

theorem urem_zero_divisor (hI : I.isBottom = false) (h : ¬ Single I x) (hx0 : 0 ∈ x) :
    urem I x = do return ((← urem I x.below).join (← urem I x.above)).join I := by
  rw [urem_range hI (isBottom_eq_false_of_mem hx0) h]
  unfold uremRange
  rw [if_pos (contains_iff.mpr hx0)]

theorem mem_parts_of_zero (h0 : 0 ∈ I) {P : Interval → Prop} :
    (∀ J ∈ I.parts, P J) ↔
      (I.below.isBottom = false → P I.below) ∧ (I.above.isBottom = false → P I.above) := by
  unfold parts
  rw [if_pos (contains_iff.mpr h0)]
  simp only [List.mem_filter, List.mem_cons, List.not_mem_nil, or_false, Bool.not_eq_true']
  constructor
  · exact fun h => ⟨fun hb => h _ ⟨Or.inl rfl, hb⟩, fun hb => h _ ⟨Or.inr rfl, hb⟩⟩
  · rintro ⟨hbelow, habove⟩ J ⟨rfl | rfl, hb⟩
    · exact hbelow hb
    · exact habove hb

theorem mem_parts_of_nonzero (h0 : 0 ∉ I) {P : Interval → Prop} :
    (∀ J ∈ I.parts, P J) ↔ (I.isBottom = false → P I) := by
  unfold parts
  rw [if_neg (contains_iff.not.mpr h0)]
  simp only [List.mem_filter, List.mem_singleton, Bool.not_eq_true']
  constructor
  · exact fun h hb => h I ⟨rfl, hb⟩
  · rintro h J ⟨rfl, hb⟩
    exact h hb

theorem isSome_joins {a b : Option Interval} :
    (do return ((← a).join (← b)).join I : Option Interval).isSome ↔ a.isSome ∧ b.isSome := by
  cases a <;> cases b <;> simp

theorem joins_eq_some {a b : Option Interval} {r : Interval}
    (h : (do return ((← a).join (← b)).join I : Option Interval) = some r) :
    ∃ l u, a = some l ∧ b = some u ∧ r = (l.join u).join I := by
  cases a with
  | none => cases h
  | some l =>
    cases b with
    | none => cases h
    | some u => exact ⟨l, u, rfl, rfl, (Option.some.inj h).symm⟩

theorem Single.isSome (h : Single I x) : (urem I x).isSome := by
  obtain ⟨m, n, hm, hn, rfl, rfl⟩ := h
  rw [urem_const hm hn]
  split_ifs <;> rfl

theorem isSome_urem_nonzero (hI0 : 0 ∉ I) (hx0 : 0 ∉ x) :
    (urem I x).isSome ↔ (I.isBottom = false → x.isBottom = false → CastsNonzero I.ub x) := by
  rcases Bool.eq_false_or_eq_true I.isBottom with hI | hI
  · rw [urem_of_isBottom (Or.inl hI), hI]
    exact iff_of_true rfl fun h => by cases h
  rcases Bool.eq_false_or_eq_true x.isBottom with hx | hx
  · rw [urem_of_isBottom (Or.inr hx), hx]
    exact iff_of_true rfl fun _ h => by cases h
  simp only [hI, hx, forall_const]
  by_cases h : Single I x
  · refine iff_of_true h.isSome ?_
    obtain ⟨m, n, hm, hn, rfl, rfl⟩ := h
    exact ⟨hm, hn, fun _ => hn⟩
  · rw [urem_nonzero hI hx h hI0 hx0]
    exact isSome_uremNonzero

theorem zero_not_mem_below : 0 ∉ I.below := by
  rw [mem_below]
  omega

theorem zero_not_mem_above : 0 ∉ I.above := by
  rw [mem_above]
  omega

theorem isSome_urem_divisor (hx0 : 0 ∉ x) :
    (urem I x).isSome ↔ ∀ J ∈ I.parts, x.isBottom = false → CastsNonzero J.ub x := by
  by_cases hI0 : 0 ∈ I
  swap
  · rw [mem_parts_of_nonzero hI0, isSome_urem_nonzero hI0 hx0]
  rw [mem_parts_of_zero hI0]
  rcases Bool.eq_false_or_eq_true x.isBottom with hx | hx
  · rw [urem_of_isBottom (Or.inr hx), hx]
    exact iff_of_true rfl ⟨fun _ h => (by cases h), fun _ h => (by cases h)⟩
  by_cases h : Single I x
  · refine iff_of_true h.isSome ?_
    obtain ⟨m, n, hm, hn, rfl, rfl⟩ := h
    obtain rfl := mem_const.mp hI0
    exact ⟨fun h => (by cases h), fun h => (by cases h)⟩
  · rw [urem_zero_dividend hx h hI0 hx0, isSome_joins, isSome_urem_nonzero zero_not_mem_below hx0,
      isSome_urem_nonzero zero_not_mem_above hx0]

theorem isSome_urem : (urem I x).isSome ↔ UremCasts I x := by
  unfold UremCasts
  by_cases hx0 : 0 ∈ x
  swap
  · rw [mem_parts_of_nonzero hx0, isSome_urem_divisor hx0]
    exact ⟨fun h hb J hJ => h J hJ hb, fun h J hJ hb => h hb J hJ⟩
  rw [mem_parts_of_zero hx0]
  rcases Bool.eq_false_or_eq_true I.isBottom with hI | hI
  · rw [urem_of_isBottom (Or.inl hI)]
    have hI0 : 0 ∉ I := fun h0 => by
      rw [isBottom_eq_false_of_mem h0] at hI
      cases hI
    have hnone : ∀ J ∈ I.parts, False := by
      rw [mem_parts_of_nonzero hI0, hI]
      exact fun h => (by cases h)
    exact iff_of_true rfl ⟨fun _ J hJ => (hnone J hJ).elim, fun _ J hJ => (hnone J hJ).elim⟩
  by_cases h : Single I x
  · refine iff_of_true h.isSome ?_
    obtain ⟨m, n, hm, hn, rfl, rfl⟩ := h
    obtain rfl := mem_const.mp hx0
    exact ⟨fun h => (by cases h), fun h => (by cases h)⟩
  · rw [urem_zero_divisor hI h hx0, isSome_joins, isSome_urem_divisor zero_not_mem_below,
      isSome_urem_divisor zero_not_mem_above]
    exact ⟨fun h => ⟨fun hb J hJ => h.1 J hJ hb, fun hb J hJ => h.2 J hJ hb⟩,
      fun h => ⟨fun J hJ hb => h.1 hb J hJ, fun J hJ hb => h.2 hb J hJ⟩⟩

end

end Interval

end Prevail
