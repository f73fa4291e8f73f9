import Prevail.Crab.FiniteDomain
import Prevail.Crab.SplitDbmSound

/-!
# What a 32-bit comparison says of whole words

A state that describes two 64-bit words is told that the low halves of the words compare in some
way. `assumeCst` answers with linear constraints on the signed and unsigned readings of the whole
words. In some branches these constraints only follow when the upper halves of the words fit;
`assumeCst_sat_iff` says for each branch exactly how.
-/

namespace Prevail

open Number LinearExpression

/-- The comparison of two words. -/
def ConditionOp.Holds {w : ℕ} (op : ConditionOp) (x y : BitVec w) : Prop :=
  match op with
  | eq => x = y
  | ne => x ≠ y
  | set => x &&& y ≠ 0
  | nset => x &&& y = 0
  | lt => x.toNat < y.toNat
  | le => x.toNat ≤ y.toNat
  | gt => x.toNat > y.toNat
  | ge => x.toNat ≥ y.toNat
  | slt => x.toInt < y.toInt
  | sle => x.toInt ≤ y.toInt
  | sgt => x.toInt > y.toInt
  | sge => x.toInt ≥ y.toInt

instance {w : ℕ} (op : ConditionOp) (x y : BitVec w) : Decidable (op.Holds x y) := by
  cases op <;> unfold ConditionOp.Holds <;> infer_instance

namespace FiniteDomain

variable {V : Type} [LinearOrder V]

/-! ## Words and their halves -/

/-- The low half as a signed number. -/
def lowS (a : BitVec 64) : ℤ := Number.signExtend 32 a.toInt

/-- The low half as an unsigned number. -/
def lowU (a : BitVec 64) : ℤ := Number.zeroExtend 32 a.toNat

/-- The two readings of a word. -/
theorem readings (a : BitVec 64) : (0 : ℤ) ≤ a.toNat ∧ (a.toNat : ℤ) < 2 ^ 64 ∧
    (a.toInt = a.toNat ∧ (a.toNat : ℤ) < 2 ^ 63 ∨
      a.toInt = a.toNat - 2 ^ 64 ∧ 2 ^ 63 ≤ (a.toNat : ℤ)) := by
  have h := a.isLt
  have h' := BitVec.toInt_eq_toNat_cond a
  split_ifs at h' <;> omega

theorem toNat_setWidth (a : BitVec 64) : ((a.setWidth 32).toNat : ℤ) = lowU a := by
  unfold lowU Number.zeroExtend
  rw [BitVec.toNat_setWidth]
  norm_cast

theorem toInt_setWidth (a : BitVec 64) : (a.setWidth 32).toInt = lowS a := by
  have h := toNat_setWidth a
  have h' := BitVec.toInt_eq_toNat_cond (a.setWidth 32)
  have hr := readings a
  unfold lowU Number.zeroExtend at h
  unfold lowS Number.signExtend
  split_ifs at h' ⊢ <;> omega

theorem lowS_eq (a : BitVec 64) :
    lowS a = lowU a ∧ lowU a < 2 ^ 31 ∨ lowS a = lowU a - 2 ^ 32 ∧ 2 ^ 31 ≤ lowU a := by
  have hr := readings a
  unfold lowS lowU Number.signExtend Number.zeroExtend
  split_ifs <;> omega

theorem lowU_eq (a : BitVec 64) : lowU a = a.toInt % 2 ^ 32 := by
  have hr := readings a
  unfold lowU Number.zeroExtend
  omega

/-- `x < y` or `x ≤ y`. -/
def Cmp (strict : Bool) (x y : ℤ) : Prop := if strict then x < y else x ≤ y

/-- When the low halves compare, the numbers compare in the same way exactly when the upper
halves are in weak order. -/
theorem cmp_iff_high {strict : Bool} {x y : ℤ} (h : Cmp strict (x % 2 ^ 32) (y % 2 ^ 32)) :
    Cmp strict x y ↔ x / 2 ^ 32 ≤ y / 2 ^ 32 := by
  unfold Cmp at *
  cases strict <;> simp only [Bool.false_eq_true, if_false, if_true] at * <;> omega

/-- The upper half of `a` is at most that of `b`, in both readings. -/
def HighLe (a b : BitVec 64) : Prop :=
  (a.toNat : ℤ) / 2 ^ 32 ≤ b.toNat / 2 ^ 32 ∧ a.toInt / 2 ^ 32 ≤ b.toInt / 2 ^ 32

instance (a b : BitVec 64) : Decidable (HighLe a b) := inferInstanceAs (Decidable (_ ∧ _))

/-- Words whose low halves compare as unsigned numbers. -/
theorem cmp_words_iff {strict : Bool} {a b : BitVec 64} (h : Cmp strict (lowU a) (lowU b)) :
    (Cmp strict a.toNat b.toNat ∧ Cmp strict a.toInt b.toInt) ↔ HighLe a b := by
  have hs : Cmp strict (a.toInt % 2 ^ 32) (b.toInt % 2 ^ 32) := by rwa [← lowU_eq, ← lowU_eq]
  exact and_congr (cmp_iff_high h) (cmp_iff_high hs)

/-- Two low halves of one sign compare as signed numbers as they do as unsigned ones. -/
theorem cmp_lowU {strict : Bool} {a b : BitVec 64} (h : Cmp strict (lowS a) (lowS b))
    (hsign : lowS a < 0 ↔ lowS b < 0) : Cmp strict (lowU a) (lowU b) := by
  have ha := lowS_eq a
  have hb := lowS_eq b
  have ha0 : 0 ≤ lowU a ∧ lowU a < 2 ^ 32 := by unfold lowU Number.zeroExtend; omega
  have hb0 : 0 ≤ lowU b ∧ lowU b < 2 ^ 32 := by unfold lowU Number.zeroExtend; omega
  unfold Cmp at *
  cases strict <;> simp only [Bool.false_eq_true, if_false, if_true] at * <;> omega

section

variable {σ : V → ℤ} {strict : Bool} {e f : LinearExpression V}

@[simp] theorem sat_ltOrLe : (ltOrLe strict e f).Sat σ ↔ Cmp strict (e.eval σ) (f.eval σ) := by
  cases strict <;> simp [ltOrLe, Cmp]

@[simp] theorem sat_gtOrGe : (gtOrGe strict e f).Sat σ ↔ Cmp strict (f.eval σ) (e.eval σ) := by
  cases strict <;> simp [gtOrGe, Cmp]

@[simp] theorem sat_trueConst : (LinearConstraint.trueConst : LinearConstraint V).Sat σ := by
  simp [LinearConstraint.trueConst, LinearConstraint.Sat, ConstraintKind.Holds]

@[simp] theorem not_sat_falseConst :
    ¬ (LinearConstraint.falseConst : LinearConstraint V).Sat σ := by
  simp [LinearConstraint.falseConst, LinearConstraint.Sat, ConstraintKind.Holds]

end

/-! ## The intervals of the operands -/

/-- The variables and expressions of a comparison read the words `a` and `b`. -/
structure Reads (σ : V → ℤ) (leftSvalue leftUvalue : V)
    (rightSvalue rightUvalue : LinearExpression V) (a b : BitVec 64) : Prop where
  leftS : σ leftSvalue = a.toInt
  leftU : σ leftUvalue = a.toNat
  rightS : rightSvalue.eval σ = b.toInt
  rightU : rightUvalue.eval σ = b.toNat

/-- The intervals contain the operands `x` and `y`. -/
structure Covers (i : OperandIntervals) (x y : ℤ) : Prop where
  left : x ∈ i.left
  right : y ∈ i.right
  positive : 0 ≤ x → x ∈ i.leftPositive
  parts : x ∈ i.leftNegative.join i.leftPositive

section

variable {d : SplitDbm V} {σ : V → ℤ} {ls lu : V} {rs ru : LinearExpression V} {a b : BitVec 64}

theorem Reads.mem_leftS (hr : Reads σ ls lu rs ru a b) (hm : d.Models σ) :
    a.toInt ∈ d.evalInterval (.var ls) := by
  have h := SplitDbm.mem_evalInterval hm (.var ls)
  rwa [eval_var, hr.leftS] at h

theorem Reads.mem_leftU (hr : Reads σ ls lu rs ru a b) (hm : d.Models σ) :
    (a.toNat : ℤ) ∈ d.evalInterval (.var lu) := by
  have h := SplitDbm.mem_evalInterval hm (.var lu)
  rwa [eval_var, hr.leftU] at h

theorem Reads.mem_rightS (hr : Reads σ ls lu rs ru a b) (hm : d.Models σ) :
    b.toInt ∈ d.evalInterval rs :=
  hr.rightS ▸ SplitDbm.mem_evalInterval hm rs

theorem Reads.mem_rightU (hr : Reads σ ls lu rs ru a b) (hm : d.Models σ) :
    (b.toNat : ℤ) ∈ d.evalInterval ru :=
  hr.rightU ▸ SplitDbm.mem_evalInterval hm ru

theorem mem_negative {n : ℤ} : n ∈ Interval.negative 32 ↔ -2 ^ 31 ≤ n ∧ n < 0 := by
  rw [Interval.negative, Interval.mem_ofInts, minInt]
  omega

theorem mem_nonnegative {n : ℤ} : n ∈ Interval.nonnegative 32 ↔ 0 ≤ n ∧ n < 2 ^ 31 := by
  rw [Interval.nonnegative, Interval.mem_ofInts, maxInt]
  omega

theorem mem_signedInt {n : ℤ} : n ∈ Interval.signedInt 32 ↔ -2 ^ 31 ≤ n ∧ n < 2 ^ 31 := by
  rw [Interval.signedInt, Interval.mem_ofInts, minInt, maxInt]
  omega

theorem mem_unsignedHigh {n : ℤ} : n ∈ Interval.unsignedHigh 32 ↔ 2 ^ 31 ≤ n ∧ n < 2 ^ 32 := by
  rw [Interval.unsignedHigh, Interval.mem_ofInts, maxInt, maxUint_eq]
  omega

theorem mem_unsignedInt {n : ℤ} : n ∈ Interval.unsignedInt 32 ↔ 0 ≤ n ∧ n < 2 ^ 32 := by
  rw [Interval.unsignedInt, Interval.mem_ofInts, maxUint_eq]
  omega

theorem mem_nonnegative64 {n : ℤ} : n ∈ Interval.nonnegative 64 ↔ 0 ≤ n ∧ n < 2 ^ 63 := by
  rw [Interval.nonnegative, Interval.mem_ofInts, maxInt]
  omega

theorem mem_negative64 {n : ℤ} : n ∈ Interval.negative 64 ↔ -2 ^ 63 ≤ n ∧ n < 0 := by
  rw [Interval.negative, Interval.mem_ofInts, minInt]
  omega

theorem lowS_of_fits {a : BitVec 64} (h : -2 ^ 31 ≤ a.toInt ∧ a.toInt < 2 ^ 31) :
    lowS a = a.toInt := by
  unfold lowS Number.signExtend
  split_ifs <;> omega

theorem lowU_of_fits {a : BitVec 64} (h : (a.toNat : ℤ) < 2 ^ 32) : lowU a = a.toNat := by
  unfold lowU Number.zeroExtend
  omega

theorem lowS_range (a : BitVec 64) : -2 ^ 31 ≤ lowS a ∧ lowS a < 2 ^ 31 := by
  unfold lowS Number.signExtend
  split_ifs <;> omega

theorem lowU_range (a : BitVec 64) : 0 ≤ lowU a ∧ lowU a < 2 ^ 32 := by
  unfold lowU Number.zeroExtend
  omega

theorem isTop_of_le_ofInts {I : Interval} {l u n : ℤ} (h : I ≤ .ofInts l u) (hn : n ∈ I) :
    I.isTop = false := by
  obtain ⟨l', u', rfl, -⟩ := Interval.bounds_of_le_ofInts h hn
  rfl

theorem signedOperands_spec (hr : Reads σ ls lu rs ru a b) (hm : d.Models σ) :
    lowS a ∈ (signedOperands d ls rs false).1 ∧ lowS b ∈ (signedOperands d ls rs false).2 ∧
      (signedOperands d ls rs false).1.isTop = false := by
  have ha := hr.mem_leftS hm
  have hb := hr.mem_rightS hm
  unfold signedOperands
  simp only [Bool.false_or]
  split_ifs with hhalf
  · simp only [sameHalf, Bool.or_eq_true, Bool.and_eq_true, decide_eq_true_eq] at hhalf
    rcases hhalf with ⟨h1, h2⟩ | ⟨h1, h2⟩
    · have hfa := mem_nonnegative.mp (Interval.mem_of_le h1 ha)
      have hfb := mem_nonnegative.mp (Interval.mem_of_le h2 hb)
      rw [lowS_of_fits ⟨by omega, hfa.2⟩, lowS_of_fits ⟨by omega, hfb.2⟩]
      exact ⟨ha, hb, isTop_of_le_ofInts h1 ha⟩
    · have hfa := mem_negative.mp (Interval.mem_of_le h1 ha)
      have hfb := mem_negative.mp (Interval.mem_of_le h2 hb)
      rw [lowS_of_fits ⟨hfa.1, by omega⟩, lowS_of_fits ⟨hfb.1, by omega⟩]
      exact ⟨ha, hb, isTop_of_le_ofInts h1 ha⟩
  · exact ⟨Interval.mem_signExtend (by omega) ha, Interval.mem_signExtend (by omega) hb,
      Interval.isTop_signExtend (by omega) _⟩

/-- The intervals of a signed 32-bit comparison contain the low halves. -/
theorem covers_signed (hr : Reads σ ls lu rs ru a b) (hm : d.Models σ) :
    Covers (getSignedIntervals d ls lu rs false) (lowS a) (lowS b) := by
  obtain ⟨ha, hb, htop⟩ := signedOperands_spec hr hm
  have hra := lowS_range a
  have hrb := lowS_range b
  have hfa : Number.signExtend 64 (lowS a) = lowS a :=
    signExtend_of_fits (by omega) ⟨by rw [minInt]; omega, by rw [maxInt]; omega⟩
  have hfb : Number.signExtend 64 (lowS b) = lowS b :=
    signExtend_of_fits (by omega) ⟨by rw [minInt]; omega, by rw [maxInt]; omega⟩
  unfold getSignedIntervals
  simp only [htop, Bool.not_false, if_true]
  have hpos : 0 ≤ lowS a → lowS a ∈ (signedOperands d ls rs false).1.meet (.nonnegative 64) :=
    fun h => Interval.mem_meet.mpr ⟨ha, mem_nonnegative64.mpr ⟨h, by omega⟩⟩
  refine ⟨?_, ?_, hpos, Interval.mem_join ?_⟩
  · exact hfa ▸ Interval.mem_signExtend (by omega) ha
  · exact hfb ▸ Interval.mem_signExtend (by omega) hb
  · rcases lt_or_ge (lowS a) 0 with h | h
    · exact Or.inl (Interval.mem_meet.mpr ⟨ha, mem_negative64.mpr ⟨by omega, h⟩⟩)
    · exact Or.inr (hpos h)

theorem unsignedOperands_spec (hr : Reads σ ls lu rs ru a b) (hm : d.Models σ) :
    lowU a ∈ (unsignedOperands d lu ru false).1 ∧ lowU b ∈ (unsignedOperands d lu ru false).2 ∧
      ∃ l u, (unsignedOperands d lu ru false).1 = ⟨.fin l, .fin u⟩ ∧ 0 ≤ l ∧ u ≤ maxUint 32 := by
  have ha := hr.mem_leftU hm
  have hb := hr.mem_rightU hm
  unfold unsignedOperands
  simp only [Bool.false_or]
  split_ifs with hhalf
  · simp only [sameHalf, Bool.or_eq_true, Bool.and_eq_true, decide_eq_true_eq] at hhalf
    rcases hhalf with ⟨h1, h2⟩ | ⟨h1, h2⟩
    · have hfa := mem_nonnegative.mp (Interval.mem_of_le h1 ha)
      have hfb := mem_nonnegative.mp (Interval.mem_of_le h2 hb)
      rw [lowU_of_fits (by omega), lowU_of_fits (by omega)]
      obtain ⟨l, u, h, hl, hu⟩ := Interval.bounds_of_le_ofInts h1 ha
      exact ⟨ha, hb, l, u, h, hl, hu.trans (by decide)⟩
    · have hfa := mem_unsignedHigh.mp (Interval.mem_of_le h1 ha)
      have hfb := mem_unsignedHigh.mp (Interval.mem_of_le h2 hb)
      rw [lowU_of_fits hfa.2, lowU_of_fits hfb.2]
      obtain ⟨l, u, h, hl, hu⟩ := Interval.bounds_of_le_ofInts h1 ha
      exact ⟨ha, hb, l, u, h, le_trans (by decide) hl, hu⟩
  · exact ⟨Interval.mem_zeroExtend 32 ha, Interval.mem_zeroExtend 32 hb,
      Interval.zeroExtend_bounds 32 _⟩

/-- The intervals of an unsigned 32-bit comparison contain the low halves, and the left one is a
range of 32-bit numbers. -/
theorem mem_unsignedIntervals (hr : Reads σ ls lu rs ru a b) (hm : d.Models σ) :
    lowU a ∈ (getUnsignedIntervals d ls lu ru false).left ∧
      lowU b ∈ (getUnsignedIntervals d ls lu ru false).right ∧
      ∃ l u, (getUnsignedIntervals d ls lu ru false).left = ⟨.fin l, .fin u⟩ ∧ 0 ≤ l ∧
        u ≤ maxUint 32 := by
  obtain ⟨ha, hb, l, u, hleft, hl, hu⟩ := unsignedOperands_spec hr hm
  have hfits : Number.zeroExtend 64 (lowU b) = lowU b :=
    zeroExtend_of_fits ⟨(lowU_range b).1, by rw [maxUint_eq]; have := lowU_range b; omega⟩
  have hlu : l ≤ u := by
    rw [hleft, Interval.mem_def, Bound.fin_le_fin, Bound.fin_le_fin] at ha
    omega
  have hself := Interval.zeroExtend_of_fits hl hlu (hu.trans (by decide : maxUint 32 ≤ maxUint 64))
  have htop : (unsignedOperands d lu ru false).1.isTop = false := by
    rw [hleft]
    rfl
  unfold getUnsignedIntervals
  simp only [htop, Bool.not_false, if_true]
  refine ⟨?_, hfits ▸ Interval.mem_zeroExtend 64 hb, l, u, ?_, hl, hu⟩
  · rw [hleft] at ha ⊢
    rwa [hself]
  · rw [hleft, hself]

/-! ## The branches -/

/-- Every constraint that is returned holds. -/
def Sound (σ : V → ℤ) (r : Option (List (LinearConstraint V))) : Prop :=
  ∀ csts ∈ r, ∀ c ∈ csts, c.Sat σ

@[simp] theorem sound_none : Sound σ none := by simp [Sound]

@[simp] theorem sound_some {csts : List (LinearConstraint V)} :
    Sound σ (some csts) ↔ ∀ c ∈ csts, c.Sat σ := by simp [Sound]

/-- No error is raised, and every constraint that is returned holds. -/
def Answers (σ : V → ℤ) (r : Option (List (LinearConstraint V))) : Prop :=
  ∃ csts, r = some csts ∧ ∀ c ∈ csts, c.Sat σ

@[simp] theorem answers_some {csts : List (LinearConstraint V)} :
    Answers σ (some csts) ↔ ∀ c ∈ csts, c.Sat σ := by simp [Answers]

theorem Answers.sound {r : Option (List (LinearConstraint V))} (h : Answers σ r) : Sound σ r := by
  obtain ⟨csts, rfl, hsat⟩ := h
  exact sound_some.mpr hsat

/-- How the upper halves must be for the constraints of a signed `<` or `<=`. -/
def SignedLtFits (i : OperandIntervals) (a b : BitVec 64) : Prop :=
  if i.right ≤ .negative 32 then HighLe a b
  else if i.leftNegative.join i.leftPositive ≤ .nonnegative 32 ∧ i.right ≤ .nonnegative 32 then
    a.toNat < 2 ^ 32 ∧ 0 ≤ b.toInt
  else True

/-- How the upper halves must be for the constraints of a signed `>` or `>=`. -/
def SignedGtFits (i : OperandIntervals) (a b : BitVec 64) : Prop :=
  if i.right ≤ .nonnegative 32 then a.toNat < 2 ^ 32 ∧ b.toNat < 2 ^ 32
  else if i.leftNegative.join i.leftPositive ≤ .negative 32 ∧ i.right ≤ .negative 32 then
    HighLe b a
  else True

/-- How the upper halves must be for the constraints of an unsigned `>` or `>=`. -/
def UnsignedGtFits (i : OperandIntervals) (a b : BitVec 64) : Prop :=
  if i.right ≤ .unsignedHigh 32 then HighLe b a else True

/-- How the upper half must be for the constraints of `==`: an upper bound that is not a signed
word is wrapped to a negative one. -/
def EqFits (left right : Interval) (a : BitVec 64) : Prop :=
  ∀ hi, left.ub = .fin hi → right.isSingleton → left.lb.isInfinite = false →
    .fin (minInt 64) ≤ left.lb → maxInt 64 < hi → hi ≤ maxUint 64 →
    a.toInt / 2 ^ 32 ≤ (hi - 2 ^ 64) / 2 ^ 32

variable {i : OperandIntervals} {strict : Bool}

theorem sound_assumeSigned32bitLt_iff (hr : Reads σ ls lu rs ru a b) (hm : d.Models σ)
    (hi : Covers i (lowS a) (lowS b)) (h : Cmp strict (lowS a) (lowS b)) :
    Sound σ (assumeSigned32bitLt d ls lu rs ru strict i) ↔ SignedLtFits i a b := by
  have ha := readings a
  have hb := readings b
  have hla := lowS_eq a
  have hlb := lowS_eq b
  have hle : lowS a ≤ lowS b := by
    unfold Cmp at h
    split_ifs at h <;> omega
  unfold assumeSigned32bitLt SignedLtFits
  split_ifs with hneg hnonneg hfits
  · -- both low halves are negative
    have hb0 := mem_negative.mp (Interval.mem_of_le hneg hi.right)
    rw [← cmp_words_iff (cmp_lowU h (by omega))]
    have hlu : lowU a ≤ a.toNat := by unfold lowU Number.zeroExtend; omega
    have hua := lowU_range a
    simp only [sound_some, List.forall_mem_cons, List.not_mem_nil, false_imp_iff, implies_true,
      and_true, sat_lt, sat_ltOrLe, eval_const, eval_var, hr.leftS, hr.leftU, hr.rightS, hr.rightU]
    refine and_iff_right ?_
    rw [maxInt]
    omega
  · -- no low half is negative; the left word is bounded by its low half
    have ha0 := mem_nonnegative.mp (Interval.mem_of_le hnonneg.1 hi.parts)
    have hb0 := mem_nonnegative.mp (Interval.mem_of_le hnonneg.2 hi.right)
    have hup := cmp_words_iff (cmp_lowU h (by omega))
    obtain ⟨l, u, hlpub, -, hu⟩ := Interval.signExtend_bounds (w := 32) (by omega) i.leftPositive
    have hmem := Interval.mem_signExtend (w := 32) (by omega) (hi.positive ha0.1)
    rw [signExtend_of_fits (by omega) ⟨by rw [minInt]; omega, by rw [maxInt]; omega⟩, hlpub,
      Interval.mem_def, Bound.fin_le_fin, Bound.fin_le_fin] at hmem
    rw [maxInt] at hu
    unfold HighLe at hup
    simp only [hlpub, Bound.number, Option.bind_eq_bind, Option.bind_some, sound_some,
      List.forall_mem_cons, List.not_mem_nil, false_imp_iff, implies_true, and_true, sat_ge, sat_le,
      sat_ltOrLe, eval_const, eval_var, hr.leftS, hr.leftU, hr.rightS, hr.rightU]
    constructor
    · rintro ⟨h1, h2, -, -, -, h3, h4⟩
      have := (hup.mp ⟨h3, h2⟩).2
      omega
    · rintro ⟨h1, h2⟩
      have hlow : lowU a = a.toNat := lowU_of_fits (by omega)
      obtain ⟨h3, h4⟩ := hup.mpr (by omega)
      exact ⟨by omega, h4, by omega, by omega, by omega, h3, by omega⟩
  · -- the words are their low halves
    have ha0 := mem_signedInt.mp (Interval.mem_of_le hfits.1 (hr.mem_leftS hm))
    have hb0 := mem_signedInt.mp (Interval.mem_of_le hfits.2 (hr.mem_rightS hm))
    rw [lowS_of_fits ha0, lowS_of_fits hb0] at h
    simpa [hr.leftS, hr.rightS] using h
  · simp

theorem sound_assumeSigned32bitGt_iff (hr : Reads σ ls lu rs ru a b) (hm : d.Models σ)
    (hi : Covers i (lowS a) (lowS b)) (h : Cmp strict (lowS b) (lowS a)) :
    Sound σ (assumeSigned32bitGt d ls lu rs ru strict i) ↔ SignedGtFits i a b := by
  have ha := readings a
  have hb := readings b
  have hla := lowS_eq a
  have hlb := lowS_eq b
  have hle : lowS b ≤ lowS a := by
    unfold Cmp at h
    split_ifs at h <;> omega
  unfold assumeSigned32bitGt SignedGtFits
  split_ifs with hnonneg hneg hfits
  · -- no low half is negative; the left word is bounded by its low half
    have hb0 := mem_nonnegative.mp (Interval.mem_of_le hnonneg hi.right)
    have hra := lowS_range a
    have hup := cmp_words_iff (cmp_lowU h (by omega))
    obtain ⟨l, u, hlpub, -, hu⟩ := Interval.signExtend_bounds (w := 32) (by omega) i.leftPositive
    have hmem := Interval.mem_signExtend (w := 32) (by omega) (hi.positive (by omega))
    rw [signExtend_of_fits (by omega) ⟨by rw [minInt]; omega, by rw [maxInt]; omega⟩, hlpub,
      Interval.mem_def, Bound.fin_le_fin, Bound.fin_le_fin] at hmem
    rw [maxInt] at hu
    unfold HighLe at hup
    simp only [assumeSignedGtNonnegative, hlpub, Bound.number, Option.bind_eq_bind,
      Option.bind_some, sound_some,
      List.forall_mem_cons, List.not_mem_nil, false_imp_iff, implies_true, and_true, sat_ge, sat_le,
      sat_gtOrGe, eval_const, eval_var, hr.leftS, hr.leftU, hr.rightS, hr.rightU]
    constructor
    · rintro ⟨h1, h2, -, -, -, h3, h4⟩
      have := hup.mp ⟨h3, h2⟩
      omega
    · rintro ⟨h1, h2⟩
      have hlow : lowU a = a.toNat := lowU_of_fits (by omega)
      obtain ⟨h3, h4⟩ := hup.mpr (by omega)
      exact ⟨by omega, h4, by omega, by omega, by omega, h3, by omega⟩
  · -- both low halves are negative
    have ha0 := mem_negative.mp (Interval.mem_of_le hneg.1 hi.parts)
    have hb0 := mem_negative.mp (Interval.mem_of_le hneg.2 hi.right)
    rw [← cmp_words_iff (cmp_lowU h (by omega))]
    have hlu : lowU a ≤ a.toNat := by unfold lowU Number.zeroExtend; omega
    have hua := lowU_range a
    simp only [sound_some, List.forall_mem_cons, List.not_mem_nil, false_imp_iff, implies_true,
      and_true, sat_ge, sat_gtOrGe, eval_const, eval_var, hr.leftS, hr.leftU, hr.rightS, hr.rightU]
    refine and_iff_right ?_
    rw [maxInt]
    omega
  · -- the words are their low halves
    have ha0 := mem_signedInt.mp (Interval.mem_of_le hfits.1 (hr.mem_leftS hm))
    have hb0 := mem_signedInt.mp (Interval.mem_of_le hfits.2 (hr.mem_rightS hm))
    rw [lowS_of_fits ha0, lowS_of_fits hb0] at h
    simpa [hr.leftS, hr.rightS] using h
  · simp

theorem sound_assumeUnsigned32bitLt (hr : Reads σ ls lu rs ru a b) (hm : d.Models σ)
    (h : Cmp strict (lowU a) (lowU b)) :
    Sound σ (assumeUnsigned32bitLt d ls lu rs ru strict) := by
  have ha := readings a
  have hb := readings b
  have hup := cmp_words_iff h
  unfold HighLe at hup
  unfold assumeUnsigned32bitLt
  split_ifs with hnonneg hneg hfits
  · have ha0 := mem_nonnegative.mp (Interval.mem_of_le hnonneg.1 (hr.mem_leftU hm))
    have hb0 := mem_nonnegative.mp (Interval.mem_of_le hnonneg.2 (hr.mem_rightU hm))
    have hcmp := hup.mpr (by omega)
    simpa [hr.leftS, hr.leftU, hr.rightS, hr.rightU] using hcmp
  · have ha0 := mem_negative.mp (Interval.mem_of_le hneg.1 (hr.mem_leftS hm))
    have hb0 := mem_negative.mp (Interval.mem_of_le hneg.2 (hr.mem_rightS hm))
    have hcmp := hup.mpr (by omega)
    simpa [hr.leftS, hr.leftU, hr.rightS, hr.rightU] using hcmp
  · have ha0 := mem_unsignedInt.mp (Interval.mem_of_le hfits.1 (hr.mem_leftU hm))
    have hb0 := mem_unsignedInt.mp (Interval.mem_of_le hfits.2 (hr.mem_rightU hm))
    rw [lowU_of_fits ha0.2, lowU_of_fits hb0.2] at h
    simpa [hr.leftU, hr.rightU] using h
  · simp

theorem sound_assumeUnsigned32bitGt_iff (hr : Reads σ ls lu rs ru a b) (hm : d.Models σ)
    (h : Cmp strict (lowU b) (lowU a)) :
    Sound σ (assumeUnsigned32bitGt d ls lu rs ru strict i) ↔ UnsignedGtFits i a b := by
  unfold assumeUnsigned32bitGt UnsignedGtFits
  split_ifs with hhigh hfits
  · rw [← cmp_words_iff h]
    simp [hr.leftS, hr.leftU, hr.rightS, hr.rightU]
  · have ha0 := mem_unsignedInt.mp (Interval.mem_of_le hfits.1 (hr.mem_leftU hm))
    have hb0 := mem_unsignedInt.mp (Interval.mem_of_le hfits.2 (hr.mem_rightU hm))
    rw [lowU_of_fits ha0.2, lowU_of_fits hb0.2] at h
    simpa [hr.leftU, hr.rightU] using h
  · simp

/-- The constraints of `==` with the bounds of the left operand at hand. -/
theorem sound_eqBounds_iff (hr : Reads σ ls lu rs ru a b) {lo hi : ℤ} (hlow : lowU a = lowU b)
    (hlo : minInt 64 ≤ lo) (hle : lo ≤ a.toInt) (hhi : minInt 64 ≤ hi ∧ hi ≤ maxInt 64) :
    Sound σ (if zeroExtend 64 (matchLow lo (lowS b)) ≤ zeroExtend 64 (matchLow hi (lowS b)) then
        some [ge (.var ls) (.const (matchLow lo (lowS b))),
          le (.var ls) (.const (matchLow hi (lowS b))),
          ge (.var lu) (.const (zeroExtend 64 (matchLow lo (lowS b)))),
          le (.var lu) (.const (zeroExtend 64 (matchLow hi (lowS b))))]
      else some [ge (.var ls) (.const (matchLow lo (lowS b))),
        le (.var ls) (.const (matchLow hi (lowS b)))]) ↔
      a.toInt / 2 ^ 32 ≤ hi / 2 ^ 32 := by
  have ha := readings a
  have hla := lowU_eq a
  have hlb := lowS_eq b
  unfold minInt maxInt at *
  have hmatch : ∀ n, matchLow n (lowS b) = n / 2 ^ 32 * 2 ^ 32 + lowU a := by
    intro n
    have hrange := lowU_range b
    unfold matchLow zeroExtend
    omega
  simp only [hmatch]
  unfold zeroExtend
  split_ifs with hu
  all_goals
    simp only [sound_some, List.forall_mem_cons, List.not_mem_nil, false_imp_iff, implies_true,
      and_true, sat_ge, sat_le, eval_const, eval_var, hr.leftS, hr.leftU]
    omega

theorem sound_assumeSigned32bitEq_iff (hr : Reads σ ls lu rs ru a b) (hm : d.Models σ)
    {right : Interval} (hright : lowS b ∈ right) (hlow : lowU a = lowU b) :
    Sound σ (assumeSigned32bitEq d ls lu right) ↔
      EqFits (d.evalInterval (.var ls)) right a := by
  have hmem := hr.mem_leftS hm
  have ha := readings a
  unfold assumeSigned32bitEq EqFits
  generalize d.evalInterval (.var ls) = left at *
  obtain ⟨lb, ub⟩ := left
  have his := Interval.isSome_singleton hright
  cases hsing : right.singleton with
  | none => simp [← his, hsing]
  | some rn =>
    obtain rfl := Interval.eq_of_singleton hsing hright
    rw [← his, hsing]
    have hcast : castToS 64 (lowS b) = some (lowS b) := by
      have := lowS_range b
      exact if_pos ⟨by rw [minInt]; omega, by rw [maxInt]; omega⟩
    cases lb with
    | posInf => exact absurd hmem.1 (Bound.not_posInf_le_fin _)
    | negInf =>
      cases ub <;> simp [Interval.finiteSize, Bound.sub, Bound.add, Bound.neg, Bound.number,
        Bound.isInfinite]
    | fin lo =>
      cases ub with
      | negInf => exact absurd hmem.2 (Bound.not_fin_le_negInf _)
      | posInf => simp [Interval.finiteSize, Bound.sub, Bound.add, Bound.number]
      | fin hi =>
        obtain ⟨hlo, hhi⟩ := hmem
        simp only [Bound.fin_le_fin] at hlo hhi
        simp only [Interval.finiteSize, Bound.sub, Bound.neg, Bound.add, Bound.number, hcast,
          Option.bind_eq_bind, Option.bind_some, Bound.isInfinite, Bound.fin.injEq,
          forall_eq', Option.isSome_some, true_imp_iff, Bound.fin_le_fin]
        by_cases hlo' : minInt 64 ≤ lo
        swap
        · have hnone : castToS 64 lo = none := by
            have hneg : lo < 0 := by
              rw [minInt] at hlo'
              omega
            rw [castToS, if_neg (fun h => hlo' h.1), if_neg (fun h => absurd h.1 (not_le.mpr hneg))]
          simp [hnone, hlo']
        have hcastLo : castToS 64 lo = some lo :=
          if_pos ⟨hlo', by rw [maxInt]; omega⟩
        rw [hcastLo, Option.bind_some]
        rcases le_or_gt hi (maxInt 64) with hin | hout
        · have hfits : FitsS 64 hi := ⟨by rw [minInt] at *; omega, hin⟩
          rw [castToS, if_pos hfits, Option.bind_some,
            sound_eqBounds_iff hr hlow hlo' hlo hfits]
          exact ⟨fun _ _ h => absurd h (not_lt.mpr hin), fun _ => by omega⟩
        · rw [castToS, if_neg (fun h => absurd h.2 (not_le.mpr hout))]
          by_cases hu : hi ≤ maxUint 64
          · have hfits : FitsU 64 hi := ⟨by rw [maxInt] at hout; omega, hu⟩
            rw [if_pos hfits, Option.bind_some, sound_eqBounds_iff hr hlow hlo' hlo]
            · exact ⟨fun h _ _ _ => h, fun h => h hlo' hout hu⟩
            · rw [maxUint_eq] at hu
              rw [minInt, maxInt] at *
              omega
          · rw [if_neg (fun h => hu h.2)]
            simp [hu]

/-! ## Orders -/

/-- The order comparison `op` of two numbers. -/
def OrderHolds (op : ConditionOp) (x y : ℤ) : Prop :=
  if isLt op then Cmp (isStrict op) x y else Cmp (isStrict op) y x

/-- A comparison that holds is not refuted by intervals. -/
theorem neverHolds_eq_false {op : ConditionOp} {left right : Interval} {x y : ℤ} (hx : x ∈ left)
    (hy : y ∈ right) (h : OrderHolds op x y) : neverHolds op left right = false := by
  -- the two sides differ in the roles of the operands only
  have key : ∀ {I J : Interval} {m n : ℤ}, m ∈ I → n ∈ J → Cmp (isStrict op) m n →
      notAbove (isStrict op) J.ub I.lb = false := by
    intro I J m n hm hn hmn
    unfold notAbove Cmp at *
    split_ifs at hmn ⊢ with hs
    · rw [decide_eq_false_iff_not]
      intro hle
      have := Bound.fin_le_fin.mp (Bound.le_trans hn.2 (Bound.le_trans hle hm.1))
      omega
    · rw [decide_eq_false_iff_not, Bound.lt_iff, not_not]
      exact Bound.le_trans hm.1 (Bound.le_trans (Bound.fin_le_fin.mpr hmn) hn.2)
  unfold neverHolds OrderHolds at *
  split_ifs at h ⊢
  · exact key hx hy h
  · exact key hy hx h

theorem orderHolds_lowS {op : ConditionOp} (hop : isSigned op) (heq : op ≠ .eq)
    (h : op.Holds (a.setWidth 32) (b.setWidth 32)) : OrderHolds op (lowS a) (lowS b) := by
  rw [← toInt_setWidth, ← toInt_setWidth]
  cases op <;> first
    | exact absurd rfl heq
    | exact absurd hop (by decide)
    | exact h

theorem orderHolds_lowU {op : ConditionOp} (hop : op = .lt ∨ op = .le ∨ op = .gt ∨ op = .ge)
    (h : op.Holds (a.setWidth 32) (b.setWidth 32)) : OrderHolds op (lowU a) (lowU b) := by
  rw [← toNat_setWidth, ← toNat_setWidth]
  rcases hop with rfl | rfl | rfl | rfl
  all_goals exact Int.ofNat_le.mpr h

/-- The order comparison that stands for `op` holds of two numbers that compare under `op`. Only the
right interval may change. -/
theorem disequalityAsOrder_spec {op op' : ConditionOp} {is64 : Bool} {i' : OperandIntervals}
    {x y l u : ℤ} (hi' : disequalityAsOrder op is64 i = some (op', i'))
    (hord : op ≠ .ne → OrderHolds op x y) (hne : op = .ne → x ≠ y)
    (hx : x ∈ i.left) (hy : y ∈ i.right) (hleft : i.left = ⟨.fin l, .fin u⟩) (hl : 0 ≤ l)
    (hu : u ≤ maxUint (if is64 then 64 else 32)) :
    OrderHolds op' x y ∧ ∃ r, i' = { i with right := r } ∧ y ∈ r := by
  by_cases hop : op = .ne
  swap
  · rw [disequalityAsOrder, if_neg hop, Option.some.injEq, Prod.mk.injEq] at hi'
    obtain ⟨rfl, rfl⟩ := hi'
    exact ⟨hord hop, i.right, rfl, hy⟩
  have hxy := hne hop
  subst hop
  rw [hleft, Interval.mem_def, Bound.fin_le_fin, Bound.fin_le_fin] at hx
  have hself := Interval.zeroExtend_of_fits hl (hx.1.trans hx.2) hu
  cases hsing : i.right.singleton with
  | none =>
    rw [disequalityAsOrder, if_pos rfl, hsing] at hi'
    cases hi'
  | some rn =>
    obtain rfl := Interval.eq_of_singleton hsing hy
    rw [disequalityAsOrder, if_pos rfl, hsing] at hi'
    simp only [hleft, hself, Bound.number, Option.some.injEq] at hi'
    split_ifs at hi' with hlb hub
    · obtain ⟨rfl, rfl⟩ := Prod.mk.inj (Option.some.inj hi')
      refine ⟨?_, _, by rw [← hleft], ?_⟩
      · change y < x
        omega
      · rw [Interval.mem_def, Bound.fin_le_fin, Bound.fin_le_fin]
        omega
    · obtain ⟨rfl, rfl⟩ := Prod.mk.inj (Option.some.inj hi')
      refine ⟨?_, _, by rw [← hleft], ?_⟩
      · change x < y
        omega
      · rw [Interval.mem_def, Bound.fin_le_fin, Bound.fin_le_fin]
        omega

theorem lowU_ne (h : a.setWidth 32 ≠ b.setWidth 32) : lowU a ≠ lowU b := by
  rw [← toNat_setWidth, ← toNat_setWidth]
  intro heq
  exact h (BitVec.eq_of_toNat_eq (by exact_mod_cast heq))

/-- The operators compared as unsigned numbers. -/
theorem unsigned_cases {op : ConditionOp} (hs : isSigned op = false) (hbit : isBitTest op = false)
    (hne : op ≠ .ne) : op = .lt ∨ op = .le ∨ op = .gt ∨ op = .ge := by
  cases op <;> simp_all [isSigned, isBitTest]

/-! ## All operators -/

theorem castToU_readings {n : ℤ} (h : n = b.toInt ∨ n = b.toNat) :
    castToU 64 n = some (b.toNat : ℤ) := by
  have hrb := readings b
  have hfits : FitsU 64 b.toNat := ⟨hrb.1, by rw [maxUint_eq]; omega⟩
  rcases h with rfl | rfl
  · rcases hrb.2.2 with ⟨heq, -⟩ | ⟨heq, hge⟩
    · rw [heq]
      exact if_pos hfits
    · rw [castToU, if_neg (fun hu => by have := hu.1; omega),
        if_pos ⟨by rw [minInt]; omega, by rw [maxInt]; omega⟩, heq]
      simp
  · exact if_pos hfits

/-- Truncating one operand of a bit test truncates both. -/
theorem toNat_and_setWidth (a b : BitVec 64) :
    (a.toNat : ℤ).toNat &&& (zeroExtend 32 b.toNat).toNat =
      (a.setWidth 32 &&& b.setWidth 32).toNat := by
  have hz : (zeroExtend 32 b.toNat).toNat = b.toNat % 2 ^ 32 := by
    unfold zeroExtend
    omega
  rw [hz, BitVec.toNat_and, BitVec.toNat_setWidth, BitVec.toNat_setWidth, Int.toNat_natCast,
    ← Nat.and_two_pow_sub_one_eq_mod, ← Nat.and_two_pow_sub_one_eq_mod]
  apply Nat.eq_of_testBit_eq
  intro k
  simp only [Nat.testBit_and]
  cases a.toNat.testBit k <;> cases b.toNat.testBit k <;> cases (2 ^ 32 - 1).testBit k <;> rfl

/-- A bit test of two words: nothing is said unless both operands are known. -/
theorem answers_assumeBitCstInterval {op : ConditionOp} {is64 : Bool} {dst src : Interval}
    (hbit : isBitTest op) (ha : (a.toNat : ℤ) ∈ dst) (hb : b.toInt ∈ src ∨ (b.toNat : ℤ) ∈ src)
    (h : if is64 then op.Holds a b else op.Holds (a.setWidth 32) (b.setWidth 32)) :
    Answers σ (assumeBitCstInterval op is64 dst src) := by
  unfold assumeBitCstInterval
  cases hdst : dst.singleton with
  | none => simp
  | some dstN =>
    cases hsrc : src.singleton with
    | none => simp
    | some srcN =>
      obtain rfl := Interval.eq_of_singleton hdst ha
      have hsrcN : srcN = b.toInt ∨ srcN = b.toNat :=
        hb.imp (fun hb => (Interval.eq_of_singleton hsrc hb).symm)
          (fun hb => (Interval.eq_of_singleton hsrc hb).symm)
      by_cases hfits : FitsCast 64 a.toNat ∧ FitsCast 64 srcN
      swap
      · simp [hfits]
      dsimp only
      rw [if_pos hfits]
      simp only [castToU_readings (Or.inr rfl), castToU_readings hsrcN, Option.bind_eq_bind,
        Option.bind_some]
      -- the common bits are those of the words that are compared
      have hcommon : ((a.toNat : ℤ).toNat &&&
          (if is64 then (b.toNat : ℤ) else zeroExtend 32 b.toNat).toNat = 0) ↔
          if is64 then a &&& b = 0 else a.setWidth 32 &&& b.setWidth 32 = 0 := by
        cases is64
        · simp only [Bool.false_eq_true, if_false, toNat_and_setWidth]
          exact ⟨fun h0 => BitVec.eq_of_toNat_eq h0, fun h0 => h0 ▸ rfl⟩
        · simp only [if_true, Int.toNat_natCast, ← BitVec.toNat_and]
          exact ⟨fun h0 => BitVec.eq_of_toNat_eq h0, fun h0 => h0 ▸ rfl⟩
      cases op with
      | set =>
        have hne := mt hcommon.mp (by cases is64 <;> exact h)
        simp only [ne_eq, hne, not_false_eq_true, if_true]
        simp
      | nset =>
        have heq := hcommon.mpr (by cases is64 <;> exact h)
        simp only [heq, if_true]
        simp
      | _ => exact absurd hbit (by decide)

/-- How the upper halves must be for the constraints of a signed comparison. -/
def SignedFits (d : SplitDbm V) (ls lu : V) (rs : LinearExpression V) (op : ConditionOp)
    (a b : BitVec 64) : Prop :=
  let i := getSignedIntervals d ls lu rs false
  if op = .eq then EqFits (d.evalInterval (.var ls)) i.right a
  else alwaysHolds op i.left i.right ∨
    if isLt op then SignedLtFits i a b else SignedGtFits i a b

/-- How the upper halves must be for the constraints of an unsigned comparison. -/
def UnsignedFits (d : SplitDbm V) (ls lu : V) (ru : LinearExpression V) (op : ConditionOp)
    (a b : BitVec 64) : Prop :=
  match disequalityAsOrder op false (getUnsignedIntervals d ls lu ru false) with
  | none => True
  | some (op, i) => alwaysHolds op i.left i.right ∨ isLt op ∨ UnsignedGtFits i a b

theorem sound_assumeSignedCstInterval_iff (hr : Reads σ ls lu rs ru a b) (hm : d.Models σ)
    {op : ConditionOp} (hop : isSigned op) (h : op.Holds (a.setWidth 32) (b.setWidth 32)) :
    Sound σ (assumeSignedCstInterval d ls lu rs ru op false) ↔ SignedFits d ls lu rs op a b := by
  have hi := covers_signed hr hm
  unfold assumeSignedCstInterval SignedFits
  simp only [Bool.false_eq_true, if_false]
  by_cases heq : op = .eq
  · rw [if_pos heq, if_pos heq]
    refine sound_assumeSigned32bitEq_iff hr hm hi.right ?_
    subst heq
    rw [← toNat_setWidth, ← toNat_setWidth]
    exact congrArg (fun x : BitVec 32 => (x.toNat : ℤ)) h
  have hord := orderHolds_lowS hop heq h
  rw [if_neg heq, if_neg heq, neverHolds_eq_false hi.left hi.right hord]
  simp only [Bool.false_eq_true, if_false]
  unfold OrderHolds at hord
  by_cases halways :
      alwaysHolds op (getSignedIntervals d ls lu rs false).left
        (getSignedIntervals d ls lu rs false).right
  · simp [halways]
  rw [if_neg halways, or_iff_right halways]
  split_ifs at hord ⊢
  · exact sound_assumeSigned32bitLt_iff hr hm hi hord
  · exact sound_assumeSigned32bitGt_iff hr hm hi hord

theorem sound_assumeUnsignedCstInterval_iff (hr : Reads σ ls lu rs ru a b) (hm : d.Models σ)
    {op : ConditionOp} (hs : isSigned op = false) (hbit : isBitTest op = false)
    (h : op.Holds (a.setWidth 32) (b.setWidth 32)) :
    Sound σ (assumeUnsignedCstInterval d ls lu rs ru op false) ↔
      UnsignedFits d ls lu ru op a b := by
  obtain ⟨ha, hb, l, u, hleft, hl, hu⟩ := mem_unsignedIntervals hr hm
  unfold assumeUnsignedCstInterval UnsignedFits
  cases hdis : disequalityAsOrder op false (getUnsignedIntervals d ls lu ru false) with
  | none => simp
  | some p =>
    obtain ⟨op', i'⟩ := p
    obtain ⟨hord, r, rfl, hb'⟩ := disequalityAsOrder_spec hdis
      (fun hne => orderHolds_lowU (unsigned_cases hs hbit hne) h)
      (fun hne => lowU_ne (by subst hne; exact h)) ha hb hleft hl hu
    simp only [neverHolds_eq_false ha hb' hord, Bool.false_eq_true, if_false, Bool.not_false,
      if_true]
    unfold OrderHolds at hord
    split_ifs at hord ⊢ with halways hlt hlt
    · simp [halways]
    · simp [halways]
    · simpa [halways, hlt] using sound_assumeUnsigned32bitLt hr hm hord
    · simpa [halways, hlt] using sound_assumeUnsigned32bitGt_iff hr hm hord

end

theorem isSigned_eq_false {op : ConditionOp} (h : isBitTest op) : isSigned op = false := by
  revert h
  cases op <;> decide

/-- How the upper halves of the words must be for the constraints of a 32-bit comparison. -/
def Fits32 (d : SplitDbm V) (op : ConditionOp) (ls lu : V) (right : RightOperand V)
    (a b : BitVec 64) : Prop :=
  if isBitTest op then True
  else if isSigned op then SignedFits d ls lu right.svalue op a b
  else UnsignedFits d ls lu right.uvalue op a b

/-- For two words that a state describes and whose low halves compare as assumed, the constraints
of the 32-bit comparison hold exactly when the upper halves fit the branch that is taken. -/
theorem assumeCst_sat_iff {d : SplitDbm V} {σ : V → ℤ} {ls lu : V} {right : RightOperand V}
    {a b : BitVec 64} {op : ConditionOp} (hm : d.Models σ)
    (hr : Reads σ ls lu right.svalue right.uvalue a b)
    (h : op.Holds (a.setWidth 32) (b.setWidth 32)) :
    Sound σ (assumeCst d op false ls lu right) ↔ Fits32 d op ls lu right a b := by
  unfold Fits32
  by_cases hbit : isBitTest op
  · rw [if_pos hbit, iff_true]
    have hsrc := hr.mem_rightU hm
    cases right with
    | imm n =>
      obtain rfl : b = n :=
        BitVec.eq_of_toNat_eq (by simpa [RightOperand.uvalue] using hr.rightU.symm)
      rw [assumeCst, assumeCstImm, isSigned_eq_false hbit, if_pos hbit]
      exact Answers.sound
        (answers_assumeBitCstInterval hbit (hr.mem_leftU hm) (Or.inl (by simp)) h)
    | reg s u =>
      simp only [assumeCst, assumeCstReg, hbit, if_true]
      exact Answers.sound (answers_assumeBitCstInterval hbit (hr.mem_leftU hm) (Or.inr hsrc) h)
  have hcst : assumeCst d op false ls lu right =
      if isSigned op then assumeSignedCstInterval d ls lu right.svalue right.uvalue op false
      else assumeUnsignedCstInterval d ls lu right.svalue right.uvalue op false := by
    cases right <;> simp [assumeCst, assumeCstImm, assumeCstReg, hbit, RightOperand.svalue,
      RightOperand.uvalue]
  rw [if_neg hbit, hcst]
  split_ifs with hs
  · exact sound_assumeSignedCstInterval_iff hr hm hs h
  · exact sound_assumeUnsignedCstInterval_iff hr hm (by simpa using hs) (by simpa using hbit) h

/-- A state without constraints on the two variables `0` and `1` of a word. -/
def anyWord (a : BitVec 64) (n : ℕ) : ℤ := if n = 0 then a.toInt else a.toNat

theorem reads_anyWord (a b : BitVec 64) :
    Reads (anyWord a) 0 1 (RightOperand.imm b : RightOperand ℕ).svalue (RightOperand.imm b).uvalue
      a b := by
  constructor <;> simp [anyWord, RightOperand.svalue, RightOperand.uvalue]

/-- `w1 s< -1` on a word with an upper half of ones. -/
theorem assumeCst_sat_sign_extended :
    Sound (anyWord 0xffffffff80000000) (assumeCst .top .slt false 0 1 (.imm (-1))) :=
  (assumeCst_sat_iff (SplitDbm.models_top _) (reads_anyWord _ _) (by decide)).mpr (by
    change if _ then True else if _ then SignedFits _ _ _ _ _ _ _ else _
    rw [if_neg (by decide), if_pos (by decide)]
    unfold SignedFits
    simp only [reduceCtorEq, if_false]
    right
    unfold SignedLtFits
    rw [if_pos (by decide), if_pos (by decide)]
    decide)

/-- `w1 s< -1` on the word `0x80000000`, whose low half is the least signed number. The constraint
`svalue < -1` excludes it. -/
theorem assumeCst_excludes_zero_extended :
    SplitDbm.top.Models (anyWord 0x80000000) ∧
      ConditionOp.slt.Holds (BitVec.setWidth 32 (0x80000000 : BitVec 64))
        (BitVec.setWidth 32 (-1 : BitVec 64)) ∧
      ¬ Sound (anyWord 0x80000000) (assumeCst .top .slt false 0 1 (.imm (-1))) := by
  refine ⟨SplitDbm.models_top _, by decide, fun hs => ?_⟩
  have hcst : assumeCst (.top : SplitDbm ℕ) .slt false 0 1 (.imm (-1)) =
      some [lt (.const (maxInt 32)) (.var 1), lt (.var 1) (.const (2 ^ 64 - 1)),
        lt (.var 0) (.const (-1))] := by decide
  rw [hcst, sound_some] at hs
  have hlt := hs (lt (.var 0) (.const (-1))) (by simp)
  revert hlt
  decide

end FiniteDomain

end Prevail
