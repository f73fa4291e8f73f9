import Prevail.Crab.AssumeSound

/-!
# What a 64-bit comparison says of words

A state that describes two 64-bit words is told how the words compare. `assumeCst` splits the left
operand at zero (signed) or at `2^63` (unsigned) and answers with constraints on both readings.
Here every branch is shown to keep the words, `assumeCst_answers`; the four steps are

1. the readings of one word determine each other, and two words of one sign compare in the same
   way in both readings (`cmp_toInt_iff`);
2. the intervals of the operands contain the words and the parts of the left one contain it where
   they should (`covers_signed64`, `covers_unsigned64`);
3. each branch answers with constraints that hold of such words;
4. `!=` and the comparisons that the intervals decide are reduced to these branches.
-/

namespace Prevail

open Number LinearExpression

namespace FiniteDomain

variable {V : Type} [LinearOrder V]

/-! ## Readings of a word -/

theorem mem_unsignedHigh64 {n : ℤ} : n ∈ Interval.unsignedHigh 64 ↔ 2 ^ 63 ≤ n ∧ n < 2 ^ 64 := by
  rw [Interval.unsignedHigh, Interval.mem_ofInts, maxInt, maxUint_eq]
  omega

theorem mem_signedInt64 {n : ℤ} : n ∈ Interval.signedInt 64 ↔ -2 ^ 63 ≤ n ∧ n < 2 ^ 63 := by
  rw [Interval.signedInt, Interval.mem_ofInts, minInt, maxInt]
  omega

theorem signExtend_toInt (a : BitVec 64) : Number.signExtend 64 a.toInt = a.toInt := by
  have ha := readings a
  exact signExtend_of_fits (by omega) ⟨by rw [minInt]; omega, by rw [maxInt]; omega⟩

theorem signExtend_toNat (a : BitVec 64) : Number.signExtend 64 a.toNat = a.toInt := by
  have ha := readings a
  unfold Number.signExtend
  split_ifs <;> omega

theorem zeroExtend_toNat (a : BitVec 64) : Number.zeroExtend 64 a.toNat = a.toNat := by
  have ha := readings a
  exact zeroExtend_of_fits ⟨ha.1, by rw [maxUint_eq]; omega⟩

theorem zeroExtend_toInt (a : BitVec 64) : Number.zeroExtend 64 a.toInt = a.toNat := by
  have ha := readings a
  unfold Number.zeroExtend
  omega

/-- Two words of one sign compare in the same way in both readings. -/
theorem cmp_toInt_iff {strict : Bool} {a b : BitVec 64} (hsign : a.toInt < 0 ↔ b.toInt < 0) :
    Cmp strict a.toInt b.toInt ↔ Cmp strict a.toNat b.toNat := by
  have ha := readings a
  have hb := readings b
  unfold Cmp
  cases strict <;> simp only [Bool.false_eq_true, if_false, if_true] <;> omega

theorem le_of_cmp {strict : Bool} {x y : ℤ} (h : Cmp strict x y) : x ≤ y := by
  unfold Cmp at h
  split_ifs at h <;> omega

/-- `notAbove` separates numbers that do not compare. -/
theorem not_cmp_of_notAbove {strict : Bool} {p q : Bound} {x y : ℤ} (h : notAbove strict p q)
    (hy : .fin y ≤ p) (hx : q ≤ .fin x) : ¬ Cmp strict x y := by
  unfold notAbove at h
  unfold Cmp
  intro hc
  split_ifs at h hc
  · have := Bound.le_trans hy (Bound.le_trans (of_decide_eq_true h) hx)
    rw [Bound.fin_le_fin] at this
    omega
  · refine Bound.lt_iff.mp (of_decide_eq_true h) (Bound.le_trans hx ?_)
    exact Bound.le_trans (Bound.fin_le_fin.mpr hc) hy

/-! ## The intervals of the operands -/

/-- The intervals of a signed comparison contain the words. When the left word is negative, the
negative part need not contain it, but is not free of negative numbers either. -/
structure CoversSigned (i : OperandIntervals) (a b : BitVec 64) : Prop where
  left : a.toInt ∈ i.left
  right : b.toInt ∈ i.right
  positive : 0 ≤ a.toInt → a.toInt ∈ i.leftPositive
  negative : a.toInt < 0 → ∃ n < 0, n ∈ i.leftNegative

/-- The intervals of an unsigned comparison contain the words, and the part of the left one with
the left word's upper bit contains it. -/
structure CoversUnsigned (i : OperandIntervals) (a b : BitVec 64) : Prop where
  left : (a.toNat : ℤ) ∈ i.left
  right : (b.toNat : ℤ) ∈ i.right
  low : (a.toNat : ℤ) < 2 ^ 63 → (a.toNat : ℤ) ∈ i.leftPositive
  high : 2 ^ 63 ≤ (a.toNat : ℤ) → (a.toNat : ℤ) ∈ i.leftNegative

section

variable {d : SplitDbm V} {σ : V → ℤ} {ls lu : V} {rs ru : LinearExpression V} {a b : BitVec 64}

theorem covers_signed64 (hr : Reads σ ls lu rs ru a b) (hm : d.Models σ) :
    CoversSigned (getSignedIntervals d ls lu rs true) a b := by
  have ha := readings a
  have hright := Interval.mem_signExtend (w := 64) (by omega) (hr.mem_rightS hm)
  have hleftS := hr.mem_leftS hm
  have hleftU := hr.mem_leftU hm
  rw [signExtend_toInt] at hright
  unfold getSignedIntervals signedOperands
  simp only [Bool.true_or, if_true]
  split_ifs with htopS htopU
  · -- the signed interval says something
    refine ⟨?_, hright, fun h => ?_, fun h => ⟨a.toInt, h, ?_⟩⟩
    · exact signExtend_toInt a ▸ Interval.mem_signExtend (by omega) hleftS
    · exact Interval.mem_meet.mpr ⟨hleftS, mem_nonnegative64.mpr ⟨h, by omega⟩⟩
    · exact Interval.mem_meet.mpr ⟨hleftS, mem_negative64.mpr ⟨by omega, h⟩⟩
  · -- only the unsigned one does; its bound wraps to a signed number
    refine ⟨?_, hright, fun h => ?_, fun _ => ⟨minInt 64, by decide, ?_⟩⟩
    · exact signExtend_toNat a ▸ Interval.mem_signExtend (by omega) hleftU
    · have heq : a.toInt = a.toNat := by omega
      exact Interval.mem_meet.mpr ⟨heq ▸ hleftU, mem_nonnegative64.mpr ⟨h, by omega⟩⟩
    · rw [Interval.mem_ofInts]
      refine ⟨le_refl _, ?_⟩
      split
      · rw [minInt]
        unfold Number.signExtend
        split_ifs <;> omega
      · decide
  · refine ⟨?_, hright, fun h => mem_nonnegative64.mpr ⟨h, by omega⟩,
      fun h => ⟨a.toInt, h, mem_negative64.mpr ⟨by omega, h⟩⟩⟩
    exact signExtend_toNat a ▸ Interval.mem_signExtend (by omega) hleftU

theorem covers_unsigned64 (hr : Reads σ ls lu rs ru a b) (hm : d.Models σ) :
    CoversUnsigned (getUnsignedIntervals d ls lu ru true) a b := by
  have ha := readings a
  have hright := Interval.mem_zeroExtend 64 (hr.mem_rightU hm)
  have hleftS := hr.mem_leftS hm
  have hleftU := hr.mem_leftU hm
  rw [zeroExtend_toNat] at hright
  unfold getUnsignedIntervals unsignedOperands
  simp only [Bool.true_or, if_true]
  split_ifs with htopU htopS
  · -- the unsigned interval says something
    refine ⟨?_, hright, fun h => ?_, fun h => ?_⟩
    · exact zeroExtend_toNat a ▸ Interval.mem_zeroExtend 64 hleftU
    · exact Interval.mem_meet.mpr ⟨hleftU, mem_nonnegative64.mpr ⟨ha.1, h⟩⟩
    · exact Interval.mem_meet.mpr ⟨hleftU, mem_unsignedHigh64.mpr ⟨h, ha.2.1⟩⟩
  · -- only the signed one does; its two signs wrap to the two parts
    rw [Interval.mem_def] at hleftS
    refine ⟨?_, hright, fun h => ?_, fun h => ?_⟩
    · exact zeroExtend_toInt a ▸ Interval.mem_zeroExtend 64 (hr.mem_leftS hm)
    · refine zeroExtend_toInt a ▸ Interval.mem_zeroExtend 64 (Interval.mem_ofBounds.mpr ⟨?_, hleftS.2⟩)
      exact Bound.fin_le_fin.mpr (by omega)
    · refine zeroExtend_toInt a ▸ Interval.mem_zeroExtend 64 (Interval.mem_ofBounds.mpr ⟨hleftS.1, ?_⟩)
      exact Bound.fin_le_fin.mpr (by omega)
  · refine ⟨?_, hright, fun h => mem_nonnegative64.mpr ⟨ha.1, h⟩,
      fun h => mem_unsignedHigh64.mpr ⟨h, ha.2.1⟩⟩
    exact zeroExtend_toInt a ▸ Interval.mem_zeroExtend 64 hleftS

theorem getUnsignedIntervals_left (d : SplitDbm V) (ls lu : V) (ru : LinearExpression V)
    (is64 : Bool) : ∃ l u, (getUnsignedIntervals d ls lu ru is64).left = ⟨.fin l, .fin u⟩ ∧ 0 ≤ l ∧
      u ≤ maxUint 64 := by
  unfold getUnsignedIntervals
  exact Interval.zeroExtend_bounds 64 _

/-! ## Signed branches -/

variable {i : OperandIntervals} {strict : Bool}

theorem answers_assumeSigned64bitEq (hr : Reads σ ls lu rs ru a b) {right : Interval}
    (hright : b.toInt ∈ right) (h : a = b) :
    Answers σ (assumeSigned64bitEq ls lu rs ru right) := by
  subst h
  have ha := readings a
  unfold assumeSigned64bitEq
  split_ifs with hpos
  · have ha0 := mem_nonnegative64.mp (Interval.mem_of_le hpos.1 hright)
    have heq : a.toInt = a.toNat := by omega
    simp [hr.leftS, hr.leftU, hr.rightS, hr.rightU, heq]
  · simp [hr.leftS, hr.leftU, hr.rightS, hr.rightU]

theorem answers_assumeSigned64bitLt (hr : Reads σ ls lu rs ru a b) (hi : CoversSigned i a b)
    (h : Cmp strict a.toInt b.toInt) :
    Answers σ (assumeSigned64bitLt ls lu rs ru strict i) := by
  have hle := le_of_cmp h
  have hboth : (a.toInt < 0 ↔ b.toInt < 0) → Answers σ (some
      [ltOrLe strict (.var ls) rs, le (.const 0) (.var lu), ltOrLe strict (.var lu) ru]) := by
    intro hsign
    have hu := (cmp_toInt_iff hsign).mp h
    simpa [hr.leftS, hr.leftU, hr.rightS, hr.rightU] using ⟨h, hu⟩
  unfold assumeSigned64bitLt
  dsimp only
  split_ifs with hneg hnonneg
  · have hb0 := mem_negative64.mp (Interval.mem_of_le hneg hi.right)
    exact hboth (by omega)
  · have hb0 := mem_nonnegative64.mp (Interval.mem_of_le hnonneg.2 hi.right)
    have ha0 : ¬ a.toInt < 0 := by
      intro hlt
      obtain ⟨n, hn, hmem⟩ := hi.negative hlt
      have := mem_nonnegative64.mp (Interval.mem_of_le hnonneg.1 (Interval.mem_join (Or.inl hmem)))
      omega
    exact hboth (by omega)
  · simpa [hr.leftS, hr.rightS] using h

theorem answers_assumeSigned64bitGt (hr : Reads σ ls lu rs ru a b) (hi : CoversSigned i a b)
    (h : Cmp strict b.toInt a.toInt) :
    Answers σ (assumeSigned64bitGt ls lu rs ru strict i) := by
  have ha := readings a
  have hle := le_of_cmp h
  unfold assumeSigned64bitGt
  split_ifs with hnonneg hneg
  · have hb0 := mem_nonnegative64.mp (Interval.mem_of_le hnonneg hi.right)
    have hu := (cmp_toInt_iff (by omega)).mp h
    have heq : a.toInt = a.toNat := by omega
    -- the positive part contains the left word, so its end bounds it
    obtain ⟨l, u, hlpub, -, -⟩ := Interval.signExtend_bounds (w := 64) (by omega) i.leftPositive
    have hmem := Interval.mem_signExtend (w := 64) (by omega) (hi.positive (by omega))
    rw [signExtend_toInt, hlpub, Interval.mem_def, Bound.fin_le_fin, Bound.fin_le_fin] at hmem
    simp only [assumeSignedGtNonnegative, hlpub, Bound.number, Option.bind_eq_bind,
      Option.bind_some, answers_some, List.forall_mem_cons, List.not_mem_nil, false_imp_iff,
      implies_true, and_true, sat_ge, sat_le, sat_gtOrGe, eval_const, eval_var, hr.leftS, hr.leftU,
      hr.rightS, hr.rightU]
    exact ⟨by omega, h, by omega, by omega, ha.1, hu, by omega⟩
  · have hb0 := mem_negative64.mp (Interval.mem_of_le hneg.2 hi.right)
    have ha0 : a.toInt < 0 := by
      by_contra hge
      have hmem := hi.positive (by omega)
      have := mem_negative64.mp (Interval.mem_of_le hneg.1 (Interval.mem_join (Or.inr hmem)))
      omega
    have hu := (cmp_toInt_iff (by omega)).mp h
    have hhigh : maxInt 64 < (a.toNat : ℤ) := by
      rw [maxInt]
      omega
    simpa [hr.leftS, hr.leftU, hr.rightS, hr.rightU] using ⟨hhigh, hu, h⟩
  · simpa [hr.leftS, hr.rightS] using h

/-! ## Unsigned branches -/

/-- The left word is low or lies above the first number of the high part. -/
theorem CoversUnsigned.low_or_high (hi : CoversUnsigned i a b) :
    (a.toNat : ℤ) < 2 ^ 63 ∨ (i.leftNegative.zeroExtend 64).lb ≤ .fin (a.toNat : ℤ) := by
  refine (lt_or_ge (a.toNat : ℤ) (2 ^ 63)).imp_right (fun h => ?_)
  exact (zeroExtend_toNat a ▸ Interval.mem_zeroExtend 64 (hi.high h)).1

/-- The left word is high or lies below the last number of the low part. -/
theorem CoversUnsigned.high_or_low (hi : CoversUnsigned i a b) :
    2 ^ 63 ≤ (a.toNat : ℤ) ∨ .fin (a.toNat : ℤ) ≤ (i.leftPositive.zeroExtend 64).ub := by
  refine (le_or_gt (2 ^ 63) (a.toNat : ℤ)).imp_right (fun h => ?_)
  exact (zeroExtend_toNat a ▸ Interval.mem_zeroExtend 64 (hi.low h)).2

theorem Reads.le_leftS_ub (hr : Reads σ ls lu rs ru a b) (hm : d.Models σ)
    (heq : a.toInt = a.toNat) :
    ∀ c ∈ (match (d.evalInterval (.var ls)).ub.number with
      | some n => [le (.var lu) (.const n)]
      | none => []), c.Sat σ := by
  have hub := (hr.mem_leftS hm).2
  cases hn : (d.evalInterval (.var ls)).ub with
  | fin n =>
    rw [hn, Bound.fin_le_fin] at hub
    simpa [Bound.number, hr.leftU] using heq ▸ hub
  | _ => simp [Bound.number]

theorem answers_assumeUnsigned64bitLt (hr : Reads σ ls lu rs ru a b) (hm : d.Models σ)
    (hi : CoversUnsigned i a b) (h : Cmp strict a.toNat b.toNat) :
    Answers σ (assumeUnsigned64bitLt d ls lu rs ru strict i) := by
  have ha := readings a
  have hle := le_of_cmp h
  -- a low left word is at most the end of the signed interval
  have hlsub := hr.le_leftS_ub hm
  unfold assumeUnsigned64bitLt
  dsimp only
  split_ifs with hlow hhigh hsigned hboth htop
  · have hb0 := mem_nonnegative64.mp (Interval.mem_of_le hlow.1 hi.right)
    have heq : a.toInt = a.toNat := by omega
    rw [answers_some]
    simp only [List.cons_append, List.nil_append, List.forall_mem_cons, List.forall_mem_append,
      sat_ge, sat_ltOrLe, eval_const, eval_var, hr.leftS, hr.leftU, hr.rightU]
    exact ⟨ha.1, h, hlsub heq, by omega, by simp⟩
  · -- a high left word would be at least the right one
    have hlt : (a.toNat : ℤ) < 2 ^ 63 :=
      hi.low_or_high.resolve_right (fun hlb => not_cmp_of_notAbove hhigh.2 hi.right.2 hlb h)
    have heq : a.toInt = a.toNat := by omega
    obtain ⟨l, u, hright, -, -⟩ := Interval.bounds_of_le_ofInts hhigh.1 hi.right
    have hu := hi.right.2
    rw [hright, Bound.fin_le_fin] at hu
    have hcmp : Cmp strict a.toNat u := by
      unfold Cmp at h ⊢
      split_ifs at h ⊢ <;> omega
    simp only [hright, Bound.number, Option.bind_eq_bind, Option.bind_some, answers_some]
    simp only [List.cons_append, List.nil_append, List.forall_mem_cons, List.forall_mem_append,
      sat_ge, sat_ltOrLe, eval_const, eval_var, hr.leftS, hr.leftU]
    exact ⟨ha.1, hcmp, hlsub heq, by omega, by simp⟩
  · have hb := readings b
    have hb0 := mem_signedInt64.mp (Interval.mem_of_le hsigned hi.right)
    have hs := (cmp_toInt_iff (a := a) (b := b) (by omega)).mpr h
    have hlub := hi.high_or_low.resolve_left (by omega)
    obtain ⟨l, u, hext, -, -⟩ := Interval.zeroExtend_bounds 64 i.leftPositive
    rw [hext, Bound.fin_le_fin] at hlub
    simp only [hext, Bound.number, Option.bind_eq_bind, Option.bind_some, answers_some,
      List.forall_mem_cons, List.not_mem_nil, false_imp_iff, implies_true, and_true, sat_le,
      sat_ltOrLe, eval_const, eval_var, hr.leftS, hr.leftU, hr.rightS, hr.rightU]
    exact ⟨ha.1, h, hlub, by omega, hs⟩
  · have hb := readings b
    have hb0 := mem_unsignedHigh64.mp (Interval.mem_of_le hboth.2 hi.right)
    have ha0 : 2 ^ 63 ≤ (a.toNat : ℤ) := by
      by_contra hlt
      have := Interval.isBottom_eq_false_of_mem (hi.low (by omega))
      rw [hboth.1] at this
      cases this
    have hs := (cmp_toInt_iff (a := a) (b := b) (by omega)).mpr h
    simpa [hr.leftS, hr.leftU, hr.rightS, hr.rightU] using ⟨h, hs⟩
  · simpa [hr.leftU, hr.rightU] using h
  · simpa [hr.leftU, hr.rightU] using h

theorem answers_assumeUnsigned64bitGt (hr : Reads σ ls lu rs ru a b)
    (hi : CoversUnsigned i a b) (h : Cmp strict b.toNat a.toNat) :
    Answers σ (assumeUnsigned64bitGt ls lu rs ru strict i) := by
  have ha := readings a
  have hb := readings b
  have hle := le_of_cmp h
  have hboth : (a.toInt < 0 ↔ b.toInt < 0) → Answers σ (some
      [le (.const 0) (.var lu), gtOrGe strict (.var lu) ru, gtOrGe strict (.var ls) rs]) := by
    intro hsign
    have hs := (cmp_toInt_iff hsign.symm).mpr h
    simpa [hr.leftS, hr.leftU, hr.rightS, hr.rightU] using ⟨h, hs⟩
  unfold assumeUnsigned64bitGt
  dsimp only
  split_ifs with hlow hhigh hnonneg
  · -- a low left word would be at most the right one
    have hge : 2 ^ 63 ≤ (a.toNat : ℤ) := hi.high_or_low.resolve_right
      (fun hub => not_cmp_of_notAbove hlow.2 hub hi.right.1 h)
    have hlb := hi.low_or_high.resolve_left (by omega)
    obtain ⟨l, u, hext, -, hu⟩ := Interval.zeroExtend_bounds 64 i.leftNegative
    rw [hext, Bound.fin_le_fin] at hlb
    have hend : (if l = maxUint 64 then eq (.var lu) (.const l) else ge (.var lu) (.const l)).Sat σ := by
      rw [maxUint_eq]
      split_ifs with hl
      · simp only [sat_eq, eval_var, eval_const, hr.leftU]
        omega
      · simpa [hr.leftU] using hlb
    simp only [hext, Bound.number, Option.bind_eq_bind, Option.bind_some, answers_some,
      List.forall_mem_cons, List.not_mem_nil, false_imp_iff, implies_true, and_true, sat_lt,
      sat_gtOrGe, eval_const, eval_var, hr.leftS, hr.leftU, hr.rightU]
    exact ⟨h, hend, by omega⟩
  · have hb0 := mem_unsignedHigh64.mp (Interval.mem_of_le hhigh hi.right)
    exact hboth (by omega)
  · have hb0 := mem_nonnegative64.mp (Interval.mem_of_le hnonneg.2 hi.right)
    have ha0 : (a.toNat : ℤ) < 2 ^ 63 := by
      by_contra hge
      have hmem := hi.high (by omega)
      have := mem_nonnegative64.mp (Interval.mem_of_le hnonneg.1 (Interval.mem_join (Or.inr hmem)))
      omega
    exact hboth (by omega)
  · simpa [hr.leftU, hr.rightU] using h

/-! ## All operators -/

theorem orderHolds_toInt {op : ConditionOp} (hop : isSigned op) (heq : op ≠ .eq)
    (h : op.Holds a b) : OrderHolds op a.toInt b.toInt := by
  cases op <;> first
    | exact absurd rfl heq
    | exact absurd hop (by decide)
    | exact h

theorem orderHolds_toNat {op : ConditionOp} (hop : op = .lt ∨ op = .le ∨ op = .gt ∨ op = .ge)
    (h : op.Holds a b) : OrderHolds op a.toNat b.toNat := by
  rcases hop with rfl | rfl | rfl | rfl
  all_goals exact Int.ofNat_le.mpr h

theorem answers_assumeSignedCstInterval (hr : Reads σ ls lu rs ru a b) (hm : d.Models σ)
    {op : ConditionOp} (hop : isSigned op) (h : op.Holds a b) :
    Answers σ (assumeSignedCstInterval d ls lu rs ru op true) := by
  have hi := covers_signed64 hr hm
  unfold assumeSignedCstInterval
  dsimp only
  by_cases heq : op = .eq
  · rw [if_pos heq, if_pos rfl]
    exact answers_assumeSigned64bitEq hr hi.right (by subst heq; exact h)
  have hord := orderHolds_toInt hop heq h
  rw [if_neg heq, neverHolds_eq_false hi.left hi.right hord]
  unfold OrderHolds at hord
  simp only [Bool.false_eq_true, if_false, if_true]
  split_ifs at hord ⊢ with halways hlt hlt
  · simp
  · simp
  · exact answers_assumeSigned64bitLt hr hi hord
  · exact answers_assumeSigned64bitGt hr hi hord

theorem answers_assumeUnsignedCstInterval (hr : Reads σ ls lu rs ru a b) (hm : d.Models σ)
    {op : ConditionOp} (hs : isSigned op = false) (hbit : isBitTest op = false)
    (h : op.Holds a b) :
    Answers σ (assumeUnsignedCstInterval d ls lu rs ru op true) := by
  have hi := covers_unsigned64 hr hm
  obtain ⟨l, u, hleft, hl, hu⟩ := getUnsignedIntervals_left d ls lu ru true
  unfold assumeUnsignedCstInterval
  cases hdis : disequalityAsOrder op true (getUnsignedIntervals d ls lu ru true) with
  | none => simp
  | some p =>
    obtain ⟨op', i'⟩ := p
    obtain ⟨hord, r, rfl, hb'⟩ := disequalityAsOrder_spec hdis
      (fun hne => orderHolds_toNat (unsigned_cases hs hbit hne) h)
      (fun hne heq => by subst hne; exact h (BitVec.eq_of_toNat_eq (by exact_mod_cast heq)))
      hi.left hi.right hleft hl hu
    -- only the right interval has changed
    have hi' : CoversUnsigned { getUnsignedIntervals d ls lu ru true with right := r } a b :=
      ⟨hi.left, hb', hi.low, hi.high⟩
    simp only [neverHolds_eq_false hi.left hb' hord, Bool.false_eq_true, if_false, Bool.not_true,
      if_true]
    unfold OrderHolds at hord
    split_ifs at hord ⊢ with halways hlt hlt
    · simpa [hr.leftU, hr.rightU] using hord
    · simpa [hr.leftU, hr.rightU] using hord
    · exact answers_assumeUnsigned64bitLt hr hm hi' hord
    · exact answers_assumeUnsigned64bitGt hr hi' hord

/-- A comparison of whole registers. -/
theorem answers_assumeCstReg {ss su : V} (hm : d.Models σ)
    (hr : Reads σ ls lu (.var ss) (.var su) a b) {op : ConditionOp} (h : op.Holds a b) :
    Answers σ (assumeCstReg d op true ls lu ss su) := by
  have hb := readings b
  unfold assumeCstReg
  by_cases hbit : isBitTest op
  · rw [if_pos hbit]
    exact answers_assumeBitCstInterval hbit (hr.mem_leftU hm) (Or.inr (hr.mem_rightU hm)) h
  rw [if_neg hbit, if_pos rfl]
  have hbit' : isBitTest op = false := by simpa using hbit
  cases op with
  | eq =>
    obtain rfl : a = b := h
    dsimp only
    split_ifs with hpos
    · have ha0 := mem_nonnegative64.mp (Interval.mem_of_le hpos.2 (hr.mem_rightS hm))
      have heq : a.toInt = a.toNat := by omega
      have hs := hr.rightS
      have hu := hr.rightU
      rw [eval_var] at hs hu
      simp [hr.leftS, hr.leftU, hs, hu, heq]
    · have hs := hr.rightS
      have hu := hr.rightU
      rw [eval_var] at hs hu
      simp [hr.leftS, hr.leftU, hs, hu]
  | ne =>
    have hs := hr.rightS
    rw [eval_var] at hs
    have hne : a.toInt ≠ b.toInt := fun heq => h (BitVec.eq_of_toInt_eq heq)
    simpa [hr.leftS, hs] using hne
  | sge | sle | sgt | slt =>
    have hs := hr.rightS
    rw [eval_var] at hs
    simpa [hr.leftS, hs, ConditionOp.Holds] using h
  | _ => exact answers_assumeUnsignedCstInterval hr hm rfl hbit' h

end

/-- For two words that a state describes and that compare as assumed, no error is raised and every
constraint of the 64-bit comparison holds. -/
theorem assumeCst_answers {d : SplitDbm V} {σ : V → ℤ} {ls lu : V} {right : RightOperand V}
    {a b : BitVec 64} {op : ConditionOp} (hm : d.Models σ)
    (hr : Reads σ ls lu right.svalue right.uvalue a b) (h : op.Holds a b) :
    ∃ csts, assumeCst d op true ls lu right = some csts ∧ ∀ c ∈ csts, c.Sat σ := by
  cases right with
  | reg ss su => exact answers_assumeCstReg hm hr h
  | imm n =>
    show Answers σ (assumeCstImm d op true ls lu n)
    unfold assumeCstImm
    split_ifs with hs hbit
    · exact answers_assumeSignedCstInterval hr hm hs h
    · obtain rfl : b = n :=
        BitVec.eq_of_toNat_eq (by simpa [RightOperand.uvalue] using hr.rightU.symm)
      exact answers_assumeBitCstInterval hbit (hr.mem_leftU hm) (Or.inl (by simp)) h
    · exact answers_assumeUnsignedCstInterval hr hm (by simpa using hs) (by simpa using hbit) h

/-- `r1 > 0x7fffffffffffffff` keeps the word `2^63`, whose signed reading is the least number. -/
theorem assumeCst_answers_upper_half :
    ∃ csts, assumeCst (.top : SplitDbm ℕ) .gt true 0 1 (.imm 0x7fffffffffffffff) = some csts ∧
      ∀ c ∈ csts, c.Sat (anyWord 0x8000000000000000) :=
  assumeCst_answers (SplitDbm.models_top _) (reads_anyWord _ _) (by decide)

end FiniteDomain

end Prevail
