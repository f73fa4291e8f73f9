import Prevail.Arith.Number

/-!
# Bounds and intervals

A `Bound` is an integer or an infinity (`ExtendedNumber`); an `Interval` is a pair of bounds,
with `[0, -1]` as its only empty value. `n ∈ I` reads an interval as a set of integers, and the
lemmas below say of each operation which integers its result contains.

An interval read from a state never has `+oo` as lower or `-oo` as upper bound, so the sum of
opposite infinities, on which the source raises an error, is not reached.
-/

namespace Prevail

open Number

/-! ## Bounds -/

/-- `ExtendedNumber`: an integer or an infinity. -/
inductive Bound where
  | negInf
  | fin (n : ℤ)
  | posInf
  deriving DecidableEq, Repr

namespace Bound

/-- `operator<=`. -/
def Le : Bound → Bound → Prop
  | negInf, _ => True
  | _, posInf => True
  | fin a, fin b => a ≤ b
  | _, _ => False

instance : LE Bound := ⟨Le⟩

instance : LT Bound := ⟨fun a b => ¬ b ≤ a⟩

instance (a b : Bound) : Decidable (a ≤ b) :=
  match a, b with
  | negInf, _ => isTrue trivial
  | fin _, posInf => isTrue trivial
  | posInf, posInf => isTrue trivial
  | fin a, fin b => inferInstanceAs (Decidable (a ≤ b))
  | posInf, negInf => isFalse id
  | posInf, fin _ => isFalse id
  | fin _, negInf => isFalse id

instance (a b : Bound) : Decidable (a < b) := inferInstanceAs (Decidable (¬ _))

@[simp] theorem fin_le_fin {a b : ℤ} : fin a ≤ fin b ↔ a ≤ b := Iff.rfl

@[simp] theorem negInf_le (b : Bound) : negInf ≤ b := trivial

@[simp] theorem le_posInf (b : Bound) : b ≤ posInf := by cases b <;> trivial

@[simp] theorem not_fin_le_negInf (a : ℤ) : ¬ fin a ≤ negInf := id

@[simp] theorem not_posInf_le_fin (a : ℤ) : ¬ posInf ≤ fin a := id

@[simp] theorem not_posInf_le_negInf : ¬ posInf ≤ negInf := id

theorem lt_iff {a b : Bound} : a < b ↔ ¬ b ≤ a := Iff.rfl

protected theorem le_refl (a : Bound) : a ≤ a := by cases a <;> simp

protected theorem le_trans {a b c : Bound} (h : a ≤ b) (h' : b ≤ c) : a ≤ c := by
  cases a <;> cases b <;> cases c <;> simp_all
  exact h.trans h'

protected theorem le_total (a b : Bound) : a ≤ b ∨ b ≤ a := by
  cases a <;> cases b <;> simp [Int.le_total]

/-- `std::min`. -/
def min (a b : Bound) : Bound := if b < a then b else a

/-- `std::max`. -/
def max (a b : Bound) : Bound := if a < b then b else a

theorem min_le {a b x : Bound} : min a b ≤ x ↔ a ≤ x ∨ b ≤ x := by
  unfold min
  split_ifs with h
  · have hba := (Bound.le_total a b).resolve_left h
    exact ⟨Or.inr, fun h' => h'.elim (Bound.le_trans hba) id⟩
  · have hab : a ≤ b := not_not.mp h
    exact ⟨Or.inl, fun h' => h'.elim id (Bound.le_trans hab)⟩

theorem le_max {a b x : Bound} : x ≤ max a b ↔ x ≤ a ∨ x ≤ b := by
  unfold max
  split_ifs with h
  · have hab := (Bound.le_total a b).resolve_right h
    exact ⟨Or.inr, fun h' => h'.elim (fun h => Bound.le_trans h hab) id⟩
  · have hba : b ≤ a := not_not.mp h
    exact ⟨Or.inl, fun h' => h'.elim id (fun h => Bound.le_trans h hba)⟩

theorem le_min {a b x : Bound} : x ≤ min a b ↔ x ≤ a ∧ x ≤ b := by
  unfold min
  split_ifs with h
  · have hba := (Bound.le_total a b).resolve_left h
    exact ⟨fun h' => ⟨Bound.le_trans h' hba, h'⟩, And.right⟩
  · have hab : a ≤ b := not_not.mp h
    exact ⟨fun h' => ⟨h', Bound.le_trans h' hab⟩, And.left⟩

theorem max_le {a b x : Bound} : max a b ≤ x ↔ a ≤ x ∧ b ≤ x := by
  unfold max
  split_ifs with h
  · have hab := (Bound.le_total a b).resolve_right h
    exact ⟨fun h' => ⟨Bound.le_trans hab h', h'⟩, And.right⟩
  · have hba : b ≤ a := not_not.mp h
    exact ⟨fun h' => ⟨h', Bound.le_trans hba h'⟩, And.left⟩

@[simp] theorem fin_lt_fin {a b : ℤ} : fin a < fin b ↔ a < b := by
  rw [lt_iff, fin_le_fin, not_le]

theorem max_fin (a b : ℤ) : (fin a).max (fin b) = fin (Max.max a b) := by
  unfold max
  split_ifs with h
  · rw [max_eq_right (fin_lt_fin.mp h).le]
  · rw [max_eq_left (not_lt.mp (fin_lt_fin.not.mp h))]

theorem min_fin (a b : ℤ) : (fin a).min (fin b) = fin (Min.min a b) := by
  unfold min
  split_ifs with h
  · rw [min_eq_right (fin_lt_fin.mp h).le]
  · rw [min_eq_left (not_lt.mp (fin_lt_fin.not.mp h))]

/-- `is_infinite`. -/
def isInfinite : Bound → Bool
  | fin _ => false
  | _ => true

/-- `number`. -/
def number : Bound → Option ℤ
  | fin n => some n
  | _ => none

/-- Unary minus. -/
def neg : Bound → Bound
  | negInf => posInf
  | fin n => fin (-n)
  | posInf => negInf

/-- `operator+`; the sum of opposite infinities, an error in the source, keeps the left one. -/
def add : Bound → Bound → Bound
  | fin a, fin b => fin (a + b)
  | fin _, b => b
  | a, _ => a

/-- `operator-`. -/
def sub (a b : Bound) : Bound := a.add b.neg

/-- The number stored with a bound: `±1` for the infinities. -/
def num : Bound → ℤ
  | negInf => -1
  | fin n => n
  | posInf => 1

/-- `operator*`. -/
def mul (a b : Bound) : Bound :=
  if b.num = 0 then b
  else if a.num = 0 then a
  else if a.isInfinite || b.isInfinite then
    if 0 < a.num * b.num then posInf else negInf
  else fin (a.num * b.num)

theorem add_le_add {a b : Bound} {m n : ℤ} (ha : a ≤ .fin m) (hb : b ≤ .fin n) :
    a.add b ≤ .fin (m + n) := by
  cases a <;> cases b <;> simp_all [add]
  omega

theorem le_add {a b : Bound} {m n : ℤ} (ha : .fin m ≤ a) (hb : .fin n ≤ b) :
    .fin (m + n) ≤ a.add b := by
  cases a <;> cases b <;> simp_all [add]
  omega

theorem neg_le {a : Bound} {m : ℤ} (ha : .fin m ≤ a) : a.neg ≤ .fin (-m) := by
  cases a <;> simp_all [neg]

theorem le_neg {a : Bound} {m : ℤ} (ha : a ≤ .fin m) : .fin (-m) ≤ a.neg := by
  cases a <;> simp_all [neg]

/-- `operator/` by a nonzero number: infinities stay, numbers divide towards zero. -/
def divNum (a : Bound) (c : ℤ) : Bound :=
  match a with
  | fin n => fin (n.tdiv c)
  | a => a

theorem mul_comm (a b : Bound) : a.mul b = b.mul a := by
  cases a <;> cases b <;> simp only [mul, num, isInfinite, Int.mul_comm] <;> split_ifs <;>
    simp_all

theorem fin_mul_fin (a b : ℤ) : (fin a).mul (fin b) = fin (a * b) := by
  simp only [mul, num, isInfinite]
  split_ifs <;> simp_all

theorem eq_fin_zero {a : Bound} (h : a.num = 0) : a = fin 0 := by
  cases a with
  | negInf => exact absurd h (by decide)
  | fin n => exact congrArg fin h
  | posInf => exact absurd h (by decide)

theorem num_neg (a : Bound) : a.neg.num = -a.num := by cases a <;> rfl

theorem isInfinite_neg (a : Bound) : a.neg.isInfinite = a.isInfinite := by cases a <;> rfl

theorem neg_le_neg {a b : Bound} (h : a.neg ≤ b.neg) : b ≤ a := by
  cases a <;> cases b <;> simp_all [neg]

theorem mul_of_num_eq_zero {x : Bound} (hx : x.num = 0) (c : Bound) : x.mul c = fin 0 := by
  unfold mul
  split_ifs with hc
  · exact eq_fin_zero hc
  · exact eq_fin_zero hx

/-- The sign of a factor goes before the product. -/
theorem neg_mul (x c : Bound) : x.neg.mul c = (x.mul c).neg := by
  by_cases hc : c.num = 0
  · rw [eq_fin_zero hc]
    rfl
  by_cases hx : x.num = 0
  · have hneg : x.neg.num = 0 := by
      rw [num_neg, hx]
      rfl
    rw [mul_of_num_eq_zero hneg, mul_of_num_eq_zero hx]
    rfl
  have hx' : -x.num ≠ 0 := neg_ne_zero.mpr hx
  unfold mul
  rw [num_neg, isInfinite_neg, if_neg hc, if_neg hc, if_neg hx, if_neg hx', Int.neg_mul]
  by_cases hinf : (x.isInfinite || c.isInfinite) = true
  · rw [if_pos hinf, if_pos hinf]
    rcases lt_or_gt_of_ne (Int.mul_ne_zero hx hc) with hneg | hpos
    · rw [if_pos (by omega), if_neg (by omega)]
      rfl
    · rw [if_neg (by omega), if_pos hpos]
      rfl
  · rw [if_neg hinf, if_neg hinf]
    rfl

/-- A product with an infinite bound has the sign of the other factor. -/
theorem mul_infinite {x c : Bound} (hx : 0 < x.num) (hc : c.isInfinite = true) : x.mul c = c := by
  have hc0 : c.num ≠ 0 := fun h => by
    rw [eq_fin_zero h] at hc
    cases hc
  unfold mul
  rw [if_neg hc0, if_neg hx.ne', hc, Bool.or_true, if_pos rfl]
  cases c with
  | negInf => exact if_neg (not_lt.mpr (Int.mul_nonpos_of_nonneg_of_nonpos hx.le (by decide)))
  | fin n => cases hc
  | posInf => exact if_pos (Int.mul_pos hx (by decide))

theorem posInf_mul_fin {n : ℤ} (hn : 0 < n) : posInf.mul (fin n) = posInf := by
  rw [mul_comm]
  exact mul_infinite hn rfl

theorem posInf_mul_fin_of_neg {n : ℤ} (hn : n < 0) : posInf.mul (fin n) = negInf := by
  have hneg : (fin (-n)).mul posInf = posInf := mul_infinite (Int.neg_pos_of_neg hn) rfl
  have h := neg_mul (fin (-n)) posInf
  rw [hneg] at h
  rw [mul_comm, ← neg_neg n]
  exact h

/-- Multiplication by a nonnegative bound is monotone. -/
theorem mul_le_mul_left {x c d : Bound} (hx : 0 ≤ x.num) (h : c ≤ d) : x.mul c ≤ x.mul d := by
  rcases hx.eq_or_lt with h0 | hpos
  · rw [mul_of_num_eq_zero h0.symm, mul_of_num_eq_zero h0.symm]
    exact Bound.le_refl _
  cases c with
  | negInf =>
    rw [mul_infinite hpos rfl]
    exact negInf_le _
  | posInf =>
    cases d with
    | posInf => exact Bound.le_refl _
    | negInf => exact absurd h not_posInf_le_negInf
    | fin n => exact absurd h (not_posInf_le_fin n)
  | fin m =>
    cases d with
    | negInf => exact absurd h (not_fin_le_negInf m)
    | posInf =>
      rw [@mul_infinite x posInf hpos rfl]
      exact le_posInf _
    | fin n =>
      have hmn : m ≤ n := h
      cases x with
      | negInf => exact absurd hpos (by decide)
      | fin x =>
        rw [fin_mul_fin, fin_mul_fin]
        exact fin_le_fin.mpr (Int.mul_le_mul_of_nonneg_left hmn hx)
      | posInf =>
        -- an infinite product has the sign of the number
        rcases lt_or_ge m 0 with hm | hm
        · rw [posInf_mul_fin_of_neg hm]
          exact negInf_le _
        rcases hmn.eq_or_lt with rfl | hlt
        · exact Bound.le_refl _
        · rw [posInf_mul_fin (hm.trans_lt hlt)]
          exact le_posInf _

/-- Multiplication by a nonpositive bound is antitone. -/
theorem mul_le_mul_left_of_nonpos {x c d : Bound} (hx : x.num ≤ 0) (h : c ≤ d) :
    x.mul d ≤ x.mul c := by
  have hneg : 0 ≤ x.neg.num := by
    rw [num_neg]
    omega
  have hle := mul_le_mul_left hneg h
  rw [neg_mul, neg_mul] at hle
  exact neg_le_neg hle

/-- A product lies between the products with the ends of a range of its second factor. -/
theorem mul_between {x c d : Bound} {n : ℤ} (hc : c ≤ fin n) (hd : fin n ≤ d) :
    (x.mul c).min (x.mul d) ≤ x.mul (fin n) ∧ x.mul (fin n) ≤ (x.mul c).max (x.mul d) := by
  rw [min_le, le_max]
  rcases Int.le_total 0 x.num with hx | hx
  · exact ⟨Or.inl (mul_le_mul_left hx hc), Or.inr (mul_le_mul_left hx hd)⟩
  · exact ⟨Or.inr (mul_le_mul_left_of_nonpos hx hd), Or.inl (mul_le_mul_left_of_nonpos hx hc)⟩

end Bound

/-! ## Intervals -/

/-- `Interval`: a pair of bounds, `[0, -1]` when empty. -/
structure Interval where
  lb : Bound
  ub : Bound
  deriving DecidableEq, Repr

namespace Interval

/-- `Interval::bottom`. -/
def bottom : Interval := ⟨.fin 0, .fin (-1)⟩

/-- `Interval::top`. -/
def top : Interval := ⟨.negInf, .posInf⟩

/-- The constructor from two bounds, which normalises an empty range to `[0, -1]`. -/
def ofBounds (lb ub : Bound) : Interval := if ub < lb then bottom else ⟨lb, ub⟩

/-- The constructor from two numbers. -/
def ofInts (lb ub : ℤ) : Interval := ofBounds (.fin lb) (.fin ub)

/-- The constructor from one number. -/
def const (n : ℤ) : Interval := ⟨.fin n, .fin n⟩

instance : Membership ℤ Interval := ⟨fun I n => I.lb ≤ .fin n ∧ .fin n ≤ I.ub⟩

theorem mem_def {I : Interval} {n : ℤ} : n ∈ I ↔ I.lb ≤ .fin n ∧ .fin n ≤ I.ub := Iff.rfl

/-- `contains`: an empty interval contains nothing. -/
def contains (I : Interval) (n : ℤ) : Bool :=
  !decide (I.ub < I.lb) && decide (I.lb ≤ .fin n) && decide (.fin n ≤ I.ub)

/-- `is_bottom`. -/
def isBottom (I : Interval) : Bool := decide (I.ub < I.lb)

/-- `is_top`, which only asks for two infinite bounds. -/
def isTop (I : Interval) : Bool := I.lb.isInfinite && I.ub.isInfinite

/-- `is_singleton`. -/
def isSingleton (I : Interval) : Bool := decide (I.lb = I.ub)

/-- `singleton`. -/
def singleton (I : Interval) : Option ℤ := if I.lb = I.ub then I.lb.number else none

/-- `operator<=`. -/
def Le (I J : Interval) : Prop :=
  if I.isBottom then True else if J.isBottom then False else J.lb ≤ I.lb ∧ I.ub ≤ J.ub

instance : LE Interval := ⟨Le⟩

instance (I J : Interval) : Decidable (I ≤ J) :=
  inferInstanceAs (Decidable (if I.isBottom then True else if J.isBottom then False else _))

/-- `operator|`. -/
def join (I J : Interval) : Interval :=
  if I.isBottom then J else if J.isBottom then I
  else ofBounds (I.lb.min J.lb) (I.ub.max J.ub)

/-- `operator&`. -/
def meet (I J : Interval) : Interval :=
  if I.isBottom || J.isBottom then bottom else ofBounds (I.lb.max J.lb) (I.ub.min J.ub)

/-- `operator+`. -/
def add (I J : Interval) : Interval :=
  if I.isBottom || J.isBottom then bottom else ofBounds (I.lb.add J.lb) (I.ub.add J.ub)

/-- `operator-`. -/
def sub (I J : Interval) : Interval :=
  if I.isBottom || J.isBottom then bottom else ofBounds (I.lb.sub J.ub) (I.ub.sub J.lb)

/-- The least of four bounds. -/
def min4 (a b c d : Bound) : Bound := ((a.min b).min c).min d

/-- The greatest of four bounds. -/
def max4 (a b c d : Bound) : Bound := ((a.max b).max c).max d

/-- `operator*`. -/
def mul (I J : Interval) : Interval :=
  if I.isBottom || J.isBottom then bottom
  else ofBounds (min4 (I.lb.mul J.lb) (I.lb.mul J.ub) (I.ub.mul J.lb) (I.ub.mul J.ub))
    (max4 (I.lb.mul J.lb) (I.lb.mul J.ub) (I.ub.mul J.lb) (I.ub.mul J.ub))

/-- `operator/` by a single number; division by zero gives zero. -/
def divConst (I : Interval) (c : ℤ) : Interval :=
  if I.isBottom then bottom
  else if c = 1 then I
  else if 0 < c then ofBounds (I.lb.divNum c) (I.ub.divNum c)
  else if c < 0 then ofBounds (I.ub.divNum c) (I.lb.divNum c)
  else const 0

/-- `size`. -/
def size (I : Interval) : Bound :=
  if I.isBottom then .fin 0 else (I.ub.sub I.lb).add (.fin 1)

/-- `finite_size`. -/
def finiteSize (I : Interval) : Option ℤ := (I.ub.sub I.lb).number

/-- `signed_int`. -/
def signedInt (w : ℕ) : Interval := ofInts (minInt w) (maxInt w)

/-- `unsigned_int`. -/
def unsignedInt (w : ℕ) : Interval := ofInts 0 (maxUint w)

/-- `nonnegative`. -/
def nonnegative (w : ℕ) : Interval := ofInts 0 (maxInt w)

/-- `negative`. -/
def negative (w : ℕ) : Interval := ofInts (minInt w) (-1)

/-- `unsigned_high`. -/
def unsignedHigh (w : ℕ) : Interval := ofInts (maxInt w + 1) (maxUint w)

/-- The truncation of an interval by a truncation `ext` of its endpoints. Infinite endpoints
only occur with an infinite size, which takes the last branch. -/
def extend (ext : ℤ → ℤ) (full I : Interval) : Interval :=
  if I.size < full.size then
    match I.lb, I.ub with
    | .fin l, .fin u => if ext l ≤ ext u then ⟨.fin (ext l), .fin (ext u)⟩ else full
    | _, _ => full
  else full

/-- `sign_extend`. -/
def signExtend (w : ℕ) (I : Interval) : Interval := extend (Number.signExtend w) (signedInt w) I

/-- `zero_extend`. -/
def zeroExtend (w : ℕ) (I : Interval) : Interval :=
  extend (Number.zeroExtend w) (unsignedInt w) I

/-! ## Membership -/

@[simp] theorem mem_const {n k : ℤ} : n ∈ const k ↔ n = k := by
  simp only [mem_def, const, Bound.fin_le_fin]
  omega

@[simp] theorem mem_top (n : ℤ) : n ∈ top := by simp [mem_def, top]

theorem not_mem_bottom (n : ℤ) : n ∉ bottom := by
  simp only [mem_def, bottom, Bound.fin_le_fin]
  omega

theorem mem_ofBounds {lb ub : Bound} {n : ℤ} :
    n ∈ ofBounds lb ub ↔ lb ≤ .fin n ∧ .fin n ≤ ub := by
  unfold ofBounds
  split_ifs with h
  · exact ⟨fun hn => absurd hn (not_mem_bottom n),
      fun hn => absurd (Bound.le_trans hn.1 hn.2) h⟩
  · exact Iff.rfl

@[simp] theorem mem_ofInts {lb ub n : ℤ} : n ∈ ofInts lb ub ↔ lb ≤ n ∧ n ≤ ub := by
  simp [ofInts, mem_ofBounds]

theorem isBottom_eq_false_of_mem {I : Interval} {n : ℤ} (h : n ∈ I) : I.isBottom = false := by
  unfold isBottom
  rw [decide_eq_false_iff_not]
  exact fun hlt => hlt (Bound.le_trans h.1 h.2)

theorem contains_iff {I : Interval} {n : ℤ} : I.contains n = true ↔ n ∈ I := by
  have h : n ∈ I → ¬ I.ub < I.lb := fun hn hlt => hlt (Bound.le_trans hn.1 hn.2)
  unfold contains
  simp only [Bool.and_eq_true, Bool.not_eq_true', decide_eq_true_eq, decide_eq_false_iff_not]
  exact ⟨fun ⟨⟨_, h1⟩, h2⟩ => ⟨h1, h2⟩, fun hn => ⟨⟨h hn, hn.1⟩, hn.2⟩⟩

theorem mem_of_le {I J : Interval} {n : ℤ} (h : I ≤ J) (hn : n ∈ I) : n ∈ J := by
  change Le I J at h
  unfold Le at h
  rw [isBottom_eq_false_of_mem hn] at h
  simp only [Bool.false_eq_true, if_false] at h
  split_ifs at h
  exact ⟨Bound.le_trans h.1 hn.1, Bound.le_trans hn.2 h.2⟩

theorem mem_of_between {I : Interval} {k m n : ℤ} (hm : m ∈ I) (hn : n ∈ I) (hmk : m ≤ k)
    (hkn : k ≤ n) : k ∈ I :=
  ⟨Bound.le_trans hm.1 (Bound.fin_le_fin.mpr hmk), Bound.le_trans (Bound.fin_le_fin.mpr hkn) hn.2⟩

theorem eq_of_singleton {I : Interval} {k n : ℤ} (h : I.singleton = some k) (hn : n ∈ I) :
    n = k := by
  unfold singleton at h
  split_ifs at h with hI
  cases hl : I.lb with
  | fin a =>
    have hn1 := hn.1
    have hn2 := hn.2
    rw [← hI, hl, Bound.fin_le_fin] at hn2
    rw [hl, Bound.fin_le_fin] at hn1
    have hak : a = k := by simpa [hl, Bound.number] using h
    omega
  | negInf => simp [hl, Bound.number] at h
  | posInf => simp [hl, Bound.number] at h

theorem eq_const_of_singleton {I : Interval} {n : ℤ} (h : I.singleton = some n) : I = const n := by
  rcases I with ⟨lb, ub⟩
  unfold singleton at h
  split_ifs at h with heq
  obtain rfl : lb = ub := heq
  cases lb with
  | fin k =>
    obtain rfl : k = n := Option.some.inj h
    rfl
  | _ => cases h

/-- Equal bounds of an interval that is not empty are a number. -/
theorem isSome_singleton {I : Interval} {n : ℤ} (hn : n ∈ I) :
    I.singleton.isSome = I.isSingleton := by
  rcases I with ⟨lb, ub⟩
  unfold singleton isSingleton
  split_ifs with h
  · obtain rfl : lb = ub := h
    cases lb with
    | negInf => exact absurd hn.2 (Bound.not_fin_le_negInf n)
    | fin k => simp [Bound.number]
    | posInf => exact absurd hn.1 (Bound.not_posInf_le_fin n)
  · simpa using h

theorem mem_join {I J : Interval} {n : ℤ} (h : n ∈ I ∨ n ∈ J) : n ∈ I.join J := by
  unfold join
  split_ifs with hI hJ
  · refine h.resolve_left fun hn => ?_
    rw [isBottom_eq_false_of_mem hn] at hI
    cases hI
  · refine h.resolve_right fun hn => ?_
    rw [isBottom_eq_false_of_mem hn] at hJ
    cases hJ
  · rw [mem_ofBounds, Bound.min_le, Bound.le_max]
    exact ⟨h.imp And.left And.left, h.imp And.right And.right⟩

theorem mem_meet {I J : Interval} {n : ℤ} : n ∈ I.meet J ↔ n ∈ I ∧ n ∈ J := by
  unfold meet
  split_ifs with h
  · refine ⟨fun hn => absurd hn (not_mem_bottom n), fun ⟨hI, hJ⟩ => ?_⟩
    rw [isBottom_eq_false_of_mem hI, isBottom_eq_false_of_mem hJ] at h
    cases h
  · rw [mem_ofBounds, Bound.max_le, Bound.le_min]
    exact and_and_and_comm

theorem mem_add {I J : Interval} {m n : ℤ} (hm : m ∈ I) (hn : n ∈ J) : m + n ∈ I.add J := by
  unfold add
  rw [isBottom_eq_false_of_mem hm, isBottom_eq_false_of_mem hn]
  exact mem_ofBounds.mpr ⟨Bound.add_le_add hm.1 hn.1, Bound.le_add hm.2 hn.2⟩

theorem mem_sub {I J : Interval} {m n : ℤ} (hm : m ∈ I) (hn : n ∈ J) : m - n ∈ I.sub J := by
  unfold sub
  rw [isBottom_eq_false_of_mem hm, isBottom_eq_false_of_mem hn, Int.sub_eq_add_neg]
  exact mem_ofBounds.mpr ⟨Bound.add_le_add hm.1 (Bound.neg_le hn.2),
    Bound.le_add hm.2 (Bound.le_neg hn.1)⟩

theorem mem_mul {I J : Interval} {m n : ℤ} (hm : m ∈ I) (hn : n ∈ J) : m * n ∈ I.mul J := by
  unfold mul
  rw [isBottom_eq_false_of_mem hm, isBottom_eq_false_of_mem hn]
  have hmn := Bound.mul_between (x := .fin n) hm.1 hm.2
  rw [Bound.fin_mul_fin, Int.mul_comm, Bound.mul_comm (.fin n), Bound.mul_comm (.fin n)] at hmn
  obtain ⟨hl1, hu1⟩ := Bound.mul_between (x := I.lb) hn.1 hn.2
  obtain ⟨hl2, hu2⟩ := Bound.mul_between (x := I.ub) hn.1 hn.2
  refine mem_ofBounds.mpr ⟨?_, ?_⟩
  · refine Bound.le_trans ?_ hmn.1
    rw [min4, Bound.le_min]
    rw [Bound.min_le] at hl1 hl2
    simp only [Bound.min_le]
    tauto
  · refine Bound.le_trans hmn.2 ?_
    rw [max4, Bound.max_le]
    rw [Bound.le_max] at hu1 hu2
    simp only [Bound.le_max]
    tauto

theorem sub_mem_of_mem_const_add {I : Interval} {k n : ℤ} (h : n ∈ (const k).add I) : n - k ∈ I := by
  unfold add at h
  split_ifs at h
  · exact absurd h (not_mem_bottom n)
  · obtain ⟨hl, hu⟩ := mem_ofBounds.mp h
    obtain ⟨l, u⟩ := I
    refine ⟨?_, ?_⟩
    · cases l <;> simp_all [const, Bound.add]
      omega
    · cases u <;> simp_all [const, Bound.add]
      omega

/-- The interval of a variable, as the sum of a single term, is that of the variable. -/
theorem mem_const_zero_add {I : Interval} {n : ℤ} (h : n ∈ (const 0).add I) : n ∈ I := by
  have hmem := sub_mem_of_mem_const_add h
  rwa [sub_zero] at hmem

theorem mem_const_one_mul {I : Interval} {n : ℤ} (h : n ∈ (const 1).mul I) : n ∈ I := by
  have hone : ∀ b : Bound, (Bound.fin 1).mul b = b := by
    intro b
    cases b with
    | fin k => rw [Bound.fin_mul_fin, one_mul]
    | _ => rfl
  unfold mul at h
  split_ifs at h with hbot
  · exact absurd h (not_mem_bottom n)
  · obtain ⟨hl, hu⟩ := mem_ofBounds.mp h
    have hle : I.lb ≤ I.ub := by
      by_contra hlt
      refine hbot (Bool.or_eq_true_iff.mpr (Or.inr ?_))
      exact decide_eq_true hlt
    simp only [min4, max4, const, hone, Bound.min_le, Bound.le_max] at hl hu
    refine ⟨?_, ?_⟩
    · rcases hl with ((hl | hl) | hl) | hl
      · exact hl
      · exact Bound.le_trans hle hl
      · exact hl
      · exact Bound.le_trans hle hl
    · rcases hu with ((hu | hu) | hu) | hu
      · exact Bound.le_trans hu hle
      · exact hu
      · exact Bound.le_trans hu hle
      · exact hu

theorem isBottom_ofInts (a b : ℤ) : (ofInts a b).isBottom = decide (b < a) := by
  unfold ofInts ofBounds isBottom
  split_ifs with h
  · simp [bottom, Bound.lt_iff] at h ⊢
    exact h
  · simp [Bound.lt_iff] at h ⊢

theorem ofInts_of_le {a b : ℤ} (h : a ≤ b) : ofInts a b = ⟨.fin a, .fin b⟩ :=
  if_neg (not_not.mpr (Bound.fin_le_fin.mpr h))

/-- Two ranges of integers have a common element exactly when their meet is not empty. -/
theorem isBottom_meet_ofInts {a b c d : ℤ} :
    ((ofInts a b).meet (ofInts c d)).isBottom = false ↔ ∃ n, (a ≤ n ∧ n ≤ b) ∧ c ≤ n ∧ n ≤ d := by
  constructor
  · intro h
    by_cases hab : b < a
    · simp [meet, isBottom_ofInts, hab] at h
      simp [isBottom, bottom, Bound.lt_iff] at h
    by_cases hcd : d < c
    · simp [meet, isBottom_ofInts, hcd] at h
      simp [isBottom, bottom, Bound.lt_iff] at h
    rw [not_lt] at hab hcd
    refine ⟨max a c, ?_⟩
    by_contra hno
    have hempty : ∀ n, n ∉ (ofInts a b).meet (ofInts c d) := by
      intro n hn
      rw [mem_meet, mem_ofInts, mem_ofInts] at hn
      omega
    have hmeet : (ofInts a b).meet (ofInts c d) =
        ofInts (max a c) (min b d) := by
      rw [meet, isBottom_ofInts, isBottom_ofInts, decide_eq_false (not_lt.mpr hab),
        decide_eq_false (not_lt.mpr hcd), ofInts_of_le hab, ofInts_of_le hcd, Bound.max_fin,
        Bound.min_fin]
      rfl
    rw [hmeet, isBottom_ofInts, decide_eq_false_iff_not, not_lt] at h
    exact hempty (max a c) (hmeet ▸ mem_ofInts.mpr ⟨le_rfl, h⟩)
  · rintro ⟨n, hn, hn'⟩
    exact isBottom_eq_false_of_mem (mem_meet.mpr ⟨mem_ofInts.mpr hn, mem_ofInts.mpr hn'⟩)

/-! ## Truncation -/

section

variable {ext : ℤ → ℤ} {lo M : ℤ}

/-- A truncation of the endpoints to the window `[lo, lo + M)`. -/
structure Truncates (ext : ℤ → ℤ) (lo M : ℤ) : Prop where
  eq : ∀ n, ∃ q, ext n = n - M * q
  lower : ∀ n, lo ≤ ext n
  upper : ∀ n, ext n ≤ lo + M - 1

theorem Truncates.pos (h : Truncates ext lo M) : 0 < M := by
  have h1 := h.lower 0
  have h2 := h.upper 0
  omega

/-- Between two numbers that keep their order under a truncation and are less than the width
apart, the truncation subtracts one and the same multiple of the width. -/
theorem Truncates.between (h : Truncates ext lo M) {l n u : ℤ} (hln : l ≤ n) (hnu : n ≤ u)
    (hsize : u - l + 1 < M) (hord : ext l ≤ ext u) : ext l ≤ ext n ∧ ext n ≤ ext u := by
  obtain ⟨ql, hl⟩ := h.eq l
  obtain ⟨qn, hn⟩ := h.eq n
  obtain ⟨qu, hu⟩ := h.eq u
  have hq : ql = qu := by
    have h1 : M * (qu - ql) < M * 1 := by linarith
    have h2 : M * (-1) < M * (qu - ql) := by
      have := h.upper u
      have := h.lower l
      linarith
    have h3 := lt_of_mul_lt_mul_left h1 h.pos.le
    have h4 := lt_of_mul_lt_mul_left h2 h.pos.le
    omega
  have hlo := h.lower l
  have hhi := h.upper u
  subst hq
  have hnq : ext n = n - M * ql :=
    eq_of_window (M := M) (q := qn - ql) (by rw [hn]; ring) (by have := h.lower n; linarith)
      (by have := h.upper n; linarith)
  constructor <;> linarith

theorem size_ofInts {a b : ℤ} (h : a ≤ b) : (ofInts a b).size = .fin (b - a + 1) := by
  unfold size
  rw [isBottom_ofInts, decide_eq_false (not_lt.mpr h), ofInts_of_le h]
  rfl

theorem mem_extend (h : Truncates ext lo M) {I : Interval} {n : ℤ} (hn : n ∈ I) :
    ext n ∈ extend ext (ofInts lo (lo + M - 1)) I := by
  have hpos := h.pos
  have hfull : ext n ∈ ofInts lo (lo + M - 1) := mem_ofInts.mpr ⟨h.lower n, h.upper n⟩
  unfold extend
  rw [size_ofInts (by omega)]
  split_ifs with hsize
  swap
  · exact hfull
  rcases I with ⟨lb, ub⟩
  cases lb with
  | negInf => exact hfull
  | posInf => exact hfull
  | fin l =>
    cases ub with
    | negInf => exact hfull
    | posInf => exact hfull
    | fin u =>
      obtain ⟨hln, hnu⟩ := mem_def.mp hn
      simp only [Bound.fin_le_fin] at hln hnu
      have hlt : u - l + 1 < M := by
        have hbot : (Interval.mk (.fin l) (.fin u)).isBottom = false := isBottom_eq_false_of_mem hn
        simp only [size, hbot, Bool.false_eq_true, if_false] at hsize
        have := Bound.fin_lt_fin.mp hsize
        omega
      simp only
      split_ifs with hord
      · obtain ⟨h1, h2⟩ := h.between hln hnu hlt hord
        exact mem_def.mpr ⟨Bound.fin_le_fin.mpr h1, Bound.fin_le_fin.mpr h2⟩
      · exact hfull

/-- A truncated interval has finite bounds within the window. -/
theorem extend_bounds (h : Truncates ext lo M) (I : Interval) :
    ∃ l u, extend ext (ofInts lo (lo + M - 1)) I = ⟨.fin l, .fin u⟩ ∧ lo ≤ l ∧
      u ≤ lo + M - 1 := by
  have hpos := h.pos
  have hfull : ∃ l u, ofInts lo (lo + M - 1) = ⟨.fin l, .fin u⟩ ∧ lo ≤ l ∧ u ≤ lo + M - 1 :=
    ⟨lo, lo + M - 1, ofInts_of_le (by omega), le_rfl, le_rfl⟩
  unfold extend
  split_ifs
  · split
    · split_ifs
      · exact ⟨_, _, rfl, h.lower _, h.upper _⟩
      · exact hfull
    · exact hfull
  · exact hfull

end

theorem truncates_signExtend {w : ℕ} (hw : 0 < w) :
    Truncates (Number.signExtend w) (minInt w) (2 ^ w) := by
  have hw' := two_pow_eq hw
  refine ⟨fun n => ?_, fun n => ?_, fun n => ?_⟩
  all_goals obtain ⟨q, hq, hlo, hhi⟩ := signExtend_eq hw n
  · exact ⟨q, hq⟩
  · exact hlo
  · unfold maxInt at hhi
    unfold minInt
    linarith

theorem truncates_zeroExtend (w : ℕ) : Truncates (Number.zeroExtend w) 0 (2 ^ w) := by
  refine ⟨fun n => ?_, fun n => ?_, fun n => ?_⟩
  all_goals obtain ⟨q, hq, hlo, hhi⟩ := zeroExtend_eq w n
  · exact ⟨q, hq⟩
  · exact hlo
  · rw [maxUint_eq] at hhi
    linarith

theorem signedInt_eq {w : ℕ} (hw : 0 < w) :
    signedInt w = ofInts (minInt w) (minInt w + 2 ^ w - 1) := by
  have hw' := two_pow_eq hw
  unfold signedInt maxInt minInt
  congr 1
  linarith

theorem unsignedInt_eq (w : ℕ) : unsignedInt w = ofInts 0 (0 + 2 ^ w - 1) := by
  unfold unsignedInt
  rw [maxUint_eq, zero_add]

theorem mem_signExtend {w : ℕ} (hw : 0 < w) {I : Interval} {n : ℤ} (hn : n ∈ I) :
    Number.signExtend w n ∈ I.signExtend w := by
  unfold signExtend
  rw [signedInt_eq hw]
  exact mem_extend (truncates_signExtend hw) hn

theorem mem_zeroExtend (w : ℕ) {I : Interval} {n : ℤ} (hn : n ∈ I) :
    Number.zeroExtend w n ∈ I.zeroExtend w := by
  unfold zeroExtend
  rw [unsignedInt_eq]
  exact mem_extend (truncates_zeroExtend w) hn

theorem signExtend_bounds {w : ℕ} (hw : 0 < w) (I : Interval) :
    ∃ l u, I.signExtend w = ⟨.fin l, .fin u⟩ ∧ minInt w ≤ l ∧ u ≤ maxInt w := by
  unfold signExtend
  rw [signedInt_eq hw]
  obtain ⟨l, u, h, hl, hu⟩ := extend_bounds (truncates_signExtend hw) I
  refine ⟨l, u, h, hl, ?_⟩
  have hw' := two_pow_eq hw
  unfold minInt at hu
  unfold maxInt
  linarith

theorem zeroExtend_bounds (w : ℕ) (I : Interval) :
    ∃ l u, I.zeroExtend w = ⟨.fin l, .fin u⟩ ∧ 0 ≤ l ∧ u ≤ maxUint w := by
  unfold zeroExtend
  rw [unsignedInt_eq]
  obtain ⟨l, u, h, hl, hu⟩ := extend_bounds (truncates_zeroExtend w) I
  refine ⟨l, u, h, hl, ?_⟩
  rw [maxUint_eq]
  linarith

/-- An interval within the unsigned range is its own truncation. -/
theorem zeroExtend_of_fits {w : ℕ} {l u : ℤ} (hl : 0 ≤ l) (hlu : l ≤ u) (hu : u ≤ maxUint w) :
    (Interval.mk (.fin l) (.fin u)).zeroExtend w = ⟨.fin l, .fin u⟩ := by
  have hsize : (Interval.mk (.fin l) (.fin u)).size = .fin (u - l + 1) := by
    rw [← ofInts_of_le hlu, size_ofInts hlu]
  unfold zeroExtend extend
  rw [hsize, unsignedInt, size_ofInts (hl.trans (hlu.trans hu))]
  simp only [Bound.fin_lt_fin, Number.zeroExtend_of_fits ⟨hl, hlu.trans hu⟩,
    Number.zeroExtend_of_fits ⟨hl.trans hlu, hu⟩, if_pos hlu]
  split_ifs with h
  · rfl
  · obtain rfl : l = 0 := by omega
    obtain rfl : u = maxUint w := by omega
    exact ofInts_of_le hlu

/-- An interval within a range of numbers that is not empty has finite bounds. -/
theorem bounds_of_le_ofInts {I : Interval} {l u n : ℤ} (h : I ≤ ofInts l u) (hn : n ∈ I) :
    ∃ l' u', I = ⟨.fin l', .fin u'⟩ ∧ l ≤ l' ∧ u' ≤ u := by
  have hlu := mem_ofInts.mp (mem_of_le h hn)
  change Le I (ofInts l u) at h
  unfold Le at h
  rw [isBottom_eq_false_of_mem hn, isBottom_ofInts, decide_eq_false (by omega),
    ofInts_of_le (by omega)] at h
  obtain ⟨hlb, hub⟩ := h
  rcases I with ⟨lb, ub⟩
  obtain ⟨hn1, hn2⟩ := hn
  cases lb with
  | negInf => exact absurd hlb (Bound.not_fin_le_negInf _)
  | posInf => exact absurd hn1 (Bound.not_posInf_le_fin _)
  | fin l' =>
    cases ub with
    | negInf => exact absurd hn2 (Bound.not_fin_le_negInf _)
    | posInf => exact absurd hub (Bound.not_posInf_le_fin _)
    | fin u' => exact ⟨l', u', rfl, hlb, hub⟩

theorem isTop_signExtend {w : ℕ} (hw : 0 < w) (I : Interval) : (I.signExtend w).isTop = false := by
  obtain ⟨l, u, h, -⟩ := signExtend_bounds hw I
  rw [h]
  rfl

end Interval

end Prevail
