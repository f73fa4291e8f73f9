import Prevail.Arith.Interval

/-!
# Division of intervals

`sdiv` and `udiv` take the ends of the dividend and of the divisor, and split both at zero first. A
dividend below zero is moved away from zero before it is divided, as for a division that rounds down,
while numbers are divided towards zero; and a negative divisor that is a single number does not swap
the ends of the result. `SdivExact` is when neither of this loses a quotient. All operands of `udiv` are
positive when it divides, and it loses none (`udiv_sound`).
-/

namespace Prevail

open Number

/-! ## Bounds -/

namespace Bound

/-- `AbsDiv`; `none` is the error of a division by zero or of an infinity by an infinity. -/
def absDiv (f : ℤ → ℤ → Option ℤ) (a b : Bound) : Option Bound :=
  if b.num = 0 then none
  else if b.isInfinite then if a.isInfinite then none else some (.fin 0)
  else match a with
    | .fin n => (f n b.num).map .fin
    | a => some a

/-- `operator/`. -/
def div (a b : Bound) : Option Bound := absDiv (fun n c => some (n.tdiv c)) a b

/-- A number as an unsigned number of 64 bits, when it is negative. -/
def asUnsigned (n : ℤ) : Option ℤ := if 0 ≤ n then some n else castToU 64 n

/-- `udiv`. -/
def udiv (a b : Bound) : Option Bound :=
  absDiv (fun n c => do return (← asUnsigned n).tdiv (← asUnsigned c)) a b

theorem fin_div_fin (n : ℤ) {c : ℤ} (hc : c ≠ 0) : div (fin n) (fin c) = some (fin (n.tdiv c)) := by
  unfold div absDiv
  rw [if_neg (show (fin c).num ≠ 0 from hc)]
  rfl

theorem fin_udiv_fin {n c : ℤ} (hn : 0 ≤ n) (hc : 0 < c) :
    udiv (fin n) (fin c) = some (fin (n.tdiv c)) := by
  have hn' : asUnsigned n = some n := if_pos hn
  have hc' : asUnsigned c = some c := if_pos hc.le
  unfold udiv absDiv
  rw [if_neg (show (fin c).num ≠ 0 from hc.ne')]
  show Option.map fin ((asUnsigned n).bind fun a => (asUnsigned c).bind fun b => some (a.tdiv b)) = _
  rw [hn', hc']
  rfl

end Bound

/-! ## Intervals -/

namespace Interval

/-- `make_dividend_when_both_nonzero`. -/
def makeDividendWhenBothNonzero (dividend divisor : Interval) : Interval :=
  if .fin 0 ≤ dividend.ub then dividend
  else if divisor.ub < .fin 0 then (dividend.add divisor).add (const 1)
  else (dividend.add (const 1)).sub divisor

/-- The range of the four quotients of the ends. -/
def quotients (div : Bound → Bound → Option Bound) (a x : Interval) : Option Interval := do
  let ll ← div a.lb x.lb
  let lu ← div a.lb x.ub
  let ul ← div a.ub x.lb
  let uu ← div a.ub x.ub
  return ofBounds (min4 ll lu ul uu) (max4 ll lu ul uu)

/-- Division by more than one number: the parts of an interval with zero are divided by `rec`, and the
ends of the others by `div`. -/
def divRange (div : Bound → Bound → Option Bound) (rec : Interval → Interval → Option Interval)
    (I x : Interval) : Option Interval :=
  if x.contains 0 then do
    let l := ofBounds x.lb (.fin (-1))
    let u := ofBounds (.fin 1) x.ub
    return ((← rec I l).join (← rec I u)).join (const 0)
  else if I.contains 0 then do
    let l := ofBounds I.lb (.fin (-1))
    let u := ofBounds (.fin 1) I.ub
    return ((← rec l x).join (← rec u x)).join (const 0)
  else quotients div (makeDividendWhenBothNonzero I x) x

/-- The steps that `sdiv` and `udiv` share: `cast` and `single` are for a divisor that is a single
number. -/
def divStep (cast : ℤ → Option ℤ) (single : Interval → ℤ → Option Interval)
    (div : Bound → Bound → Option Bound) (rec : Interval → Interval → Option Interval)
    (I x : Interval) : Option Interval :=
  if I.isBottom || x.isBottom then some bottom
  else match x.singleton.filter fun n => FitsCast 64 n with
    | some n => do single I (← cast n)
    | none => divRange div rec I x

/-- The case of `sdiv` for a single number. -/
def sdivSingle (I : Interval) (c : ℤ) : Option Interval :=
  if c = 1 then some I
  else if c ≠ 0 then do return ofBounds (← I.lb.div (.fin c)) (← I.ub.div (.fin c))
  else some (const 0)

/-- The case of `udiv` for a single number. -/
def udivSingle (I : Interval) (c : ℤ) : Option Interval :=
  if c = 1 then some I
  else if 0 < c then do return ofBounds (← I.lb.udiv (.fin c)) (← I.ub.udiv (.fin c))
  else some (const 0)

/-- Division with parts that have no zero, so that two nested calls are enough. -/
def divide (cast : ℤ → Option ℤ) (single : Interval → ℤ → Option Interval)
    (div : Bound → Bound → Option Bound) : Interval → Interval → Option Interval :=
  divStep cast single div (divStep cast single div (divStep cast single div fun _ _ => none))

/-- `sdiv`. -/
def sdiv : Interval → Interval → Option Interval := divide (castToS 64) sdivSingle Bound.div

/-- `udiv`. -/
def udiv : Interval → Interval → Option Interval := divide (castToU 64) udivSingle Bound.udiv

/-! ## The recursion -/

theorem not_contains_below (lb : Bound) : (ofBounds lb (.fin (-1))).contains 0 = false := by
  rw [Bool.eq_false_iff, Ne, contains_iff, mem_ofBounds, Bound.fin_le_fin]
  omega

theorem not_contains_above (ub : Bound) : (ofBounds (.fin 1) ub).contains 0 = false := by
  rw [Bool.eq_false_iff, Ne, contains_iff, mem_ofBounds, Bound.fin_le_fin]
  omega

section

variable {cast : ℤ → Option ℤ} {single : Interval → ℤ → Option Interval}
  {div : Bound → Bound → Option Bound} {rec rec' : Interval → Interval → Option Interval}
  {I x : Interval}

/-- Only the parts without zero are divided by the inner call. -/
theorem divRange_congr (hx : x.contains 0 = true → ∀ y, y.contains 0 = false → rec I y = rec' I y)
    (hI : x.contains 0 = false → I.contains 0 = true → ∀ J, J.contains 0 = false → rec J x = rec' J x) :
    divRange div rec I x = divRange div rec' I x := by
  unfold divRange
  split_ifs with hx0 hI0
  · dsimp only
    rw [hx hx0 _ (not_contains_below _), hx hx0 _ (not_contains_above _)]
  · have hx0' : x.contains 0 = false := by simpa using hx0
    dsimp only
    rw [hI hx0' hI0 _ (not_contains_below _), hI hx0' hI0 _ (not_contains_above _)]
  · rfl

theorem divStep_congr (hx : x.contains 0 = true → ∀ y, y.contains 0 = false → rec I y = rec' I y)
    (hI : x.contains 0 = false → I.contains 0 = true → ∀ J, J.contains 0 = false → rec J x = rec' J x) :
    divStep cast single div rec I x = divStep cast single div rec' I x := by
  unfold divStep
  rw [divRange_congr hx hI]

/-- `divide` satisfies the recursion of the source. -/
theorem divide_eq (I x : Interval) :
    divide cast single div I x = divStep cast single div (divide cast single div) I x := by
  apply divStep_congr
  · intro _ y hy
    refine divStep_congr (fun h => by rw [hy] at h; cases h) fun _ _ J hJ => ?_
    exact divStep_congr (fun h => by rw [hy] at h; cases h) fun _ h => by rw [hJ] at h; cases h
  · intro hx _ J hJ
    refine divStep_congr (fun h => by rw [hx] at h; cases h) fun _ h => by rw [hJ] at h; cases h

end

/-! ## Finite intervals -/

section

variable {cast : ℤ → Option ℤ} {single : Interval → ℤ → Option Interval}
  {div : Bound → Bound → Option Bound} {lo hi p q c n : ℤ}

theorem ofInts_of_lt (h : hi < lo) : ofInts lo hi = bottom := if_pos (Bound.fin_lt_fin.mpr h)

theorem contains_ofInts : (ofInts lo hi).contains n = true ↔ lo ≤ n ∧ n ≤ hi := by
  rw [contains_iff, mem_ofInts]

theorem not_isBottom_ofInts (h : lo ≤ hi) : (ofInts lo hi).isBottom = false :=
  isBottom_eq_false_of_mem (mem_ofInts.mpr ⟨le_rfl, h⟩)

theorem singleton_ofInts (h : lo < hi) : (ofInts lo hi).singleton = none := by
  rw [ofInts_of_le h.le]
  exact if_neg fun heq => h.ne (Bound.fin.inj heq)

theorem ofInts_self : ofInts c c = const c := ofInts_of_le le_rfl

theorem divide_bottom_left (x : Interval) : divide cast single div bottom x = some bottom := by
  rw [divide_eq]
  exact if_pos (Bool.or_eq_true_iff.mpr (Or.inl rfl))

theorem divide_bottom_right (I : Interval) : divide cast single div I bottom = some bottom := by
  rw [divide_eq]
  exact if_pos (Bool.or_eq_true_iff.mpr (Or.inr rfl))

theorem divide_const {c' : ℤ} (h : lo ≤ hi) (hfits : FitsCast 64 c) (hcast : cast c = some c') :
    divide cast single div (ofInts lo hi) (const c) = single (ofInts lo hi) c' := by
  have hsingle : (const c).singleton.filter (fun n => FitsCast 64 n) = some c := by
    rw [show (const c).singleton = some c from if_pos rfl]
    exact if_pos (decide_eq_true hfits)
  rw [divide_eq]
  unfold divStep
  rw [not_isBottom_ofInts h, ← ofInts_self, not_isBottom_ofInts le_rfl, ofInts_self, hsingle]
  show (cast c).bind (single (ofInts lo hi)) = _
  rw [hcast]
  rfl

theorem divide_range (h : lo ≤ hi) (hpq : p < q) :
    divide cast single div (ofInts lo hi) (ofInts p q) =
      divRange div (divide cast single div) (ofInts lo hi) (ofInts p q) := by
  rw [divide_eq]
  unfold divStep
  rw [not_isBottom_ofInts h, not_isBottom_ofInts hpq.le, singleton_ofInts hpq]
  rfl

/-- A divisor with zero is split. -/
theorem divide_of_zero_divisor (h : lo ≤ hi) (hpq : p < q) (hp : p ≤ 0) (hq : 0 ≤ q) :
    divide cast single div (ofInts lo hi) (ofInts p q) = do
      let l ← divide cast single div (ofInts lo hi) (ofInts p (-1))
      let u ← divide cast single div (ofInts lo hi) (ofInts 1 q)
      return (l.join u).join (const 0) := by
  rw [divide_range h hpq]
  unfold divRange
  rw [if_pos (contains_ofInts.mpr ⟨hp, hq⟩), ofInts_of_le hpq.le]
  rfl

/-- A dividend with zero is split. -/
theorem divide_of_zero_dividend (hlo : lo ≤ 0) (hhi : 0 ≤ hi) (hpq : p < q) (h0 : q < 0 ∨ 0 < p) :
    divide cast single div (ofInts lo hi) (ofInts p q) = do
      let l ← divide cast single div (ofInts lo (-1)) (ofInts p q)
      let u ← divide cast single div (ofInts 1 hi) (ofInts p q)
      return (l.join u).join (const 0) := by
  rw [divide_range (hlo.trans hhi) hpq]
  unfold divRange
  rw [if_neg (by rw [contains_ofInts]; omega), if_pos (contains_ofInts.mpr ⟨hlo, hhi⟩),
    ofInts_of_le (hlo.trans hhi)]
  rfl

theorem divide_of_nonzero (h : lo ≤ hi) (ha : hi < 0 ∨ 0 < lo) (hpq : p < q) (h0 : q < 0 ∨ 0 < p) :
    divide cast single div (ofInts lo hi) (ofInts p q) =
      quotients div (makeDividendWhenBothNonzero (ofInts lo hi) (ofInts p q)) (ofInts p q) := by
  rw [divide_range h hpq]
  unfold divRange
  rw [if_neg (by rw [contains_ofInts]; omega), if_neg (by rw [contains_ofInts]; omega)]

/-! ## The dividend -/

theorem add_ofInts {lo' hi' : ℤ} (h : lo ≤ hi) (h' : lo' ≤ hi') :
    (ofInts lo hi).add (ofInts lo' hi') = ofInts (lo + lo') (hi + hi') := by
  unfold add
  rw [not_isBottom_ofInts h, not_isBottom_ofInts h', ofInts_of_le h, ofInts_of_le h']
  rfl

theorem sub_ofInts {lo' hi' : ℤ} (h : lo ≤ hi) (h' : lo' ≤ hi') :
    (ofInts lo hi).sub (ofInts lo' hi') = ofInts (lo - hi') (hi - lo') := by
  unfold sub
  rw [not_isBottom_ofInts h, not_isBottom_ofInts h', ofInts_of_le h, ofInts_of_le h']
  rfl

theorem makeDividend_of_nonneg (h : lo ≤ hi) (hhi : 0 ≤ hi) (x : Interval) :
    makeDividendWhenBothNonzero (ofInts lo hi) x = ofInts lo hi := by
  rw [ofInts_of_le h]
  exact if_pos hhi

theorem makeDividend_of_neg_of_pos (h : lo ≤ hi) (hhi : hi < 0) (hpq : p ≤ q) (hp : 0 < p) :
    makeDividendWhenBothNonzero (ofInts lo hi) (ofInts p q) = ofInts (lo + 1 - q) (hi + 1 - p) := by
  unfold makeDividendWhenBothNonzero
  rw [if_neg, if_neg, ← ofInts_self, add_ofInts h le_rfl, sub_ofInts (by omega) hpq]
  · rw [ofInts_of_le hpq, Bound.fin_lt_fin]
    omega
  · rw [ofInts_of_le h, Bound.fin_le_fin]
    omega

theorem makeDividend_of_neg_of_neg (h : lo ≤ hi) (hhi : hi < 0) (hpq : p ≤ q) (hq : q < 0) :
    makeDividendWhenBothNonzero (ofInts lo hi) (ofInts p q) = ofInts (lo + p + 1) (hi + q + 1) := by
  unfold makeDividendWhenBothNonzero
  rw [if_neg, if_pos, ← ofInts_self, add_ofInts h hpq, add_ofInts (by omega) le_rfl]
  · rw [ofInts_of_le hpq, Bound.fin_lt_fin]
    exact hq
  · rw [ofInts_of_le h, Bound.fin_le_fin]
    omega

/-! ## The quotients of the ends -/

theorem tdiv_between {m M P Q x y : ℤ} (hm : 0 ≤ m) (hmx : m ≤ x) (hxM : x ≤ M) (hP : 0 < P)
    (hPy : P ≤ y) (hyQ : y ≤ Q) : m.tdiv Q ≤ x.tdiv y ∧ x.tdiv y ≤ M.tdiv P := by
  have hy : 0 < y := hP.trans_le hPy
  have hanti : ∀ {n b c : ℤ}, 0 ≤ n → 0 < b → b ≤ c → n.tdiv c ≤ n.tdiv b := by
    intro n b c hn hb hbc
    rw [Int.tdiv_eq_ediv_of_nonneg hn, Int.tdiv_eq_ediv_of_nonneg hn]
    refine (Int.le_ediv_iff_mul_le hb).mpr (le_trans ?_ (Int.ediv_mul_le n (hb.trans_le hbc).ne'))
    exact Int.mul_le_mul_of_nonneg_left hbc (Int.ediv_nonneg hn (hb.le.trans hbc))
  constructor
  · exact (hanti hm hy hyQ).trans (Int.tdiv_le_tdiv hy hmx)
  · exact (Int.tdiv_le_tdiv hy hxM).trans (hanti (hm.trans (hmx.trans hxM)) hP hPy)

/-- The quotients of four numbers that lie between two of them. -/
theorem quotients_eq {a b l u : ℤ}
    (hdiv : ∀ n ∈ [a, b], ∀ c ∈ [p, q], div (.fin n) (.fin c) = some (.fin (n.tdiv c)))
    (hl : l ∈ [a.tdiv p, a.tdiv q, b.tdiv p, b.tdiv q])
    (hu : u ∈ [a.tdiv p, a.tdiv q, b.tdiv p, b.tdiv q])
    (hbetween : ∀ n ∈ [a, b], ∀ c ∈ [p, q], l ≤ n.tdiv c ∧ n.tdiv c ≤ u) :
    quotients div ⟨.fin a, .fin b⟩ ⟨.fin p, .fin q⟩ = some (ofInts l u) := by
  simp only [List.forall_mem_cons, List.not_mem_nil, false_implies, implies_true, and_true]
    at hdiv hbetween
  simp only [List.mem_cons, List.not_mem_nil, or_false] at hl hu
  obtain ⟨⟨hap, haq⟩, hbp, hbq⟩ := hdiv
  unfold quotients
  dsimp only
  rw [hap, haq, hbp, hbq]
  show some (ofBounds (((Bound.min (.fin _) (.fin _)).min (.fin _)).min (.fin _))
    (((Bound.max (.fin _) (.fin _)).max (.fin _)).max (.fin _))) = _
  simp only [Bound.min_fin, Bound.max_fin]
  show some (ofInts _ _) = _
  congr 2
  · omega
  · omega

end

section

variable {div : Bound → Bound → Option Bound} {m M P Q : ℤ}

/-- The quotients of positive numbers. -/
theorem quotients_of_pos (hm : 0 ≤ m) (hM : m ≤ M) (hP : 0 < P) (hQ : P ≤ Q)
    (hdiv : ∀ n c : ℤ, 0 ≤ n → 0 < c → div (.fin n) (.fin c) = some (.fin (n.tdiv c))) :
    quotients div (ofInts m M) (ofInts P Q) = some (ofInts (m.tdiv Q) (M.tdiv P)) := by
  rw [ofInts_of_le hM, ofInts_of_le hQ]
  refine quotients_eq (fun n hn c hc => hdiv n c ?_ ?_) (by simp) (by simp) fun n hn c hc => ?_
  · simp only [List.mem_cons, List.not_mem_nil, or_false] at hn
    omega
  · simp only [List.mem_cons, List.not_mem_nil, or_false] at hc
    omega
  · simp only [List.mem_cons, List.not_mem_nil, or_false] at hn hc
    exact tdiv_between hm (by omega) (by omega) hP (by omega) (by omega)

/-- The quotients of numbers of different signs. -/
theorem quotients_of_neg {a b p q : ℤ} (hm : 0 ≤ m) (hM : m ≤ M) (hP : 0 < P) (hQ : P ≤ Q)
    (h : (a = -M ∧ b = -m) ∧ p = P ∧ q = Q ∨ (a = m ∧ b = M) ∧ p = -Q ∧ q = -P) :
    quotients Bound.div (ofInts a b) (ofInts p q) =
      some (ofInts (-(M.tdiv P)) (-(m.tdiv Q))) := by
  have hneg : ∀ n ∈ [a, b], ∀ c ∈ [p, q], ∃ x y : ℤ, (m ≤ x ∧ x ≤ M) ∧ (P ≤ y ∧ y ≤ Q) ∧
      n.tdiv c = -(x.tdiv y) := by
    intro n hn c hc
    simp only [List.mem_cons, List.not_mem_nil, or_false] at hn hc
    rcases h with ⟨⟨rfl, rfl⟩, rfl, rfl⟩ | ⟨⟨rfl, rfl⟩, rfl, rfl⟩
    · refine ⟨-n, c, by omega, by omega, ?_⟩
      rw [Int.neg_tdiv, neg_neg]
    · refine ⟨n, -c, by omega, by omega, ?_⟩
      rw [Int.tdiv_neg, neg_neg]
  rw [ofInts_of_le (by omega), ofInts_of_le (by omega)]
  refine quotients_eq (fun n hn c hc => Bound.fin_div_fin n ?_) ?_ ?_ fun n hn c hc => ?_
  · simp only [List.mem_cons, List.not_mem_nil, or_false] at hc
    omega
  · rcases h with ⟨⟨rfl, rfl⟩, rfl, rfl⟩ | ⟨⟨rfl, rfl⟩, rfl, rfl⟩
    · simp
    · simp
  · rcases h with ⟨⟨rfl, rfl⟩, rfl, rfl⟩ | ⟨⟨rfl, rfl⟩, rfl, rfl⟩
    · simp
    · simp
  · obtain ⟨x, y, ⟨hmx, hxM⟩, ⟨hPy, hyQ⟩, heq⟩ := hneg n hn c hc
    have hbetween := tdiv_between hm hmx hxM hP hPy hyQ
    omega

/-- The quotients of negative numbers. -/
theorem quotients_of_neg_of_neg (hm : 0 ≤ m) (hM : m ≤ M) (hP : 0 < P) (hQ : P ≤ Q) :
    quotients Bound.div (ofInts (-M) (-m)) (ofInts (-Q) (-P)) =
      some (ofInts (m.tdiv Q) (M.tdiv P)) := by
  rw [ofInts_of_le (by omega), ofInts_of_le (by omega)]
  refine quotients_eq (fun n hn c hc => Bound.fin_div_fin n ?_) ?_ ?_ fun n hn c hc => ?_
  · simp only [List.mem_cons, List.not_mem_nil, or_false] at hc
    omega
  · simp
  · simp
  · simp only [List.mem_cons, List.not_mem_nil, or_false] at hn hc
    have hbetween := tdiv_between (M := M) (P := P) (Q := Q) (x := -n) (y := -c) hm (by omega) (by omega) hP (by omega)
      (by omega)
    rwa [Int.neg_tdiv_neg] at hbetween

/-- Rounding away from zero gives the same quotient. -/
theorem tdiv_round_iff (hm : 0 ≤ m) (hP : 0 < P) (hQ : P ≤ Q) :
    (P - 1 + m).tdiv Q ≤ m.tdiv Q ↔ m % Q + P ≤ Q := by
  have hQ0 : 0 < Q := hP.trans_le hQ
  have hdiv := Int.emod_add_mul_ediv m Q
  rw [Int.tdiv_eq_ediv_of_nonneg hm, Int.tdiv_eq_ediv_of_nonneg (by omega), ← Int.lt_add_one_iff,
    Int.ediv_lt_iff_lt_mul hQ0, Int.add_mul, Int.mul_comm]
  omega

end

/-! ## Quotients that are enclosed -/

/-- The result has the quotient of each two numbers, rounded towards zero; division by zero gives
zero. -/
def Encloses (r : Option Interval) (I x : Interval) : Prop :=
  ∃ i, r = some i ∧ ∀ m ∈ I, ∀ n ∈ x, m.tdiv n ∈ i

section

variable {cast : ℤ → Option ℤ} {single : Interval → ℤ → Option Interval}
  {div : Bound → Bound → Option Bound} {lo hi p q c : ℤ}

theorem encloses_ofInts {r : Option Interval} {l u : ℤ} (hr : r = some (ofInts l u)) {I x : Interval} :
    Encloses r I x ↔ ∀ m ∈ I, ∀ n ∈ x, l ≤ m.tdiv n ∧ m.tdiv n ≤ u := by
  subst hr
  constructor
  · rintro ⟨i, hi, h⟩ m hm n hn
    obtain rfl := Option.some.inj hi
    exact mem_ofInts.mp (h m hm n hn)
  · exact fun h => ⟨_, rfl, fun m hm n hn => mem_ofInts.mpr (h m hm n hn)⟩

theorem encloses_of_empty_dividend (h : hi < lo) (x : Interval) :
    Encloses (divide cast single div (ofInts lo hi) x) (ofInts lo hi) x := by
  rw [ofInts_of_lt h]
  exact ⟨_, divide_bottom_left x, fun m hm => absurd hm (not_mem_bottom m)⟩

theorem encloses_of_empty_divisor (h : q < p) (I : Interval) :
    Encloses (divide cast single div I (ofInts p q)) I (ofInts p q) := by
  rw [ofInts_of_lt h]
  exact ⟨_, divide_bottom_right I, fun _ _ n hn => absurd hn (not_mem_bottom n)⟩

theorem encloses_of_zero_divisor (h : lo ≤ hi) (hpq : p < q) (hp : p ≤ 0) (hq : 0 ≤ q)
    (hl : Encloses (divide cast single div (ofInts lo hi) (ofInts p (-1))) (ofInts lo hi) (ofInts p (-1)))
    (hu : Encloses (divide cast single div (ofInts lo hi) (ofInts 1 q)) (ofInts lo hi) (ofInts 1 q)) :
    Encloses (divide cast single div (ofInts lo hi) (ofInts p q)) (ofInts lo hi) (ofInts p q) := by
  obtain ⟨l, hl, hml⟩ := hl
  obtain ⟨u, hu, hmu⟩ := hu
  rw [divide_of_zero_divisor h hpq hp hq, hl, hu]
  refine ⟨_, rfl, fun m hm n hn => mem_join ?_⟩
  rw [mem_ofInts] at hn
  rcases lt_trichotomy n 0 with hneg | rfl | hpos
  · exact Or.inl (mem_join (Or.inl (hml m hm n (mem_ofInts.mpr ⟨hn.1, by omega⟩))))
  · exact Or.inr (mem_const.mpr (Int.tdiv_zero m))
  · exact Or.inl (mem_join (Or.inr (hmu m hm n (mem_ofInts.mpr ⟨by omega, hn.2⟩))))

theorem encloses_of_zero_dividend (hlo : lo ≤ 0) (hhi : 0 ≤ hi) (hpq : p < q) (h0 : q < 0 ∨ 0 < p)
    (hl : Encloses (divide cast single div (ofInts lo (-1)) (ofInts p q)) (ofInts lo (-1)) (ofInts p q))
    (hu : Encloses (divide cast single div (ofInts 1 hi) (ofInts p q)) (ofInts 1 hi) (ofInts p q)) :
    Encloses (divide cast single div (ofInts lo hi) (ofInts p q)) (ofInts lo hi) (ofInts p q) := by
  obtain ⟨l, hl, hml⟩ := hl
  obtain ⟨u, hu, hmu⟩ := hu
  rw [divide_of_zero_dividend hlo hhi hpq h0, hl, hu]
  refine ⟨_, rfl, fun m hm n hn => mem_join ?_⟩
  rw [mem_ofInts] at hm
  rcases lt_trichotomy m 0 with hneg | rfl | hpos
  · exact Or.inl (mem_join (Or.inl (hml m (mem_ofInts.mpr ⟨hm.1, by omega⟩) n hn)))
  · exact Or.inr (mem_const.mpr (Int.zero_tdiv n))
  · exact Or.inl (mem_join (Or.inr (hmu m (mem_ofInts.mpr ⟨by omega, hm.2⟩) n hn)))

end

/-! ## Unsigned division -/

section

variable {w : ℕ} {lo hi p q c : ℤ}

/-- A single number is read as an unsigned one. -/
theorem udiv_const_cast {c' : ℤ} (h : lo ≤ hi) (hfits : FitsCast 64 c) (hcast : castToU 64 c = some c')
    (hc' : FitsU 64 c') : udiv (ofInts lo hi) (const c) = udiv (ofInts lo hi) (const c') := by
  unfold udiv
  rw [divide_const h hfits hcast, divide_const h (Or.inr hc') (if_pos hc')]

theorem udiv_const (hlo : 0 ≤ lo) (h : lo ≤ hi) (hc : FitsU 64 c) :
    udiv (ofInts lo hi) (const c) = some (ofInts (lo.tdiv c) (hi.tdiv c)) := by
  unfold udiv
  rw [divide_const h (Or.inr hc) (if_pos hc)]
  unfold udivSingle
  split_ifs with h1 hpos
  · rw [h1, Int.tdiv_one, Int.tdiv_one]
  · rw [ofInts_of_le h]
    dsimp only
    rw [Bound.fin_udiv_fin hlo hpos, Bound.fin_udiv_fin (hlo.trans h) hpos]
    rfl
  · obtain rfl : c = 0 := le_antisymm (not_lt.mp hpos) hc.1
    rw [Int.tdiv_zero, Int.tdiv_zero, ofInts_self]

/-- A divisor above zero. -/
theorem encloses_udiv_of_pos (hlo : 0 ≤ lo) (h : lo ≤ hi) (hp : 0 < p) (hpq : p ≤ q) (hq : FitsU 64 q) :
    Encloses (udiv (ofInts lo hi) (ofInts p q)) (ofInts lo hi) (ofInts p q) := by
  rcases hpq.eq_or_lt with rfl | hlt
  · rw [ofInts_self, encloses_ofInts (udiv_const hlo h hq)]
    intro m hm n hn
    rw [mem_ofInts] at hm
    rw [mem_const.mp hn]
    exact ⟨Int.tdiv_le_tdiv hp hm.1, Int.tdiv_le_tdiv hp hm.2⟩
  have hpos : ∀ {lo : ℤ}, 0 < lo → Encloses (udiv (ofInts lo hi) (ofInts p q)) (ofInts lo hi)
      (ofInts p q) := by
    intro lo hlo
    rcases lt_or_ge hi lo with hempty | h
    · exact encloses_of_empty_dividend hempty _
    have heq := @divide_of_nonzero (castToU 64) udivSingle Bound.udiv _ _ _ _ h (Or.inr hlo) hlt
      (Or.inr hp)
    rw [makeDividend_of_nonneg h (hlo.le.trans h), quotients_of_pos hlo.le h hp hpq
      fun n c hn hc => Bound.fin_udiv_fin hn hc] at heq
    refine (encloses_ofInts heq).mpr fun m hm n hn => ?_
    rw [mem_ofInts] at hm hn
    exact tdiv_between hlo.le hm.1 hm.2 hp hn.1 hn.2
  rcases hlo.eq_or_lt with rfl | hlo
  · exact encloses_of_zero_dividend le_rfl h hlt (Or.inr hp)
      (encloses_of_empty_dividend (by omega) _) (hpos one_pos)
  · exact hpos hlo

theorem udiv_sound (hlo : 0 ≤ lo) (h : lo ≤ hi) (hp : 0 ≤ p) (hpq : p ≤ q) (hq : FitsU 64 q) :
    Encloses (udiv (ofInts lo hi) (ofInts p q)) (ofInts lo hi) (ofInts p q) := by
  rcases hp.eq_or_lt with rfl | hp
  · rcases hpq.eq_or_lt with rfl | hpq
    · rw [ofInts_self, encloses_ofInts (udiv_const hlo h hq)]
      intro m _ n hn
      rw [mem_const.mp hn, Int.tdiv_zero, Int.tdiv_zero, Int.tdiv_zero]
      exact ⟨le_rfl, le_rfl⟩
    · exact encloses_of_zero_divisor h hpq le_rfl hpq.le (encloses_of_empty_divisor (by omega) _)
        (encloses_udiv_of_pos hlo h one_pos hpq hq)
  · exact encloses_udiv_of_pos hlo h hp hpq hq

end

/-! ## Signed division -/

/-- When signed division loses no quotient: a divisor that is a negative number gives one quotient; a
divisor from -1 upwards leaves out the negated dividend, unless the rest has it; and a negative
dividend keeps its least quotient when it is moved away from zero. -/
def SdivExact (lo hi p q : ℤ) : Prop :=
  if p = q then 0 ≤ p ∨ lo.tdiv p = hi.tdiv p
  else if p ≤ 0 ∧ 0 ≤ q then p ≠ -1 ∨ lo = hi ∨ lo < 0 ∧ -lo ≤ hi ∧ hi ≤ q - 1 - lo
  else 0 ≤ hi ∨ -hi % max |p| |q| + min |p| |q| ≤ max |p| |q|

instance (lo hi p q : ℤ) : Decidable (SdivExact lo hi p q) := by
  unfold SdivExact
  infer_instance

section

variable {lo hi p q c : ℤ}

theorem sdiv_const (h : lo ≤ hi) (hc : FitsS 64 c) :
    sdiv (ofInts lo hi) (const c) = some (ofInts (lo.tdiv c) (hi.tdiv c)) := by
  unfold sdiv
  rw [divide_const h (Or.inl hc) (if_pos hc)]
  unfold sdivSingle
  split_ifs with h1 h0
  · rw [h1, Int.tdiv_one, Int.tdiv_one]
  · rw [ofInts_of_le h]
    dsimp only
    rw [Bound.fin_div_fin lo h0, Bound.fin_div_fin hi h0]
    rfl
  · rw [not_not.mp h0, Int.tdiv_zero, Int.tdiv_zero, ofInts_self]

theorem sdiv_of_nonzero (h : lo ≤ hi) (ha : hi < 0 ∨ 0 < lo) (hpq : p < q) (h0 : q < 0 ∨ 0 < p) :
    sdiv (ofInts lo hi) (ofInts p q) =
      quotients Bound.div (makeDividendWhenBothNonzero (ofInts lo hi) (ofInts p q)) (ofInts p q) :=
  divide_of_nonzero h ha hpq h0

theorem sdiv_pos_pos (hlo : 0 < lo) (h : lo ≤ hi) (hp : 0 < p) (hpq : p < q) :
    sdiv (ofInts lo hi) (ofInts p q) = some (ofInts (lo.tdiv q) (hi.tdiv p)) := by
  rw [sdiv_of_nonzero h (Or.inr hlo) hpq (Or.inr hp), makeDividend_of_nonneg h (by omega),
    quotients_of_pos hlo.le h hp hpq.le fun n c _ hc => Bound.fin_div_fin n hc.ne']

theorem sdiv_pos_neg (hlo : 0 < lo) (h : lo ≤ hi) (hpq : p < q) (hq : q < 0) :
    sdiv (ofInts lo hi) (ofInts p q) = some (ofInts (-(hi.tdiv (-q))) (-(lo.tdiv (-p)))) := by
  rw [sdiv_of_nonzero h (Or.inr hlo) hpq (Or.inl hq), makeDividend_of_nonneg h (by omega),
    quotients_of_neg (m := lo) (M := hi) (P := -q) (Q := -p) (by omega) h (by omega) (by omega)
      (Or.inr ⟨⟨rfl, rfl⟩, by omega, by omega⟩)]

theorem sdiv_neg_pos (h : lo ≤ hi) (hhi : hi < 0) (hp : 0 < p) (hpq : p < q) :
    sdiv (ofInts lo hi) (ofInts p q) =
      some (ofInts (-((q - 1 - lo).tdiv p)) (-((p - 1 + -hi).tdiv q))) := by
  rw [sdiv_of_nonzero h (Or.inl hhi) hpq (Or.inr hp), makeDividend_of_neg_of_pos h hhi hpq.le hp,
    quotients_of_neg (m := p - 1 + -hi) (M := q - 1 - lo) (P := p) (Q := q) (by omega) (by omega) hp
      hpq.le (Or.inl ⟨⟨by omega, by omega⟩, rfl, rfl⟩)]

theorem sdiv_neg_neg (h : lo ≤ hi) (hhi : hi < 0) (hpq : p < q) (hq : q < 0) :
    sdiv (ofInts lo hi) (ofInts p q) =
      some (ofInts ((-q - 1 + -hi).tdiv (-p)) ((-p - 1 - lo).tdiv (-q))) := by
  have hquot := quotients_of_neg_of_neg (m := -q - 1 + -hi) (M := -p - 1 - lo) (P := -q) (Q := -p)
    (by omega) (by omega) (by omega) (by omega)
  rw [sdiv_of_nonzero h (Or.inl hhi) hpq (Or.inl hq), makeDividend_of_neg_of_neg h hhi hpq.le hq]
  rw [← hquot]
  congr 2 <;> omega

/-! ### A divisor that is not zero -/

theorem encloses_sdiv_of_pos (hlo : 0 < lo) (hpq : p < q) (h0 : q < 0 ∨ 0 < p) :
    Encloses (sdiv (ofInts lo hi) (ofInts p q)) (ofInts lo hi) (ofInts p q) := by
  rcases lt_or_ge hi lo with hempty | h
  · exact encloses_of_empty_dividend hempty _
  rcases h0 with hq | hp
  · refine (encloses_ofInts (sdiv_pos_neg hlo h hpq hq)).mpr fun m hm n hn => ?_
    rw [mem_ofInts] at hm hn
    have hbetween := tdiv_between (P := -q) (Q := -p) (y := -n) hlo.le hm.1 hm.2 (by omega) (by omega)
      (by omega)
    rw [Int.tdiv_neg m n] at hbetween
    omega
  · refine (encloses_ofInts (sdiv_pos_pos hlo h hp hpq)).mpr fun m hm n hn => ?_
    rw [mem_ofInts] at hm hn
    exact tdiv_between hlo.le hm.1 hm.2 hp hn.1 hn.2

theorem encloses_sdiv_of_neg (h : lo ≤ hi) (hhi : hi < 0) (hpq : p < q) (h0 : q < 0 ∨ 0 < p) :
    Encloses (sdiv (ofInts lo hi) (ofInts p q)) (ofInts lo hi) (ofInts p q) ↔
      -hi % max |p| |q| + min |p| |q| ≤ max |p| |q| := by
  rcases h0 with hq | hp
  · rw [encloses_ofInts (sdiv_neg_neg h hhi hpq hq), abs_of_neg hq, abs_of_neg (hpq.trans hq),
      max_eq_left (by omega), min_eq_right (by omega),
      ← tdiv_round_iff (m := -hi) (P := -q) (Q := -p) (by omega) (by omega) (by omega)]
    constructor
    · intro hall
      have hleast := (hall hi (mem_ofInts.mpr ⟨h, le_rfl⟩) p (mem_ofInts.mpr ⟨le_rfl, hpq.le⟩)).1
      rwa [← Int.neg_tdiv_neg hi p] at hleast
    · intro hround m hm n hn
      rw [mem_ofInts] at hm hn
      have hbetween := tdiv_between (m := -hi) (M := -p - 1 - lo) (P := -q) (Q := -p) (x := -m) (y := -n)
        (by omega) (by omega) (by omega) (by omega) (by omega) (by omega)
      rw [Int.neg_tdiv_neg m n] at hbetween
      omega
  · rw [encloses_ofInts (sdiv_neg_pos h hhi hp hpq), abs_of_pos hp, abs_of_pos (hp.trans hpq),
      max_eq_right hpq.le, min_eq_left hpq.le,
      ← tdiv_round_iff (m := -hi) (P := p) (Q := q) (by omega) hp hpq.le]
    constructor
    · intro hall
      have hleast := (hall hi (mem_ofInts.mpr ⟨h, le_rfl⟩) q (mem_ofInts.mpr ⟨hpq.le, le_rfl⟩)).2
      rw [Int.neg_tdiv]
      omega
    · intro hround m hm n hn
      rw [mem_ofInts] at hm hn
      have hbetween := tdiv_between (m := -hi) (M := q - 1 - lo) (P := p) (Q := q) (x := -m) (y := n)
        (by omega) (by omega) (by omega) hp (by omega) (by omega)
      rw [Int.neg_tdiv m n] at hbetween
      omega

/-- A divisor of more than one number, none of them zero. -/
theorem encloses_sdiv_iff_of_nonzero (h : lo ≤ hi) (hpq : p < q) (h0 : q < 0 ∨ 0 < p) :
    Encloses (sdiv (ofInts lo hi) (ofInts p q)) (ofInts lo hi) (ofInts p q) ↔
      0 ≤ hi ∨ -hi % max |p| |q| + min |p| |q| ≤ max |p| |q| := by
  rcases lt_or_ge hi 0 with hhi | hhi
  · rw [encloses_sdiv_of_neg h hhi hpq h0, or_iff_right (not_le.mpr hhi)]
  · refine iff_of_true ?_ (Or.inl hhi)
    rcases lt_or_ge 0 lo with hlo | hlo
    · exact encloses_sdiv_of_pos hlo hpq h0
    refine encloses_of_zero_dividend hlo hhi hpq h0 ?_ (encloses_sdiv_of_pos one_pos hpq h0)
    rcases eq_or_lt_of_le hlo with rfl | hlo
    · exact encloses_of_empty_dividend (by omega) _
    · -- a remainder of one is small enough
      refine (encloses_sdiv_of_neg (by omega) (by omega) hpq h0).mpr ?_
      have hmin : 0 < min |p| |q| ∧ min |p| |q| < max |p| |q| := by
        rcases h0 with hq | hp
        · rw [abs_of_neg hq, abs_of_neg (hpq.trans hq)]
          omega
        · rw [abs_of_pos hp, abs_of_pos (hp.trans hpq)]
          omega
      have hmax : 1 < max |p| |q| := by omega
      rw [neg_neg, Int.emod_eq_of_lt zero_le_one hmax]
      omega

/-! ### A divisor that is a number -/

theorem encloses_sdiv_const_iff (h : lo ≤ hi) (hc : FitsS 64 c) :
    Encloses (sdiv (ofInts lo hi) (const c)) (ofInts lo hi) (const c) ↔
      0 ≤ c ∨ lo.tdiv c = hi.tdiv c := by
  have hanti : c < 0 → ∀ {m n : ℤ}, m ≤ n → n.tdiv c ≤ m.tdiv c := by
    intro hneg m n hmn
    have hle := Int.tdiv_le_tdiv (c := -c) (by omega) hmn
    rw [Int.tdiv_neg, Int.tdiv_neg] at hle
    omega
  rw [encloses_ofInts (sdiv_const h hc)]
  constructor
  · intro hall
    refine or_iff_not_imp_left.mpr fun hneg => le_antisymm ?_ (hanti (not_le.mp hneg) h)
    exact (hall lo (mem_ofInts.mpr ⟨le_rfl, h⟩) c (mem_const.mpr rfl)).2
  · intro hcase m hm n hn
    rw [mem_ofInts] at hm
    rw [mem_const.mp hn]
    rcases lt_trichotomy c 0 with hneg | rfl | hpos
    · have heq := hcase.resolve_left (not_le.mpr hneg)
      have hm1 := hanti hneg hm.1
      have hm2 := hanti hneg hm.2
      omega
    · rw [Int.tdiv_zero, Int.tdiv_zero, Int.tdiv_zero]
      exact ⟨le_rfl, le_rfl⟩
    · exact ⟨Int.tdiv_le_tdiv hpos hm.1, Int.tdiv_le_tdiv hpos hm.2⟩

/-! ### A divisor with zero -/

theorem join_ofInts {l u l' u' : ℤ} (h : l ≤ u) (h' : l' ≤ u') :
    (ofInts l u).join (ofInts l' u') = ofInts (min l l') (max u u') := by
  unfold join
  rw [not_isBottom_ofInts h, not_isBottom_ofInts h', ofInts_of_le h, ofInts_of_le h']
  show ofBounds (Bound.min (.fin _) (.fin _)) (Bound.max (.fin _) (.fin _)) = _
  rw [Bound.min_fin, Bound.max_fin]
  rfl

theorem bottom_join (x : Interval) : bottom.join x = x := rfl

theorem encloses_sdiv_upTo (h : lo ≤ hi) (hq : FitsS 64 q) :
    Encloses (sdiv (ofInts lo hi) (ofInts 1 q)) (ofInts lo hi) (ofInts 1 q) := by
  rcases lt_trichotomy q 1 with hq1 | rfl | hq1
  · exact encloses_of_empty_divisor hq1 _
  · rw [ofInts_self]
    exact (encloses_sdiv_const_iff h hq).mpr (Or.inl zero_le_one)
  · refine (encloses_sdiv_iff_of_nonzero h hq1 (Or.inr one_pos)).mpr (Or.inr ?_)
    have hmod := Int.emod_lt_of_pos (-hi) (zero_lt_one.trans hq1)
    rw [abs_of_pos one_pos, abs_of_pos (zero_lt_one.trans hq1), max_eq_right hq1.le, min_eq_left hq1.le]
    omega

/-- The quotients by one to `q`, and zero. -/
theorem sdiv_upTo (h : lo ≤ hi) (h1 : 1 ≤ q) (hq : FitsS 64 q) :
    ∃ u, sdiv (ofInts lo hi) (ofInts 1 q) = some u ∧
      u.join (const 0) = ofInts (if lo < 0 then lo + 1 - q else 0) (max hi 0) := by
  rcases h1.eq_or_lt with rfl | h1
  · refine ⟨_, ofInts_self ▸ sdiv_const h hq, ?_⟩
    rw [Int.tdiv_one, Int.tdiv_one, ← ofInts_self, join_ofInts h le_rfl]
    congr 1
    split_ifs <;> omega
  have hpos : ∀ {lo : ℤ}, 0 < lo → lo ≤ hi →
      ∃ l, 0 ≤ l ∧ l ≤ hi ∧ sdiv (ofInts lo hi) (ofInts 1 q) = some (ofInts l hi) := by
    intro lo hlo h
    refine ⟨lo.tdiv q, Int.tdiv_nonneg hlo.le (by omega), ?_, ?_⟩
    · have hle := (tdiv_between hlo.le le_rfl h one_pos h1.le le_rfl).2
      have hdiv := (tdiv_between hlo.le h le_rfl one_pos le_rfl h1.le).2
      rw [Int.tdiv_one] at hle
      exact hle
    · rw [sdiv_pos_pos hlo h one_pos h1, Int.tdiv_one]
  have hneg : ∀ {hi : ℤ}, lo ≤ hi → hi < 0 →
      ∃ u, u ≤ 0 ∧ lo + 1 - q ≤ u ∧ sdiv (ofInts lo hi) (ofInts 1 q) = some (ofInts (lo + 1 - q) u) := by
    intro hi h hhi
    have hle := tdiv_between (m := 0) (M := -hi) (P := 1) (Q := q) (x := -hi) (y := q) le_rfl (by omega)
      le_rfl one_pos h1.le le_rfl
    rw [Int.zero_tdiv, Int.tdiv_one] at hle
    refine ⟨-((1 - 1 + -hi).tdiv q), ?_, ?_, ?_⟩
    · rw [sub_self, zero_add]
      omega
    · rw [sub_self, zero_add]
      omega
    · rw [sdiv_neg_pos h hhi one_pos h1, Int.tdiv_one]
      congr 2
      omega
  rcases lt_or_ge 0 lo with hlo | hlo
  · obtain ⟨l, hl, hlhi, heq⟩ := hpos hlo h
    refine ⟨_, heq, ?_⟩
    rw [← ofInts_self, join_ofInts hlhi le_rfl, if_neg (by omega), min_eq_right hl]
  rcases lt_or_ge hi 0 with hhi | hhi
  · obtain ⟨u, hu, hlu, heq⟩ := hneg h hhi
    refine ⟨_, heq, ?_⟩
    rw [← ofInts_self, join_ofInts hlu le_rfl, if_pos (by omega), max_eq_right hu,
      max_eq_right hhi.le, min_eq_left (by omega)]
  · -- the parts below and above zero, of which one or both may be empty
    have hsplit := @divide_of_zero_dividend (castToS 64) sdivSingle Bound.div _ _ _ _ hlo hhi h1
      (Or.inr one_pos)
    have hbelow : sdiv (ofInts lo (-1)) (ofInts 1 q) = some bottom ∧ 0 ≤ lo ∨
        ∃ u, (u ≤ 0 ∧ lo + 1 - q ≤ u ∧ lo < 0) ∧
          sdiv (ofInts lo (-1)) (ofInts 1 q) = some (ofInts (lo + 1 - q) u) := by
      rcases lt_or_ge lo 0 with hlo | hlo
      · obtain ⟨u, hu, hlu, heq⟩ := hneg (show lo ≤ -1 by omega) (by omega)
        exact Or.inr ⟨u, ⟨hu, hlu, hlo⟩, heq⟩
      · rw [ofInts_of_lt (show (-1 : ℤ) < lo by omega)]
        exact Or.inl ⟨divide_bottom_left _, hlo⟩
    have habove : sdiv (ofInts 1 hi) (ofInts 1 q) = some bottom ∧ hi ≤ 0 ∨
        ∃ l, (0 ≤ l ∧ l ≤ hi) ∧ sdiv (ofInts 1 hi) (ofInts 1 q) = some (ofInts l hi) := by
      rcases lt_or_ge 0 hi with hhi | hhi
      · obtain ⟨l, hl, hlhi, heq⟩ := hpos one_pos (show 1 ≤ hi by omega)
        exact Or.inr ⟨l, ⟨hl, hlhi⟩, heq⟩
      · rw [ofInts_of_lt (show hi < 1 by omega)]
        exact Or.inl ⟨divide_bottom_left _, hhi⟩
    obtain ⟨l, r, hl, hr, hjoin⟩ : ∃ l r, sdiv (ofInts lo (-1)) (ofInts 1 q) = some l ∧
        sdiv (ofInts 1 hi) (ofInts 1 q) = some r ∧ ((l.join r).join (const 0)).join (const 0) =
          ofInts (if lo < 0 then lo + 1 - q else 0) (max hi 0) := by
      rw [← ofInts_self]
      rcases hbelow with ⟨hb, hlo'⟩ | ⟨u, ⟨hu, hlu, hlo'⟩, hb⟩ <;>
        rcases habove with ⟨ha, hhi'⟩ | ⟨l, ⟨hl, hlhi⟩, ha⟩ <;>
        refine ⟨_, _, hb, ha, ?_⟩
      · rw [bottom_join, bottom_join, join_ofInts le_rfl le_rfl, if_neg (by omega), max_eq_right hhi']
        rfl
      · rw [bottom_join, join_ofInts hlhi le_rfl, join_ofInts (by omega) le_rfl, if_neg (by omega)]
        congr 1 <;> omega
      · rw [show (ofInts (lo + 1 - q) u).join bottom = ofInts (lo + 1 - q) u from if_neg (by
          rw [not_isBottom_ofInts hlu]; simp), join_ofInts hlu le_rfl, join_ofInts (by omega) le_rfl,
          if_pos hlo']
        congr 1 <;> omega
      · rw [join_ofInts hlu hlhi, join_ofInts (by omega) le_rfl, join_ofInts (by omega) le_rfl,
          if_pos hlo']
        congr 1 <;> omega
    refine ⟨_, ?_, hjoin⟩
    refine hsplit.trans ?_
    rw [show divide (castToS 64) sdivSingle Bound.div = sdiv from rfl, hl, hr]
    rfl

/-- Divisors below minus one. -/
theorem encloses_sdiv_below (h : lo ≤ hi) (hne : p ≠ -1) :
    Encloses (sdiv (ofInts lo hi) (ofInts p (-1))) (ofInts lo hi) (ofInts p (-1)) := by
  rcases lt_or_ge (-1) p with hp1 | hp1
  · exact encloses_of_empty_divisor hp1 _
  have hp1 : p < -1 := lt_of_le_of_ne hp1 hne
  refine (encloses_sdiv_iff_of_nonzero h hp1 (Or.inl (by omega))).mpr (Or.inr ?_)
  have hmod := Int.emod_lt_of_pos (-hi) (show 0 < -p by omega)
  rw [abs_of_neg (show p < 0 by omega), abs_of_neg (show (-1 : ℤ) < 0 by omega), max_eq_left (by omega),
    min_eq_right (by omega)]
  omega

theorem fits_neg_one : FitsS 64 (-1) := by decide

/-- The divisor reaches from minus one upwards. -/
theorem encloses_sdiv_neg_one (h : lo < hi) (hq : 0 ≤ q) (hfits : FitsS 64 q) :
    Encloses (sdiv (ofInts lo hi) (ofInts (-1) q)) (ofInts lo hi) (ofInts (-1) q) ↔
      lo < 0 ∧ -lo ≤ hi ∧ hi ≤ q - 1 - lo := by
  have hneg : ∀ m : ℤ, m.tdiv (-1) = -m := fun m => by rw [Int.tdiv_neg, Int.tdiv_one]
  have hl : sdiv (ofInts lo hi) (ofInts (-1) (-1)) = some bottom := by
    rw [ofInts_self, sdiv_const h.le fits_neg_one, hneg, hneg, ofInts_of_lt (by omega)]
  -- only the quotients by positive divisors and zero are left
  obtain ⟨u, hu, hjoin⟩ : ∃ u, sdiv (ofInts lo hi) (ofInts 1 q) = some u ∧
      u.join (const 0) = ofInts (if lo < 0 ∧ 0 < q then lo + 1 - q else 0) (if 0 < q then max hi 0 else 0) := by
    rcases lt_or_ge 0 q with h1 | h1
    · obtain ⟨u, hu, hjoin⟩ := sdiv_upTo h.le h1 hfits
      refine ⟨u, hu, ?_⟩
      rw [hjoin]
      simp only [h1, and_true, if_true]
    · rw [ofInts_of_lt (show q < 1 by omega)]
      refine ⟨bottom, divide_bottom_right _, ?_⟩
      rw [bottom_join, if_neg (by omega), if_neg (by omega), ofInts_self]
  have heq : sdiv (ofInts lo hi) (ofInts (-1) q) = some (ofInts (if lo < 0 ∧ 0 < q then lo + 1 - q else 0)
      (if 0 < q then max hi 0 else 0)) := by
    refine (divide_of_zero_divisor h.le (by omega) (by omega) hq).trans ?_
    rw [show divide (castToS 64) sdivSingle Bound.div = sdiv from rfl, hl, hu]
    show some ((bottom.join u).join (const 0)) = _
    rw [bottom_join, hjoin]
  rw [encloses_ofInts heq]
  constructor
  · intro hall
    have hmem : ∀ m, lo ≤ m → m ≤ hi → _ := fun m hm hm' =>
      hall m (mem_ofInts.mpr ⟨hm, hm'⟩) (-1) (mem_ofInts.mpr ⟨le_rfl, by omega⟩)
    have hlo := hmem lo le_rfl h.le
    have hhi := hmem hi h.le le_rfl
    rw [hneg] at hlo hhi
    split_ifs at hlo hhi <;> omega
  · rintro ⟨hlo, hle, hge⟩ m hm n hn
    have hq0 : 0 < q := by omega
    have hup := encloses_sdiv_upTo h.le hfits
    rw [mem_ofInts] at hm hn
    rw [← mem_ofInts, ← hjoin]
    rcases lt_trichotomy n 0 with hn0 | rfl | hn0
    · obtain rfl : n = -1 := by omega
      rw [hneg, hjoin, mem_ofInts, if_pos ⟨hlo, hq0⟩, if_pos hq0]
      omega
    · exact mem_join (Or.inr (mem_const.mpr (Int.tdiv_zero m)))
    · obtain ⟨u', hu', hall⟩ := hup
      obtain rfl := Option.some.inj (hu.symm.trans hu')
      exact mem_join (Or.inl (hall m (mem_ofInts.mpr hm) n (mem_ofInts.mpr ⟨hn0, hn.2⟩)))

theorem encloses_sdiv_iff (h : lo ≤ hi) (hpq : p ≤ q) (hp : FitsS 64 p) (hq : FitsS 64 q) :
    Encloses (sdiv (ofInts lo hi) (ofInts p q)) (ofInts lo hi) (ofInts p q) ↔ SdivExact lo hi p q := by
  unfold SdivExact
  split_ifs with heq h0
  · subst heq
    rw [ofInts_self]
    exact encloses_sdiv_const_iff h hp
  · have hlt : p < q := lt_of_le_of_ne hpq heq
    by_cases hp1 : p = -1 ∧ lo ≠ hi
    · obtain ⟨rfl, hne⟩ := hp1
      rw [encloses_sdiv_neg_one (lt_of_le_of_ne h hne) h0.2 hq, or_iff_right (not_not.mpr rfl),
        or_iff_right hne]
    · refine iff_of_true (encloses_of_zero_divisor h hlt h0.1 h0.2 ?_ (encloses_sdiv_upTo h hq)) ?_
      · rcases eq_or_ne p (-1) with rfl | hne
        · obtain rfl : lo = hi := by omega
          rw [ofInts_self (c := -1)]
          exact (encloses_sdiv_const_iff h fits_neg_one).mpr (Or.inr rfl)
        · exact encloses_sdiv_below h hne
      · omega
  · exact encloses_sdiv_iff_of_nonzero h (lt_of_le_of_ne hpq heq) (by omega)

/-- Within the range of the width, unsigned division loses no quotient and signed division loses none
exactly when it is exact. -/
theorem encloses_iff {w : ℕ} (hw : w = 32 ∨ w = 64) :
    (∀ lo hi p q, lo ≤ hi → p ≤ q → FitsS w lo → FitsS w hi → FitsS w p → FitsS w q →
      (Encloses (sdiv (ofInts lo hi) (ofInts p q)) (ofInts lo hi) (ofInts p q) ↔
        SdivExact lo hi p q)) ∧
    ∀ lo hi p q, lo ≤ hi → p ≤ q → FitsU w lo → FitsU w hi → FitsU w p → FitsU w q →
      Encloses (udiv (ofInts lo hi) (ofInts p q)) (ofInts lo hi) (ofInts p q) := by
  have hS : ∀ {n : ℤ}, FitsS w n → FitsS 64 n := by
    rcases hw with rfl | rfl
    · unfold FitsS minInt maxInt
      norm_num
      omega
    · exact id
  have hU : ∀ {n : ℤ}, FitsU w n → FitsU 64 n := by
    rcases hw with rfl | rfl
    · unfold FitsU maxUint maxInt
      norm_num
      omega
    · exact id
  constructor
  · exact fun lo hi p q h hpq _ _ hp hq => encloses_sdiv_iff h hpq (hS hp) (hS hq)
  · exact fun lo hi p q h hpq hlo _ hp hq => udiv_sound hlo.1 h hp.1 hpq (hU hq)

theorem encloses_iff_32 :
    (Encloses (sdiv (ofInts (-7) 9) (ofInts (-4) 5)) (ofInts (-7) 9) (ofInts (-4) 5) ↔
      SdivExact (-7) 9 (-4) 5) ∧
    Encloses (udiv (ofInts 3 9) (ofInts 0 5)) (ofInts 3 9) (ofInts 0 5) :=
  ⟨(encloses_iff (w := 32) (Or.inl rfl)).1 (-7) 9 (-4) 5 (by decide) (by decide) (by decide) (by decide)
      (by decide) (by decide),
    (encloses_iff (w := 32) (Or.inl rfl)).2 3 9 0 5 (by decide) (by decide) (by decide) (by decide)
      (by decide) (by decide)⟩

/-- The quotients of 4 to 8 by -2, and the quotient of -3 by 4. -/
theorem not_encloses_sdiv :
    ¬ Encloses (sdiv (ofInts 4 8) (ofInts (-2) (-2))) (ofInts 4 8) (ofInts (-2) (-2)) ∧
      ¬ Encloses (sdiv (ofInts (-3) (-3)) (ofInts 3 4)) (ofInts (-3) (-3)) (ofInts 3 4) := by
  have hfits : ∀ n ∈ ([-2, 3, 4] : List ℤ), FitsS 64 n := by decide
  constructor
  · rw [encloses_sdiv_iff (by omega) le_rfl (hfits _ (by simp)) (hfits _ (by simp))]
    decide
  · rw [encloses_sdiv_iff le_rfl (by omega) (hfits _ (by simp)) (hfits _ (by simp))]
    decide

end

end Interval

end Prevail
