import Prevail.Crab.Apply
import Prevail.Crab.Assume64
import Prevail.Crab.Keeps
import Prevail.Crab.RegisterTypes

/-!
# Shifts and sign extension

`shl`, `lshr` and `ashr` shift the ends of the interval of a register in native arithmetic. For `shl` the
bits that are shifted out are compared first, with a native shift by the rest of the width: for a count of
zero this is a shift of a 64-bit word by 64. `lshr` casts the ends of the interval to words of the width of
the operation, which raises an error for an end that does not fit.

`sign_extend` reads the low bits of a register as a signed number.
-/

namespace Prevail

open Number LinearExpression

namespace FiniteDomain

variable {V : Type} [LinearOrder V]

/-! ## Native shifts -/

/-- `<<` of an unsigned word of `n` bits. A count out of range is undefined behaviour. -/
def nativeShl (n : ℕ) (x count : ℤ) : Option ℤ :=
  if 0 ≤ count ∧ count < n then some (x * 2 ^ count.toNat % 2 ^ n) else none

/-- `>>` of a word of `n` bits. -/
def nativeShr (n : ℕ) (x count : ℤ) : Option ℤ :=
  if 0 ≤ count ∧ count < n then some (x / 2 ^ count.toNat) else none

/-! ## The operations -/

/-- The interval that `shl` sets for one with the ends `lb` and `ub`: the bits that are shifted out decide
whether all combinations of the others are possible. -/
def shlRange (lb ub imm : ℤ) (w : ℕ) : Option Interval := do
  let uintMax := if w = 64 then maxUint 64 else maxUint 32
  if (← nativeShr 64 lb (w - imm)) ≠ (← nativeShr 64 ub (w - imm)) then
    return Interval.ofInts 0 ((← nativeShl 64 uintMax imm).land uintMax)
  else
    return Interval.ofInts ((← nativeShl 64 lb imm).land uintMax) ((← nativeShl 64 ub imm).land uintMax)

/-- The interval that `lshr` sets, with the assertion that the ends at 32 bits are in order. -/
def lshrRange (uinterval : Interval) (imm : ℤ) (w : ℕ) : Option Interval :=
  if uinterval.finiteSize = none then do
    return Interval.ofInts 0 (← nativeShr 64 (maxUint 64) imm)
  else do
    let lb ← uinterval.lb.number
    let ub ← uinterval.ub.number
    if w = 64 then
      return Interval.ofInts (← nativeShr 64 (← castToU 64 lb) imm) (← nativeShr 64 (← castToU 64 ub) imm)
    else
      let lb ← nativeShr 32 (← castToU 32 (← castToS w lb)) imm
      let ub ← nativeShr 32 (← castToU 32 (← castToS w ub)) imm
      guard (lb ≤ ub)
      return Interval.ofInts lb ub

/-- The interval that `ashr` sets: at 32 bits the ends are words again, which need not be in order. -/
def ashrRange (left : Interval) (imm : ℤ) (w : ℕ) : Option Interval := do
  let full := Interval.ofInts (← nativeShr 64 (minInt 64) imm) (← nativeShr 64 (maxInt 64) imm)
  if left.finiteSize = none then return full
  else
    let lb ← left.lb.number
    let ub ← left.ub.number
    if w = 64 then
      return Interval.ofInts (← nativeShr 64 (← castToS 64 lb) imm) (← nativeShr 64 (← castToS 64 ub) imm)
    else
      let lb ← castToU 32 ((← castToS w lb) / 2 ^ imm.toNat)
      let ub ← castToU 32 ((← castToS w ub) / 2 ^ imm.toNat)
      return if lb ≤ ub then Interval.ofInts lb ub else full

/-- The count of `ashr`, masked as the ISA requires. -/
def ashrCount (n : ℤ) (w : ℕ) : ℤ := (BitVec.ofInt 64 n &&& BitVec.ofNat 64 (w - 1)).toNat

section

variable (d : SplitDbm V) (svalue uvalue : V)

/-- `shl_overflow` by a number. -/
def shlOverflow (op2 : ℤ) : Option (SplitDbm V) :=
  applyUnsigned (fun _ => true) d (.bitwise .shl) svalue uvalue uvalue (.inr op2) 64

/-- `shl`. -/
def shl (imm : ℤ) (w : ℕ) : Option (SplitDbm V) :=
  let uinterval := d.evalInterval (.var uvalue)
  if uinterval.finiteSize = none then shlOverflow d svalue uvalue imm
  else do
    let lb ← narrowU 64 (← uinterval.lb.number)
    let ub ← narrowU 64 (← uinterval.ub.number)
    let i ← shlRange lb ub imm w
    let d ← set d uvalue i
    overflowBounds (d.assign svalue (.var uvalue)) svalue uvalue w

/-- `lshr`. -/
def lshr (imm : ℤ) (w : ℕ) : Option (SplitDbm V) := do
  let i ← lshrRange (d.evalInterval (.var uvalue)) imm w
  let d ← set d uvalue i
  overflowBounds (d.assign svalue (.var uvalue)) svalue uvalue w

/-- `ashr`. -/
def ashr (rightSvalue : LinearExpression V) (w : ℕ) : Option (SplitDbm V) :=
  let operands := getSignedIntervals d svalue uvalue rightSvalue (w = 64)
  match operands.right.singleton with
  | none => some ((d.havoc svalue).havoc uvalue)
  | some sn => do
    let i ← ashrRange operands.left (ashrCount (← castToS 64 sn) w) w
    let d ← set d svalue i
    overflowBounds (d.assign uvalue (.var svalue)) svalue uvalue w

/-- `sign_extend`. -/
def signExtend (rightSvalue : LinearExpression V) (targetWidth sourceWidth : ℕ) :
    Option (SplitDbm V) := do
  let extended := (d.evalInterval rightSvalue).signExtend sourceWidth
  if extended.isBottom then none
  else
    let d ← set d svalue extended
    overflowBounds (d.assign uvalue (.var svalue)) svalue uvalue targetWidth

end

/-! ## The words of the ISA -/

/-- The mask that the ISA puts on a shift amount. -/
def shiftCount (n : BitVec 64) (w : ℕ) : ℕ := n.toNat % w

/-- `dst <<= count` at `w` bits. -/
def isaShl (w count : ℕ) (x : BitVec 64) : BitVec 64 := (x.setWidth w <<< count).setWidth 64

/-- `dst >>= count`. -/
def isaLshr (w count : ℕ) (x : BitVec 64) : BitVec 64 := (x.setWidth w >>> count).setWidth 64

/-- `dst s>>= count`. -/
def isaAshr (w count : ℕ) (x : BitVec 64) : BitVec 64 := ((x.setWidth w).sshiftRight count).setWidth 64

/-- `dst = (s8, s16 or s32) src`. -/
def isaMovsx (w source : ℕ) (x : BitVec 64) : BitVec 64 := ((x.setWidth source).signExtend w).setWidth 64

section

variable {w c source : ℕ} {x y : BitVec 64} {k : ℤ}

theorem word_emod (w : ℕ) (k : ℤ) : word w (k % 2 ^ w) = word w k := by
  unfold word
  congr 1
  apply BitVec.eq_of_toInt_eq
  rw [BitVec.toInt_ofInt, BitVec.toInt_ofInt]
  have hcast : ((2 ^ w : ℕ) : ℤ) = 2 ^ w := by push_cast; rfl
  rw [← hcast, Int.emod_bmod]

theorem isaShl_eq : isaShl w c x = word w (x.toNat * 2 ^ c) := by
  unfold isaShl word
  congr 1
  apply BitVec.eq_of_toNat_eq
  rw [BitVec.toNat_shiftLeft, BitVec.toNat_setWidth, BitVec.toNat_ofInt, Nat.shiftLeft_eq, Nat.mod_mul_mod]
  norm_cast

theorem isaLshr_eq : isaLshr w c x = word w (x.toNat % 2 ^ w / 2 ^ c) := by
  unfold isaLshr word
  congr 1
  apply BitVec.eq_of_toNat_eq
  have hlt : x.toNat % 2 ^ w / 2 ^ c < 2 ^ w :=
    (Nat.div_le_self _ _).trans_lt (Nat.mod_lt _ (Nat.two_pow_pos w))
  rw [BitVec.toNat_ushiftRight, BitVec.toNat_setWidth, BitVec.toNat_ofInt, Nat.shiftRight_eq_div_pow]
  norm_cast
  exact (Nat.mod_eq_of_lt hlt).symm

theorem isaAshr_eq : isaAshr w c x = word w ((x.setWidth w).toInt / 2 ^ c) := by
  unfold isaAshr word
  congr 1
  have hshift : (x.setWidth w).toInt / 2 ^ c = ((x.setWidth w).sshiftRight c).toInt := by
    rw [BitVec.toInt_sshiftRight, Int.shiftRight_eq_div_pow]
    norm_cast
  rw [hshift, BitVec.ofInt_toInt]

theorem isaMovsx_eq : isaMovsx w source x = word w (x.setWidth source).toInt := rfl

end

/-! ## What the operations admit -/

/-- The variables of the register hold the word `x`. -/
def ReadsWord (σ : V → ℤ) (svalue uvalue : V) (x : BitVec 64) : Prop :=
  σ svalue = x.toInt ∧ σ uvalue = x.toNat

/-- The operation returns a state that admits the word `y` in the register whenever `P σ y` holds before. -/
def Steps (d : SplitDbm V) (r : Option (SplitDbm V)) (svalue uvalue : V)
    (P : (V → ℤ) → BitVec 64 → Prop) : Prop :=
  ∃ d', r = some d' ∧ ∀ σ y, d.Models σ → P σ y → d'.Models (setWord σ svalue uvalue y)

/-- When `shl` stays within native arithmetic: the ends of the interval are words, and a shift by zero is not
made at 64 bits. -/
def ShlExact (i : Interval) (count w : ℕ) : Prop :=
  match i with
  | ⟨.fin l, .fin u⟩ => FitsU 64 l ∧ FitsU 64 u ∧ ¬ (w = 64 ∧ count = 0)
  | _ => True

/-- The ends of an interval across zero, read as words, enclose the results all the same. -/
def WrappedEndsEnclose (d : SplitDbm V) (svalue uvalue : V) (l u : ℤ) (count w : ℕ) : Prop :=
  minInt w ≤ l ∧ u ≤ maxUint w ∧ (l + 2 ^ w) / 2 ^ count ≤ u / 2 ^ count ∧
    ∀ σ x, d.Models σ → ReadsWord σ svalue uvalue x → (l + 2 ^ w) / 2 ^ count ≤ x.toNat / 2 ^ count

/-- When `lshr` is exact: the ends of the interval are words of the width, or none of its numbers is a word,
or the state admits large words only. -/
def LshrExact (d : SplitDbm V) (svalue uvalue : V) (count w : ℕ) : Prop :=
  match d.evalInterval (.var uvalue) with
  | ⟨.fin l, .fin u⟩ => FitsU w l ∧ FitsU w u ∨ minInt w ≤ l ∧ u < 0 ∨
      l < 0 ∧ 0 ≤ u ∧ WrappedEndsEnclose d svalue uvalue l u count w
  | _ => True

section

variable {d : SplitDbm V} {σ : V → ℤ} {svalue uvalue : V} {w c : ℕ} {l u n : ℤ}

theorem uintMax_eq (hw : w = 32 ∨ w = 64) : (if w = 64 then maxUint 64 else maxUint 32) = 2 ^ w - 1 := by
  rcases hw with rfl | rfl <;> rfl

/-- A number is shifted within 64 bits and masked to `w` bits. -/
theorem shifted_eq (hw : w = 32 ∨ w = 64) (hc : c < w) (n : ℤ) :
    (n * 2 ^ c % 2 ^ 64).land (2 ^ w - 1) = 2 ^ c * (n % 2 ^ (w - c)) := by
  have hpow : (2 : ℤ) ^ w = 2 ^ c * 2 ^ (w - c) := by rw [← pow_add, Nat.add_sub_cancel' hc.le]
  have hdvd : (2 : ℤ) ^ w ∣ 2 ^ 64 := pow_dvd_pow 2 (by omega)
  rw [Interval.land_two_pow_sub_one (Int.emod_nonneg _ (two_pow_pos 64).ne'), Int.emod_emod_of_dvd _ hdvd,
    mul_comm n, hpow, Int.mul_emod_mul_of_pos _ _ (two_pow_pos c)]

/-- Bits that are equal at both ends are equal in between. -/
theorem ediv_eq_of_between {m : ℤ} (hm : 0 < m) (hln : l ≤ n) (hnu : n ≤ u) (h : l / m = u / m) :
    l % m ≤ n % m ∧ n % m ≤ u % m := by
  have hlow := Int.ediv_le_ediv hm hln
  have hhigh := Int.ediv_le_ediv hm hnu
  have hq : n / m = l / m := by omega
  have hn := Int.emod_add_mul_ediv n m
  have hl := Int.emod_add_mul_ediv l m
  have hu := Int.emod_add_mul_ediv u m
  rw [hq] at hn
  rw [← h] at hu
  constructor <;> linarith

theorem nativeShr_sub (hw : w = 32 ∨ w = 64) (hc : c < w) (hnot : ¬ (w = 64 ∧ c = 0)) (n : ℤ) :
    nativeShr 64 n (w - c) = some (n / 2 ^ (w - c)) := by
  have hcount : ((w : ℤ) - c).toNat = w - c := by omega
  unfold nativeShr
  rw [if_pos (by omega), hcount]

theorem nativeShl_natCast (hc : c < 64) (n : ℤ) : nativeShl 64 n c = some (n * 2 ^ c % 2 ^ 64) := by
  unfold nativeShl
  rw [if_pos (by omega), Int.toNat_natCast]

/-- Every number between the ends is shifted into the interval. -/
theorem shlRange_spec (hw : w = 32 ∨ w = 64) (hc : c < w) (hnot : ¬ (w = 64 ∧ c = 0)) :
    ∃ i, shlRange l u c w = some i ∧ ∀ n, l ≤ n → n ≤ u → 2 ^ c * (n % 2 ^ (w - c)) ∈ i := by
  have hrest : (0 : ℤ) < 2 ^ (w - c) := two_pow_pos _
  have hpow : (2 : ℤ) ^ w = 2 ^ c * 2 ^ (w - c) := by rw [← pow_add, Nat.add_sub_cancel' hc.le]
  unfold shlRange
  simp only [nativeShr_sub hw hc hnot, nativeShl_natCast (by omega : c < 64), uintMax_eq hw,
    Option.bind_eq_bind, Option.bind_some, Option.pure_def, shifted_eq hw hc]
  split_ifs with hdiffer
  · refine ⟨_, rfl, fun n _ _ => Interval.mem_ofInts.mpr ⟨?_, ?_⟩⟩
    · exact mul_nonneg (two_pow_pos c).le (Int.emod_nonneg n hrest.ne')
    · have hlt := Int.emod_lt_of_pos n hrest
      have hmax : ((2 : ℤ) ^ w - 1) % 2 ^ (w - c) = 2 ^ (w - c) - 1 := by
        have heq : (2 : ℤ) ^ w - 1 = 2 ^ (w - c) - 1 + 2 ^ (w - c) * (2 ^ c - 1) := by rw [hpow]; ring
        rw [heq, Int.add_mul_emod_self_left, Int.emod_eq_of_lt (by omega) (by omega)]
      rw [hmax]
      exact Int.mul_le_mul_of_nonneg_left (by omega) (two_pow_pos c).le
  · refine ⟨_, rfl, fun n hln hnu => Interval.mem_ofInts.mpr ?_⟩
    obtain ⟨hlow, hhigh⟩ := ediv_eq_of_between hrest hln hnu (not_not.mp hdiffer)
    exact ⟨Int.mul_le_mul_of_nonneg_left hlow (two_pow_pos c).le,
      Int.mul_le_mul_of_nonneg_left hhigh (two_pow_pos c).le⟩

/-- The bits that remain decide the word. -/
theorem word_shifted (hc : c < w) (x : BitVec 64) :
    word w (2 ^ c * ((x.toNat : ℤ) % 2 ^ (w - c))) = isaShl w c x := by
  have hpow : (2 : ℤ) ^ w = 2 ^ c * 2 ^ (w - c) := by rw [← pow_add, Nat.add_sub_cancel' hc.le]
  rw [isaShl_eq, ← word_emod w ((x.toNat : ℤ) * 2 ^ c), hpow, mul_comm _ ((2 : ℤ) ^ c),
    Int.mul_emod_mul_of_pos _ _ (two_pow_pos c)]

/-- The numbers of the variable lie between the ends of its interval. -/
theorem between_of_evalInterval (hi : d.evalInterval (.var uvalue) = ⟨.fin l, .fin u⟩) (hσ : d.Models σ) :
    l ≤ σ uvalue ∧ σ uvalue ≤ u := by
  have hmem := SplitDbm.mem_evalInterval hσ (.var uvalue)
  rw [eval_var, hi] at hmem
  exact ⟨Bound.fin_le_fin.mp hmem.1, Bound.fin_le_fin.mp hmem.2⟩

/-- An interval is set for one variable and copied to the other. -/
theorem steps_of_set {r : Option (SplitDbm V)} {x other : V} {i : Interval}
    {P : (V → ℤ) → BitVec 64 → Prop} (hd : d.WF) (hne : svalue ≠ uvalue) (hw : w = 32 ∨ w = 64)
    (hx : x = svalue ∧ other = uvalue ∨ x = uvalue ∧ other = svalue) (hsat : ∃ σ, d.Models σ)
    (hr : r = do
      let d ← set d x i
      overflowBounds (d.assign other (.var x)) svalue uvalue w)
    (hi : ∃ k, k ∈ i) (hP : ∀ σ y, d.Models σ → P σ y → ∃ k ∈ i, word w k = y) :
    Steps d r svalue uvalue P := by
  obtain ⟨d', hd', -, hmodels⟩ := set_copy_spec hd hne hw hx hsat hi
  refine ⟨d', hr.trans hd', fun σ y hσ hy => ?_⟩
  obtain ⟨k, hk, rfl⟩ := hP σ y hσ hy
  exact hmodels σ k hσ hk

theorem steps_shl_of_finite (hd : d.WF) (hne : svalue ≠ uvalue) (hw : w = 32 ∨ w = 64) (hc : c < w)
    (hsat : ∃ σ, d.Models σ) (hi : d.evalInterval (.var uvalue) = ⟨.fin l, .fin u⟩)
    (hl : FitsU 64 l) (hu : FitsU 64 u) (hnot : ¬ (w = 64 ∧ c = 0)) :
    Steps d (shl d svalue uvalue c w) svalue uvalue
      fun σ y => ∃ x, ReadsWord σ svalue uvalue x ∧ y = isaShl w c x := by
  obtain ⟨i, hrange, hi'⟩ := shlRange_spec hw hc hnot
  have hnarrow : ∀ {n}, FitsU 64 n → narrowU 64 n = some n.toNat := fun hn => if_pos hn
  have hr : shl d svalue uvalue c w = (do
      let d ← set d uvalue i
      overflowBounds (d.assign svalue (.var uvalue)) svalue uvalue w) := by
    unfold shl
    simp only [hi, Interval.finiteSize_fin, reduceCtorEq, if_false, Bound.number, Option.bind_eq_bind,
      Option.bind_some, hnarrow hl, hnarrow hu, Int.toNat_of_nonneg hl.1, Int.toNat_of_nonneg hu.1]
    rw [hrange]
    rfl
  apply steps_of_set hd hne hw (Or.inr ⟨rfl, rfl⟩) hsat hr
  · obtain ⟨σ, hσ⟩ := hsat
    obtain ⟨hl, hu⟩ := between_of_evalInterval hi hσ
    exact ⟨_, hi' _ hl hu⟩
  · rintro σ _ hσ ⟨x, ⟨-, hx⟩, rfl⟩
    obtain ⟨hl, hu⟩ := between_of_evalInterval hi hσ
    refine ⟨_, hi' _ hl hu, ?_⟩
    rw [hx, word_shifted hc]

/-- A variable that reaches arbitrarily far is forgotten, and so is the copy of it. -/
theorem steps_copy_of_far {i : Interval} (hd : d.WF) (hσ : d.Models σ)
    (hfar : ∀ M, ∃ m ∈ i, ∃ m' ∈ i, M ≤ m' - m) (hne : svalue ≠ uvalue) (P : (V → ℤ) → BitVec 64 → Prop) :
    Steps d (overflowBounds ((d.set uvalue i).assign svalue (.var uvalue)) svalue uvalue w) svalue uvalue
      P := by
  have hset := SplitDbm.wf_set hd uvalue i
  have hcopy : ∀ σ k, d.Models σ → k ∈ i → ((d.set uvalue i).assign svalue (.var uvalue)).Models
      (Function.update (Function.update σ uvalue k) svalue k) := by
    intro σ k hσ hk
    have hassign := SplitDbm.models_assign hset svalue (.var uvalue) (SplitDbm.models_set hd hσ hk)
    rwa [eval_var, Function.update_self] at hassign
  have hwf := SplitDbm.wf_assign hset svalue (.var uvalue)
  generalize (d.set uvalue i).assign svalue (.var uvalue) = d₁ at hcopy hwf
  obtain ⟨m, hm, m', hm', hM⟩ := hfar (2 ^ w)
  have hfirst : overflowBound d₁ svalue w true = some (d₁.havoc svalue) := by
    apply overflowBound_of_far (hcopy σ m hσ hm) (hcopy σ m' hσ hm')
    rwa [Function.update_self, Function.update_self]
  have hsecond : overflowBound (d₁.havoc svalue) uvalue w false =
      some ((d₁.havoc svalue).havoc uvalue) := by
    apply overflowBound_of_far (SplitDbm.models_havoc hwf svalue (hcopy σ m hσ hm) 0)
      (SplitDbm.models_havoc hwf svalue (hcopy σ m' hσ hm') 0)
    rwa [Function.update_of_ne hne.symm, Function.update_of_ne hne.symm, Function.update_of_ne hne.symm,
      Function.update_of_ne hne.symm, Function.update_self, Function.update_self]
  refine ⟨_, Option.bind_eq_some_iff.mpr ⟨_, hfirst, hsecond⟩, fun σ y hσ _ => ?_⟩
  have hfree := SplitDbm.models_havoc (SplitDbm.wf_havoc hwf svalue) uvalue
    (SplitDbm.models_havoc hwf svalue (hcopy σ m hσ hm) y.toInt) y.toNat
  change SplitDbm.Models _ (setWord _ svalue uvalue y) at hfree
  rwa [setWord_update (Or.inl rfl), setWord_update (Or.inr rfl)] at hfree

theorem steps_shl_of_far (hd : d.WF) (hne : svalue ≠ uvalue) (hc : c < 64) (hσ : d.Models σ)
    (hsize : (d.evalInterval (.var uvalue)).finiteSize = none)
    (hfar : ∀ M, ∃ m ∈ d.evalInterval (.var uvalue), ∃ m' ∈ d.evalInterval (.var uvalue), M ≤ m' - m)
    (P : (V → ℤ) → BitVec 64 → Prop) :
    Steps d (shl d svalue uvalue c w) svalue uvalue P := by
  have hfits : FitsU 64 c := ⟨by omega, by rw [maxUint_eq]; omega⟩
  have hcast : castToU 64 c = some c := if_pos hfits
  have hcount : (c : ℤ) ∈ (Interval.const c).maskShiftCount 64 := by
    have hmem := Interval.mem_maskShiftCount (Or.inr rfl) (Interval.mem_const.mpr rfl) hfits
    rwa [Int.emod_eq_of_lt (by omega) (by omega)] at hmem
  set i := (d.evalInterval (.var uvalue)).shl ((Interval.const c).maskShiftCount 64) with hi
  have hshl : ∀ m ∈ d.evalInterval (.var uvalue), m * 2 ^ c ∈ i := fun m hm => Interval.mem_shl hm hcount
  have hset : set d uvalue i = some (d.set uvalue i) := by
    obtain ⟨m, hm, -⟩ := hfar 0
    exact if_neg (by rw [Interval.isBottom_eq_false_of_mem (hshl m hm)]; exact Bool.false_ne_true)
  have hr : shl d svalue uvalue c w =
      overflowBounds ((d.set uvalue i).assign svalue (.var uvalue)) svalue uvalue 64 := by
    unfold shl
    rw [if_pos hsize]
    unfold shlOverflow applyUnsigned apply applyBitwise
    simp only [hcast, Option.pure_def, Option.map_some, Option.bind_eq_bind, Option.bind_some,
      BitwiseBinOp.isShift, if_true, ← hi, Interval.maskValue, lt_irrefl, and_false, if_false, hset, ne_eq,
      OfNat.ofNat_ne_zero, not_false_eq_true]
  rw [hr]
  apply steps_copy_of_far hd hσ _ hne
  intro M
  obtain ⟨m, hm, m', hm', hM⟩ := hfar (max M 0)
  refine ⟨_, hshl m hm, _, hshl m' hm', ?_⟩
  have hpos : (1 : ℤ) ≤ 2 ^ c := two_pow_pos c
  calc M ≤ m' - m := by omega
    _ ≤ (m' - m) * 2 ^ c := le_mul_of_one_le_right (by omega) hpos
    _ = m' * 2 ^ c - m * 2 ^ c := by ring

/-- `shl` is exact within native arithmetic, and raises an error or shifts by the whole width otherwise. -/
theorem steps_shl_iff (hd : d.WF) (hne : svalue ≠ uvalue) (hw : w = 32 ∨ w = 64) (hc : c < w)
    (hsat : ∃ σ, d.Models σ) :
    Steps d (shl d svalue uvalue c w) svalue uvalue
        (fun σ y => ∃ x, ReadsWord σ svalue uvalue x ∧ y = isaShl w c x) ↔
      ShlExact (d.evalInterval (.var uvalue)) c w := by
  obtain ⟨σ, hσ⟩ := hsat
  obtain ⟨l, u, hi, hl, hu⟩ | ⟨hsize, hfar⟩ := Interval.finite_or_far (SplitDbm.mem_evalInterval hσ (.var uvalue))
  · rw [hi]
    refine ⟨fun ⟨d', hd', _⟩ => ?_, fun ⟨hl, hu, hnot⟩ => steps_shl_of_finite hd hne hw hc ⟨σ, hσ⟩ hi hl hu hnot⟩
    unfold shl at hd'
    simp only [hi, Interval.finiteSize_fin, reduceCtorEq, if_false, Bound.number, Option.bind_eq_bind,
      Option.bind_some, Option.bind_eq_some_iff] at hd'
    obtain ⟨lb, hlb, ub, hub, i, hrange, -⟩ := hd'
    refine ⟨(Option.ite_none_right_eq_some.mp hlb).1, (Option.ite_none_right_eq_some.mp hub).1, ?_⟩
    rintro ⟨rfl, rfl⟩
    -- the count of the first shift is the whole width
    cases hrange
  · refine ⟨fun _ => ?_, fun _ => steps_shl_of_far hd hne (by omega) hσ hsize hfar _⟩
    unfold ShlExact
    split
    · next heq =>
      rw [heq] at hsize
      cases hsize
    · trivial

/-! ## Shifts to the right -/

/-- A number that fits is not changed by the cast to a signed word first. -/
theorem castToU_castToS (n : ℤ) : (castToS 32 n).bind (castToU 32) = castToU 32 n := by
  by_cases hs : FitsS 32 n
  · rw [castToS, if_pos hs, Option.bind_some]
  · by_cases hu : FitsU 32 n
    · have hback : ¬ FitsU 32 (n - 2 ^ 32) := fun h => by
        have h1 := h.1
        have h2 := hu.2
        rw [maxUint_eq] at h2
        omega
      have hfits : FitsS 32 (n - 2 ^ 32) := by
        have h1 := hu.1
        have h2 := hu.2
        rw [maxUint_eq] at h2
        have h3 : ¬ (minInt 32 ≤ n ∧ n ≤ maxInt 32) := hs
        unfold FitsS
        rw [minInt, maxInt] at *
        omega
      rw [castToS, if_neg hs, if_pos hu, Option.bind_some, castToU, if_neg hback, if_pos hfits, castToU,
        if_pos hu, sub_add_cancel]
    · rw [castToS, if_neg hs, if_neg hu, castToU, if_neg hu, if_neg hs]
      rfl

/-- The ends of a finite interval, cast to words, are shifted. -/
theorem lshrRange_fin (hw : w = 32 ∨ w = 64) (hc : c < w) :
    lshrRange ⟨.fin l, .fin u⟩ c w = (castToU w l).bind fun lb => (castToU w u).bind fun ub =>
      if w = 64 ∨ lb / 2 ^ c ≤ ub / 2 ^ c then some (Interval.ofInts (lb / 2 ^ c) (ub / 2 ^ c))
      else none := by
  have hshr : ∀ n : ℤ, nativeShr w n c = some (n / 2 ^ c) := fun n => if_pos (by omega)
  unfold lshrRange
  rw [Interval.finiteSize_fin, if_neg (by simp)]
  rcases hw with rfl | rfl
  · rw [← castToU_castToS l, ← castToU_castToS u]
    cases hl : castToS 32 l with
    | none => simp [Bound.number, hl]
    | some l' =>
      cases hl' : castToU 32 l' with
      | none => simp [Bound.number, hl, hl']
      | some lb =>
        cases hu : castToS 32 u with
        | none => simp [Bound.number, hl', hu, hshr]
        | some u' =>
          cases hu' : castToU 32 u' with
          | none => simp [Bound.number, hl', hu, hu', hshr]
          | some ub =>
            by_cases hle : lb / 2 ^ c ≤ ub / 2 ^ c <;>
              simp [Bound.number, hl, hl', hu, hu', hshr, guard, hle]
  · simp only [Bound.number, Option.bind_eq_bind, Option.bind_some, if_true, true_or, hshr]
    cases castToU 64 l <;> rfl

/-- The low bits of a word, shifted, are those of the word that is shifted. -/
theorem word_lshr_of_fits {x : BitVec 64} (h : FitsU w (x.toNat : ℤ)) :
    word w ((x.toNat : ℤ) / 2 ^ c) = isaLshr w c x := by
  rw [isaLshr_eq, Int.emod_eq_of_lt h.1 (by have := h.2; rw [maxUint_eq] at this; omega)]

theorem steps_lshr_of_finite (hd : d.WF) (hne : svalue ≠ uvalue) (hw : w = 32 ∨ w = 64) (hc : c < w)
    (hsat : ∃ σ, d.Models σ) (hi : d.evalInterval (.var uvalue) = ⟨.fin l, .fin u⟩)
    (h : FitsU w l ∧ FitsU w u ∨ minInt w ≤ l ∧ u < 0) :
    Steps d (lshr d svalue uvalue c w) svalue uvalue
      fun σ y => ∃ x, ReadsWord σ svalue uvalue x ∧ y = isaLshr w c x := by
  have hlu : l ≤ u := by
    obtain ⟨σ, hσ⟩ := hsat
    obtain ⟨hl, hu⟩ := between_of_evalInterval hi hσ
    exact hl.trans hu
  have hdiv : ∀ {m n : ℤ}, m ≤ n → m / 2 ^ c ≤ n / 2 ^ c := fun h => Int.ediv_le_ediv (two_pow_pos c) h
  rcases h with ⟨hl, hu⟩ | ⟨hl, hu⟩
  · have hr : lshr d svalue uvalue c w = (do
        let d ← set d uvalue (Interval.ofInts (l / 2 ^ c) (u / 2 ^ c))
        overflowBounds (d.assign svalue (.var uvalue)) svalue uvalue w) := by
      have hcast : castToU w l = some l ∧ castToU w u = some u := ⟨if_pos hl, if_pos hu⟩
      unfold lshr
      rw [hi, lshrRange_fin hw hc, hcast.1, hcast.2, Option.bind_some, Option.bind_some,
        if_pos (Or.inr (hdiv hlu))]
      rfl
    apply steps_of_set hd hne hw (Or.inr ⟨rfl, rfl⟩) hsat hr
    · exact ⟨_, Interval.mem_ofInts.mpr ⟨le_rfl, hdiv hlu⟩⟩
    · rintro σ _ hσ ⟨x, ⟨-, hx⟩, rfl⟩
      obtain ⟨hlx, hxu⟩ := between_of_evalInterval hi hσ
      rw [hx] at hlx hxu
      exact ⟨_, Interval.mem_ofInts.mpr ⟨hdiv hlx, hdiv hxu⟩,
        word_lshr_of_fits ⟨hl.1.trans hlx, hxu.trans hu.2⟩⟩
  · -- no number of the interval is a word
    have hr : lshr d svalue uvalue c w = (do
        let d ← set d uvalue (Interval.ofInts ((l + 2 ^ w) / 2 ^ c) ((u + 2 ^ w) / 2 ^ c))
        overflowBounds (d.assign svalue (.var uvalue)) svalue uvalue w) := by
      have hcast : ∀ n, l ≤ n → n ≤ u → castToU w n = some (n + 2 ^ w) := by
        intro n hn hn'
        have hmax : 0 ≤ maxInt w := by rcases hw with rfl | rfl <;> decide
        rw [castToU, if_neg (fun h => absurd h.1 (by omega)), if_pos ⟨hl.trans hn, by omega⟩]
      unfold lshr
      rw [hi, lshrRange_fin hw hc, hcast l le_rfl hlu, hcast u hlu le_rfl, Option.bind_some, Option.bind_some,
        if_pos (Or.inr (hdiv (by omega)))]
      rfl
    apply steps_of_set hd hne hw (Or.inr ⟨rfl, rfl⟩) hsat hr
    · exact ⟨_, Interval.mem_ofInts.mpr ⟨le_rfl, hdiv (by omega)⟩⟩
    · rintro σ _ hσ ⟨x, ⟨-, hx⟩, rfl⟩
      have hxu := (between_of_evalInterval hi hσ).2
      omega

theorem steps_lshr_of_far (hd : d.WF) (hne : svalue ≠ uvalue) (hw : w = 32 ∨ w = 64) (hc : c < w)
    (hsat : ∃ σ, d.Models σ) (hsize : (d.evalInterval (.var uvalue)).finiteSize = none) :
    Steps d (lshr d svalue uvalue c w) svalue uvalue
      fun σ y => ∃ x, ReadsWord σ svalue uvalue x ∧ y = isaLshr w c x := by
  have hmax : (0 : ℤ) ≤ maxUint 64 / 2 ^ c := Int.ediv_nonneg (by decide) (two_pow_pos c).le
  have hr : lshr d svalue uvalue c w = (do
      let d ← set d uvalue (Interval.ofInts 0 (maxUint 64 / 2 ^ c))
      overflowBounds (d.assign svalue (.var uvalue)) svalue uvalue w) := by
    have hshr : nativeShr 64 (maxUint 64) c = some (maxUint 64 / 2 ^ c) := if_pos (by omega)
    unfold lshr lshrRange
    rw [if_pos hsize, hshr]
    rfl
  apply steps_of_set hd hne hw (Or.inr ⟨rfl, rfl⟩) hsat hr
  · exact ⟨0, Interval.mem_ofInts.mpr ⟨le_rfl, hmax⟩⟩
  · rintro σ _ hσ ⟨x, ⟨-, hx⟩, rfl⟩
    refine ⟨_, Interval.mem_ofInts.mpr ⟨?_, ?_⟩, isaLshr_eq.symm⟩
    · exact Int.ediv_nonneg (Int.emod_nonneg _ (two_pow_pos w).ne') (two_pow_pos c).le
    · have hmod : (x.toNat : ℤ) % 2 ^ w ≤ x.toNat := mod_cast Nat.mod_le x.toNat (2 ^ w)
      have hx := (readings x).2.1
      refine Int.ediv_le_ediv (two_pow_pos c) ?_
      rw [maxUint_eq]
      omega

/-! ## Numbers that the wrapped ends lose -/

theorem keeps_overflowBound {d' : SplitDbm V} {v : V} {isSigned : Bool} (hd : d.WF)
    (h : overflowBound d v w isSigned = some d') : d.Keeps (SplitDbm.Other v) d' := by
  have hhavoc := SplitDbm.keeps_havoc hd v
  unfold overflowBound at h
  simp only [Option.bind_eq_bind, Option.pure_def] at h
  split_ifs at h with hsize hbot
  · exact Option.some.inj h ▸ hhavoc
  · obtain ⟨lb, -, h⟩ := Option.bind_eq_some_iff.mp h
    obtain ⟨ub, -, h⟩ := Option.bind_eq_some_iff.mp h
    split_ifs at h
    · exact Option.some.inj h ▸ hhavoc
    · exact Option.some.inj h ▸ SplitDbm.keeps_set hd v _
    · exact Option.some.inj h ▸ SplitDbm.Keeps.refl
  · exact Option.some.inj h ▸ hhavoc

/-- A variable of positive words is left as it is. -/
theorem overflowBound_of_fits {v : V} (hσ : d.Models σ)
    (h : ∀ k, k ∈ d.evalInterval (.var v) → 0 < k ∧ k ≤ maxUint w) :
    overflowBound d v w false = some d := by
  have hmem := SplitDbm.mem_evalInterval hσ (.var v)
  obtain ⟨l, u, heq, hl, hu⟩ | ⟨-, hfar⟩ := Interval.finite_or_far hmem
  swap
  · obtain ⟨m, hm, m', hm', hM⟩ := hfar (2 ^ w)
    have h1 := h m hm
    have h2 := h m' hm'
    rw [maxUint_eq] at h2
    omega
  have hlu := hl.trans hu
  have hl := h l (heq ▸ ⟨Bound.fin_le_fin.mpr le_rfl, Bound.fin_le_fin.mpr hlu⟩)
  have hu := h u (heq ▸ ⟨Bound.fin_le_fin.mpr hlu, Bound.fin_le_fin.mpr le_rfl⟩)
  have hwrap : ∀ n, l ≤ n → n ≤ u → wrapped w false n = n :=
    fun n hn hn' => zeroExtend_of_fits ⟨by omega, hn'.trans hu.2⟩
  have hofInts : (⟨.fin l, .fin u⟩ : Interval) = Interval.ofInts l u := (Interval.ofInts_of_le hlu).symm
  have hsize : (Interval.ofInts l u).size < (Interval.unsignedInt w).size := by
    rw [unsignedInt_size, Interval.size_ofInts hlu, Bound.fin_lt_fin]
    have := hu.2
    rw [maxUint_eq] at this
    omega
  unfold overflowBound
  simp only [heq, Bound.number, Option.bind_eq_bind, Option.bind_some, hwrap l le_rfl hlu,
    hwrap u hlu le_rfl, Option.pure_def]
  rw [hofInts, if_neg (not_not.mpr hsize), if_neg (by rw [Interval.isBottom_ofInts]; simpa using hlu),
    if_neg (not_lt.mpr hlu), if_neg (not_not.mpr rfl)]

/-- The variable keeps the interval that was set, when it consists of positive words. -/
theorem between_of_overflowBounds {d' : SplitDbm V} (hd : d.WF) (hne : svalue ≠ uvalue)
    (hw : w = 32 ∨ w = 64) (hsat : ∃ σ, d.Models σ) (hl : 0 < l) (hlu : l ≤ u) (hu : u ≤ maxUint w)
    (h : overflowBounds ((d.set uvalue ⟨.fin l, .fin u⟩).assign svalue (.var uvalue)) svalue uvalue w =
      some d') (hσ : d'.Models σ) : l ≤ σ uvalue ∧ σ uvalue ≤ u := by
  have hset := SplitDbm.wf_set hd uvalue ⟨.fin l, .fin u⟩
  have hwf := SplitDbm.wf_assign hset svalue (.var uvalue)
  obtain ⟨d₁, hd₁, hd'⟩ := Option.bind_eq_some_iff.mp h
  have hother : SplitDbm.Other svalue (some uvalue) ∧ SplitDbm.Other svalue none :=
    ⟨fun h => hne (Option.some.inj h).symm, nofun⟩
  have hkeeps := (SplitDbm.keeps_assign hset svalue (.var uvalue)).trans (keeps_overflowBound hwf hd₁)
  have hbetween : ∀ k, k ∈ d₁.evalInterval (.var uvalue) → l ≤ k ∧ k ≤ u := fun k hk =>
    SplitDbm.between_of_mem_getInterval_set hd
      (hkeeps.mem_getInterval hother.1 hother.2 (SplitDbm.mem_evalInterval_var.mp hk))
  have hsat₁ : ∃ σ, d₁.Models σ := by
    obtain ⟨σ₀, hσ₀⟩ := hsat
    have hmem : l ∈ (⟨.fin l, .fin u⟩ : Interval) :=
      ⟨Bound.fin_le_fin.mpr le_rfl, Bound.fin_le_fin.mpr hlu⟩
    obtain ⟨d₂, hd₂, -, hmodels⟩ := @overflowBound_spec _ _ _ svalue w true hwf
      ⟨_, SplitDbm.models_assign hset svalue (.var uvalue) (SplitDbm.models_set hd hσ₀ hmem)⟩ hw
    obtain rfl := Option.some.inj (hd₁.symm.trans hd₂)
    exact ⟨_, hmodels _ (SplitDbm.models_assign hset svalue (.var uvalue)
      (SplitDbm.models_set hd hσ₀ hmem))⟩
  obtain ⟨σ₁, hσ₁⟩ := hsat₁
  have hsame : overflowBound d₁ uvalue w false = some d₁ :=
    overflowBound_of_fits hσ₁ fun k hk => by
      have := hbetween k hk
      omega
  obtain rfl := Option.some.inj (hsame.symm.trans hd')
  have hmem := SplitDbm.mem_evalInterval hσ (.var uvalue)
  rw [eval_var] at hmem
  exact hbetween _ hmem

/-- The interval from the lower end as a word up to the upper end. -/
theorem lshrRange_cross (hw : w = 32 ∨ w = 64) (hc : c < w) (hmin : minInt w ≤ l) (hl : l < 0) (hu : 0 ≤ u)
    (hmax : u ≤ maxUint w) : lshrRange ⟨.fin l, .fin u⟩ c w =
      if w = 64 ∨ (l + 2 ^ w) / 2 ^ c ≤ u / 2 ^ c then
        some (Interval.ofInts ((l + 2 ^ w) / 2 ^ c) (u / 2 ^ c))
      else none := by
  have hsign : 0 ≤ maxInt w := by rcases hw with rfl | rfl <;> decide
  have hcastL : castToU w l = some (l + 2 ^ w) := by
    rw [castToU, if_neg (fun h => absurd h.1 (by omega)), if_pos ⟨hmin, by omega⟩]
  have hcastU : castToU w u = some u := if_pos ⟨hu, hmax⟩
  rw [lshrRange_fin hw hc, hcastL, hcastU, Option.bind_some, Option.bind_some]

theorem steps_lshr_of_cross (hd : d.WF) (hne : svalue ≠ uvalue) (hw : w = 32 ∨ w = 64) (hc : c < w)
    (hsat : ∃ σ, d.Models σ) (hi : d.evalInterval (.var uvalue) = ⟨.fin l, .fin u⟩) (hl : l < 0) (hu : 0 ≤ u)
    (h : WrappedEndsEnclose d svalue uvalue l u c w) :
    Steps d (lshr d svalue uvalue c w) svalue uvalue
      fun σ y => ∃ x, ReadsWord σ svalue uvalue x ∧ y = isaLshr w c x := by
  obtain ⟨hmin, hmax, hle, hwords⟩ := h
  have hr : lshr d svalue uvalue c w = (do
      let d ← set d uvalue (Interval.ofInts ((l + 2 ^ w) / 2 ^ c) (u / 2 ^ c))
      overflowBounds (d.assign svalue (.var uvalue)) svalue uvalue w) := by
    unfold lshr
    rw [hi, lshrRange_cross hw hc hmin hl hu hmax, if_pos (Or.inr hle)]
    rfl
  apply steps_of_set hd hne hw (Or.inr ⟨rfl, rfl⟩) hsat hr
  · exact ⟨_, Interval.mem_ofInts.mpr ⟨le_rfl, hle⟩⟩
  · rintro σ _ hσ ⟨x, hx, rfl⟩
    have hxu := (between_of_evalInterval hi hσ).2
    rw [hx.2] at hxu
    exact ⟨_, Interval.mem_ofInts.mpr ⟨hwords σ x hσ hx, Int.ediv_le_ediv (two_pow_pos c) hxu⟩,
      word_lshr_of_fits ⟨by omega, hxu.trans hmax⟩⟩

/-- The result of a shift that drops nothing of the width. -/
theorem toNat_isaLshr (hw : w ≤ 64) {x : BitVec 64} (h : FitsU w (x.toNat : ℤ)) :
    ((isaLshr w c x).toNat : ℤ) = x.toNat / 2 ^ c := by
  have hle := (Int.ediv_le_self (2 ^ c) h.1).trans h.2
  rw [← word_lshr_of_fits h, toNat_word hw]
  exact zeroExtend_of_fits ⟨Int.ediv_nonneg h.1 (two_pow_pos c).le, hle⟩

/-- `lshr` is exact within words of its width. The ends of an interval across zero are words in the wrong
order, unless they are shifted together. -/
theorem steps_lshr_iff (hd : d.WF) (hne : svalue ≠ uvalue) (hw : w = 32 ∨ w = 64) (hc : c < w)
    (hsat : ∃ σ, d.Models σ) :
    Steps d (lshr d svalue uvalue c w) svalue uvalue
        (fun σ y => ∃ x, ReadsWord σ svalue uvalue x ∧ y = isaLshr w c x) ↔
      LshrExact d svalue uvalue c w := by
  unfold LshrExact
  obtain ⟨σ, hσ⟩ := hsat
  obtain ⟨l, u, hi, hlσ, hσu⟩ | ⟨hsize, -⟩ := Interval.finite_or_far (SplitDbm.mem_evalInterval hσ (.var uvalue))
  swap
  · refine ⟨fun _ => ?_, fun _ => steps_lshr_of_far hd hne hw hc ⟨σ, hσ⟩ hsize⟩
    split
    · next heq =>
      rw [heq] at hsize
      cases hsize
    · trivial
  rw [hi]
  refine ⟨fun ⟨d', hd', hmodels⟩ => ?_, ?_⟩
  swap
  · rintro (h | h | ⟨hl, hu, h⟩)
    · exact steps_lshr_of_finite hd hne hw hc ⟨σ, hσ⟩ hi (Or.inl h)
    · exact steps_lshr_of_finite hd hne hw hc ⟨σ, hσ⟩ hi (Or.inr h)
    · exact steps_lshr_of_cross hd hne hw hc ⟨σ, hσ⟩ hi hl hu h
  have hwidth : minInt w = -2 ^ (w - 1) ∧ maxInt w = 2 ^ (w - 1) - 1 ∧ (2 : ℤ) ^ w = 2 * 2 ^ (w - 1) :=
    ⟨rfl, rfl, two_pow_eq (by omega)⟩
  unfold lshr at hd'
  rw [hi] at hd'
  obtain ⟨i, hrange, hcopy⟩ := Option.bind_eq_some_iff.mp hd'
  obtain ⟨d₁, hd₁, hwrap⟩ := Option.bind_eq_some_iff.mp hcopy
  by_contra hnot
  change ¬ (FitsU w l ∧ FitsU w u ∨ minInt w ≤ l ∧ u < 0 ∨
    l < 0 ∧ 0 ≤ u ∧ WrappedEndsEnclose d svalue uvalue l u c w) at hnot
  -- the casts fail unless the interval crosses zero
  have hcross : l < 0 ∧ 0 ≤ u ∧ minInt w ≤ l ∧ u ≤ maxUint w := by
    have hlu := hlσ.trans hσu
    have hmax := maxUint_eq w
    have hpos := two_pow_pos (w - 1)
    rw [lshrRange_fin hw hc] at hrange
    obtain ⟨lb, hlb, hub'⟩ := Option.bind_eq_some_iff.mp hrange
    obtain ⟨ub, hub, -⟩ := Option.bind_eq_some_iff.mp hub'
    unfold castToU at hlb hub
    split_ifs at hlb <;> split_ifs at hub <;> cases hlb <;> cases hub
    all_goals
      simp only [FitsU, FitsS] at *
      omega
  obtain ⟨hl, hu, hmin, hmax⟩ := hcross
  rw [lshrRange_cross hw hc hmin hl hu hmax] at hrange
  obtain ⟨-, hofInts⟩ := Option.ite_none_right_eq_some.mp hrange
  obtain rfl := Option.some.inj hofInts
  obtain ⟨hbot, hset⟩ := Option.ite_none_left_eq_some.mp hd₁
  obtain rfl := Option.some.inj hset
  rw [Interval.isBottom_ofInts, decide_eq_true_eq, not_lt] at hbot
  rw [Interval.ofInts_of_le hbot] at hwrap
  have hpos : 0 < (l + 2 ^ w) / 2 ^ c := by
    have hle : (2 : ℤ) ^ c ≤ 2 ^ (w - 1) := pow_le_pow_right₀ (by norm_num) (by omega)
    exact (Int.le_ediv_iff_mul_le (two_pow_pos c)).mpr (by omega)
  have hfits : u / 2 ^ c ≤ maxUint w := (Int.ediv_le_self _ hu).trans hmax
  refine hnot (Or.inr (Or.inr ⟨hl, hu, hmin, hmax, hbot, fun σ x hσ hx => ?_⟩))
  have hxu := (between_of_evalInterval hi hσ).2
  rw [hx.2] at hxu
  have hgt := (between_of_overflowBounds hd hne hw ⟨σ, hσ⟩ hpos hbot hfits hwrap
    (hmodels σ _ hσ ⟨x, hx, rfl⟩)).1
  unfold setWord at hgt
  rwa [Function.update_self, toNat_isaLshr (by omega) ⟨by omega, hxu.trans hmax⟩] at hgt

/-! ## Arithmetic shifts -/

theorem ashrCount_eq (hw : w = 32 ∨ w = 64) (n : ℤ) : (ashrCount n w : ℤ) = n % w := by
  have hmask : ∀ v ≤ 6, ((BitVec.ofInt 64 n &&& BitVec.ofNat 64 (2 ^ v - 1)).toNat : ℤ) = n % 2 ^ v := by
    intro v hv
    have hlt : 2 ^ v - 1 < 2 ^ 64 := by
      have hpow : 2 ^ v ≤ 2 ^ 64 := Nat.pow_le_pow_right (by decide) (by omega)
      omega
    rw [BitVec.toNat_and, BitVec.toNat_ofNat, Nat.mod_eq_of_lt hlt, Nat.and_two_pow_sub_one_eq_mod,
      BitVec.toNat_ofInt, Int.natCast_emod, Int.toNat_of_nonneg (Int.emod_nonneg n (by decide)), Nat.cast_pow,
      Nat.cast_pow, Nat.cast_ofNat]
    exact Int.emod_emod_of_dvd n (pow_dvd_pow 2 (by omega))
  rcases hw with rfl | rfl
  · exact hmask 5 (by decide)
  · exact hmask 6 (by decide)

theorem fitsS_ediv (h : FitsS w n) : FitsS w (n / 2 ^ c) := by
  have hpow : (1 : ℤ) ≤ 2 ^ c := two_pow_pos c
  have hhalf := two_pow_pos (w - 1)
  obtain ⟨hmin, hmax⟩ := h
  unfold FitsS
  rw [minInt] at *
  rw [maxInt] at *
  constructor
  · refine (Int.le_ediv_iff_mul_le (two_pow_pos c)).mpr ((?_ : _ ≤ -2 ^ (w - 1)).trans hmin)
    rw [neg_mul]
    exact neg_le_neg (le_mul_of_one_le_right hhalf.le hpow)
  · rcases le_or_gt 0 n with hn | hn
    · exact (Int.ediv_le_self _ hn).trans hmax
    · have hneg := Int.ediv_neg_of_neg_of_pos hn (two_pow_pos c)
      omega

theorem castToU_of_fitsS (h : FitsS 32 n) : castToU 32 n = some (n % 2 ^ 32) := by
  obtain ⟨hmin, hmax⟩ := h
  rw [minInt] at hmin
  rw [maxInt] at hmax
  unfold castToU
  split_ifs with hu hs
  · have hle := hu.2
    rw [maxUint_eq] at hle
    exact congrArg some (Int.emod_eq_of_lt hu.1 (by omega)).symm
  · have hneg : ¬ (0 ≤ n ∧ n ≤ maxUint 32) := hu
    rw [maxUint_eq] at hneg
    exact congrArg some (by omega)
  · exact absurd ⟨hmin, hmax⟩ hs

/-- Every number between the ends is shifted into the interval, up to the width. -/
theorem ashrRange_spec (hw : w = 32 ∨ w = 64) (hc : c < w) (hl : FitsS w l) (hu : FitsS w u) (hlu : l ≤ u) :
    ∃ i, ashrRange ⟨.fin l, .fin u⟩ c w = some i ∧
      ∀ n, l ≤ n → n ≤ u → ∃ k ∈ i, k % 2 ^ w = n / 2 ^ c % 2 ^ w := by
  have hdiv : ∀ {m n : ℤ}, m ≤ n → m / 2 ^ c ≤ n / 2 ^ c := fun h => Int.ediv_le_ediv (two_pow_pos c) h
  have hshr : ∀ n : ℤ, nativeShr 64 n c = some (n / 2 ^ c) := fun n => if_pos (by omega)
  have hcast : castToS w l = some l ∧ castToS w u = some u := ⟨if_pos hl, if_pos hu⟩
  unfold ashrRange
  simp only [hshr, Interval.finiteSize_fin, reduceCtorEq, if_false, Bound.number, Option.bind_eq_bind,
    Option.bind_some, Int.toNat_natCast]
  rcases hw with rfl | rfl
  · have hfull : ∀ n, l ≤ n → n ≤ u →
        n / 2 ^ c ∈ Interval.ofInts (minInt 64 / 2 ^ c) (maxInt 64 / 2 ^ c) := by
      intro n hn hn'
      have h1 : minInt 64 ≤ minInt 32 := by decide
      have h2 : maxInt 32 ≤ maxInt 64 := by decide
      exact Interval.mem_ofInts.mpr ⟨hdiv (h1.trans (hl.1.trans hn)), hdiv (hn'.trans (hu.2.trans h2))⟩
    have hlu' := hdiv hlu
    have hL := fitsS_ediv (c := c) hl
    have hU := fitsS_ediv (c := c) hu
    simp only [Nat.reduceEqDiff, if_false, hcast.1, hcast.2, Option.bind_some, castToU_of_fitsS hL,
      castToU_of_fitsS hU, Option.pure_def]
    refine ⟨_, rfl, fun n hn hn' => ?_⟩
    have hln := hdiv hn
    have hnu := hdiv hn'
    split_ifs with hle
    · refine ⟨n / 2 ^ c % 2 ^ 32, Interval.mem_ofInts.mpr ?_, Int.emod_emod_of_dvd _ dvd_rfl⟩
      unfold FitsS at hL hU
      rw [minInt, maxInt] at hL hU
      omega
    · exact ⟨_, hfull n hn hn', rfl⟩
  · simp only [if_true, hcast.1, hcast.2, Option.bind_some]
    exact ⟨_, rfl, fun n hn hn' => ⟨_, Interval.mem_ofInts.mpr ⟨hdiv hn, hdiv hn'⟩, rfl⟩⟩

/-- At 32 bits, the left operand is reduced to a signed word, and to itself where it is one already. -/
theorem signedOperands_bounds (hσ : d.Models σ) (svalue : V) (rs : LinearExpression V) :
    ∃ l u, (signedOperands d svalue rs false).1 = ⟨.fin l, .fin u⟩ ∧ minInt 32 ≤ l ∧ l ≤ u ∧
      u ≤ maxInt 32 := by
  have hmem := SplitDbm.mem_evalInterval hσ (.var svalue)
  have hmem' := Interval.mem_signExtend (w := 32) (by omega) hmem
  have hle : ∀ {l u n : ℤ} {i : Interval}, i = ⟨.fin l, .fin u⟩ → n ∈ i → l ≤ u := by
    rintro l u n _ rfl hn
    exact Bound.fin_le_fin.mp (Bound.le_trans hn.1 hn.2)
  unfold signedOperands
  simp only [Bool.false_or]
  split_ifs with hhalf
  · simp only [sameHalf, Bool.or_eq_true, Bool.and_eq_true, decide_eq_true_eq] at hhalf
    rcases hhalf with ⟨h, -⟩ | ⟨h, -⟩
    · obtain ⟨l, u, heq, hl, hu⟩ := Interval.bounds_of_le_ofInts h hmem
      exact ⟨l, u, heq, le_trans (by decide) hl, hle heq hmem, hu⟩
    · obtain ⟨l, u, heq, hl, hu⟩ := Interval.bounds_of_le_ofInts h hmem
      exact ⟨l, u, heq, hl, hle heq hmem, hu.trans (by decide)⟩
  · obtain ⟨l, u, heq, hl, hu⟩ := Interval.signExtend_bounds (w := 32) (by omega)
      (d.evalInterval (.var svalue))
    exact ⟨l, u, heq, hl, hle heq hmem', hu⟩

theorem getSignedIntervals_left (hw : w = 32 ∨ w = 64) (hσ : d.Models σ) (svalue uvalue : V)
    (rs : LinearExpression V) :
    ∃ l u, (getSignedIntervals d svalue uvalue rs (w = 64)).left = ⟨.fin l, .fin u⟩ ∧ FitsS w l ∧
      FitsS w u ∧ l ≤ u := by
  rcases hw with rfl | rfl
  · obtain ⟨l, u, heq, hl, hlu, hu⟩ := signedOperands_bounds hσ svalue rs
    refine ⟨l, u, ?_, ⟨hl, hlu.trans hu⟩, ⟨hl.trans hlu, hu⟩, hlu⟩
    have hself : (Interval.mk (.fin l) (.fin u)).signExtend 64 = ⟨.fin l, .fin u⟩ :=
      Interval.signExtend_of_fits (by omega) (le_trans (by decide) hl) hlu (hu.trans (by decide))
    unfold getSignedIntervals
    simp only [Nat.reduceEqDiff, decide_false, heq]
    exact hself
  · have hleft : ∃ x : Interval, (∃ n, n ∈ x) ∧
        (getSignedIntervals d svalue uvalue rs (64 = 64)).left = x.signExtend 64 := by
      have hs := SplitDbm.mem_evalInterval hσ (.var svalue)
      have hu := SplitDbm.mem_evalInterval hσ (.var uvalue)
      unfold getSignedIntervals signedOperands
      simp only [decide_true, Bool.true_or, if_true]
      split_ifs
      · exact ⟨_, ⟨_, hs⟩, rfl⟩
      · exact ⟨_, ⟨_, hu⟩, rfl⟩
      · exact ⟨_, ⟨_, hu⟩, rfl⟩
    obtain ⟨x, ⟨n, hn⟩, heq⟩ := hleft
    obtain ⟨l, u, hx, hl, hu⟩ := Interval.signExtend_bounds (w := 64) (by omega) x
    have hmem := Interval.mem_signExtend (w := 64) (by omega) hn
    rw [hx] at hmem
    have hlu : l ≤ u := Bound.fin_le_fin.mp (Bound.le_trans hmem.1 hmem.2)
    exact ⟨l, u, heq.trans hx, ⟨hl, hlu.trans hu⟩, ⟨hl.trans hlu, hu⟩, hlu⟩

theorem fitsS_of_singleton_right {rs : LinearExpression V} {is64 : Bool} {k : ℤ}
    (h : (getSignedIntervals d svalue uvalue rs is64).right.singleton = some k) : FitsS 64 k := by
  obtain ⟨l, u, heq, hl, hu⟩ := Interval.signExtend_bounds (w := 64) (by omega)
    (signedOperands d svalue rs is64).2
  change ((signedOperands d svalue rs is64).2.signExtend 64).singleton = some k at h
  rw [heq] at h
  unfold Interval.singleton at h
  obtain ⟨hsingle, hk⟩ := Option.ite_none_right_eq_some.mp h
  obtain rfl := Option.some.inj hk
  obtain rfl := Bound.fin.inj hsingle
  exact ⟨hl, hu⟩

/-- The words of the operands, as far as the width reads them, are in their intervals. -/
theorem mem_signedIntervals {rs : LinearExpression V} {x y : BitVec 64} (hw : w = 32 ∨ w = 64)
    (hσ : d.Models σ) (hword : ReadsWord σ svalue uvalue x) (hr : rs.eval σ = y.toInt) :
    (x.setWidth w).toInt ∈ (getSignedIntervals d svalue uvalue rs (w = 64)).left ∧
      (y.setWidth w).toInt ∈ (getSignedIntervals d svalue uvalue rs (w = 64)).right := by
  have hreads : Reads σ svalue uvalue rs (.const y.toNat) x y := ⟨hword.1, hword.2, hr, eval_const _ _⟩
  rcases hw with rfl | rfl
  · have hcovers := covers_signed hreads hσ
    rw [toInt_setWidth, toInt_setWidth]
    exact ⟨hcovers.left, hcovers.right⟩
  · have hcovers := covers_signed64 hreads hσ
    rw [BitVec.setWidth_eq, BitVec.setWidth_eq]
    exact ⟨hcovers.left, hcovers.right⟩

/-- The count is the amount that the ISA shifts by. -/
theorem ashrCount_setWidth (hw : w = 32 ∨ w = 64) (y : BitVec 64) :
    ashrCount (y.setWidth w).toInt w = shiftCount y w := by
  rw [ashrCount_eq hw]
  unfold shiftCount
  have hy := readings y
  rcases hw with rfl | rfl
  · have heq := lowS_eq y
    rw [toInt_setWidth]
    unfold lowU Number.zeroExtend at heq
    push_cast
    omega
  · rw [BitVec.setWidth_eq]
    push_cast
    omega

/-- `ashr` is exact. -/
theorem steps_ashr (hd : d.WF) (hne : svalue ≠ uvalue) (hw : w = 32 ∨ w = 64) (hsat : ∃ σ, d.Models σ)
    (rs : LinearExpression V) :
    Steps d (ashr d svalue uvalue rs w) svalue uvalue fun σ z => ∃ x y,
      ReadsWord σ svalue uvalue x ∧ rs.eval σ = y.toInt ∧ z = isaAshr w (shiftCount y w) x := by
  obtain ⟨σ₀, hσ₀⟩ := hsat
  obtain ⟨l, u, hleft, hl, hu, hlu⟩ := getSignedIntervals_left hw hσ₀ svalue uvalue rs
  unfold ashr
  simp only
  cases hright : (getSignedIntervals d svalue uvalue rs (w = 64)).right.singleton with
  | none =>
    refine ⟨_, rfl, fun σ z hσ _ => ?_⟩
    exact SplitDbm.models_havoc (SplitDbm.wf_havoc hd svalue) uvalue
      (SplitDbm.models_havoc hd svalue hσ z.toInt) z.toNat
  | some sn =>
    have hcast : castToS 64 sn = some sn := if_pos (fitsS_of_singleton_right hright)
    obtain ⟨c, hc, hcount⟩ : ∃ c : ℕ, c < w ∧ ashrCount sn w = c := by
      have hpos : (0 : ℤ) < w := by omega
      have hnonneg := Int.emod_nonneg sn hpos.ne'
      have hlt := Int.emod_lt_of_pos sn hpos
      exact ⟨(sn % w).toNat, by omega, (ashrCount_eq hw sn).trans (Int.toNat_of_nonneg hnonneg).symm⟩
    obtain ⟨i, hrange, hi⟩ := ashrRange_spec hw hc hl hu hlu
    apply steps_of_set hd hne hw (Or.inl ⟨rfl, rfl⟩) ⟨σ₀, hσ₀⟩ (i := i)
    · simp only [hcast, Option.bind_eq_bind, Option.bind_some, hcount]
      rw [hleft, hrange]
      rfl
    · obtain ⟨k, hk, -⟩ := hi l le_rfl hlu
      exact ⟨k, hk⟩
    · rintro σ _ hσ ⟨x, y, hword, hr, rfl⟩
      obtain ⟨hx, hy⟩ := mem_signedIntervals hw hσ hword hr
      obtain rfl := Interval.eq_of_singleton hright hy
      rw [hleft] at hx
      obtain ⟨k, hk, hmod⟩ := hi _ (Bound.fin_le_fin.mp hx.1) (Bound.fin_le_fin.mp hx.2)
      refine ⟨k, hk, ?_⟩
      rw [ashrCount_setWidth hw, Nat.cast_inj] at hcount
      rw [← word_emod, hmod, word_emod, isaAshr_eq, hcount]

/-! ## Sign extension -/

/-- `sign_extend` is exact. -/
theorem steps_signExtend (hd : d.WF) (hne : svalue ≠ uvalue) (hw : w = 32 ∨ w = 64)
    (hsat : ∃ σ, d.Models σ) (rs : LinearExpression V) {source : ℕ} (hsource : 0 < source)
    (hle : source ≤ 64) :
    Steps d (signExtend d svalue uvalue rs w source) svalue uvalue
      fun σ z => ∃ y : BitVec 64, rs.eval σ = y.toInt ∧ z = isaMovsx w source y := by
  have hmem : ∀ σ, d.Models σ → Number.signExtend source (rs.eval σ) ∈ (d.evalInterval rs).signExtend source :=
    fun σ hσ => Interval.mem_signExtend hsource (SplitDbm.mem_evalInterval hσ rs)
  obtain ⟨σ₀, hσ₀⟩ := hsat
  apply steps_of_set hd hne hw (Or.inl ⟨rfl, rfl⟩) ⟨σ₀, hσ₀⟩ (i := (d.evalInterval rs).signExtend source)
  · unfold signExtend
    simp only [Interval.isBottom_eq_false_of_mem (hmem σ₀ hσ₀), Bool.false_eq_true, if_false]
  · exact ⟨_, hmem σ₀ hσ₀⟩
  · rintro σ _ hσ ⟨y, hy, rfl⟩
    refine ⟨_, hmem σ hσ, ?_⟩
    rw [hy, isaMovsx_eq, BitVec.toInt_setWidth, signExtend_eq_bmod hsource, BitVec.toInt_eq_toNat_bmod,
      Int.bmod_bmod_of_dvd (Nat.pow_dvd_pow 2 hle)]

end

end FiniteDomain

end Prevail
