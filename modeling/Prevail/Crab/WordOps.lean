import Prevail.Crab.TransformAlu
import Prevail.Crab.WrappedArith

/-!
# Operations on the words of registers

What `apply_signed` and `apply_unsigned` compute from the numbers that two variables of a word hold is the
result of the instruction set on the words (`exists_computes`). An operation on the values therefore returns
a state that admits the word of the instruction, as long as it loses no result on the way from one
interval to another (`applied_yields`).
-/

namespace Prevail

open Number LinearExpression FiniteDomain

/-! ## Numbers that stand for words -/

namespace Number

/-- The low bits of the number are those of the word. -/
def Represents (w : ℕ) (n : ℤ) (x : BitVec 64) : Prop := BitVec.ofInt w n = x.setWidth w

variable {w : ℕ} {m n : ℤ} {x y : BitVec 64}

theorem represents_toInt (hw : w ≤ 64) : Represents w x.toInt x := by
  apply BitVec.eq_of_toInt_eq
  rw [BitVec.toInt_ofInt, BitVec.toInt_setWidth, BitVec.toInt_eq_toNat_bmod,
    Int.bmod_bmod_of_dvd (Nat.pow_dvd_pow 2 hw)]

theorem represents_toNat : Represents w x.toNat x := by
  unfold Represents
  rw [BitVec.ofInt_natCast, BitVec.ofNat_toNat]

theorem signExtend_eq_toInt (hw : 0 < w) (hle : w ≤ 64) : Number.signExtend w x.toInt = (x.setWidth w).toInt := by
  rw [signExtend_eq_bmod hw, ← represents_toInt hle, BitVec.toInt_ofInt]

theorem fitsU_toNat (x : BitVec 64) : FitsU 64 x.toNat :=
  ⟨Int.natCast_nonneg _, by rw [maxUint_eq]; omega⟩

theorem Represents.zeroExtend (h : Represents w n x) : zeroExtend w n = (x.setWidth w).toNat := by
  rw [← h, BitVec.toNat_ofInt]
  have hcast : ((2 ^ w : ℕ) : ℤ) = 2 ^ w := by push_cast; rfl
  rw [hcast]
  exact (Int.toNat_of_nonneg (Int.emod_nonneg n (two_pow_pos w).ne')).symm

theorem zeroExtend_eq_toNat : zeroExtend w x.toNat = (x.setWidth w).toNat := represents_toNat.zeroExtend

/-- Reading a word again. -/
theorem zeroExtend_setWidth (hw : w ≤ 64) : zeroExtend 64 ((x.setWidth w).toNat : ℤ) = (x.setWidth w).toNat := by
  refine zeroExtend_of_fits ⟨Int.natCast_nonneg _, ?_⟩
  have hlt : (x.setWidth w).toNat < 2 ^ w := (x.setWidth w).isLt
  have hpow : 2 ^ w ≤ 2 ^ 64 := Nat.pow_le_pow_right (by decide) hw
  rw [maxUint_eq]
  omega

end Number

/-! ## Masked amounts -/

namespace Interval

/-- The mask of shift amounts leaves several numbers of an interval with several numbers. -/
theorem singleton_maskShiftCount {I : Interval} {m : ℤ} (hm : m ∈ I) (h0 : 0 < m) (hI : I.singleton = none) :
    (I.maskShiftCount 64).singleton = none := by
  have hsingle : ∀ {k : ℤ}, 0 < k → (ofBounds (.fin 0) (.fin k)).singleton = none := by
    intro k hk
    have hofBounds : ofBounds (.fin 0) (.fin k) = ⟨.fin 0, .fin k⟩ := ofInts_of_le hk.le
    rw [hofBounds]
    exact if_neg fun heq => hk.ne (Bound.fin.inj heq)
  have hmin : ∃ k, 0 < k ∧ I.ub.min (.fin 63) = .fin k := by
    have hub := hm.2
    cases hI : I.ub with
    | negInf => exact absurd (hI ▸ hub) (Bound.not_fin_le_negInf m)
    | fin b =>
      have hb := Bound.fin_le_fin.mp (hI ▸ hub)
      exact ⟨min b 63, by omega, Bound.min_fin b 63⟩
    | posInf => exact ⟨63, by decide, rfl⟩
  have hzero : I ≠ const 0 := by
    rintro rfl
    cases hI
  obtain ⟨k, hk, hmin⟩ := hmin
  have hmask : I.maskShiftCount 64 = if I.isTop then ofBounds (.fin 0) (.fin 63) else ofBounds (.fin 0) (.fin k) := by
    unfold maskShiftCount bitwiseAnd
    rw [isBottom_eq_false_of_mem hm, hI]
    rw [if_pos (by decide), show (const ((64 : ℕ) - 1)).isBottom = false by decide, singleton_const]
    simp only [Bool.or_self, Bool.false_eq_true, if_false]
    rw [if_neg (not_or.mpr ⟨hzero, by decide⟩), if_neg (by decide), if_neg (by decide),
      if_neg (by decide)]
    unfold bitwiseAnd.andRange
    rw [if_neg (by decide), show (const ((64 : ℕ) - 1)).isTop = false by decide]
    cases I.isTop with
    | true => rfl
    | false =>
      rw [← hmin]
      rfl
  rw [hmask]
  split_ifs
  · exact hsingle (by decide)
  · exact hsingle hk

end Interval

namespace FiniteDomain

/-- The operator of the instruction set that the operator computes. -/
def BinOp.instruction : FiniteDomain.BinOp → Option Prevail.BinOp
  | .arith .add => some .add
  | .arith .sub => some .sub
  | .arith .mul => some .mul
  | .signedArith .sdiv => some .sdiv
  | .signedArith .udiv => some .udiv
  | .signedArith .srem => some .smod
  | .signedArith .urem => some .umod
  | .bitwise .and => some .and
  | .bitwise .or => some .or
  | .bitwise .xor => some .xor
  | .bitwise _ => none

section

variable {op : FiniteDomain.BinOp} {iop : Prevail.BinOp} {w : ℕ} {m n : ℤ} {x y : BitVec 64}

/-- The number that the operator reads from its left operand. -/
def BinOp.ReadsLeft (op : FiniteDomain.BinOp) (w : ℕ) (m : ℤ) (x : BitVec 64) : Prop :=
  match op with
  | .arith _ => Represents w m x
  | .signedArith .sdiv | .signedArith .srem => m = (x.setWidth w).toInt
  | .signedArith .udiv | .signedArith .urem => m = (x.setWidth w).toNat
  | .bitwise _ => m = x.toNat

/-- The number that the operator reads from its right operand, which may be an immediate value with a sign. -/
def BinOp.ReadsRight (op : FiniteDomain.BinOp) (w : ℕ) (n : ℤ) (y : BitVec 64) : Prop :=
  match op with
  | .signedArith .udiv | .signedArith .urem => zeroExtend 64 n = (y.setWidth w).toNat
  | _ => op.ReadsLeft w n y

theorem word_natCast (n : ℕ) : word w n = (BitVec.ofNat w n).setWidth 64 := by
  unfold word
  rw [BitVec.ofInt_natCast]

theorem ofInt_natCast_div (a b : BitVec w) : BitVec.ofInt w ((a.toNat : ℤ) / b.toNat) = a / b := by
  have hlt : a.toNat / b.toNat < 2 ^ w := (Nat.div_le_self _ _).trans_lt a.isLt
  apply BitVec.eq_of_toNat_eq
  rw [← Int.natCast_ediv, BitVec.ofInt_natCast, BitVec.toNat_ofNat, Nat.mod_eq_of_lt hlt]
  exact (BitVec.toNat_udiv ..).symm

theorem ofInt_natCast_mod (a b : BitVec w) : BitVec.ofInt w ((a.toNat : ℤ) % b.toNat) = a % b := by
  have hlt : a.toNat % b.toNat < 2 ^ w := (Nat.mod_le _ _).trans_lt a.isLt
  apply BitVec.eq_of_toNat_eq
  rw [← Int.natCast_emod, BitVec.ofInt_natCast, BitVec.toNat_ofNat, Nat.mod_eq_of_lt hlt]
  exact (BitVec.toNat_umod ..).symm

theorem word_masked (n : ℤ) : word w (masked w n) = word w n := by
  unfold masked
  split_ifs
  · exact word_emod w n
  · rfl

/-- The result on the numbers is that of the instruction on the words. -/
theorem word_result (hop : op.instruction = some iop) (hw : w = 32 ∨ w = 64)
    (hm : op.ReadsLeft w m x) (hn : op.ReadsRight w n y) :
    word w (op.result w m n) = aluWord iop w x y := by
  have hle : w ≤ 64 := by omega
  cases op with
  | arith op =>
    have hm : Represents w m x := hm
    have hn : Represents w n y := hn
    cases op <;> obtain rfl := Option.some.inj hop <;> unfold BinOp.result word aluWord BinOp.eval
    · rw [BitVec.ofInt_add, hm, hn]
    · rw [sub_eq_add_neg, BitVec.ofInt_add, BitVec.ofInt_neg, hm, hn, BitVec.sub_eq_add_neg]
    · rw [BitVec.ofInt_mul, hm, hn]
  | signedArith op =>
    unfold word aluWord
    cases op with
    | sdiv =>
      obtain rfl : m = _ := hm
      obtain rfl : n = _ := hn
      obtain rfl := Option.some.inj hop
      congr 1
      apply BitVec.eq_of_toInt_eq
      exact (BitVec.toInt_ofInt ..).trans (BitVec.toInt_sdiv _ _).symm
    | udiv =>
      obtain rfl : m = _ := hm
      have hn : zeroExtend 64 n = _ := hn
      obtain rfl := Option.some.inj hop
      unfold BinOp.result
      rw [zeroExtend_setWidth hle, hn, ofInt_natCast_div]
      rfl
    | srem =>
      obtain rfl : m = _ := hm
      obtain rfl : n = _ := hn
      obtain rfl := Option.some.inj hop
      unfold BinOp.result
      rw [← BitVec.toInt_srem, BitVec.ofInt_toInt]
      rfl
    | urem =>
      obtain rfl : m = _ := hm
      have hn : zeroExtend 64 n = _ := hn
      obtain rfl := Option.some.inj hop
      unfold BinOp.result Interval.unsignedRem
      rw [zeroExtend_setWidth hle, hn, ofInt_natCast_mod]
      rfl
  | bitwise op =>
    obtain rfl : m = _ := hm
    obtain rfl : n = _ := hn
    cases op with
    | and =>
      obtain rfl := Option.some.inj hop
      show word w (masked w ((x.toNat &&& y.toNat : ℕ) : ℤ)) = _
      rw [word_masked, word_natCast, ← BitVec.toNat_and, BitVec.ofNat_toNat, BitVec.setWidth_and]
      rfl
    | or =>
      obtain rfl := Option.some.inj hop
      show word w (masked w ((x.toNat ||| y.toNat : ℕ) : ℤ)) = _
      rw [word_masked, word_natCast, ← BitVec.toNat_or, BitVec.ofNat_toNat, BitVec.setWidth_or]
      rfl
    | xor =>
      obtain rfl := Option.some.inj hop
      show word w (masked w ((x.toNat ^^^ y.toNat : ℕ) : ℤ)) = _
      rw [word_masked, word_natCast, ← BitVec.toNat_xor, BitVec.ofNat_toNat, BitVec.setWidth_xor]
      rfl
    | shl | lshr | ashr => cases hop

end

/-! ## The operands -/

section

variable {V : Type} (isUnsigned : V → Bool)

/-- The variable holds the word, by its signedness. -/
def Holds (σ : V → ℤ) (v : V) (x : BitVec 64) : Prop := σ v = if isUnsigned v then (x.toNat : ℤ) else x.toInt

/-- The operand is the word: a variable that holds it, or a number of 32 bits with a sign. -/
def OperandIs (σ : V → ℤ) (z : V ⊕ ℤ) (y : BitVec 64) : Prop :=
  match z with
  | .inl v => Holds isUnsigned σ v y
  | .inr k => k = y.toInt ∧ FitsS 32 k

variable {isUnsigned} {op : FiniteDomain.BinOp} {iop : Prevail.BinOp} {w : ℕ} {σ : V → ℤ} {v : V}
  {z : V ⊕ ℤ} {x y : BitVec 64}

theorem Holds.holdsWord (h : Holds isUnsigned σ v x) : HoldsWord (isUnsigned v) (σ v) := by
  unfold HoldsWord
  rw [h]
  split_ifs
  · exact fitsU_toNat x
  · exact fitsS_toInt x

theorem Holds.represents (h : Holds isUnsigned σ v x) (hw : w ≤ 64) : Represents w (σ v) x := by
  rw [h]
  split_ifs
  · exact represents_toNat
  · exact represents_toInt hw

/-- A variable that is read at a width. -/
theorem Holds.readAt (h : Holds isUnsigned σ v x) (hw : w = 32 ∨ w = 64) :
    readAt (isUnsigned v) w (σ v) =
      if isUnsigned v then ((x.setWidth w).toNat : ℤ) else (x.setWidth w).toInt := by
  unfold FiniteDomain.readAt
  rw [h]
  split_ifs
  · exact zeroExtend_eq_toNat
  · exact signExtend_eq_toInt (by omega) (by omega)

theorem reads_readVar (hw : w = 32 ∨ w = 64) (hs : ∀ s, op.signedness = some s → isUnsigned v = s)
    (hv : Holds isUnsigned σ v x) : op.ReadsLeft w (op.readVar isUnsigned w σ v) x := by
  have hle : w ≤ 64 := by omega
  cases op with
  | arith op =>
    cases op with
    | add => exact hv.represents hle
    | sub => exact hv.represents hle
    | mul =>
      show Represents w (FiniteDomain.readAt (isUnsigned v) w (σ v)) x
      rw [hv.readAt hw]
      unfold Represents
      split_ifs
      · rw [BitVec.ofInt_natCast, BitVec.ofNat_toNat, BitVec.setWidth_eq]
      · exact BitVec.ofInt_toInt
  | signedArith op =>
    cases op with
    | sdiv | srem =>
      have hsign := hs false rfl
      exact (hv.readAt hw).trans (by rw [hsign]; rfl)
    | udiv | urem =>
      have hsign := hs true rfl
      exact (hv.readAt hw).trans (by rw [hsign]; rfl)
  | bitwise op =>
    have hsign := hs true rfl
    exact Eq.trans hv (by rw [hsign]; rfl)

theorem readsRight_of_readsLeft {m : ℤ} (hw : w = 32 ∨ w = 64) (h : op.ReadsLeft w m x) : op.ReadsRight w m x := by
  cases op with
  | arith op => exact h
  | signedArith op =>
    cases op with
    | sdiv | srem => exact h
    | udiv | urem =>
      obtain rfl : m = _ := h
      exact zeroExtend_setWidth (by omega)
  | bitwise op => exact h

/-- The immediate value, as the operator reads it. -/
theorem reads_readImm (hw : w = 32 ∨ w = 64) {k : ℤ} (hy : k = y.toInt) (hk : FitsS 32 k) :
    ∃ n, op.readImm w k = some n ∧ op.ReadsRight w n y := by
  have hle : w ≤ 64 := by omega
  have hrep : Represents w k y := hy ▸ represents_toInt hle
  have hS : castToS 32 k = some k := if_pos hk
  have h64 : FitsS 64 k := hy ▸ fitsS_toInt y
  cases op with
  | arith op => exact ⟨k, rfl, hrep⟩
  | signedArith op =>
    have hsigned : readImmForSdivOrSmod k w = some k ∧ k = (y.setWidth w).toInt := by
      unfold readImmForSdivOrSmod
      rcases hw with rfl | rfl
      · refine ⟨hS, ?_⟩
        rw [← signExtend_eq_toInt (by decide) (by decide), ← hy, signExtend_of_fits (by decide) hk]
      · exact ⟨if_pos h64, by rw [BitVec.setWidth_eq, hy]⟩
    have hunsigned : ∃ n, readImmForUdivOrUmod k w = some n ∧ zeroExtend 64 n = (y.setWidth w).toNat := by
      unfold readImmForUdivOrUmod
      rcases hw with rfl | rfl
      · refine ⟨_, castToU_of_fitsS hk, ?_⟩
        have hzero : k % 2 ^ 32 = (y.setWidth 32).toNat := hrep.zeroExtend
        rw [hzero]
        exact zeroExtend_setWidth (by decide)
      · exact ⟨k, hS, hrep.zeroExtend⟩
    cases op with
    | sdiv | srem => exact ⟨k, hsigned⟩
    | udiv | urem => exact hunsigned
  | bitwise op =>
    have h64' : Represents 64 k y := hy ▸ represents_toInt le_rfl
    refine ⟨_, Interval.castToU_of_fits (Or.inl h64), ?_⟩
    rw [h64'.zeroExtend, BitVec.setWidth_eq]
    rfl

theorem reads_readOperand (hw : w = 32 ∨ w = 64) (hs : ∀ s u, op.signedness = some s → z = .inl u →
    isUnsigned u = s) (hz : OperandIs isUnsigned σ z y) :
    ∃ n, op.readOperand isUnsigned w σ z = some n ∧ op.ReadsRight w n y := by
  cases z with
  | inl u => exact ⟨_, rfl, readsRight_of_readsLeft hw (reads_readVar hw (fun s h => hs s u h rfl) hz)⟩
  | inr k => exact reads_readImm hw hz.1 hz.2

/-- The operation computes the word of the instruction. -/
theorem exists_computes (hop : op.instruction = some iop) (hw : w = 32 ∨ w = 64)
    (hs : op.SignedAs isUnsigned v z) (hv : Holds isUnsigned σ v x) (hz : OperandIs isUnsigned σ z y) :
    ∃ k, op.Computes isUnsigned w v z σ k ∧ word w k = aluWord iop w x y := by
  have hleft : op.ReadsLeft w (op.readVar isUnsigned w σ v) x := reads_readVar hw (fun s h => (hs s h).1) hv
  have hright : ∃ n, op.readOperand isUnsigned w σ z = some n ∧ op.ReadsRight w n y :=
    reads_readOperand hw (fun s u h hu => (hs s h).2 u hu) hz
  obtain ⟨n, hn, hright⟩ := hright
  refine ⟨_, ⟨hv.holdsWord, fun u hu => ?_, n, hn, rfl⟩, word_result hop hw hleft hright⟩
  subst hu
  exact Holds.holdsWord hz

end

/-! ## The states after an operation -/

section

variable {V : Type} [LinearOrder V] {d d' : SplitDbm V} {svalue uvalue v u : V} {w : ℕ} {σ : V → ℤ}

/-- The operation returns a state that admits the word `y` in the register whenever `P σ y` holds before. -/
def Yields (d : SplitDbm V) (r : Option (SplitDbm V)) (svalue uvalue : V)
    (P : (V → ℤ) → BitVec 64 → Prop) : Prop :=
  ∃ d', r = some d' ∧ d'.WF ∧ ∀ σ y, d.Models σ → P σ y → d'.Models (setWord σ svalue uvalue y)

theorem Yields.mono {r : Option (SplitDbm V)} {P Q : (V → ℤ) → BitVec 64 → Prop}
    (h : Yields d r svalue uvalue P) (hPQ : ∀ σ y, Q σ y → P σ y) : Yields d r svalue uvalue Q := by
  obtain ⟨d', hr, hwf, hmodels⟩ := h
  exact ⟨d', hr, hwf, fun σ y hσ hy => hmodels σ y hσ (hPQ σ y hy)⟩

/-- The result of the instruction on the words of the operands. -/
def AluResult (isUnsigned : V → Bool) (iop : Prevail.BinOp) (w : ℕ) (v : V) (z : V ⊕ ℤ) (σ : V → ℤ)
    (r : BitVec 64) : Prop :=
  ∃ x y, Holds isUnsigned σ v x ∧ OperandIs isUnsigned σ z y ∧ r = aluWord iop w x y

variable {isUnsigned : V → Bool} {op : FiniteDomain.BinOp} {iop : Prevail.BinOp} {z : V ⊕ ℤ}

/-- Signed and unsigned operations, where the operation on intervals loses no result. -/
theorem applied_yields (hd : d.WF) (hne : svalue ≠ uvalue) (hop : op.instruction = some iop)
    (hw : w = 32 ∨ w = 64) (hs : op.SignedAs isUnsigned v z) (hexact : op.ExactAt isUnsigned d w v z)
    (hsat : ∃ σ x y, d.Models σ ∧ Holds isUnsigned σ v x ∧ OperandIs isUnsigned σ z y) :
    Yields d (applySigned isUnsigned d op svalue uvalue v z w) svalue uvalue
        (AluResult isUnsigned iop w v z) ∧
      Yields d (applyUnsigned isUnsigned d op svalue uvalue v z w) svalue uvalue
        (AluResult isUnsigned iop w v z) := by
  have hw0 : w ≠ 0 := by omega
  have hsat' : ∃ σ k, d.Models σ ∧ op.Computes isUnsigned w v z σ k := by
    obtain ⟨σ, x, y, hσ, hx, hy⟩ := hsat
    obtain ⟨k, hk, -⟩ := exists_computes hop hw hs hx hy
    exact ⟨σ, k, hσ, hk⟩
  have hresult : ∀ d' : SplitDbm V, (∀ σ k, d.Models σ → op.Computes isUnsigned w v z σ k →
      d'.Models (setWord σ svalue uvalue (word w k))) → ∀ σ r, d.Models σ →
        AluResult isUnsigned iop w v z σ r → d'.Models (setWord σ svalue uvalue r) := by
    rintro d' hmodels σ _ hσ ⟨x, y, hx, hy, rfl⟩
    obtain ⟨k, hk, hword⟩ := exists_computes hop hw hs hx hy
    rw [← hword]
    exact hmodels σ k hσ hk
  constructor
  · obtain ⟨d₁, hd₁, hwf, h⟩ := apply_spec hd hw hs hexact hsat' svalue
    obtain ⟨d', hd', hwf', hmodels⟩ := copy_spec hwf hne hw (Or.inl ⟨rfl, rfl⟩) h hsat'
    refine ⟨d', ?_, hwf', hresult d' hmodels⟩
    rw [applySigned, hd₁]
    exact (if_pos hw0).trans hd'
  · obtain ⟨d₁, hd₁, hwf, h⟩ := apply_spec hd hw hs hexact hsat' uvalue
    obtain ⟨d', hd', hwf', hmodels⟩ := copy_spec hwf hne hw (Or.inr ⟨rfl, rfl⟩) h hsat'
    refine ⟨d', ?_, hwf', hresult d' hmodels⟩
    rw [applyUnsigned, hd₁]
    exact (if_pos hw0).trans hd'

/-! ### Conjunctions with a number -/

theorem land_mem_andRange_const {I : Interval} {m n : ℤ} (hm : m ∈ I) (hmU : FitsU 64 m)
    (hnU : FitsU 64 n) : m.land n ∈ Interval.bitwiseAnd.andRange I (.const n) := by
  have hn : n ∈ Interval.const n := Interval.mem_const.mpr rfl
  obtain ⟨h0, hleft, hright⟩ := Interval.land_le hmU hnU
  have hI : .fin (m.land n) ≤ I.ub := Bound.le_trans (Bound.fin_le_fin.mpr hleft) hm.2
  have hx : .fin (m.land n) ≤ (Interval.const n).ub := Bound.le_trans (Bound.fin_le_fin.mpr hright) hn.2
  unfold Interval.bitwiseAnd.andRange
  split_ifs with hmask
  · -- all bits are kept
    obtain rfl := Interval.mem_const.mp (Interval.contains_iff.mp hmask)
    rw [Interval.land_maxUint hmU 64]
    exact Interval.mem_zeroExtend 64 hm
  · exact Interval.mem_ofBounds.mpr ⟨h0, Bound.le_min.mpr ⟨hI, hx⟩⟩
  · exact Interval.mem_ofBounds.mpr ⟨h0, hx⟩
  · exact Interval.mem_ofBounds.mpr ⟨h0, hI⟩
  · exact Interval.mem_top _

/-- A mask of one number loses no result, whatever the interval of the other operand. -/
theorem land_mem_bitwiseAnd_const {I : Interval} {m n : ℤ} (hm : m ∈ I) (hmU : FitsU 64 m)
    (hnU : FitsU 64 n) : m.land n ∈ I.bitwiseAnd (.const n) := by
  have hn : n ∈ Interval.const n := Interval.mem_const.mpr rfl
  have hrange := land_mem_andRange_const hm hmU hnU
  obtain ⟨h0, hleft, hright⟩ := Interval.land_le hmU hnU
  unfold Interval.bitwiseAnd
  rw [Interval.isBottom_eq_false_of_mem hm, Interval.isBottom_eq_false_of_mem hn,
    Interval.singleton_const]
  simp only [Bool.or_self, Bool.false_eq_true, if_false]
  split_ifs with hzero
  · have hzero' : m = 0 ∨ n = 0 := by
      rcases hzero with rfl | hzero
      · exact Or.inl (Interval.mem_const.mp hm)
      · rw [hzero] at hn
        exact Or.inr (Interval.mem_const.mp hn)
    exact Interval.mem_const.mpr (by omega)
  split
  · next right left hr hl =>
    obtain rfl := Option.some.inj hr
    rw [Interval.eq_of_singleton hl hm]
    exact Interval.mem_const.mpr rfl
  · next right hr hl =>
    obtain rfl := Option.some.inj hr
    split_ifs with h32 h16 h8
    · rw [h32, Interval.land_maxUint hmU]
      exact Interval.mem_zeroExtend 32 hm
    · rw [h16, Interval.land_maxUint hmU]
      exact Interval.mem_zeroExtend 16 hm
    · rw [h8, Interval.land_maxUint hmU]
      exact Interval.mem_zeroExtend 8 hm
    · exact hrange
  · exact hrange

theorem yields_bitwiseAnd (hd : d.WF) (hne : svalue ≠ uvalue) {k : ℤ} {y : BitVec 64}
    (hk : castToU 64 k = some y.toNat) (hsat : ∃ σ, ∃ x : BitVec 64, d.Models σ ∧ σ uvalue = x.toNat) :
    Yields d (bitwiseAnd isUnsigned d svalue uvalue (.inr k) w) svalue uvalue
      fun σ r => ∃ x : BitVec 64, σ uvalue = x.toNat ∧ r = x &&& y := by
  have hmem : ∀ σ, ∀ x : BitVec 64, d.Models σ → σ uvalue = x.toNat →
      ((x &&& y).toNat : ℤ) ∈ (d.evalInterval (.var uvalue)).bitwiseAnd (.const y.toNat) := by
    intro σ x hσ hx
    have hvar := SplitDbm.mem_evalInterval hσ (.var uvalue)
    rw [eval_var, hx] at hvar
    have hland := land_mem_bitwiseAnd_const hvar (fitsU_toNat x) (fitsU_toNat y)
    rw [BitVec.toNat_and]
    exact hland
  obtain ⟨σ₀, x₀, hσ₀, hx₀⟩ := hsat
  obtain ⟨d', hd', hwf, hmodels⟩ := set_copy_spec hd hne (Or.inr rfl) (Or.inr ⟨rfl, rfl⟩) ⟨σ₀, hσ₀⟩
    ⟨_, hmem σ₀ x₀ hσ₀ hx₀⟩
  refine ⟨d', ?_, hwf, ?_⟩
  · rw [← hd']
    unfold bitwiseAnd bitwise applyUnsigned apply applyBitwise
    simp [hk, BitwiseBinOp.isShift, Interval.maskValue]
  · rintro σ _ hσ ⟨x, hx, rfl⟩
    have hset := hmodels σ _ hσ (hmem σ x hσ hx)
    rwa [word_natCast, BitVec.ofNat_toNat, BitVec.setWidth_eq, BitVec.setWidth_eq] at hset

/-! ### Shifts and sign extension -/

theorem wf_overflowBound {isSigned : Bool} (hd : d.WF) (h : overflowBound d v w isSigned = some d') :
    d'.WF := by
  unfold overflowBound at h
  simp only at h
  split at h
  · exact Option.some.inj h ▸ SplitDbm.wf_havoc hd v
  · split at h
    · exact Option.some.inj h ▸ SplitDbm.wf_havoc hd v
    · obtain ⟨lb, -, h⟩ := Option.bind_eq_some_iff.mp h
      obtain ⟨ub, -, h⟩ := Option.bind_eq_some_iff.mp h
      split_ifs at h
      · exact Option.some.inj h ▸ SplitDbm.wf_havoc hd v
      · exact Option.some.inj h ▸ SplitDbm.wf_set hd v _
      · exact Option.some.inj h ▸ hd

theorem wf_overflowBounds (hd : d.WF) (h : overflowBounds d svalue uvalue w = some d') : d'.WF := by
  obtain ⟨d₁, h₁, h⟩ := Option.bind_eq_some_iff.mp h
  exact wf_overflowBound (wf_overflowBound hd h₁) h

/-- The last steps of all shifts. -/
theorem wf_set_copy {x other : V} {i : Interval} (hd : d.WF) (h : (do
    let d ← set d x i
    overflowBounds (d.assign other (.var x)) svalue uvalue w) = some d') : d'.WF := by
  obtain ⟨d₁, h₁, h⟩ := Option.bind_eq_some_iff.mp h
  unfold set at h₁
  split_ifs at h₁
  obtain rfl := Option.some.inj h₁
  exact wf_overflowBounds (SplitDbm.wf_assign (SplitDbm.wf_set hd x i) other _) h

theorem wf_shlOverflow {k : ℤ} (hd : d.WF) (h : shlOverflow d svalue uvalue k = some d') : d'.WF := by
  obtain ⟨d₁, h₁, h⟩ := Option.bind_eq_some_iff.mp h
  obtain ⟨zi, -, h₁⟩ := Option.bind_eq_some_iff.mp h₁
  obtain ⟨xi, -, h₁⟩ := Option.bind_eq_some_iff.mp h₁
  have h₁ : set d uvalue _ = some d₁ := h₁
  unfold set at h₁
  split_ifs at h₁
  obtain rfl := Option.some.inj h₁
  exact wf_overflowBounds (SplitDbm.wf_assign (SplitDbm.wf_set hd uvalue _) svalue _) h

theorem wf_shl {k : ℤ} (hd : d.WF) (h : shl d svalue uvalue k w = some d') : d'.WF := by
  unfold shl at h
  simp only at h
  split_ifs at h
  · exact wf_shlOverflow hd h
  · obtain ⟨lb, -, h⟩ := Option.bind_eq_some_iff.mp h
    obtain ⟨lb', -, h⟩ := Option.bind_eq_some_iff.mp h
    obtain ⟨ub, -, h⟩ := Option.bind_eq_some_iff.mp h
    obtain ⟨ub', -, h⟩ := Option.bind_eq_some_iff.mp h
    obtain ⟨i, -, h⟩ := Option.bind_eq_some_iff.mp h
    exact wf_set_copy hd h

theorem wf_lshr {k : ℤ} (hd : d.WF) (h : lshr d svalue uvalue k w = some d') : d'.WF := by
  obtain ⟨i, -, h⟩ := Option.bind_eq_some_iff.mp h
  exact wf_set_copy hd h

theorem wf_ashr {right : LinearExpression V} (hd : d.WF) (h : ashr d svalue uvalue right w = some d') :
    d'.WF := by
  unfold ashr at h
  simp only at h
  split at h
  · exact Option.some.inj h ▸ SplitDbm.wf_havoc (SplitDbm.wf_havoc hd svalue) uvalue
  · obtain ⟨n, -, h⟩ := Option.bind_eq_some_iff.mp h
    obtain ⟨i, -, h⟩ := Option.bind_eq_some_iff.mp h
    exact wf_set_copy hd h

theorem wf_signExtend {right : LinearExpression V} {source : ℕ} (hd : d.WF)
    (h : signExtend d svalue uvalue right w source = some d') : d'.WF := by
  unfold signExtend at h
  simp only at h
  split_ifs at h
  exact wf_set_copy hd h

theorem Steps.yields {r : Option (SplitDbm V)} {P : (V → ℤ) → BitVec 64 → Prop}
    (h : Steps d r svalue uvalue P) (hwf : ∀ {d'}, r = some d' → d'.WF) : Yields d r svalue uvalue P := by
  obtain ⟨d', hr, hmodels⟩ := h
  exact ⟨d', hr, hwf hr, hmodels⟩

variable {amount : BitVec 64} {right : LinearExpression V}

theorem yields_shl (hd : d.WF) (hsat : ∃ σ, d.Models σ) (hne : svalue ≠ uvalue) (hw : w = 32 ∨ w = 64)
    (hexact : ShlExact (d.evalInterval (.var uvalue)) (shiftCount amount w) w) :
    Yields d (shl d svalue uvalue (shiftCount amount w) w) svalue uvalue
      fun σ r => ∃ x, ReadsWord σ svalue uvalue x ∧ r = aluWord .lsh w x amount := by
  have hcount : shiftCount amount w < w := Nat.mod_lt _ (by omega)
  simp only [aluWord_lsh hw]
  exact ((steps_shl_iff hd hne hw hcount hsat).mpr hexact).yields (wf_shl hd)

theorem yields_lshr (hd : d.WF) (hsat : ∃ σ, d.Models σ) (hne : svalue ≠ uvalue) (hw : w = 32 ∨ w = 64)
    (hexact : LshrExact d svalue uvalue (shiftCount amount w) w) :
    Yields d (lshr d svalue uvalue (shiftCount amount w) w) svalue uvalue
      fun σ r => ∃ x, ReadsWord σ svalue uvalue x ∧ r = aluWord .rsh w x amount := by
  have hcount : shiftCount amount w < w := Nat.mod_lt _ (by omega)
  simp only [aluWord_rsh hw]
  exact ((steps_lshr_iff hd hne hw hcount hsat).mpr hexact).yields (wf_lshr hd)

theorem yields_ashr (hd : d.WF) (hsat : ∃ σ, d.Models σ) (hne : svalue ≠ uvalue) (hw : w = 32 ∨ w = 64) :
    Yields d (ashr d svalue uvalue right w) svalue uvalue fun σ r => ∃ x y,
      ReadsWord σ svalue uvalue x ∧ right.eval σ = y.toInt ∧ r = aluWord .arsh w x y := by
  simp only [aluWord_arsh hw]
  exact (steps_ashr hd hne hw hsat right).yields (wf_ashr hd)

theorem yields_signExtend (hd : d.WF) (hsat : ∃ σ, d.Models σ) (hne : svalue ≠ uvalue)
    (hw : w = 32 ∨ w = 64) {source : ℕ} (hop : movsxBits iop = some source) :
    Yields d (signExtend d svalue uvalue right w source) svalue uvalue
      fun σ r => ∃ x y, right.eval σ = y.toInt ∧ r = aluWord iop w x y := by
  obtain ⟨-, hsource, hle⟩ := @aluWord_movsx w 0 0 iop source hw hop
  refine ((steps_signExtend hd hne hw hsat right hsource hle).yields (wf_signExtend hd)).mono ?_
  rintro σ _ ⟨x, y, hy, rfl⟩
  exact ⟨y, hy, (aluWord_movsx hw hop).1⟩

variable {op2 : V} {x y r : BitVec 64}

/-- A shift by an amount that is not known leaves any word, or, by the amount of zero, at least the word. -/
theorem shlOverflowVar_spec (hd : d.WF) (hne : svalue ≠ uvalue) (hσ : d.Models σ) (hx : σ uvalue = x.toNat)
    (hy : σ op2 = y.toNat) (hsingle : (d.evalInterval (.var op2)).singleton = none) (hr : y = 0 → r = x) :
    ∃ d', shlOverflowVar isUnsigned d svalue uvalue op2 = some d' ∧ d'.WF ∧
      d'.Models (setWord σ svalue uvalue r) := by
  have hx' := SplitDbm.mem_evalInterval hσ (.var uvalue)
  have hy' := SplitDbm.mem_evalInterval hσ (.var op2)
  rw [eval_var, hx] at hx'
  rw [eval_var, hy] at hy'
  have hmem : (r.toNat : ℤ) ∈
      (d.evalInterval (.var uvalue)).shl ((d.evalInterval (.var op2)).maskShiftCount 64) := by
    have hmasked : (y.toNat : ℤ).land 63 ∈ (d.evalInterval (.var op2)).maskShiftCount 64 :=
      land_mem_bitwiseAnd_const hy' (fitsU_toNat y) (by decide)
    unfold Interval.shl
    rw [Interval.isBottom_eq_false_of_mem hx', Interval.isBottom_eq_false_of_mem hmasked]
    simp only [Bool.or_self, Bool.false_eq_true, if_false]
    cases hc : ((d.evalInterval (.var op2)).maskShiftCount 64).singleton with
    | none => exact Interval.mem_top _
    | some c =>
      -- the only amount is zero
      have hy0 : y = 0 := by
        by_contra hy0
        have hpos : 0 < (y.toNat : ℤ) := by
          have hne : y.toNat ≠ 0 := fun h => hy0 (BitVec.eq_of_toNat_eq h)
          omega
        rw [Interval.singleton_maskShiftCount hy' hpos hsingle] at hc
        cases hc
      subst hy0
      obtain rfl : (0 : ℤ) = c := Interval.eq_of_singleton hc hmasked
      rw [hr rfl]
      have hmul := Interval.mem_mul hx' (Interval.mem_const.mpr (rfl : (1 : ℤ) = 1))
      rw [mul_one] at hmul
      exact hmul
  obtain ⟨d', hd', hwf, hmodels⟩ := set_copy_spec (w := 64) hd hne (Or.inr rfl) (Or.inr ⟨rfl, rfl⟩)
    ⟨σ, hσ⟩ ⟨_, hmem⟩
  refine ⟨d', hd', hwf, ?_⟩
  have hset := hmodels σ _ hσ hmem
  rwa [word_natCast, BitVec.ofNat_toNat, BitVec.setWidth_eq, BitVec.setWidth_eq] at hset

end

end FiniteDomain

end Prevail
