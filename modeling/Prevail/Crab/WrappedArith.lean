import Prevail.Crab.Apply
import Prevail.Crab.Unlinked

/-!
# Operations that wrap around

The operations on words admit the results that are reduced to the width, as far as the operations on
intervals do, and keep a relation of the destination to another variable only when nothing wraps around.
-/

namespace Prevail

open Number LinearExpression

namespace FiniteDomain

variable {V : Type} [LinearOrder V]

/-- The variable may take every value of its interval, whatever the others are. -/
def Unrelated (d : SplitDbm V) (v : V) : Prop :=
  ∀ σ n, d.Models σ → n ∈ d.evalInterval (.var v) → d.Models (Function.update σ v n)

/-- The operation returns a state that admits the words of the results `K`, and in which a variable of the
destination that wraps around in some run is not related to other variables. -/
def AdmitsWrapped (d : SplitDbm V) (r : Option (SplitDbm V)) (svalue uvalue : V) (w : ℕ)
    (K : (V → ℤ) → ℤ → Prop) : Prop :=
  ∃ d', r = some d' ∧ ∀ σ k, d.Models σ → K σ k →
    d'.Models (setWord σ svalue uvalue (word w k)) ∧
    ((word w k).toInt ≠ k → Unrelated d' svalue) ∧ (((word w k).toNat : ℤ) ≠ k → Unrelated d' uvalue)

section

variable {d d' d₁ : SplitDbm V} {σ : V → ℤ} {svalue uvalue x other v u : V} {w : ℕ} {isSigned : Bool}

theorem unlinked_of_overflowBound (hd : d.WF) (hσ : d.Models σ) (hw : w = 32 ∨ w = 64)
    (hwrap : wrapped w isSigned (σ v) ≠ σ v) (h : overflowBound d v w isSigned = some d') :
    d'.Unlinked v := by
  obtain ⟨d₁, hd₁, rfl | ⟨i, rfl, hi⟩ | ⟨rfl, hself⟩⟩ := @overflowBound_cases _ _ d v w isSigned ⟨σ, hσ⟩ hw
  · obtain rfl := Option.some.inj (hd₁.symm.trans h)
    exact SplitDbm.unlinked_havoc_self hd v
  · obtain rfl := Option.some.inj (hd₁.symm.trans h)
    exact SplitDbm.unlinked_set_self hd ⟨_, SplitDbm.models_set hd hσ (hi σ hσ)⟩
  · exact absurd (hself σ hσ) hwrap

theorem unlinked_overflowBound (hd : d.WF) (hsat : ∃ σ, d.Models σ) (hw : w = 32 ∨ w = 64)
    (hv : d.Unlinked v) (huv : u ≠ v) (h : overflowBound d u w isSigned = some d') : d'.Unlinked v := by
  obtain ⟨d₁, hd₁, rfl | ⟨i, rfl, hi⟩ | ⟨rfl, -⟩⟩ := @overflowBound_cases _ _ d u w isSigned hsat hw
  · obtain rfl := Option.some.inj (hd₁.symm.trans h)
    exact hv.havoc hd hsat u
  · obtain rfl := Option.some.inj (hd₁.symm.trans h)
    obtain ⟨σ, hσ⟩ := hsat
    exact hv.set hd ⟨σ, hσ⟩ huv ⟨_, SplitDbm.models_set hd hσ (hi σ hσ)⟩
  · obtain rfl := Option.some.inj (hd₁.symm.trans h)
    exact hv

/-- A variable of a word that wraps around is unlinked. -/
theorem unlinked_of_overflowBounds (hd : d.WF) (hσ : d.Models σ) (hne : svalue ≠ uvalue)
    (hw : w = 32 ∨ w = 64) (h : overflowBounds d svalue uvalue w = some d') :
    ((word w (σ svalue)).toInt ≠ σ svalue → d'.Unlinked svalue) ∧
      (((word w (σ uvalue)).toNat : ℤ) ≠ σ uvalue → d'.Unlinked uvalue) := by
  have hle : w ≤ 64 := by omega
  obtain ⟨d₁, hd₁, hwf₁, hmodels⟩ := @overflowBound_spec _ _ d svalue w true hd ⟨σ, hσ⟩ hw
  obtain ⟨d₁', hd₁', hd'⟩ := Option.bind_eq_some_iff.mp h
  obtain rfl := Option.some.inj (hd₁.symm.trans hd₁')
  have hσ₁ := hmodels σ hσ
  refine ⟨fun hwrap => ?_, fun hwrap => ?_⟩
  · rw [← wrapped_true hle] at hwrap
    exact unlinked_overflowBound hwf₁ ⟨_, hσ₁⟩ hw (unlinked_of_overflowBound hd hσ hw hwrap hd₁) hne.symm hd'
  · rw [← wrapped_false hle] at hwrap
    refine unlinked_of_overflowBound hwf₁ hσ₁ hw ?_ hd'
    rwa [Function.update_of_ne hne.symm]

theorem unrelated_of_unlinked (hd : d.WF) (h : d.Unlinked v) : Unrelated d v :=
  fun _ _ hσ hn => h.models_update hd hσ (SplitDbm.mem_evalInterval_var.mp hn)

/-- The result in one variable of a word is copied to the other, and both wrap around. -/
theorem admitsWrapped_copy {K : (V → ℤ) → ℤ → Prop} (hd : d₁.WF) (hne : svalue ≠ uvalue)
    (hw : w = 32 ∨ w = 64) (hx : x = svalue ∧ other = uvalue ∨ x = uvalue ∧ other = svalue)
    (h : ∀ σ k, d.Models σ → K σ k → d₁.Models (Function.update σ x k))
    (hsat : ∃ σ k, d.Models σ ∧ K σ k) :
    AdmitsWrapped d (overflowBounds (d₁.assign other (.var x)) svalue uvalue w) svalue uvalue w K := by
  obtain ⟨d', hd', hwf', hmodels⟩ := copy_spec hd hne hw hx h hsat
  refine ⟨d', hd', fun σ k hσ hk => ?_⟩
  have hassign := SplitDbm.wf_assign hd other (.var x)
  obtain ⟨hs, hu⟩ := unlinked_of_overflowBounds hassign (models_copy hd (h σ k hσ hk)) hne hw hd'
  obtain ⟨hks, hku⟩ := copied_eq hx σ k
  rw [hks] at hs
  rw [hku] at hu
  exact ⟨hmodels σ k hσ hk, fun hk => unrelated_of_unlinked hwf' (hs hk),
    fun hk => unrelated_of_unlinked hwf' (hu hk)⟩

end

/-! ## The results of the operators -/

/-- A number that is read at a width. -/
def readAt (isUnsigned : Bool) (w : ℕ) (n : ℤ) : ℤ :=
  if isUnsigned then zeroExtend w n else Number.signExtend w n

/-- What a variable of a program holds. -/
def HoldsWord (isUnsigned : Bool) (n : ℤ) : Prop := if isUnsigned then FitsU 64 n else FitsS 64 n

namespace BinOp

/-- Whether the operands are read at the width first. -/
def reduces : BinOp → Bool
  | .arith .mul | .signedArith _ => true
  | _ => false

/-- The signedness of the operands, where it matters. -/
def signedness : BinOp → Option Bool
  | .arith _ => none
  | .signedArith .sdiv | .signedArith .srem => some false
  | .signedArith .udiv | .signedArith .urem | .bitwise _ => some true

/-- The result on numbers, before it is reduced to the width. -/
def result (op : BinOp) (w : ℕ) (m n : ℤ) : ℤ :=
  match op with
  | .arith .add => m + n
  | .arith .sub => m - n
  | .arith .mul => m * n
  | .signedArith .sdiv => m.tdiv n
  | .signedArith .srem => m.tmod n
  | .signedArith .udiv => zeroExtend 64 m / zeroExtend 64 n
  | .signedArith .urem => Interval.unsignedRem m n
  | .bitwise .and => masked w (m.land n)
  | .bitwise .or => masked w (m.lor n)
  | .bitwise .xor => masked w (m.xor n)
  | .bitwise .shl => masked w (m * 2 ^ (n % w).toNat)
  | .bitwise .lshr | .bitwise .ashr => masked w (m / 2 ^ (n % w).toNat)

/-- The number that the operator reads from an immediate value. -/
def readImm (op : BinOp) (w : ℕ) (k : ℤ) : Option ℤ :=
  match op with
  | .arith _ => some k
  | .signedArith .sdiv | .signedArith .srem => readImmForSdivOrSmod k w
  | .signedArith .udiv | .signedArith .urem => readImmForUdivOrUmod k w
  | .bitwise _ => castToU 64 k

/-- When the operation on intervals loses no result. -/
def Exact (op : BinOp) (w : ℕ) (left right : Interval) : Prop :=
  match op, left, right with
  | .signedArith .sdiv, ⟨.fin lo, .fin hi⟩, ⟨.fin p, .fin q⟩ => Interval.SdivExact lo hi p q
  | .signedArith .urem, left, right => Interval.UremExact left right
  | .bitwise .and, left, right => Interval.AndExactAt w left right
  | _, _, _ => True

/-- The operation on intervals, except for sums and differences. -/
def interval (op : BinOp) (w : ℕ) (left right : Interval) : Option Interval :=
  match op with
  | .arith .mul => some (left.mul right)
  | .arith _ => none
  | .signedArith .sdiv => left.sdiv right
  | .signedArith .udiv => left.udiv right
  | .signedArith .srem => some (left.srem right)
  | .signedArith .urem => left.urem right
  | .bitwise op =>
    let right := if op.isShift then right.maskShiftCount w else right
    let i := match op with
      | .and => some (left.bitwiseAnd right)
      | .or => some (left.bitwiseOr right)
      | .xor => some (left.bitwiseXor right)
      | .shl => some (left.shl right)
      | .lshr => left.lshr right
      | .ashr => some (left.ashr right)
    i.map (Interval.maskValue · w)

/-- The operands of an operator of its signedness. -/
def Operands (op : BinOp) (left right : Interval) : Prop :=
  match op with
  | .signedArith .sdiv => ∃ lo hi p q, left = ⟨.fin lo, .fin hi⟩ ∧ right = ⟨.fin p, .fin q⟩ ∧
      FitsS 64 p ∧ FitsS 64 q
  | .signedArith .udiv => ∃ lo hi p q, left = ⟨.fin lo, .fin hi⟩ ∧ right = ⟨.fin p, .fin q⟩ ∧ FitsU 64 lo ∧
      FitsU 64 hi ∧ (FitsU 64 p ∧ FitsU 64 q ∨ p = q ∧ FitsCast 64 p)
  | _ => True

/-- The numbers of the operands of an operator of its signedness. -/
def Fits (op : BinOp) (m n : ℤ) : Prop :=
  match op with
  | .bitwise _ => FitsU 64 m ∧ FitsU 64 n
  | _ => True

variable {op : BinOp} {left right : Interval} {w : ℕ} {m n : ℤ}

theorem mem_result_bitwise {op : BitwiseBinOp} (hw : w = 32 ∨ w = 64)
    (hexact : (BinOp.bitwise op).Exact w left right) (hm : m ∈ left) (hn : n ∈ right)
    (hfits : FitsU 64 m ∧ FitsU 64 n) :
    ∃ i, (BinOp.bitwise op).interval w left right = some i ∧ (BinOp.bitwise op).result w m n ∈ i := by
  obtain ⟨hmU, hnU⟩ := hfits
  have hnonneg : ∀ k : ℕ, 0 ≤ m / 2 ^ k := fun k => Int.ediv_nonneg hmU.1 (two_pow_pos k).le
  have hcount := Interval.mem_maskShiftCount hw hn hnU
  obtain ⟨a, rfl, -⟩ := FitsU.exists_nat hmU
  obtain ⟨b, rfl, -⟩ := FitsU.exists_nat hnU
  cases op with
  | and =>
    exact ⟨_, rfl, Interval.mem_maskValue_bitwiseAnd hw hexact hm hn hmU hnU⟩
  | or =>
    have hlor := Interval.hasAll_bitwiseOr _ hm _ hn hmU hnU
    exact ⟨_, rfl, Interval.mem_maskValue hw hlor (Int.natCast_nonneg (a ||| b))⟩
  | xor =>
    have hxor := Interval.hasAll_bitwiseXor _ hm _ hn hmU hnU
    exact ⟨_, rfl, Interval.mem_maskValue hw hxor (Int.natCast_nonneg (a ^^^ b))⟩
  | shl =>
    have hshl := Interval.mem_shl hm hcount
    exact ⟨_, rfl, Interval.mem_maskValue hw hshl (mul_nonneg hmU.1 (two_pow_pos _).le)⟩
  | lshr =>
    have hfits : FitsS 32 ((b : ℤ) % w) := by
      have hlt : (b : ℤ) % w < w := Int.emod_lt_of_pos _ (by omega)
      have hge : 0 ≤ (b : ℤ) % w := Int.emod_nonneg _ (by omega)
      unfold FitsS
      rw [minInt, maxInt]
      omega
    obtain ⟨i, hi, hlshr⟩ := Interval.mem_lshr hm hcount hfits
    exact ⟨_, congrArg (Option.map _) hi, Interval.mem_maskValue hw hlshr (hnonneg _)⟩
  | ashr =>
    have hashr := Interval.mem_ashr hm hcount
    rw [Int.tdiv_eq_ediv_of_nonneg hmU.1] at hashr
    exact ⟨_, rfl, Interval.mem_maskValue hw hashr (hnonneg _)⟩

/-- An exact operation on intervals has all results. -/
theorem mem_result (hw : w = 32 ∨ w = 64) (hset : op ≠ .arith .add ∧ op ≠ .arith .sub)
    (hexact : op.Exact w left right) (hop : op.Operands left right) (hm : m ∈ left) (hn : n ∈ right)
    (hfits : op.Fits m n) :
    ∃ i, op.interval w left right = some i ∧ op.result w m n ∈ i := by
  have hle : ∀ {l u k : ℤ}, k ∈ (⟨.fin l, .fin u⟩ : Interval) → l ≤ u := fun h =>
    Bound.fin_le_fin.mp (Bound.le_trans h.1 h.2)
  have hofInts : ∀ {l u k : ℤ}, k ∈ (⟨.fin l, .fin u⟩ : Interval) →
      Interval.ofInts l u = ⟨.fin l, .fin u⟩ := fun h => Interval.ofInts_of_le (hle h)
  cases op with
  | arith op =>
    cases op with
    | add => exact absurd rfl hset.1
    | sub => exact absurd rfl hset.2
    | mul => exact ⟨_, rfl, Interval.mem_mul hm hn⟩
  | signedArith op =>
    cases op with
    | sdiv =>
      obtain ⟨lo, hi, p, q, rfl, rfl, hp, hq⟩ := hop
      have hencloses := (Interval.encloses_sdiv_iff (hle hm) (hle hn) hp hq).mpr hexact
      rw [hofInts hm, hofInts hn] at hencloses
      obtain ⟨i, hi, hall⟩ := hencloses
      exact ⟨i, hi, hall m hm n hn⟩
    | udiv =>
      obtain ⟨lo, hi, p, q, rfl, rfl, hlo, hhi, hpq⟩ := hop
      have hmU : FitsU 64 m := ⟨hlo.1.trans (Bound.fin_le_fin.mp hm.1), (Bound.fin_le_fin.mp hm.2).trans hhi.2⟩
      show ∃ i, Interval.udiv _ _ = some i ∧ zeroExtend 64 m / zeroExtend 64 n ∈ i
      rw [zeroExtend_of_fits hmU]
      rcases hpq with ⟨hp, hq⟩ | ⟨rfl, hcast⟩
      · have hnU : FitsU 64 n := ⟨hp.1.trans (Bound.fin_le_fin.mp hn.1), (Bound.fin_le_fin.mp hn.2).trans hq.2⟩
        obtain ⟨i, hi, hall⟩ := Interval.udiv_sound hlo.1 (hle hm) hp.1 (hle hn) hq
        rw [hofInts hm, hofInts hn] at hi hall
        rw [zeroExtend_of_fits hnU, ← Int.tdiv_eq_ediv_of_nonneg hmU.1]
        exact ⟨i, hi, hall m hm n hn⟩
      · obtain rfl : n = p := le_antisymm (Bound.fin_le_fin.mp hn.2) (Bound.fin_le_fin.mp hn.1)
        have hword := Interval.word_bounds n
        have hnU : FitsU 64 (zeroExtend 64 n) := ⟨hword.1, by rw [maxUint_eq]; omega⟩
        obtain ⟨i, hi, hall⟩ := Interval.udiv_sound hlo.1 (hle hm) hnU.1 le_rfl hnU
        rw [Interval.ofInts_self, ← Interval.udiv_const_cast (hle hm) hcast
          (Interval.castToU_of_fits hcast) hnU, hofInts hm] at hi
        rw [hofInts hm] at hall
        rw [← Int.tdiv_eq_ediv_of_nonneg hmU.1]
        exact ⟨i, hi, hall m hm _ (Interval.mem_ofInts.mpr ⟨le_rfl, le_rfl⟩)⟩
    | srem => exact ⟨_, rfl, Interval.mem_srem hm hn⟩
    | urem =>
      obtain ⟨r, hr, hcovers⟩ := Interval.UremExact.covers hexact hm hn
      exact ⟨r, hr, hcovers m hm n hn⟩
  | bitwise op => exact mem_result_bitwise hw hexact hm hn hfits

end BinOp

/-! ## The operands -/

section

variable (isUnsigned : V → Bool)

/-- The number that the operator reads from a variable. -/
def BinOp.readVar (op : BinOp) (w : ℕ) (σ : V → ℤ) (v : V) : ℤ :=
  if op.reduces then readAt (isUnsigned v) w (σ v) else σ v

/-- The number that the operator reads from its right operand. -/
def BinOp.readOperand (op : BinOp) (w : ℕ) (σ : V → ℤ) (z : V ⊕ ℤ) : Option ℤ :=
  match z with
  | .inl v => some (op.readVar isUnsigned w σ v)
  | .inr k => op.readImm w k

/-- The interval that the operator reads from a variable. -/
def BinOp.varInterval (op : BinOp) (d : SplitDbm V) (w : ℕ) (v : V) : Interval :=
  let i := d.evalInterval (.var v)
  if op.reduces then if isUnsigned v then i.zeroExtend w else i.signExtend w else i

/-- The interval that the operator reads from its right operand. -/
def BinOp.operandInterval (op : BinOp) (d : SplitDbm V) (w : ℕ) (z : V ⊕ ℤ) : Option Interval :=
  match z with
  | .inl v => some (op.varInterval isUnsigned d w v)
  | .inr k => (op.readImm w k).map Interval.const

/-- The operation computes the number `k` from the words that the variables hold. -/
def BinOp.Computes (op : BinOp) (w : ℕ) (y : V) (z : V ⊕ ℤ) (σ : V → ℤ) (k : ℤ) : Prop :=
  HoldsWord (isUnsigned y) (σ y) ∧ (∀ v, z = .inl v → HoldsWord (isUnsigned v) (σ v)) ∧
    ∃ n, op.readOperand isUnsigned w σ z = some n ∧ k = op.result w (op.readVar isUnsigned w σ y) n

/-- The variables of the operands have the signedness of the operator. -/
def BinOp.SignedAs (op : BinOp) (y : V) (z : V ⊕ ℤ) : Prop :=
  ∀ s, op.signedness = some s → isUnsigned y = s ∧ ∀ v, z = .inl v → isUnsigned v = s

/-- The operation on the intervals of the operands loses no result. -/
def BinOp.ExactAt (op : BinOp) (d : SplitDbm V) (w : ℕ) (y : V) (z : V ⊕ ℤ) : Prop :=
  ∀ right, op.operandInterval isUnsigned d w z = some right → op.Exact w (op.varInterval isUnsigned d w y) right

variable {isUnsigned} {d : SplitDbm V} {op : BinOp} {w : ℕ} {σ : V → ℤ} {x y v : V} {z : V ⊕ ℤ} {k n : ℤ}

theorem fitsS_of_castToS {c : ℤ} (hw : 0 < w) (h : castToS w n = some c) : FitsS w c := by
  have htwo := two_pow_eq hw
  unfold castToS at h
  split_ifs at h with hs hu
  · exact Option.some.inj h ▸ hs
  · obtain rfl := Option.some.inj h
    obtain ⟨h0, hmax⟩ := hu
    rw [maxUint_eq] at hmax
    simp only [FitsS, minInt, maxInt] at hs ⊢
    omega

theorem fitsU_of_castToU {c : ℤ} (hw : 0 < w) (h : castToU w n = some c) : FitsU w c := by
  have htwo := two_pow_eq hw
  unfold castToU at h
  split_ifs at h with hu hs
  · exact Option.some.inj h ▸ hu
  · obtain rfl := Option.some.inj h
    simp only [FitsS, FitsU, minInt, maxInt, maxUint_eq] at hs hu ⊢
    omega

theorem mem_varInterval (hw : 0 < w) (hσ : d.Models σ) (v : V) :
    op.readVar isUnsigned w σ v ∈ op.varInterval isUnsigned d w v := by
  have hv := SplitDbm.mem_evalInterval_var.mpr (SplitDbm.mem_getInterval hσ v)
  unfold BinOp.readVar BinOp.varInterval readAt
  split_ifs
  · exact Interval.mem_zeroExtend w hv
  · exact Interval.mem_signExtend hw hv
  · exact hv

theorem mem_operandInterval (hw : 0 < w) (hσ : d.Models σ)
    (h : op.readOperand isUnsigned w σ z = some n) :
    ∃ right, op.operandInterval isUnsigned d w z = some right ∧ n ∈ right := by
  cases z with
  | inl v =>
    obtain rfl := Option.some.inj h
    exact ⟨_, rfl, mem_varInterval hw hσ v⟩
  | inr k => exact ⟨_, congrArg (Option.map _) h, Interval.mem_const.mpr rfl⟩

theorem fitsS_signExtend (hw : w = 32 ∨ w = 64) {I : Interval} (hn : n ∈ I.signExtend w) :
    ∃ l u, I.signExtend w = ⟨.fin l, .fin u⟩ ∧ FitsS 64 l ∧ FitsS 64 u := by
  obtain ⟨l, u, hI, hl, hu⟩ := Interval.signExtend_bounds (by omega : 0 < w) I
  rw [hI] at hn
  have hle : l ≤ u := Bound.fin_le_fin.mp (Bound.le_trans hn.1 hn.2)
  refine ⟨l, u, hI, ?_, ?_⟩ <;> rcases hw with rfl | rfl <;>
    simp only [FitsS, minInt, maxInt] at * <;> omega

theorem fitsU_zeroExtend (hw : w = 32 ∨ w = 64) {I : Interval} (hn : n ∈ I.zeroExtend w) :
    ∃ l u, I.zeroExtend w = ⟨.fin l, .fin u⟩ ∧ FitsU 64 l ∧ FitsU 64 u := by
  obtain ⟨l, u, hI, hl, hu⟩ := Interval.zeroExtend_bounds w I
  rw [hI] at hn
  have hle : l ≤ u := Bound.fin_le_fin.mp (Bound.le_trans hn.1 hn.2)
  refine ⟨l, u, hI, ?_, ?_⟩ <;> rcases hw with rfl | rfl <;>
    simp only [FitsU, maxUint_eq] at * <;> omega

/-- An immediate value that is read as a signed number fits 64 bits. -/
theorem fitsS_of_readImm (h : readImmForSdivOrSmod k w = some n) : FitsS 64 n := by
  unfold readImmForSdivOrSmod at h
  split_ifs at h with h32
  · have hfits := fitsS_of_castToS (by omega) h
    simp only [FitsS, minInt, maxInt] at hfits ⊢
    omega
  · exact fitsS_of_castToS (by omega) h

theorem fitsCast_of_readImm (h : readImmForUdivOrUmod k w = some n) : FitsCast 64 n := by
  unfold readImmForUdivOrUmod at h
  split_ifs at h with h32
  · have hfits := fitsU_of_castToU (by omega) h
    refine Or.inr ?_
    simp only [FitsU, maxUint_eq] at hfits ⊢
    omega
  · have hfits := fitsS_of_castToS (by omega) h
    refine Or.inl ?_
    simp only [FitsS, minInt, maxInt] at hfits ⊢
    omega

/-- The operands of a division have the signedness that the operation on intervals expects. -/
theorem operands_of_signedAs {right : Interval} {m : ℤ} (hw : w = 32 ∨ w = 64)
    (hs : op.SignedAs isUnsigned y z) (h : op.operandInterval isUnsigned d w z = some right)
    (hm : m ∈ op.varInterval isUnsigned d w y) (hn : n ∈ right) :
    op.Operands (op.varInterval isUnsigned d w y) right := by
  have hsigned : ∀ {op : SignedArithBinOp} {s v}, isUnsigned v = s →
      (BinOp.signedArith op).varInterval isUnsigned d w v = if s then
        (d.evalInterval (.var v)).zeroExtend w else (d.evalInterval (.var v)).signExtend w := by
    rintro op s v rfl
    rfl
  cases op with
  | arith op => trivial
  | bitwise op => trivial
  | signedArith op =>
    cases op with
    | srem => trivial
    | urem => trivial
    | sdiv =>
      obtain ⟨hy, hz⟩ := hs false rfl
      rw [hsigned hy, if_neg (by decide)] at hm ⊢
      obtain ⟨lo, hi, hleft, -, -⟩ := fitsS_signExtend hw hm
      cases z with
      | inl v =>
        rw [BinOp.operandInterval, Option.some.injEq, hsigned (hz v rfl), if_neg (by decide)] at h
        obtain ⟨p, q, hright, hp, hq⟩ := fitsS_signExtend hw (h ▸ hn)
        exact ⟨lo, hi, p, q, hleft, h ▸ hright, hp, hq⟩
      | inr k =>
        obtain ⟨c, hc, rfl⟩ := Option.map_eq_some_iff.mp h
        have hfits := fitsS_of_readImm hc
        exact ⟨lo, hi, c, c, hleft, rfl, hfits, hfits⟩
    | udiv =>
      obtain ⟨hy, hz⟩ := hs true rfl
      rw [hsigned hy, if_pos rfl] at hm ⊢
      obtain ⟨lo, hi, hleft, hlo, hhi⟩ := fitsU_zeroExtend hw hm
      cases z with
      | inl v =>
        rw [BinOp.operandInterval, Option.some.injEq, hsigned (hz v rfl), if_pos rfl] at h
        obtain ⟨p, q, hright, hp, hq⟩ := fitsU_zeroExtend hw (h ▸ hn)
        exact ⟨lo, hi, p, q, hleft, h ▸ hright, hlo, hhi, Or.inl ⟨hp, hq⟩⟩
      | inr k =>
        obtain ⟨c, hc, rfl⟩ := Option.map_eq_some_iff.mp h
        exact ⟨lo, hi, c, c, hleft, rfl, hlo, hhi, Or.inr ⟨rfl, fitsCast_of_readImm hc⟩⟩

omit [LinearOrder V] in
/-- Words of the operator's signedness fit its operands. -/
theorem fits_of_computes (hs : op.SignedAs isUnsigned y z) (hy : HoldsWord (isUnsigned y) (σ y))
    (hz : ∀ v, z = .inl v → HoldsWord (isUnsigned v) (σ v))
    (hn : op.readOperand isUnsigned w σ z = some n) : op.Fits (op.readVar isUnsigned w σ y) n := by
  cases op with
  | arith op => trivial
  | signedArith op => trivial
  | bitwise op =>
    obtain ⟨hy', hz'⟩ := hs true rfl
    rw [HoldsWord, hy', if_pos rfl] at hy
    refine ⟨hy, ?_⟩
    cases z with
    | inl v =>
      have hv := hz v rfl
      rw [HoldsWord, hz' v rfl, if_pos rfl] at hv
      exact Option.some.inj hn ▸ hv
    | inr k => exact fitsU_of_castToU (by omega) hn

theorem apply_eq (hw : 0 < w) (hset : op ≠ .arith .add ∧ op ≠ .arith .sub) :
    apply isUnsigned d op x y z w = (op.operandInterval isUnsigned d w z).bind fun right =>
      (op.interval w (op.varInterval isUnsigned d w y) right).bind (set d x) := by
  have heval : ∀ v, evalIntervalAt isUnsigned d v w = some (if isUnsigned v then
      (d.evalInterval (.var v)).zeroExtend w else (d.evalInterval (.var v)).signExtend w) :=
    fun v => if_neg hw.ne'
  cases op with
  | arith op =>
    cases op with
    | add => exact absurd rfl hset.1
    | sub => exact absurd rfl hset.2
    | mul => cases z <;> simp [apply, applyArith, operandAt, heval, BinOp.operandInterval,
        BinOp.varInterval, BinOp.interval, BinOp.readImm, BinOp.reduces]
  | signedArith op =>
    cases op <;> cases z <;> simp [apply, applySignedArith, operandAt, heval, BinOp.operandInterval,
      BinOp.varInterval, BinOp.interval, BinOp.readImm, BinOp.reduces, Option.map_eq_bind,
      Option.bind_assoc]
  | bitwise op =>
    cases op <;> cases z <;> simp [apply, applyBitwise, BinOp.operandInterval,
      BinOp.varInterval, BinOp.interval, BinOp.readImm, BinOp.reduces, BitwiseBinOp.isShift,
      Option.map_eq_bind, Option.bind_assoc]

/-- The operation gives the destination every result, before it is reduced to the width. -/
theorem apply_spec (hd : d.WF) (hw : w = 32 ∨ w = 64) (hs : op.SignedAs isUnsigned y z)
    (hexact : op.ExactAt isUnsigned d w y z)
    (hsat : ∃ σ k, d.Models σ ∧ op.Computes isUnsigned w y z σ k) (x : V) :
    ∃ d₁, apply isUnsigned d op x y z w = some d₁ ∧ d₁.WF ∧
      ∀ σ k, d.Models σ → op.Computes isUnsigned w y z σ k → d₁.Models (Function.update σ x k) := by
  have hw0 : 0 < w := by omega
  by_cases hset : op ≠ .arith .add ∧ op ≠ .arith .sub
  · have hmem : ∀ σ k, d.Models σ → op.Computes isUnsigned w y z σ k → ∃ right i,
        op.operandInterval isUnsigned d w z = some right ∧
        op.interval w (op.varInterval isUnsigned d w y) right = some i ∧ k ∈ i := by
      rintro σ k hσ ⟨hy, hz, n, hn, rfl⟩
      obtain ⟨right, hright, hnright⟩ := mem_operandInterval hw0 hσ hn
      have hm : op.readVar isUnsigned w σ y ∈ op.varInterval isUnsigned d w y := mem_varInterval hw0 hσ y
      have hop := operands_of_signedAs hw hs hright hm hnright
      obtain ⟨i, hi, hk⟩ := BinOp.mem_result hw hset (hexact right hright) hop hm hnright
        (fits_of_computes hs hy hz hn)
      exact ⟨right, i, hright, hi, hk⟩
    obtain ⟨σ₀, k₀, hσ₀, hk₀⟩ := hsat
    obtain ⟨right, i, hright, hi, hk₀⟩ := hmem σ₀ k₀ hσ₀ hk₀
    refine ⟨d.set x i, ?_, SplitDbm.wf_set hd x i, fun σ k hσ hk => ?_⟩
    · rw [apply_eq hw0 hset, hright, Option.bind_some, hi, Option.bind_some, set,
        Interval.isBottom_eq_false_of_mem hk₀]
      rfl
    · obtain ⟨right', i', hright', hi', hk⟩ := hmem σ k hσ hk
      obtain rfl := Option.some.inj (hright.symm.trans hright')
      obtain rfl := Option.some.inj (hi.symm.trans hi')
      exact SplitDbm.models_set hd hσ hk
  · -- A sum or a difference is assigned as an expression.
    have hassign : ∃ e : LinearExpression V, apply isUnsigned d op x y z w = some (d.assign x e) ∧
        ∀ σ k, op.Computes isUnsigned w y z σ k → k = e.eval σ := by
      rcases not_and_or.mp hset with hop | hop <;> obtain rfl := not_not.mp hop <;> cases z with
      | inl v =>
        refine ⟨_, rfl, ?_⟩
        rintro σ k ⟨-, -, n, hn, rfl⟩
        obtain rfl := Option.some.inj hn
        simp [BinOp.result, BinOp.readVar, BinOp.reduces]
      | inr c =>
        refine ⟨_, rfl, ?_⟩
        rintro σ k ⟨-, -, n, hn, rfl⟩
        obtain rfl := Option.some.inj hn
        simp [BinOp.result, BinOp.readVar, BinOp.reduces, sub_eq_add_neg]
    obtain ⟨e, he, heval⟩ := hassign
    refine ⟨_, he, SplitDbm.wf_assign hd x e, fun σ k hσ hk => ?_⟩
    rw [heval σ k hk]
    exact SplitDbm.models_assign hd x e hσ

variable {svalue uvalue : V}

/-- Where the operation on intervals loses no result, the wrapping operations admit all of them. -/
theorem admitsWrapped (hd : d.WF) (hne : svalue ≠ uvalue) (hw : w = 32 ∨ w = 64)
    (hs : op.SignedAs isUnsigned y z) (hsat : ∃ σ k, d.Models σ ∧ op.Computes isUnsigned w y z σ k)
    (hexact : op.ExactAt isUnsigned d w y z) :
    AdmitsWrapped d (applySigned isUnsigned d op svalue uvalue y z w) svalue uvalue w
        (op.Computes isUnsigned w y z) ∧
      AdmitsWrapped d (applyUnsigned isUnsigned d op svalue uvalue y z w) svalue uvalue w
        (op.Computes isUnsigned w y z) := by
  have hw0 : w ≠ 0 := by omega
  refine ⟨?_, ?_⟩
  · obtain ⟨d₁, hd₁, hwf, h⟩ := apply_spec hd hw hs hexact hsat svalue
    have happly : applySigned isUnsigned d op svalue uvalue y z w =
        overflowBounds (d₁.assign uvalue (.var svalue)) svalue uvalue w := by
      rw [applySigned, hd₁]
      exact if_pos hw0
    rw [happly]
    exact admitsWrapped_copy hwf hne hw (Or.inl ⟨rfl, rfl⟩) h hsat
  · obtain ⟨d₁, hd₁, hwf, h⟩ := apply_spec hd hw hs hexact hsat uvalue
    have happly : applyUnsigned isUnsigned d op svalue uvalue y z w =
        overflowBounds (d₁.assign svalue (.var uvalue)) svalue uvalue w := by
      rw [applyUnsigned, hd₁]
      exact if_pos hw0
    rw [happly]
    exact admitsWrapped_copy hwf hne hw (Or.inr ⟨rfl, rfl⟩) h hsat

end

/-! A number that is divided by 3 or 4. -/

def dividedBy (m : ℤ) : SplitDbm ℕ := (SplitDbm.top.set 1 (.const m)).set 3 (.ofInts 3 4)

theorem wf_dividedBy (m : ℤ) : (dividedBy m).WF := SplitDbm.wf_set (SplitDbm.wf_set SplitDbm.wf_top 1 _) 3 _

/-- The values of the dividend and of the divisor. -/
def dividedByFour (m : ℤ) : ℕ → ℤ := Function.update (Function.update (fun _ => 0) 1 m) 3 4

theorem computes_dividedByFour {m : ℤ} (hm : FitsS 64 m) : (dividedBy m).Models (dividedByFour m) ∧
    (BinOp.signedArith .sdiv).Computes (fun v => v == 2) 64 1 (.inl 3) (dividedByFour m) (m.tdiv 4) := by
  have hconst : m ∈ Interval.const m := Interval.mem_const.mpr rfl
  have hfour : (4 : ℤ) ∈ Interval.ofInts 3 4 := Interval.mem_ofInts.mpr ⟨by decide, by decide⟩
  have hset := SplitDbm.models_set (SplitDbm.wf_top (V := ℕ)) (SplitDbm.models_top fun _ => 0) hconst (x := 1)
  refine ⟨SplitDbm.models_set (SplitDbm.wf_set SplitDbm.wf_top 1 _) hset hfour, hm, ?_, 4,
    congrArg some (by decide : Number.signExtend 64 4 = 4), ?_⟩
  · rintro v hv
    obtain rfl := Sum.inl.inj hv
    show FitsS 64 4
    decide
  · show _ = (Number.signExtend 64 m).tdiv 4
    rw [signExtend_of_fits (by decide) hm]

/-- A quotient of a positive number. -/
theorem admitsWrapped_seven :
    AdmitsWrapped (dividedBy 7)
        (applySigned (fun v => v == 2) (dividedBy 7) (.signedArith .sdiv) 1 2 1 (.inl 3) 64) 1 2 64
        ((BinOp.signedArith .sdiv).Computes (fun v => v == 2) 64 1 (.inl 3)) ∧
      AdmitsWrapped (dividedBy 7)
        (applyUnsigned (fun v => v == 2) (dividedBy 7) (.signedArith .sdiv) 1 2 1 (.inl 3) 64) 1 2 64
        ((BinOp.signedArith .sdiv).Computes (fun v => v == 2) 64 1 (.inl 3)) := by
  refine admitsWrapped (wf_dividedBy 7) (by decide) (Or.inr rfl) ?_
    ⟨_, _, computes_dividedByFour (by decide)⟩ ?_
  · rintro s ⟨⟩
    refine ⟨rfl, fun v hv => ?_⟩
    obtain rfl := Sum.inl.inj hv
    rfl
  · rintro right hright
    have hinterval : (BinOp.signedArith .sdiv).operandInterval (fun v => v == 2) (dividedBy 7) 64 (.inl 3) =
        some ⟨.fin 3, .fin 4⟩ := by decide
    have hleft : (BinOp.signedArith .sdiv).varInterval (fun v => v == 2) (dividedBy 7) 64 1 =
        ⟨.fin 7, .fin 7⟩ := by decide
    obtain rfl := Option.some.inj (hinterval.symm.trans hright)
    rw [hleft]
    show Interval.SdivExact 7 7 3 4
    decide

/-- The quotient 0 of -3 by 4 is lost. -/
theorem not_admitsWrapped_sdiv : (dividedBy (-3)).WF ∧
    ¬ AdmitsWrapped (dividedBy (-3))
      (applySigned (fun v => v == 2) (dividedBy (-3)) (.signedArith .sdiv) 1 2 1 (.inl 3) 64) 1 2 64
      ((BinOp.signedArith .sdiv).Computes (fun v => v == 2) 64 1 (.inl 3)) := by
  refine ⟨wf_dividedBy _, fun ⟨d', hd', h⟩ => ?_⟩
  obtain ⟨hσ, hk⟩ := computes_dividedByFour (m := -3) (by decide)
  obtain ⟨hmodels, -⟩ := h _ _ hσ hk
  have hmem := SplitDbm.mem_getInterval hmodels 1
  have hinterval : (applySigned (fun v => v == 2) (dividedBy (-3)) (.signedArith .sdiv) 1 2 1 (.inl 3)
      64).map (·.getInterval 1) = some ⟨.fin (-2), .fin (-1)⟩ := by decide
  rw [hd', Option.map_some, Option.some.injEq] at hinterval
  rw [hinterval] at hmem
  have hle : (0 : ℤ) ≤ -1 := Bound.fin_le_fin.mp hmem.2
  omega

end FiniteDomain

end Prevail
