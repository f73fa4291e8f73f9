import Prevail.Crab.CallContract
import Prevail.Crab.KnownTypes
import Prevail.Crab.WordOps

/-!
# Arithmetic on numbers

A number of the machine is a word. Its register has the type of numbers, and the word is what the variables
of the register hold, with and without sign. On registers that are known to be numbers, `Bin` and `Un` return
a state that admits the word which the machine computes.
-/

namespace Prevail

open AddBottom TypeToNumDomain LinearExpression FiniteDomain ProgramVariables Number

/-! ## Words at a width -/

section

variable {w : ℕ} {x x' y y' : BitVec 64}

/-- The low bits of a word. -/
def cutWord (w : ℕ) (x : BitVec 64) : BitVec 64 := (x.setWidth w).setWidth 64

theorem and_maxUint (x : BitVec 64) : x &&& 0xffffffff#64 = cutWord 32 x := by
  apply BitVec.eq_of_toNat_eq
  rw [BitVec.toNat_and, cutWord, BitVec.toNat_setWidth, BitVec.toNat_setWidth]
  have hmask : (0xffffffff#64).toNat = 2 ^ 32 - 1 := rfl
  rw [hmask, Nat.and_two_pow_sub_one_eq_mod]
  omega

theorem cutWord_self (x : BitVec 64) : cutWord 64 x = x := by
  unfold cutWord
  rw [BitVec.setWidth_eq, BitVec.setWidth_eq]

theorem setWidth_cutWord (hw : w ≤ 64) (x : BitVec 64) : (cutWord w x).setWidth w = x.setWidth w := by
  unfold cutWord
  rw [BitVec.setWidth_setWidth_of_le _ hw, BitVec.setWidth_eq]

/-- An instruction only reads the bits of its width. -/
theorem aluWord_congr (op : BinOp) (hx : x.setWidth w = x'.setWidth w) (hy : y.setWidth w = y'.setWidth w) :
    aluWord op w x y = aluWord op w x' y' := by
  unfold aluWord
  rw [hx, hy]

/-- An instruction leaves nothing above its width. -/
theorem cutWord_aluWord (hw : w ≤ 64) (op : BinOp) (x y : BitVec 64) :
    cutWord w (aluWord op w x y) = aluWord op w x y := by
  unfold cutWord aluWord
  rw [BitVec.setWidth_setWidth_of_le _ hw, BitVec.setWidth_eq]

/-- The bits of a conjunction, a disjunction and an exclusive disjunction do not depend on each other. -/
theorem cutWord_bitwise (op : BitwiseBinOp) {iop : BinOp} (hop : (FiniteDomain.BinOp.bitwise op).instruction = some iop)
    (x y : BitVec 64) : cutWord w (aluWord iop 64 x y) = aluWord iop w x y := by
  unfold cutWord aluWord
  rw [BitVec.setWidth_eq, BitVec.setWidth_eq, BitVec.setWidth_eq]
  cases op <;> cases hop
  · exact congrArg _ (BitVec.setWidth_and ..)
  · exact congrArg _ (BitVec.setWidth_or ..)
  · exact congrArg _ (BitVec.setWidth_xor ..)

end

/-! ## Registers that hold words -/

variable {V : Type} [LinearOrder V] {R : ProgramVariables V} {isUnsigned : V → Bool}
  {rcp rcp' : TypeToNumDomain V} {τ : V → TypeEncoding} {σ σ' : V → ℤ} {dst src r : Reg}
  {x y : BitVec 64} {w : ℕ}

/-- Variables are signed or not by their kind. -/
structure WordSigns (R : ProgramVariables V) (isUnsigned : V → Bool) : Prop where
  svalue : ∀ r, isUnsigned (R.reg .svalues r) = false
  uvalue : ∀ r, isUnsigned (R.reg .uvalues r) = true

variable (R) in
/-- The register holds the word. -/
def ReadsReg (σ : V → ℤ) (r : Reg) (x : BitVec 64) : Prop := ReadsWord σ (R.reg .svalues r) (R.reg .uvalues r) x

variable (R) in
/-- The register is set to the word. -/
def setReg (σ : V → ℤ) (r : Reg) (x : BitVec 64) : V → ℤ := setWord σ (R.reg .svalues r) (R.reg .uvalues r) x

omit [LinearOrder V] in
variable (R) in
theorem svalue_ne_uvalue (r : Reg) : R.reg .svalues r ≠ R.reg .uvalues r := reg_ne (by decide)

omit [LinearOrder V] in
theorem ReadsReg.agree (h : ReadsReg R σ r x) (hagree : Agree R.toVariableRegistry τ σ σ') : ReadsReg R σ' r x :=
  ⟨(hagree _ (not_meaningless_number (Or.inl rfl))).symm.trans h.1,
    (hagree _ (not_meaningless_number (Or.inr rfl))).symm.trans h.2⟩

theorem setReg_setReg (σ : V → ℤ) (r : Reg) (x y : BitVec 64) : setReg R (setReg R σ r x) r y = setReg R σ r y := by
  funext v
  unfold setReg setWord
  simp only [Function.update_apply]
  split_ifs <;> rfl

theorem readsReg_setReg (σ : V → ℤ) (r : Reg) (x : BitVec 64) : ReadsReg R (setReg R σ r x) r x :=
  ⟨(Function.update_of_ne (svalue_ne_uvalue R r) _ _).trans (Function.update_self ..), Function.update_self ..⟩

theorem setReg_self (h : ReadsReg R σ r x) : setReg R σ r x = σ := by
  unfold setReg setWord
  rw [← h.1, Function.update_eq_self, ← h.2, Function.update_eq_self]

theorem ReadsReg.setReg_of_ne (h : ReadsReg R σ r x) (hne : r ≠ dst) (y : BitVec 64) :
    ReadsReg R (setReg R σ dst y) r x := by
  have hreg : ∀ {k k'}, R.reg k r ≠ R.reg k' dst := fun heq => hne (reg_inj.mp heq).2
  exact ⟨((Function.update_of_ne hreg _ _).trans (Function.update_of_ne hreg _ _)).trans h.1,
    ((Function.update_of_ne hreg _ _).trans (Function.update_of_ne hreg _ _)).trans h.2⟩

omit [LinearOrder V] in
theorem ReadsReg.holds (hs : WordSigns R isUnsigned) (h : ReadsReg R σ r x) :
    Holds isUnsigned σ (R.reg .svalues r) x ∧ Holds isUnsigned σ (R.reg .uvalues r) x := by
  unfold Holds
  rw [hs.svalue, hs.uvalue]
  exact h

/-- There are no kinds of numbers. -/
theorem TypeToNumDomain.Meaningless.setNumber {v : V} (h : Meaningless R.toVariableRegistry τ v) (r : Reg) :
    Meaningless R.toVariableRegistry (Function.update τ (R.regType r) .num) v := by
  obtain ⟨u, hu, e, he, hne, kind, hkind, rfl⟩ := h
  refine ⟨u, hu, e, he, ?_, kind, hkind, rfl⟩
  by_cases hr : u = R.regType r
  · have hnone : ∀ e ∈ typeToKinds, kind ∈ e.2 → TypeEncoding.num ≠ e.1 := by cases kind <;> decide
    rw [hr, Function.update_self]
    exact hnone e he hkind
  · rwa [Function.update_of_ne hr]

theorem TypeToNumDomain.Agree.setNumber (h : Agree R.toVariableRegistry τ σ σ') (r : Reg) (m n : ℤ) :
    Agree R.toVariableRegistry (Function.update τ (R.regType r) .num)
      (Function.update (Function.update σ (R.reg .svalues r) m) (R.reg .uvalues r) n)
      (Function.update (Function.update σ' (R.reg .svalues r) m) (R.reg .uvalues r) n) := by
  intro v hv
  simp only [Function.update_apply]
  split_ifs
  · rfl
  · rfl
  · exact h v fun hm => hv (hm.setNumber r)

namespace EbpfTransformer

/-- The operation returns a state in which the register is the number `y`, and the rest is as it was. -/
def Sets (R : ProgramVariables V) (dst : Reg) (τ : V → TypeEncoding) (σ : V → ℤ)
    (r : Option (TypeToNumDomain V)) (y : BitVec 64) : Prop :=
  ∃ rcp', r = some rcp' ∧ rcp'.WF ∧
    rcp'.Models R.toVariableRegistry (Function.update τ (R.regType dst) .num) (setReg R σ dst y)

/-- A number is set to a word by an operation on the values. -/
theorem sets_onValues {op : SplitDbm V → Option (SplitDbm V)} (hwf : rcp.WF)
    (hm : rcp.Models R.toVariableRegistry τ σ) (htype : τ (R.regType dst) = .num)
    (hop : ∀ z ∈ rcp.values, ∀ σ', z.WF → z.Models σ' → Agree R.toVariableRegistry τ σ σ' →
      ∃ z', op z = some z' ∧ z'.WF ∧ z'.Models (setReg R σ' dst y)) :
    Sets R dst τ σ (onValues op rcp) y := by
  obtain ⟨hτ, σ', hagree, z, hz, hσ'⟩ := hm
  obtain ⟨z', hz', hwf', hσz⟩ := hop z hz σ' (hwf.values z hz) hσ' hagree
  refine ⟨{ rcp with values := some z' }, ?_, ⟨hwf.types, wf_some.mpr hwf'⟩, ?_, _, hagree.setNumber dst _ _,
    models_some.mpr hσz⟩
  · exact Option.bind_eq_some_iff.mpr ⟨z, hz, Option.bind_eq_some_iff.mpr ⟨z', hz', rfl⟩⟩
  · rwa [← htype, Function.update_eq_self]

theorem models_havocOffsets (hwf : rcp.WF) (hm : rcp.Models R.toVariableRegistry τ σ) (r : Reg) :
    (rcp.havocOffsets R r).WF ∧ (rcp.havocOffsets R r).Models R.toVariableRegistry τ σ := by
  obtain ⟨hτ, σ', hagree, hσ'⟩ := hm
  obtain ⟨hwf', hσ''⟩ := models_havocKindsOf (R := R) (v := R.regType r) hwf.values offsetKinds hσ'
  exact ⟨⟨hwf.types, hwf'⟩, hτ, σ', hagree, hσ''⟩

theorem Sets.havocOffsets {r : Option (TypeToNumDomain V)} (h : Sets R dst τ σ r y) :
    Sets R dst τ σ (r.bind fun rcp => some (rcp.havocOffsets R dst)) y := by
  obtain ⟨rcp', hr, hwf, hm⟩ := h
  exact ⟨_, by rw [hr, Option.bind_some], models_havocOffsets hwf hm dst⟩

/-- The low half is kept, whatever the signed variable holds. -/
theorem sets_lowHalf (hwf : rcp.WF) (hm : rcp.Models R.toVariableRegistry τ σ)
    (htype : τ (R.regType dst) = .num) (hx : σ (R.reg .uvalues dst) = x.toNat) :
    Sets R dst τ σ (lowHalf R isUnsigned dst rcp) (cutWord 32 x) := by
  refine sets_onValues hwf hm htype fun z _ σ' hz hσ' hagree => ?_
  have hx' : σ' (R.reg .uvalues dst) = x.toNat :=
    (hagree _ (not_meaningless_number (Or.inr rfl))).symm.trans hx
  have hne := svalue_ne_uvalue R dst
  obtain ⟨z', hz', hwf', hmodels⟩ := @yields_bitwiseAnd _ _ z _ _ 64 isUnsigned hz hne (maxUint 32)
    0xffffffff#64 (by decide) ⟨σ', x, hσ', hx'⟩
  exact ⟨z', hz', hwf', hmodels σ' _ hσ' ⟨x, hx', (and_maxUint x).symm⟩⟩

/-! ## Operators -/

variable {op : FiniteDomain.BinOp} {iop : Prevail.BinOp} {v : V} {z : V ⊕ ℤ}

/-- The operators of `apply_signed` and `apply_unsigned`. -/
theorem sets_applied (hwf : rcp.WF) (hm : rcp.Models R.toVariableRegistry τ σ)
    (htype : τ (R.regType dst) = .num) (hop : op.instruction = some iop) (hw : w = 32 ∨ w = 64)
    (hsigned : op.SignedAs isUnsigned v z) (hexact : ∀ d ∈ rcp.values, op.ExactAt isUnsigned d w v z)
    (hread : ∀ σ', Agree R.toVariableRegistry τ σ σ' → Holds isUnsigned σ' v x ∧ OperandIs isUnsigned σ' z y) :
    Sets R dst τ σ (onValues (applySigned isUnsigned · op (R.reg .svalues dst) (R.reg .uvalues dst) v z w) rcp)
        (aluWord iop w x y) ∧
      Sets R dst τ σ (onValues (applyUnsigned isUnsigned · op (R.reg .svalues dst) (R.reg .uvalues dst) v z w)
        rcp) (aluWord iop w x y) := by
  have hne := svalue_ne_uvalue R dst
  have hyields := fun d hd σ' (hdwf : SplitDbm.WF d) (hσ' : d.Models σ') hagree =>
    applied_yields hdwf hne hop hw hsigned (hexact d hd) ⟨σ', x, y, hσ', hread σ' hagree⟩
  have hresult : ∀ σ', Agree R.toVariableRegistry τ σ σ' →
      AluResult isUnsigned iop w v z σ' (aluWord iop w x y) :=
    fun σ' hagree => ⟨x, y, (hread σ' hagree).1, (hread σ' hagree).2, rfl⟩
  constructor
  · refine sets_onValues hwf hm htype fun d hd σ' hdwf hσ' hagree => ?_
    obtain ⟨d', hd', hwf', hmodels⟩ := (hyields d hd σ' hdwf hσ' hagree).1
    exact ⟨d', hd', hwf', hmodels σ' _ hσ' (hresult σ' hagree)⟩
  · refine sets_onValues hwf hm htype fun d hd σ' hdwf hσ' hagree => ?_
    obtain ⟨d', hd', hwf', hmodels⟩ := (hyields d hd σ' hdwf hσ' hagree).2
    exact ⟨d', hd', hwf', hmodels σ' _ hσ' (hresult σ' hagree)⟩

/-! ### Operands of instructions -/

section

variable {o : Reg ⊕ ℤ} {k : ℤ}

variable (R) in
/-- The variable of an operand, or its number. -/
def operandVar (kind : DataKind) (o : Reg ⊕ ℤ) : V ⊕ ℤ := o.map (R.reg kind) id

variable (R) in
/-- The operand is the word. -/
def OperandWord (σ : V → ℤ) (o : Reg ⊕ ℤ) (y : BitVec 64) : Prop :=
  match o with
  | .inl src => ReadsReg R σ src y
  | .inr k => k = y.toInt ∧ FitsS 32 k

omit [LinearOrder V] in
theorem OperandWord.agree (h : OperandWord R σ o y) (hagree : Agree R.toVariableRegistry τ σ σ') :
    OperandWord R σ' o y := by
  cases o with
  | inl src => exact ReadsReg.agree h hagree
  | inr k => exact h

omit [LinearOrder V] in
theorem OperandWord.operandIs (hs : WordSigns R isUnsigned) (h : OperandWord R σ o y) :
    OperandIs isUnsigned σ (operandVar R .svalues o) y ∧ OperandIs isUnsigned σ (operandVar R .uvalues o) y := by
  cases o with
  | inl src => exact ReadsReg.holds hs h
  | inr k => exact ⟨h, h⟩

omit [LinearOrder V] in
theorem signedAs_svalues (hs : WordSigns R isUnsigned) (hsign : op.signedness ≠ some true) :
    op.SignedAs isUnsigned (R.reg .svalues dst) (operandVar R .svalues o) := by
  intro s h
  obtain rfl : s = false := by
    cases s with
    | false => rfl
    | true => exact absurd h hsign
  refine ⟨hs.svalue dst, fun v hv => ?_⟩
  cases o with
  | inl src => exact Sum.inl.inj hv ▸ hs.svalue src
  | inr k => cases hv

omit [LinearOrder V] in
theorem signedAs_uvalues (hs : WordSigns R isUnsigned) (hsign : op.signedness ≠ some false) :
    op.SignedAs isUnsigned (R.reg .uvalues dst) (operandVar R .uvalues o) := by
  intro s h
  obtain rfl : s = true := by
    cases s with
    | false => exact absurd h hsign
    | true => rfl
  refine ⟨hs.uvalue dst, fun v hv => ?_⟩
  cases o with
  | inl src => exact Sum.inl.inj hv ▸ hs.uvalue src
  | inr k => cases hv

/-- The operators on signed numbers. -/
theorem sets_signed (hs : WordSigns R isUnsigned) (hwf : rcp.WF) (hm : rcp.Models R.toVariableRegistry τ σ)
    (htype : τ (R.regType dst) = .num) (hx : ReadsReg R σ dst x) (hy : OperandWord R σ o y)
    (hw : w = 32 ∨ w = 64) (hop : op.instruction = some iop) (hsign : op.signedness ≠ some true)
    (hexact : ∀ d ∈ rcp.values,
      op.ExactAt isUnsigned d w (R.reg .svalues dst) (operandVar R .svalues o)) :
    Sets R dst τ σ (compute R dst (fun d svalue uvalue =>
      applySigned isUnsigned d op svalue uvalue svalue (operandVar R .svalues o) w) rcp) (aluWord iop w x y) :=
  (sets_applied hwf hm htype hop hw (signedAs_svalues hs hsign) hexact fun _ hagree =>
    ⟨((hx.agree hagree).holds hs).1, ((hy.agree hagree).operandIs hs).1⟩).1.havocOffsets

/-- The operators on unsigned numbers. -/
theorem sets_unsigned (hs : WordSigns R isUnsigned) (hwf : rcp.WF) (hm : rcp.Models R.toVariableRegistry τ σ)
    (htype : τ (R.regType dst) = .num) (hx : ReadsReg R σ dst x) (hy : OperandWord R σ o y)
    (hw : w = 32 ∨ w = 64) (hop : op.instruction = some iop) (hsign : op.signedness ≠ some false)
    (hexact : ∀ d ∈ rcp.values,
      op.ExactAt isUnsigned d w (R.reg .uvalues dst) (operandVar R .uvalues o)) :
    Sets R dst τ σ (compute R dst (fun d svalue uvalue =>
      applyUnsigned isUnsigned d op svalue uvalue uvalue (operandVar R .uvalues o) w) rcp) (aluWord iop w x y) :=
  (sets_applied hwf hm htype hop hw (signedAs_uvalues hs hsign) hexact fun _ hagree =>
    ⟨((hx.agree hagree).holds hs).2, ((hy.agree hagree).operandIs hs).2⟩).2.havocOffsets

/-! ### Conjunctions with a number -/

theorem castToU_of_toInt (y : BitVec 64) : castToU 64 y.toInt = some (y.toNat : ℤ) := by
  have hword : Represents 64 y.toInt y := represents_toInt le_rfl
  rw [Interval.castToU_of_fits (Or.inl (fitsS_toInt y)), hword.zeroExtend, BitVec.setWidth_eq]

/-- A conjunction with a positive number is not above it. -/
theorem and_bounds (hk : 0 < y.toInt) :
    (x &&& y).toInt = (x &&& y).toNat ∧ ((x &&& y).toNat : ℤ) ≤ y.toInt := by
  have hle : (x &&& y).toNat ≤ y.toNat := by
    rw [BitVec.toNat_and]
    exact Nat.and_le_right
  have hy := BitVec.toInt_eq_toNat_cond y
  have hxy := BitVec.toInt_eq_toNat_cond (x &&& y)
  split_ifs at hy hxy <;> omega

theorem models_boundBy (hwf : rcp.WF) (hσ : rcp.values.Models σ) (hx : ReadsReg R σ dst (x &&& y))
    (hk : 0 < y.toInt) : (boundBy R dst y.toInt rcp).WF ∧ (boundBy R dst y.toInt rcp).values.Models σ := by
  obtain ⟨hsame, hle⟩ := @and_bounds x y hk
  have hs : σ (R.reg .svalues dst) = (x &&& y).toInt := hx.1
  have hu : σ (R.reg .uvalues dst) = (x &&& y).toNat := hx.2
  have hadd : ∀ {v : AddBottom V} {e f : LinearExpression V}, v.WF ∧ v.Models σ → e.eval σ ≤ f.eval σ →
      (v.addConstraint (LinearExpression.le e f)).WF ∧ (v.addConstraint (LinearExpression.le e f)).Models σ := by
    intro v e f hv hef
    refine ⟨hv.1.addConstraint _, models_addConstraint hv.1 hv.2 (SplitDbm.unitDisequation_of_ne ?_) ?_⟩
    · exact fun hkind => by cases hkind
    · exact sat_le.mpr hef
  have hall := hadd (hadd (hadd (hadd (e := .var (R.reg .svalues dst)) (f := .const y.toInt) ⟨hwf.values, hσ⟩ ?_)
    (e := .var (R.reg .uvalues dst)) (f := .const y.toInt) ?_) (e := .const 0) (f := .var (R.reg .svalues dst)) ?_)
    (e := .const 0) (f := .var (R.reg .uvalues dst)) ?_
  · exact ⟨⟨hwf.types, hall.1⟩, hall.2⟩
  all_goals
    simp only [eval_var, eval_const]
    omega

theorem sets_andImm (hwf : rcp.WF) (hm : rcp.Models R.toVariableRegistry τ σ)
    (htype : τ (R.regType dst) = .num) (hx : ReadsReg R σ dst x) (hy : FitsS 32 y.toInt) :
    Sets R dst τ σ (andImm R isUnsigned dst y.toInt w rcp) (aluWord .and 64 x y) := by
  have hne := svalue_ne_uvalue R dst
  have hand : Sets R dst τ σ (onValues (FiniteDomain.bitwiseAnd isUnsigned · (R.reg .svalues dst)
      (R.reg .uvalues dst) (.inr y.toInt) w) rcp) (x &&& y) := by
    refine sets_onValues hwf hm htype fun z _ σ' hz hσ' hagree => ?_
    have hx' := (hx.agree hagree).2
    obtain ⟨z', hz', hwf', hmodels⟩ := @yields_bitwiseAnd _ _ z _ _ w isUnsigned hz hne _ y
      (castToU_of_toInt y) ⟨σ', x, hσ', hx'⟩
    exact ⟨z', hz', hwf', hmodels σ' _ hσ' ⟨x, hx', rfl⟩⟩
  have hword : aluWord .and 64 x y = x &&& y := by
    unfold aluWord
    rw [BitVec.setWidth_eq, BitVec.setWidth_eq, BitVec.setWidth_eq]
    rfl
  rw [hword]
  obtain ⟨rcp', hr, hwf', hτ, σ', hagree, hσ'⟩ := hand
  have hbound : (if 0 < y.toInt then boundBy R dst y.toInt rcp' else rcp').WF ∧
      (if 0 < y.toInt then boundBy R dst y.toInt rcp' else rcp').Models R.toVariableRegistry
        (Function.update τ (R.regType dst) .num) (setReg R σ dst (x &&& y)) := by
    split_ifs with hk
    · have hbounds := models_boundBy hwf' hσ' ((readsReg_setReg σ dst _).agree hagree) hk
      exact ⟨hbounds.1, hτ, σ', hagree, hbounds.2⟩
    · exact ⟨hwf', hτ, σ', hagree, hσ'⟩
  have hnarrow : narrowS 32 y.toInt = some y.toInt := if_pos hy
  unfold andImm
  rw [hr, hnarrow]
  exact ⟨_, rfl, models_havocOffsets hbound.1 hbound.2 dst⟩

end

/-! ### Shifts -/

/-- An operation on a register that is known to be a number. -/
theorem sets_onNumber {f : SplitDbm V → V → V → Option (SplitDbm V)} (hwf : rcp.WF)
    (hm : rcp.Models R.toVariableRegistry τ σ) (hknown : rcp.types.Knows (R.regType dst) .num)
    (hf : ∀ d ∈ (rcp.havocOffsets R dst).values, ∀ σ', d.WF → d.Models σ' →
      Agree R.toVariableRegistry τ σ σ' → ∃ d', f d (R.reg .svalues dst) (R.reg .uvalues dst) = some d' ∧
        d'.WF ∧ d'.Models (setReg R σ' dst y)) :
    Sets R dst τ σ (onNumber R rcp dst f) y := by
  obtain ⟨hwf', hm'⟩ := models_havocOffsets hwf hm dst
  have hgroup : (rcp.havocOffsets R dst).types.isInGroup (R.regType dst) .number = true :=
    hknown.isInGroup_number hm.1
  have heq : onNumber R rcp dst f =
      onValues (f · (R.reg .svalues dst) (R.reg .uvalues dst)) (rcp.havocOffsets R dst) := by
    unfold onNumber
    simp only
    rw [if_pos hgroup]
    rfl
  rw [heq]
  exact sets_onValues hwf' hm' (hknown.eq_type hm.1) hf

variable {imm : BitVec 32}

theorem sets_shl (hwf : rcp.WF) (hm : rcp.Models R.toVariableRegistry τ σ)
    (hknown : rcp.types.Knows (R.regType dst) .num) (hx : ReadsReg R σ dst x) (hw : w = 32 ∨ w = 64)
    (hexact : ∀ d ∈ (rcp.havocOffsets R dst).values,
      ShlExact (d.evalInterval (.var (R.reg .uvalues dst))) (maskImm imm w) w) :
    Sets R dst τ σ (shl R rcp dst imm w) (aluWord .lsh w x (imm.signExtend 64)) := by
  refine sets_onNumber hwf hm hknown fun d hd σ' hdwf hσ' hagree => ?_
  have hexact' := hexact d hd
  rw [maskImm_eq hw] at hexact' ⊢
  obtain ⟨d', hd', hwf', hmodels⟩ := yields_shl hdwf ⟨σ', hσ'⟩ (svalue_ne_uvalue R dst) hw hexact'
  exact ⟨d', hd', hwf', hmodels σ' _ hσ' ⟨x, hx.agree hagree, rfl⟩⟩

theorem sets_lshr (hwf : rcp.WF) (hm : rcp.Models R.toVariableRegistry τ σ)
    (hknown : rcp.types.Knows (R.regType dst) .num) (hx : ReadsReg R σ dst x) (hw : w = 32 ∨ w = 64)
    (hexact : ∀ d ∈ (rcp.havocOffsets R dst).values,
      LshrExact d (R.reg .svalues dst) (R.reg .uvalues dst) (maskImm imm w) w) :
    Sets R dst τ σ (lshr R rcp dst imm w) (aluWord .rsh w x (imm.signExtend 64)) := by
  refine sets_onNumber hwf hm hknown fun d hd σ' hdwf hσ' hagree => ?_
  have hexact' := hexact d hd
  rw [maskImm_eq hw] at hexact' ⊢
  obtain ⟨d', hd', hwf', hmodels⟩ := yields_lshr hdwf ⟨σ', hσ'⟩ (svalue_ne_uvalue R dst) hw hexact'
  exact ⟨d', hd', hwf', hmodels σ' _ hσ' ⟨x, hx.agree hagree, rfl⟩⟩

theorem sets_ashr (hwf : rcp.WF) (hm : rcp.Models R.toVariableRegistry τ σ)
    (hknown : rcp.types.Knows (R.regType dst) .num) (hx : ReadsReg R σ dst x) (hw : w = 32 ∨ w = 64)
    {right : LinearExpression V}
    (hright : ∀ σ', Agree R.toVariableRegistry τ σ σ' → right.eval σ' = y.toInt) :
    Sets R dst τ σ (ashr R rcp dst right w) (aluWord .arsh w x y) := by
  refine sets_onNumber hwf hm hknown fun d _ σ' hdwf hσ' hagree => ?_
  obtain ⟨d', hd', hwf', hmodels⟩ := @yields_ashr _ _ d _ _ w right hdwf ⟨σ', hσ'⟩ (svalue_ne_uvalue R dst) hw
  exact ⟨d', hd', hwf', hmodels σ' _ hσ' ⟨x, y, hx.agree hagree, hright σ' hagree, rfl⟩⟩

end EbpfTransformer

end Prevail
