import Prevail.Crab.AluNumbers

/-!
# The cases of `Bin` on numbers

What a case of the instruction leaves in its register when the registers that it reads hold numbers: the result
of the ISA, signed and unsigned (`Sets`). A split by the types of a number has one case
(`exists_joinOverNumber`). A shift by a register that holds one number is a shift by that number, which the
code masks as the ISA does (`shiftCount_maskedAmount`).
-/

namespace Prevail

open AddBottom TypeToNumDomain LinearExpression FiniteDomain ProgramVariables Number StateT

namespace EbpfTransformer

variable {V : Type} [LinearOrder V] {R : ProgramVariables V} {isUnsigned : V → Bool}
  {rcp rcp' : TypeToNumDomain V} {τ τ' : V → TypeEncoding} {σ σ' : V → ℤ}
  {dst src r : Reg} {x y : BitVec 64} {w : ℕ} {o : Reg ⊕ ℤ}

/-! ## Sums and differences -/

/-- Sums and differences are computed on the variable that more is known about. -/
theorem sets_knownValue {aop : ArithBinOp} {iop : Prevail.BinOp} (hs : WordSigns R isUnsigned) (hwf : rcp.WF)
    (hm : rcp.Models R.toVariableRegistry τ σ) (htype : τ (R.regType dst) = .num) (hx : ReadsReg R σ dst x)
    (hy : OperandWord R σ o y) (hw : w = 32 ∨ w = 64)
    (hop : (FiniteDomain.BinOp.arith aop).instruction = some iop) :
    Sets R dst τ σ (onValues (fun d => applySigned isUnsigned d (.arith aop) (R.reg .svalues dst)
      (R.reg .uvalues dst) (knownValue d (R.reg .svalues dst) (R.reg .uvalues dst))
        (operandVar R .svalues o) w) rcp) (aluWord iop w x y) := by
  refine sets_onValues hwf hm htype fun d _ σ' hdwf hσ' hagree => ?_
  have hx' := (hx.agree hagree).holds hs
  have hy' := ((hy.agree hagree).operandIs hs).1
  have hv : Holds isUnsigned σ' (knownValue d (R.reg .svalues dst) (R.reg .uvalues dst)) x := by
    unfold knownValue
    split_ifs
    · exact hx'.1
    · exact hx'.2
  have hsigned : (FiniteDomain.BinOp.arith aop).SignedAs isUnsigned
      (knownValue d (R.reg .svalues dst) (R.reg .uvalues dst)) (operandVar R .svalues o) := by
    intro s h
    cases h
  obtain ⟨d', hd', hwf', hmodels⟩ := (applied_yields hdwf (svalue_ne_uvalue R dst) hop hw hsigned
    (fun _ _ => trivial) ⟨σ', x, y, hσ', hv, hy'⟩).1
  exact ⟨d', hd', hwf', hmodels σ' _ hσ' ⟨x, y, hv, hy', rfl⟩⟩

theorem models_assignNumber (hwf : rcp.WF) (hm : rcp.Models R.toVariableRegistry τ σ) (r : Reg) :
    (rcp.assignType (R.regType r) (.const TypeEncoding.num.toInt)).WF ∧
      (rcp.assignType (R.regType r) (.const TypeEncoding.num.toInt)).Models R.toVariableRegistry
        (Function.update τ (R.regType r) .num) σ := by
  obtain ⟨hτ, σ', hagree, hσ'⟩ := hm
  exact ⟨⟨hwf.types.assign _ _, hwf.values⟩, models_assignType hwf.types hτ _ _, σ',
    fun v hv => hagree v fun hm => hv (hm.setNumber r), hσ'⟩

theorem Sets.assignNumber {r : Option (TypeToNumDomain V)} (h : Sets R dst τ σ r y) :
    Sets R dst τ σ (r.bind fun rcp =>
      some ((rcp.assignType (R.regType dst) (.const TypeEncoding.num.toInt)).havocOffsets R dst)) y := by
  obtain ⟨rcp', hr, hwf, hm⟩ := h
  obtain ⟨hwf', hm'⟩ := models_assignNumber hwf hm dst
  rw [Function.update_idem] at hm'
  obtain ⟨hwf'', hm''⟩ := models_havocOffsets hwf' hm' dst
  exact ⟨_, by rw [hr, Option.bind_some], hwf'', hm''⟩

/-- The only type of the register is split off. -/
theorem exists_joinOverNumber {f : TypeToNumDomain V → TypeEncoding → Option (TypeToNumDomain V)} (hwf : rcp.WF)
    (hm : rcp.Models R.toVariableRegistry τ σ) (hknown : rcp.types.Knows (R.regType dst) .num)
    (hf : ∀ e, e.WF → e.Models R.toVariableRegistry τ σ →
      ∃ tmp, f e .num = some tmp ∧ tmp.WF ∧ tmp.Models R.toVariableRegistry τ' σ') :
    ∃ res, joinOverTypes R rcp dst (fun e type => (liftM (f e type) : StateT Unit Option _)) () = some res ∧
      res.1.WF ∧ res.1.Models R.toVariableRegistry τ' σ' := by
  have htype := hknown.eq_type hm.1
  have hproper : rcp.Proper := ⟨hwf, fun _ => hm.2.imp fun _ h => h.2⟩
  have hrestricted : (restrictedTo R rcp dst .num).Models R.toVariableRegistry τ σ := by
    unfold restrictedTo
    rw [← htype]
    exact models_withType hwf hm
  obtain ⟨tmp, htmp, hwf', hm'⟩ := hf _ (hproper.withType .num).wf hrestricted
  have htmpProper : tmp.Proper := ⟨hwf', fun _ => hm'.2.imp fun _ h => h.2⟩
  refine ⟨(bottom.join R.toVariableRegistry tmp, ()), ?_, (proper_bottom.join htmpProper).wf,
    proper_bottom.models_join htmpProper (Or.inr hm')⟩
  rw [joinOverTypes_eq (hknown.isInitialized hm.1 (by decide)) (hknown.iterateTypes hm.1 (by decide))
    (by decide)]
  rw [List.foldlM_cons]
  refine bind_eq_some.mpr ⟨_, _, bind_eq_some.mpr ⟨tmp, (), liftM_eq_some.mpr ⟨htmp, rfl⟩, rfl⟩, rfl⟩

theorem sets_subReg {stack : ArrayDomain} (hs : WordSigns R isUnsigned) (hwf : rcp.WF)
    (hm : rcp.Models R.toVariableRegistry τ σ) (hdst : rcp.types.Knows (R.regType dst) .num)
    (hsrc : rcp.types.Knows (R.regType src) .num) (hx : ReadsReg R σ dst x) (hy : ReadsReg R σ src y)
    (hw : w = 32 ∨ w = 64) :
    Sets R dst τ σ (subReg R isUnsigned stack dst src w rcp) (aluWord .sub w x y) := by
  obtain ⟨res, hres, hsets⟩ := @exists_joinOverNumber _ _ R _ τ _ σ _ dst
    (fun e type => subTyped R isUnsigned dst src w type e) hwf hm hdst fun e hwf' hm' =>
      (sets_applied hwf' hm' (hdst.eq_type hm.1)
        (rfl : (FiniteDomain.BinOp.arith .sub).instruction = some .sub) hw
        (signedAs_svalues (o := .inl src) hs (by decide)) (fun _ _ _ _ => trivial) fun σ' hagree =>
          ⟨((hx.agree hagree).holds hs).1, ((hy.agree hagree).holds hs).1⟩).1.assignNumber
  unfold subReg
  rw [if_pos (hdst.sameType hsrc hm.1), hres]
  exact ⟨res.1, rfl, hsets⟩

theorem sets_addReg {stack : ArrayDomain} (hs : WordSigns R isUnsigned) (hwf : rcp.WF)
    (hm : rcp.Models R.toVariableRegistry τ σ) (hdst : rcp.types.Knows (R.regType dst) .num)
    (hsrc : rcp.types.Knows (R.regType src) .num) (hx : ReadsReg R σ dst x) (hy : ReadsReg R σ src y)
    (hw : w = 32 ∨ w = 64) :
    Sets R dst τ σ (addReg R isUnsigned stack dst src w rcp) (aluWord .add w x y) := by
  unfold addReg
  rw [if_pos (hdst.sameType hsrc hm.1)]
  exact sets_knownValue (o := .inl src) hs hwf hm (hdst.eq_type hm.1) hx hy hw rfl

/-- A number that is added is not added to an offset. -/
theorem exists_add {d : EbpfDomain V} (hs : WordSigns R isUnsigned) (hwf : d.rcp.WF)
    (hm : d.rcp.Models R.toVariableRegistry τ σ) (hdst : d.rcp.types.Knows (R.regType dst) .num)
    (hx : ReadsReg R σ dst x) (hy : FitsS 32 y.toInt) (hw : w = 32 ∨ w = 64) :
    ∃ rcp', add R isUnsigned dst y.toInt w d = some { d with rcp := rcp' } ∧
      Sets R dst τ σ (some rcp') (aluWord .add w x y) := by
  obtain ⟨rcp', hr, hwf', hm'⟩ := sets_knownValue (o := .inr y.toInt) hs hwf hm (hdst.eq_type hm.1) hx
    ⟨rfl, hy⟩ hw (rfl : (FiniteDomain.BinOp.arith .add).instruction = some .add)
  refine ⟨rcp', ?_, _, rfl, hwf', hm'⟩
  obtain ⟨z, hz, hr⟩ := Option.bind_eq_some_iff.mp hr
  obtain ⟨z', hz', hr⟩ := Option.bind_eq_some_iff.mp hr
  obtain rfl := Option.some.inj hr
  have hoffset : d.rcp.getTypeOffsetVariable R dst = some none := by
    unfold TypeToNumDomain.getTypeOffsetVariable
    rw [hdst.getType hm.1]
    rfl
  exact Option.bind_eq_some_iff.mpr ⟨z, hz, Option.bind_eq_some_iff.mpr ⟨z', hz',
    Option.bind_eq_some_iff.mpr ⟨none, hoffset, rfl⟩⟩⟩

/-! ## Moves -/

/-- A number is copied. -/
theorem sets_assign (hwf : rcp.WF) (hm : rcp.Models R.toVariableRegistry τ σ)
    (hsrc : rcp.types.Knows (R.regType src) .num) (hy : ReadsReg R σ src y) :
    Sets R dst τ σ (rcp.assign R dst src) y := by
  obtain ⟨hτ, σ', hagree, hσ'⟩ := hm
  have hy' := hy.agree hagree
  unfold TypeToNumDomain.assign
  split_ifs with heq
  · subst heq
    refine ⟨rcp, rfl, hwf, ?_⟩
    rw [setReg_self hy, ← hsrc.eq_type hτ, Function.update_eq_self]
    exact ⟨hτ, σ', hagree, hσ'⟩
  · have hne : R.regType src ≠ R.regType dst := fun h => heq (regType_inj.mp h).symm
    have hdst' := hsrc.assign (a := R.regType dst) hwf.types hτ
    have hsrc' := hsrc.assign_of_ne hwf.types hne (.var (R.regType src))
    have hτ' := TypeDomain.models_assignType_var hwf.types hτ (R.regType src) (R.regType dst)
    rw [hsrc.eq_type hτ] at hτ'
    have hs := models_assign hwf.values hσ' (v := R.reg .svalues dst) (.var (R.reg .svalues src))
    have hwfs := hwf.values.assign (R.reg .svalues dst) (.var (R.reg .svalues src))
    have hu := models_assign hwfs hs (v := R.reg .uvalues dst) (.var (R.reg .uvalues src))
    rw [eval_var, eval_var, Function.update_of_ne (reg_ne (by decide)), hy'.1, hy'.2] at hu
    simp only
    rw [hdst'.iterateTypes hτ' (by decide), hsrc'.iterateTypes hτ' (by decide)]
    exact ⟨_, rfl, ⟨hwf.types.assign _ _, hwfs.assign _ _⟩, hτ', _, hagree.setNumber dst _ _, hu⟩

theorem sets_movReg {b : Bin} (hwf : rcp.WF) (hm : rcp.Models R.toVariableRegistry τ σ)
    (hsrc : rcp.types.Knows (R.regType src) .num) (hy : ReadsReg R σ src y) :
    Sets R b.dst τ σ (movReg R b src rcp) y := by
  unfold movReg
  rw [hsrc.isInGroup_number hm.1, Bool.or_true, if_pos rfl]
  exact sets_assign hwf hm hsrc hy

/-- An immediate value is assigned as a number with sign, and only the unsigned one wraps around. -/
theorem exists_movImm (hwf : rcp.WF) (hm : rcp.Models R.toVariableRegistry τ σ) (hw : w = 32 ∨ w = 64) :
    ∃ rcp', movImm R dst y.toInt w rcp = some rcp' ∧ rcp'.WF ∧ rcp'.Models R.toVariableRegistry
      (Function.update τ (R.regType dst) .num)
      (Function.update (Function.update σ (R.reg .svalues dst) y.toInt) (R.reg .uvalues dst)
        (cutWord w y).toNat) := by
  obtain ⟨hτ, σ', hagree, d, hd, hσ'⟩ := hm
  have hwf₁ := SplitDbm.wf_set (SplitDbm.wf_set (hwf.values d hd) (R.reg .svalues dst) (.const y.toInt))
    (R.reg .uvalues dst) (.const y.toInt)
  have hσ₁ := SplitDbm.models_set (x := R.reg .uvalues dst) (SplitDbm.wf_set (hwf.values d hd) _ _)
    (SplitDbm.models_set (x := R.reg .svalues dst) (hwf.values d hd) hσ'
      (Interval.mem_const.mpr (rfl : y.toInt = y.toInt))) (Interval.mem_const.mpr (rfl : y.toInt = y.toInt))
  obtain ⟨d', hd', hwf', hmodels⟩ := @overflowBound_spec _ _ _ (R.reg .uvalues dst) w false hwf₁ ⟨_, hσ₁⟩ hw
  have hσ'' := hmodels _ hσ₁
  have hwrap : wrapped w false y.toInt = (cutWord w y).toNat := by
    have hrep : Represents w y.toInt y := represents_toInt (by omega)
    rw [wrapped_false (by omega), word, hrep, cutWord]
  rw [Function.update_self, Function.update_idem, hwrap] at hσ''
  have hτ' := models_assignType hwf.types hτ (R.regType dst) .num
  obtain ⟨hwf'', hm''⟩ := @models_havocOffsets _ _ R
    ({ rcp with values := some d' }.assignType (R.regType dst) (.const TypeEncoding.num.toInt)) _ _
    ⟨hwf.types.assign _ _, wf_some.mpr hwf'⟩
    ⟨hτ', _, hagree.setNumber dst _ _, models_some.mpr hσ''⟩ dst
  have hvalues : (rcp.values.assignInt (R.reg .svalues dst) y.toInt).assignInt (R.reg .uvalues dst) y.toInt =
      some ((d.set (R.reg .svalues dst) (.const y.toInt)).set (R.reg .uvalues dst) (.const y.toInt)) := by
    rw [Option.mem_def.mp hd]
    rfl
  exact ⟨_, Option.bind_eq_some_iff.mpr ⟨_, Option.bind_eq_some_iff.mpr
    ⟨_, hvalues, Option.bind_eq_some_iff.mpr ⟨d', hd', rfl⟩⟩, rfl⟩, hwf'', hm''⟩

/-- The register is forgotten or cut off before an immediate value is applied. -/
theorem exists_cutOperand {b : Bin} (hwf : rcp.WF) (hm : rcp.Models R.toVariableRegistry τ σ)
    (hx : τ (R.regType b.dst) = .num → ReadsReg R σ b.dst x) :
    ∃ e σ₁, cutOperand R isUnsigned b rcp = some e ∧ e.WF ∧ e.Models R.toVariableRegistry τ σ₁ ∧
      ∀ y, setReg R σ₁ b.dst y = setReg R σ b.dst y := by
  unfold cutOperand
  split_ifs with h64 hgroup
  · exact ⟨rcp, σ, rfl, hwf, hm, fun _ => rfl⟩
  · have htype := eq_of_sat_typeIs (sat_of_entail hwf.types hgroup hm.1)
    obtain ⟨e, he, hwf', hm'⟩ := @sets_lowHalf _ _ R isUnsigned _ τ σ _ _ hwf hm htype (hx htype).2
    rw [← htype, Function.update_eq_self] at hm'
    exact ⟨e, _, he, hwf', hm', fun y => setReg_setReg ..⟩
  · have hpass := @passes_havocRegister _ _ R rcp (fun _ => False) hwf b.dst
    obtain ⟨hτ, σ', hagree, hσ'⟩ := hm
    obtain ⟨σ'', hσ'', heq⟩ := hpass.values σ' hσ'
    obtain rfl : σ'' = σ' := funext fun v => heq v id
    exact ⟨_, σ, rfl, hpass.wf, ⟨hpass.types τ hτ, _, hagree, hσ''⟩, fun _ => rfl⟩

/-! ## Sign extension -/

/-- A number that fits the source width is extended to itself. -/
theorem aluWord_movsx_of_fits {op : Prevail.BinOp} {source : ℕ} (hw : w = 32 ∨ w = 64)
    (hop : movsxBits op = some source) (hy : FitsS source y.toInt) : aluWord op w x y = cutWord w y := by
  obtain ⟨heq, hsource, hle⟩ := @aluWord_movsx w x y op source hw hop
  have hrep : Represents w y.toInt y := represents_toInt (by omega)
  rw [heq, isaMovsx_eq, ← signExtend_eq_toInt hsource hle, Number.signExtend_of_fits hsource hy, word, hrep,
    cutWord]

theorem fitsS_of_le_signedInt {I : Interval} {n : ℤ} {source : ℕ} (h : I ≤ Interval.signedInt source)
    (hn : n ∈ I) : FitsS source n := Interval.mem_ofInts.mp (Interval.mem_of_le h hn)

/-- A sign extension is only left out when the number is extended to itself. At 32 bits it must not be
negative, as nothing is cut off then. -/
theorem sets_movsx {op : Prevail.BinOp} {source : ℕ} (hwf : rcp.WF)
    (hm : rcp.Models R.toVariableRegistry τ σ) (hsrc : rcp.types.Knows (R.regType src) .num)
    (hy : ReadsReg R σ src y) (hw : w = 32 ∨ w = 64) (hop : movsxBits op = some source)
    (hself : w = 32 → dst = src →
      rcp.values.evalInterval (.var (R.reg .svalues dst)) ≤ Interval.signedInt source → 0 ≤ y.toInt) :
    (∃ e, movsx R dst src source w rcp = some (.returns e) ∧ Sets R dst τ σ (some e) (aluWord op w x y)) ∨
      ∃ e, movsx R dst src source w rcp = some (.goesOn e) ∧ Sets R dst τ σ (some e) (aluWord op w x y) := by
  unfold movsx
  split_ifs with hsame hgroup
  · left
    obtain ⟨rfl, hle⟩ := hsame
    obtain ⟨hτ, σ', hagree, hσ'⟩ := hm
    have hmem := mem_evalInterval hσ' (.var (R.reg .svalues dst))
    rw [eval_var, (hy.agree hagree).1] at hmem
    have hfits := fitsS_of_le_signedInt hle hmem
    have hcut : cutWord w y = y := by
      rcases hw with rfl | rfl
      · have h0 := hself rfl rfl hle
        have hsource : source ≤ 32 := by cases op <;> cases hop <;> decide
        have hpow : (2 : ℤ) ^ (source - 1) ≤ 2 ^ 31 := pow_le_pow_right₀ (by decide) (by omega)
        have hmax := hfits.2
        rw [maxInt] at hmax
        have hnat := BitVec.toInt_eq_toNat_cond y
        apply BitVec.eq_of_toNat_eq
        rw [cutWord, BitVec.toNat_setWidth, BitVec.toNat_setWidth]
        split_ifs at hnat <;> omega
      · exact cutWord_self y
    refine ⟨rcp, rfl, rcp, rfl, hwf, ?_⟩
    rw [aluWord_movsx_of_fits hw hop hfits, hcut]
    rw [setReg_self hy, ← hsrc.eq_type hτ, Function.update_eq_self]
    exact ⟨hτ, σ', hagree, hσ'⟩
  · right
    obtain ⟨hwf₁, hm₁⟩ := models_havocOffsets hwf hm dst
    obtain ⟨hwf₂, hm₂⟩ := models_assignNumber hwf₁ hm₁ dst
    have hsets : Sets R dst (Function.update τ (R.regType dst) .num) σ (onValues (FiniteDomain.signExtend ·
        (R.reg .svalues dst) (R.reg .uvalues dst) (.var (R.reg .svalues src)) w source)
          ((havocOffsets R rcp dst).assignType (R.regType dst) (.const TypeEncoding.num.toInt)))
        (aluWord op w x y) := by
      refine sets_onValues hwf₂ hm₂ (Function.update_self ..) fun d _ σ' hdwf hσ' hagree => ?_
      obtain ⟨d', hd', hwf', hmodels⟩ := @yields_signExtend _ _ d _ _ w op (.var (R.reg .svalues src)) hdwf
        ⟨σ', hσ'⟩ (svalue_ne_uvalue R dst) hw source hop
      have hright : (LinearExpression.var (R.reg .svalues src)).eval σ' = y.toInt := by
        rw [eval_var]
        exact (hy.agree hagree).1
      exact ⟨d', hd', hwf', hmodels σ' _ hσ' ⟨x, y, hright, rfl⟩⟩
    obtain ⟨e, he, hwf', hm'⟩ := hsets
    rw [Function.update_idem] at hm'
    exact ⟨e, Option.bind_eq_some_iff.mpr ⟨e, he, rfl⟩, e, rfl, hwf', hm'⟩
  · exact absurd (hsrc.isInGroup_number hm.1) hgroup

/-! ## Shifts by registers -/

/-- An operation on the values leaves the types alone. -/
theorem types_onValues {op : SplitDbm V → Option (SplitDbm V)} (h : onValues op rcp = some rcp') :
    rcp'.types = rcp.types := by
  obtain ⟨d, -, h⟩ := Option.bind_eq_some_iff.mp h
  obtain ⟨d', -, h⟩ := Option.bind_eq_some_iff.mp h
  exact Option.some.inj h ▸ rfl

/-- A register that is known to be a number is cut off to the width. -/
theorem exists_cutNumber {b : Bin} (hwf : rcp.WF) (hm : rcp.Models R.toVariableRegistry τ σ)
    (hknown : rcp.types.Knows (R.regType b.dst) .num) (hx : ReadsReg R σ b.dst x) :
    ∃ e, cutOperand R isUnsigned b rcp = some e ∧ e.WF ∧ e.types = rcp.types ∧
      e.Models R.toVariableRegistry τ (setReg R σ b.dst (cutWord (width b.is64) x)) := by
  unfold cutOperand width
  split_ifs with h64 hgroup
  · rw [cutWord_self, setReg_self hx]
    exact ⟨rcp, rfl, hwf, rfl, hm⟩
  · have htype := hknown.eq_type hm.1
    obtain ⟨e, he, hwf', hm'⟩ := @sets_lowHalf _ _ R isUnsigned _ τ σ _ _ hwf hm htype hx.2
    rw [← htype, Function.update_eq_self] at hm'
    exact ⟨e, he, hwf', types_onValues he, hm'⟩
  · exact absurd (hknown.isInGroup_number hm.1) hgroup

/-- The amount that the analysis takes from the register. -/
def maskedAmount (y : BitVec 64) (w : ℕ) : BitVec 32 := (y &&& BitVec.ofNat 64 (w - 1)).setWidth 32

theorem toNat_and_width (hw : w = 32 ∨ w = 64) (y : BitVec 64) :
    (y &&& BitVec.ofNat 64 (w - 1)).toNat = y.toNat % w := by
  rw [BitVec.toNat_and]
  rcases hw with rfl | rfl
  · exact Nat.and_two_pow_sub_one_eq_mod y.toNat 5
  · exact Nat.and_two_pow_sub_one_eq_mod y.toNat 6

theorem shiftCount_maskedAmount (hw : w = 32 ∨ w = 64) (y : BitVec 64) :
    shiftCount ((maskedAmount y w).signExtend 64) w = shiftCount y w := by
  have hlt : y.toNat % w < w := Nat.mod_lt _ (by omega)
  have hsmall : (maskedAmount y w).toNat = y.toNat % w := by
    rw [maskedAmount, BitVec.toNat_setWidth, toNat_and_width hw]
    exact Nat.mod_eq_of_lt (by omega)
  rw [← maskImm_eq hw, maskImm, BitVec.toNat_and, hsmall]
  unfold shiftCount
  rcases hw with rfl | rfl
  · exact (Nat.and_two_pow_sub_one_eq_mod _ 5).trans (Nat.mod_mod _ _)
  · exact (Nat.and_two_pow_sub_one_eq_mod _ 6).trans (Nat.mod_mod _ _)

theorem shiftAmount_eq (hm : rcp.Models R.toVariableRegistry τ σ)
    (hsrc : rcp.types.Knows (R.regType src) .num) (hy : ReadsReg R σ src y) :
    shiftAmount R src w rcp = some (some (maskedAmount y w)) ∨
      shiftAmount R src w rcp = some none ∧
        (rcp.values.evalInterval (.var (R.reg .uvalues src))).singleton = none := by
  obtain ⟨hτ, σ', hagree, hσ'⟩ := hm
  have hmem := mem_evalInterval hσ' (.var (R.reg .uvalues src))
  rw [eval_var, (hy.agree hagree).2] at hmem
  unfold shiftAmount
  rw [hsrc.isInGroup_number hτ, if_pos rfl]
  cases hsingle : (rcp.values.evalInterval (.var (R.reg .uvalues src))).singleton with
  | none => exact Or.inr ⟨rfl, rfl⟩
  | some n =>
    left
    obtain rfl := Interval.eq_of_singleton hsingle hmem
    have hcast : castToU 64 (y.toNat : ℤ) = some (y.toNat : ℤ) := if_pos (fitsU_toNat y)
    have hword : BitVec.ofInt 64 (y.toNat : ℤ) = y := by
      rw [BitVec.ofInt_natCast, BitVec.ofNat_toNat, BitVec.setWidth_eq]
    simp only [hcast, Option.bind_eq_bind, Option.bind_some, hword, Option.pure_def, maskedAmount]

/-- A shift by the amount in a register: one by a known amount on what is left of the number, or another one. -/
theorem sets_shiftReg {b : Bin} {z : BitVec 64}
    {shift : TypeToNumDomain V → Reg → BitVec 32 → ℕ → Option (TypeToNumDomain V)}
    {otherwise : TypeToNumDomain V → Option (TypeToNumDomain V)} (hwf : rcp.WF)
    (hm : rcp.Models R.toVariableRegistry τ σ) (hdst : rcp.types.Knows (R.regType b.dst) .num)
    (hsrc : rcp.types.Knows (R.regType src) .num) (hx : ReadsReg R σ b.dst x) (hy : ReadsReg R σ src y)
    (hshift : ∀ e, cutOperand R isUnsigned b rcp = some e →
      shiftAmount R src (width b.is64) rcp = some (some (maskedAmount y (width b.is64))) → e.WF →
      e.Models R.toVariableRegistry τ (setReg R σ b.dst (cutWord (width b.is64) x)) →
      e.types.Knows (R.regType b.dst) .num → Sets R b.dst τ (setReg R σ b.dst (cutWord (width b.is64) x))
        (shift e b.dst (maskedAmount y (width b.is64)) (width b.is64)) z)
    (hother : shiftAmount R src (width b.is64) rcp = some none →
      (rcp.values.evalInterval (.var (R.reg .uvalues src))).singleton = none →
        Sets R b.dst τ σ (otherwise rcp) z) :
    Sets R b.dst τ σ (shiftReg R isUnsigned b src (width b.is64) shift otherwise rcp) z := by
  unfold shiftReg
  rcases shiftAmount_eq (w := width b.is64) hm hsrc hy with hamount | ⟨hamount, hsingle⟩
  · obtain ⟨e, he, hwf', htypes, hm'⟩ := @exists_cutNumber _ _ R isUnsigned _ _ _ _ b hwf hm hdst hx
    have hcut : (if b.is64 then some rcp else lowHalf R isUnsigned b.dst rcp) = some e := by
      rw [← he]
      unfold cutOperand
      rw [hdst.isInGroup_number hm.1, if_pos rfl]
    obtain ⟨rcp', hr, hwf'', hm''⟩ := hshift e he hamount hwf' hm' (htypes ▸ hdst)
    rw [setReg_setReg] at hm''
    refine ⟨rcp', ?_, hwf'', hm''⟩
    have hbind : (if b.is64 then some rcp else lowHalf R isUnsigned b.dst rcp).bind
        (shift · b.dst (maskedAmount y (width b.is64)) (width b.is64)) = some rcp' := by
      rw [hcut]
      exact hr
    rw [hamount, ← hbind]
    cases b.is64 <;> rfl
  · have hsets := hother hamount hsingle
    rw [hamount]
    exact hsets

theorem sets_shlOverflowVar {z : BitVec 64} (hwf : rcp.WF) (hm : rcp.Models R.toVariableRegistry τ σ)
    (htype : τ (R.regType dst) = .num) (hx : ReadsReg R σ dst x) (hy : ReadsReg R σ src y)
    (hsingle : (rcp.values.evalInterval (.var (R.reg .uvalues src))).singleton = none) (hz : y = 0 → z = x) :
    Sets R dst τ σ (compute R dst (FiniteDomain.shlOverflowVar isUnsigned · · · (R.reg .uvalues src)) rcp)
      z := by
  refine Sets.havocOffsets (sets_onValues hwf hm htype fun d hd σ' hdwf hσ' hagree => ?_)
  rw [Option.mem_def.mp hd] at hsingle
  exact shlOverflowVar_spec hdwf (svalue_ne_uvalue R dst) hσ' (hx.agree hagree).2 (hy.agree hagree).2 hsingle hz

theorem sets_havocRegisterExceptType (hwf : rcp.WF) (hm : rcp.Models R.toVariableRegistry τ σ)
    (htype : τ (R.regType dst) = .num) (z : BitVec 64) :
    Sets R dst τ σ (some (havocRegisterExceptType R rcp dst)) z := by
  obtain ⟨hτ, σ', hagree, hσ'⟩ := hm
  have hoffsets := models_havocKindsOf (R := R) (v := R.regType dst) hwf.values offsetKinds hσ'
  have hs := models_havoc hoffsets.1 hoffsets.2 (v := R.reg .svalues dst) z.toInt
  have hu := models_havoc (hoffsets.1.havoc (R.reg .svalues dst)) hs (v := R.reg .uvalues dst) z.toNat
  refine ⟨_, rfl, ⟨hwf.types, (hoffsets.1.havoc _).havoc _⟩, ?_, _, hagree.setNumber dst _ _, hu⟩
  rw [← htype, Function.update_eq_self]
  exact hτ

end EbpfTransformer

end Prevail
