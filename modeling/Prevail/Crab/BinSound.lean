import Prevail.Crab.BinNumbers

/-!
# `Bin` on numbers

The transfer function of an instruction on numbers covers the instruction (`exists_bin`). Each case leaves a
word of which the last step keeps what the width of the instruction keeps (`Leaves`). Where the operations on
intervals are known to lose results, `BinExact` leaves them out.
-/

namespace Prevail

open AddBottom TypeToNumDomain LinearExpression FiniteDomain ProgramVariables Number StateT

namespace EbpfTransformer

variable {V : Type} [LinearOrder V] (R : ProgramVariables V) (isUnsigned : V → Bool)

/-! ## Conditions -/

/-- The right operand of an instruction, with the number that an immediate value stands for. -/
def operandOf (b : Bin) : Reg ⊕ ℤ := b.v.map id (immNumber b.is64)

/-- The operation on the values loses no result. -/
def ValuesExact (b : Bin) (d : SplitDbm V) : Prop :=
  let w := width b.is64
  let s := R.reg .svalues b.dst
  let u := R.reg .uvalues b.dst
  match b.op, b.v with
  | .sdiv, _ => (BinOp.signedArith .sdiv).ExactAt isUnsigned d w s (operandVar R .svalues (operandOf b))
  | .umod, _ => (BinOp.signedArith .urem).ExactAt isUnsigned d w u (operandVar R .uvalues (operandOf b))
  | .and, .inl src => (BinOp.bitwise .and).ExactAt isUnsigned d w u (.inl (R.reg .uvalues src))
  | op, .inl src =>
    -- a sign extension that is left out does not clear the high half
    ∀ source, movsxBits op = some source → b.is64 = false → b.dst = src →
      d.evalInterval (.var s) ≤ Interval.signedInt source → ∀ n ∈ d.evalInterval (.var s), 0 ≤ n
  | _, .inr _ => True

/-- The shift by a known amount loses no result. -/
def ShiftExact (b : Bin) (imm : BitVec 32) (d : SplitDbm V) : Prop :=
  let w := width b.is64
  match b.op with
  | .lsh => ShlExact (d.evalInterval (.var (R.reg .uvalues b.dst))) (maskImm imm w) w
  | .rsh => LshrExact d (R.reg .svalues b.dst) (R.reg .uvalues b.dst) (maskImm imm w) w
  | _ => True

/-- No result is lost in the states that the operation is carried out on. An immediate value is applied to
what is left of the number at the width, and so is a shift by a register whose amount is known. -/
def BinExact (b : Bin) (rcp : TypeToNumDomain V) : Prop :=
  match b.v with
  | .inr imm => ∀ e, cutOperand R isUnsigned b rcp = some e →
      (∀ d ∈ e.values, ValuesExact R isUnsigned b d) ∧
        ∀ d ∈ (e.havocOffsets R b.dst).values, ShiftExact R b (BitVec.ofInt 32 (immNumber b.is64 imm)) d
  | .inl src => (∀ d ∈ rcp.values, ValuesExact R isUnsigned b d) ∧
      ∀ e imm, cutOperand R isUnsigned b rcp = some e →
        shiftAmount R src (width b.is64) rcp = some (some imm) →
          ∀ d ∈ (e.havocOffsets R b.dst).values, ShiftExact R b imm d

/-- The operands are known to be numbers, and an immediate value is one of 32 bits with a sign, unless it is
moved. The least of them is not subtracted, as its negation does not fit. -/
structure NumberOperands (b : Bin) (rcp : TypeToNumDomain V) : Prop where
  dst : isMove b.op = false → rcp.types.Knows (R.regType b.dst) .num
  src : ∀ src, b.v = .inl src → rcp.types.Knows (R.regType src) .num
  imm : ∀ imm, b.v = .inr imm → b.op = .mov ∨ isMove b.op = false ∧ FitsS 32 (immNumber b.is64 imm) ∧
    (b.op = .sub → immNumber b.is64 imm ≠ minInt 32)

/-- Registers that are numbers hold the words of the machine. -/
def HoldsNumbers (τ : V → TypeEncoding) (σ : V → ℤ) (regs : Reg → BitVec 64) : Prop :=
  ∀ r, τ (R.regType r) = .num → ReadsReg R σ r (regs r)

variable {R isUnsigned} {rcp rcp' : TypeToNumDomain V} {τ : V → TypeEncoding} {σ σ' : V → ℤ} {dst src r : Reg}
  {x y z : BitVec 64} {w : ℕ} {b : Bin} {d : EbpfDomain V}

theorem width_eq (is64 : Bool) : width is64 = 32 ∨ width is64 = 64 := by cases is64 <;> decide

/-! ## The cases of an instruction -/

section

variable {α : Type} {wrap : TypeToNumDomain V → α} {f : Option (TypeToNumDomain V)} {res : Option (Outcome α)}

/-- A case of the instruction leaves the word, of which the last step keeps the bits of the width. -/
def Leaves (R : ProgramVariables V) (b : Bin) (τ : V → TypeEncoding) (σ : V → ℤ)
    (wrap : TypeToNumDomain V → α) (res : Option (Outcome α)) (z : BitVec 64) : Prop :=
  (∃ e, res = some (.returns (wrap e)) ∧ Sets R b.dst τ σ (some e) z) ∨
    ∃ e x, res = some (.goesOn (wrap e)) ∧ cutWord (width b.is64) x = z ∧ Sets R b.dst τ σ (some e) x

theorem Sets.leaves (h : Sets R b.dst τ σ f x) (hz : cutWord (width b.is64) x = z)
    (hres : ∀ e, f = some e → res = some (.goesOn (wrap e))) : Leaves R b τ σ wrap res z := by
  obtain ⟨e, he, hwf, hm⟩ := h
  exact Or.inr ⟨e, x, hres e he, hz, e, rfl, hwf, hm⟩

/-- The result at the width is not cut off further. -/
theorem Sets.leaves_aluWord {op : Prevail.BinOp} (h : Sets R b.dst τ σ f (aluWord op (width b.is64) x y))
    (hres : ∀ e, f = some e → res = some (.goesOn (wrap e))) :
    Leaves R b τ σ wrap res (aluWord op (width b.is64) x y) := by
  refine h.leaves (cutWord_aluWord ?_ op x y) hres
  rcases width_eq b.is64 with hw | hw <;> omega

/-- The last step. -/
theorem exists_finish (h : ∃ x, cutWord (width b.is64) x = z ∧ Sets R b.dst τ σ (some rcp) x) :
    ∃ e, finish R isUnsigned b (.goesOn { d with rcp := rcp }) = some { d with rcp := e } ∧
      Sets R b.dst τ σ (some e) z := by
  obtain ⟨x, rfl, _, hr, hwf, hm⟩ := h
  obtain rfl := Option.some.inj hr
  unfold finish width
  split_ifs with h64
  · rw [cutWord_self]
    exact ⟨rcp, rfl, rcp, rfl, hwf, hm⟩
  · obtain ⟨e, he, hwf', hm'⟩ := @sets_lowHalf _ _ R isUnsigned _ _ _ b.dst x hwf hm
      (Function.update_self ..) (readsReg_setReg σ b.dst x).2
    rw [Function.update_idem, setReg_setReg] at hm'
    exact ⟨e, Option.bind_eq_some_iff.mpr ⟨e, he, rfl⟩, e, rfl, hwf', hm'⟩

/-- A case that is followed by the last step. -/
theorem Leaves.exists_finish {res : Option (Outcome (EbpfDomain V))}
    (h : Leaves R b τ σ (fun e => { d with rcp := e }) res z) :
    ∃ e, res.bind (finish R isUnsigned b) = some { d with rcp := e } ∧ Sets R b.dst τ σ (some e) z := by
  rcases h with ⟨e, rfl, hsets⟩ | ⟨e, x, rfl, hx, hsets⟩
  · exact ⟨e, rfl, hsets⟩
  · exact EbpfTransformer.exists_finish ⟨x, hx, hsets⟩

theorem Leaves.exists_finishReg {res : Option (Outcome (TypeToNumDomain V))} (h : Leaves R b τ σ id res z) :
    ∃ e, (do match ← res with
        | .returns rcp => finish R isUnsigned b (.returns { d with rcp := rcp })
        | .goesOn rcp => finish R isUnsigned b (.goesOn { d with rcp := rcp })) = some { d with rcp := e } ∧
      Sets R b.dst τ σ (some e) z := by
  rcases h with ⟨e, rfl, hsets⟩ | ⟨e, x, rfl, hx, hsets⟩
  · exact ⟨e, rfl, hsets⟩
  · exact EbpfTransformer.exists_finish ⟨x, hx, hsets⟩

/-- The word does not depend on what the register held before. -/
theorem Sets.of_setReg (h : Sets R dst τ (setReg R σ dst y) f x) : Sets R dst τ σ f x := by
  obtain ⟨e, he, hwf, hm⟩ := h
  rw [setReg_setReg] at hm
  exact ⟨e, he, hwf, hm⟩

end

/-! ### Immediate values -/

theorem signExtend_ofInt (hy : FitsS 32 y.toInt) : (BitVec.ofInt 32 y.toInt).signExtend 64 = y := by
  apply BitVec.eq_of_toInt_eq
  rw [BitVec.toInt_signExtend_of_le (by decide), BitVec.toInt_ofInt]
  have hext := Number.signExtend_of_fits (w := 32) (by decide) hy
  rwa [signExtend_eq_bmod (by decide)] at hext

/-- Nothing is added to what is left of a number. -/
theorem aluWord_zero {op : Prevail.BinOp} (hop : op = .add ∨ op = .sub) (hx : cutWord w x = x) :
    aluWord op w x 0 = x := by
  have hzero : (0 : BitVec 64).setWidth w = 0 := BitVec.setWidth_zero ..
  unfold aluWord BinOp.eval
  rw [hzero]
  rcases hop with rfl | rfl
  · exact (congrArg _ (BitVec.add_zero _)).trans hx
  · exact (congrArg _ (BitVec.sub_zero _)).trans hx

theorem aluWord_sub_eq (hw : w ≤ 64) : aluWord .sub w x y = aluWord .add w x (-y) := by
  have hneg : BitVec.setWidth w (-y) = -y.setWidth w := BitVec.setWidth_neg_of_le hw
  unfold aluWord BinOp.eval
  rw [hneg, BitVec.sub_eq_add_neg]

theorem fitsS_neg (hy : FitsS 32 y.toInt) (hne : y.toInt ≠ minInt 32) :
    (-y).toInt = -y.toInt ∧ FitsS 32 (-y).toInt := by
  unfold FitsS at hy
  rw [minInt, maxInt] at hy
  rw [minInt] at hne
  have hneg : (-y).toInt = -y.toInt := by
    rw [BitVec.toInt_neg, ← signExtend_eq_bmod (by decide)]
    refine Number.signExtend_of_fits (by decide) ⟨?_, ?_⟩
    · rw [minInt]
      omega
    · rw [maxInt]
      omega
  refine ⟨hneg, ?_, ?_⟩
  · rw [hneg, minInt]
    omega
  · rw [hneg, maxInt]
    omega

theorem leaves_addImm (hs : WordSigns R isUnsigned) (hwf : d.rcp.WF) (hm : d.rcp.Models R.toVariableRegistry τ σ)
    (hdst : d.rcp.types.Knows (R.regType b.dst) .num) (hx : ReadsReg R σ b.dst x) (hy : FitsS 32 y.toInt)
    (hcut : cutWord (width b.is64) x = x) :
    Leaves R b τ σ (fun e => { d with rcp := e }) (addImm R isUnsigned b.dst y.toInt (width b.is64) d)
      (aluWord .add (width b.is64) x y) := by
  unfold addImm
  split_ifs with hzero
  · obtain rfl : y = 0 := BitVec.eq_of_toInt_eq hzero
    rw [aluWord_zero (Or.inl rfl) hcut]
    refine Or.inl ⟨d.rcp, rfl, d.rcp, rfl, hwf, ?_⟩
    rw [setReg_self hx, ← hdst.eq_type hm.1, Function.update_eq_self]
    exact hm
  · obtain ⟨e, he, hsets⟩ := exists_add hs hwf hm hdst hx hy (width_eq b.is64)
    have hnarrow : narrowS 32 y.toInt = some y.toInt := if_pos hy
    rw [hnarrow]
    refine hsets.leaves_aluWord fun e' he' => ?_
    obtain rfl := Option.some.inj he'
    exact Option.bind_eq_some_iff.mpr ⟨_, rfl, Option.bind_eq_some_iff.mpr ⟨_, he, rfl⟩⟩

/-- An immediate value other than one that is moved. -/
theorem leaves_binImm {imm : UInt64} (hs : WordSigns R isUnsigned) (hwf : d.rcp.WF)
    (hm : d.rcp.Models R.toVariableRegistry τ σ) (hmove : isMove b.op = false)
    (hdst : d.rcp.types.Knows (R.regType b.dst) .num) (hx : ReadsReg R σ b.dst x) (hv : b.v = .inr imm)
    (hy : immNumber b.is64 imm = y.toInt) (hfits : FitsS 32 y.toInt)
    (hsub : b.op = .sub → y.toInt ≠ minInt 32) (hcut : cutWord (width b.is64) x = x)
    (hvalues : ∀ z ∈ d.rcp.values, ValuesExact R isUnsigned b z)
    (hshift : ∀ z ∈ (d.rcp.havocOffsets R b.dst).values, ShiftExact R b (BitVec.ofInt 32 y.toInt) z) :
    Leaves R b τ σ (fun e => { d with rcp := e })
      (binImm R isUnsigned b (immNumber b.is64 imm) (width b.is64) d) (aluWord b.op (width b.is64) x y) := by
  have htype := hdst.eq_type hm.1
  have hw := width_eq b.is64
  have hnarrow : narrowS 32 y.toInt = some y.toInt := if_pos hfits
  have hword : OperandWord R σ (.inr (immNumber b.is64 imm)) y := ⟨hy, hy ▸ hfits⟩
  have hgoesOn : ∀ {f : Option (TypeToNumDomain V)} (e : TypeToNumDomain V), f = some e →
      (do return .goesOn { d with rcp := ← f } : Option (Outcome (EbpfDomain V))) =
        some (.goesOn { d with rcp := e }) := by
    rintro f e rfl
    rfl
  obtain ⟨op, dst, v, is64, lddw⟩ := b
  obtain rfl : v = .inr imm := hv
  cases op
  case mov | movsx8 | movsx16 | movsx32 => cases hmove
  case mul =>
    exact (sets_signed hs hwf hm htype hx hword hw (rfl : (BinOp.arith .mul).instruction = some .mul)
      (by decide) fun _ _ _ _ => trivial).leaves_aluWord hgoesOn
  case sdiv =>
    exact (sets_signed hs hwf hm htype hx hword hw (rfl : (BinOp.signedArith .sdiv).instruction = some .sdiv)
      (by decide) hvalues).leaves_aluWord hgoesOn
  case smod =>
    exact (sets_signed hs hwf hm htype hx hword hw (rfl : (BinOp.signedArith .srem).instruction = some .smod)
      (by decide) fun _ _ _ _ => trivial).leaves_aluWord hgoesOn
  case udiv =>
    exact (sets_unsigned hs hwf hm htype hx hword hw (rfl : (BinOp.signedArith .udiv).instruction = some .udiv)
      (by decide) fun _ _ _ _ => trivial).leaves_aluWord hgoesOn
  case umod =>
    exact (sets_unsigned hs hwf hm htype hx hword hw (rfl : (BinOp.signedArith .urem).instruction = some .umod)
      (by decide) hvalues).leaves_aluWord hgoesOn
  case or =>
    exact (sets_unsigned hs hwf hm htype hx hword (Or.inr rfl)
      (rfl : (BinOp.bitwise .or).instruction = some .or) (by decide) fun _ _ _ _ => trivial).leaves
        (cutWord_bitwise .or rfl x y) hgoesOn
  case xor =>
    exact (sets_unsigned hs hwf hm htype hx hword (Or.inr rfl)
      (rfl : (BinOp.bitwise .xor).instruction = some .xor) (by decide) fun _ _ _ _ => trivial).leaves
        (cutWord_bitwise .xor rfl x y) hgoesOn
  case and =>
    rw [hy]
    exact (sets_andImm hwf hm htype hx hfits).leaves (cutWord_bitwise .and rfl x y) hgoesOn
  case lsh =>
    rw [hy]
    have hsets := sets_shl hwf hm hdst hx hw hshift
    rw [signExtend_ofInt hfits] at hsets
    refine hsets.leaves_aluWord fun e he => hgoesOn e ?_
    rw [hnarrow]
    exact he
  case rsh =>
    rw [hy]
    have hsets := sets_lshr hwf hm hdst hx hw hshift
    rw [signExtend_ofInt hfits] at hsets
    refine hsets.leaves_aluWord fun e he => hgoesOn e ?_
    rw [hnarrow]
    exact he
  case arsh =>
    rw [hy]
    have hsets : Sets R dst τ σ (ashr R d.rcp dst (.const y.toInt) (width is64)) _ :=
      sets_ashr hwf hm hdst hx hw fun σ' _ => eval_const σ' _
    refine hsets.leaves_aluWord fun e he => hgoesOn e ?_
    rw [hnarrow]
    exact he
  case add =>
    rw [hy]
    exact leaves_addImm hs hwf hm hdst hx hfits hcut
  case sub =>
    obtain ⟨hneg, hfitsNeg⟩ := fitsS_neg hfits (hsub rfl)
    rw [hy, aluWord_sub_eq (by rcases hw with hw | hw <;> omega)]
    have hadd := leaves_addImm (b := ⟨.sub, dst, .inr imm, is64, lddw⟩) hs hwf hm hdst hx hfitsNeg hcut
    rwa [hneg] at hadd

/-! ### Registers -/

theorem Sets.leaves_map {f : Option (TypeToNumDomain V)} (h : Sets R b.dst τ σ f x)
    (hz : cutWord (width b.is64) x = z) : Leaves R b τ σ id (f.map Outcome.goesOn) z :=
  h.leaves hz fun e he => by
    rw [he]
    rfl

theorem leaves_movsx {op : Prevail.BinOp} {source : ℕ} (hwf : rcp.WF)
    (hm : rcp.Models R.toVariableRegistry τ σ) (hsrc : rcp.types.Knows (R.regType src) .num)
    (hy : ReadsReg R σ src y) (hop : movsxBits op = some source)
    (hself : ∀ d ∈ rcp.values, b.is64 = false → b.dst = src →
      d.evalInterval (.var (R.reg .svalues b.dst)) ≤ Interval.signedInt source →
        ∀ n ∈ d.evalInterval (.var (R.reg .svalues b.dst)), 0 ≤ n) :
    Leaves R b τ σ id (movsx R b.dst src source (width b.is64) rcp) (aluWord op (width b.is64) x y) := by
  have hw := width_eq b.is64
  have hnonneg : width b.is64 = 32 → b.dst = src →
      rcp.values.evalInterval (.var (R.reg .svalues b.dst)) ≤ Interval.signedInt source → 0 ≤ y.toInt := by
    intro h32 hdst hle
    obtain ⟨-, σ', hagree, d, hd, hσ'⟩ := hm
    have h64 : b.is64 = false := by
      cases h : b.is64 with
      | false => rfl
      | true => rw [h] at h32; cases h32
    have hmem := SplitDbm.mem_evalInterval hσ' (.var (R.reg .svalues b.dst))
    rw [eval_var, hdst, (hy.agree hagree).1] at hmem
    rw [Option.mem_def.mp hd] at hle
    exact hself d hd h64 hdst hle _ (hdst ▸ hmem)
  rcases sets_movsx (x := x) hwf hm hsrc hy hw hop hnonneg with ⟨e, he, hsets⟩ | ⟨e, he, hsets⟩
  · exact Or.inl ⟨e, he, hsets⟩
  · exact Or.inr ⟨e, _, he, cutWord_aluWord (by omega) op x y, hsets⟩

theorem leaves_lsh (hwf : rcp.WF) (hm : rcp.Models R.toVariableRegistry τ σ) (hop : b.op = .lsh)
    (hdst : rcp.types.Knows (R.regType b.dst) .num) (hsrc : rcp.types.Knows (R.regType src) .num)
    (hx : ReadsReg R σ b.dst x) (hy : ReadsReg R σ src y)
    (hshift : ∀ e imm, cutOperand R isUnsigned b rcp = some e →
      shiftAmount R src (width b.is64) rcp = some (some imm) →
        ∀ z ∈ (e.havocOffsets R b.dst).values, ShiftExact R b imm z) :
    Leaves R b τ σ id ((shiftReg R isUnsigned b src (width b.is64) (shl R) (compute R b.dst
      (FiniteDomain.shlOverflowVar isUnsigned · · · (R.reg .uvalues src))) rcp).map Outcome.goesOn)
      (aluWord .lsh (width b.is64) x y) := by
  have hw := width_eq b.is64
  have hle : width b.is64 ≤ 64 := by omega
  have htype := hdst.eq_type hm.1
  by_cases hzero : shiftAmount R src (width b.is64) rcp = some none ∧ y = 0
  · -- a shift by zero whose amount is not known keeps the number
    obtain ⟨hnone, hy0⟩ := hzero
    refine (sets_shiftReg (z := x) hwf hm hdst hsrc hx hy (fun e _ hamount => ?_) fun _ hsingle =>
      sets_shlOverflowVar hwf hm htype hx hy hsingle fun _ => rfl).leaves_map ?_
    · rw [hnone] at hamount
      cases Option.some.inj hamount
    · have hcount : shiftCount 0 (width b.is64) = 0 := Nat.zero_mod _
      rw [hy0, aluWord_lsh hw, hcount, isaShl, BitVec.shiftLeft_zero]
      rfl
  · refine (sets_shiftReg hwf hm hdst hsrc hx hy (fun e he hamount hwf' hm' hknown => ?_)
      fun hnone hsingle => sets_shlOverflowVar hwf hm htype hx hy hsingle fun hy0 =>
        absurd ⟨hnone, hy0⟩ hzero).leaves_map (cutWord_aluWord hle .lsh x y)
    have hexact := hshift e _ he hamount
    unfold ShiftExact at hexact
    rw [hop] at hexact
    have hsets := sets_shl hwf' hm' hknown (readsReg_setReg σ b.dst _) hw hexact
    rwa [aluWord_lsh hw, shiftCount_maskedAmount hw, ← aluWord_lsh hw,
      aluWord_congr .lsh (setWidth_cutWord hle x) rfl] at hsets

theorem leaves_rsh (hwf : rcp.WF) (hm : rcp.Models R.toVariableRegistry τ σ) (hop : b.op = .rsh)
    (hdst : rcp.types.Knows (R.regType b.dst) .num) (hsrc : rcp.types.Knows (R.regType src) .num)
    (hx : ReadsReg R σ b.dst x) (hy : ReadsReg R σ src y)
    (hshift : ∀ e imm, cutOperand R isUnsigned b rcp = some e →
      shiftAmount R src (width b.is64) rcp = some (some imm) →
        ∀ z ∈ (e.havocOffsets R b.dst).values, ShiftExact R b imm z) :
    Leaves R b τ σ id ((shiftReg R isUnsigned b src (width b.is64) (lshr R)
      (fun rcp => some (havocRegisterExceptType R rcp b.dst)) rcp).map Outcome.goesOn)
      (aluWord .rsh (width b.is64) x y) := by
  have hw := width_eq b.is64
  have hle : width b.is64 ≤ 64 := by omega
  have htype := hdst.eq_type hm.1
  refine (sets_shiftReg hwf hm hdst hsrc hx hy (fun e he hamount hwf' hm' hknown => ?_) fun _ _ =>
    sets_havocRegisterExceptType hwf hm htype _).leaves_map (cutWord_aluWord hle .rsh x y)
  have hexact := hshift e _ he hamount
  unfold ShiftExact at hexact
  rw [hop] at hexact
  have hsets := sets_lshr hwf' hm' hknown (readsReg_setReg σ b.dst _) hw hexact
  rwa [aluWord_rsh hw, shiftCount_maskedAmount hw, ← aluWord_rsh hw,
    aluWord_congr .rsh (setWidth_cutWord hle x) rfl] at hsets

theorem leaves_binReg {stack : ArrayDomain} (hs : WordSigns R isUnsigned) (hwf : rcp.WF)
    (hm : rcp.Models R.toVariableRegistry τ σ) (hv : b.v = .inl src)
    (hdst : isMove b.op = false → rcp.types.Knows (R.regType b.dst) .num ∧ ReadsReg R σ b.dst x)
    (hsrc : rcp.types.Knows (R.regType src) .num) (hy : ReadsReg R σ src y)
    (hvalues : ∀ z ∈ rcp.values, ValuesExact R isUnsigned b z)
    (hshift : ∀ e imm, cutOperand R isUnsigned b rcp = some e →
      shiftAmount R src (width b.is64) rcp = some (some imm) →
        ∀ z ∈ (e.havocOffsets R b.dst).values, ShiftExact R b imm z) :
    Leaves R b τ σ id (binReg R isUnsigned b src (width b.is64) stack rcp)
      (aluWord b.op (width b.is64) x y) := by
  have hw := width_eq b.is64
  have hle : width b.is64 ≤ 64 := by omega
  have hword : OperandWord R σ (.inl src) y := hy
  obtain ⟨op, dst, v, is64, lddw⟩ := b
  obtain rfl : v = .inl src := hv
  cases op
  case mov => exact (sets_movReg hwf hm hsrc hy).leaves_map rfl
  case movsx8 => exact leaves_movsx hwf hm hsrc hy rfl fun d hd => hvalues d hd 8 rfl
  case movsx16 => exact leaves_movsx hwf hm hsrc hy rfl fun d hd => hvalues d hd 16 rfl
  case movsx32 => exact leaves_movsx hwf hm hsrc hy rfl fun d hd => hvalues d hd 32 rfl
  all_goals obtain ⟨hknown, hx⟩ := hdst rfl
  all_goals have htype := hknown.eq_type hm.1
  case add => exact (sets_addReg hs hwf hm hknown hsrc hx hy hw).leaves_map (cutWord_aluWord hle ..)
  case sub => exact (sets_subReg hs hwf hm hknown hsrc hx hy hw).leaves_map (cutWord_aluWord hle ..)
  case mul =>
    exact (sets_signed hs hwf hm htype hx hword hw (rfl : (BinOp.arith .mul).instruction = some .mul)
      (by decide) fun _ _ _ _ => trivial).leaves_map (cutWord_aluWord hle ..)
  case sdiv =>
    exact (sets_signed hs hwf hm htype hx hword hw (rfl : (BinOp.signedArith .sdiv).instruction = some .sdiv)
      (by decide) hvalues).leaves_map (cutWord_aluWord hle ..)
  case smod =>
    exact (sets_signed hs hwf hm htype hx hword hw (rfl : (BinOp.signedArith .srem).instruction = some .smod)
      (by decide) fun _ _ _ _ => trivial).leaves_map (cutWord_aluWord hle ..)
  case udiv =>
    exact (sets_unsigned hs hwf hm htype hx hword hw (rfl : (BinOp.signedArith .udiv).instruction = some .udiv)
      (by decide) fun _ _ _ _ => trivial).leaves_map (cutWord_aluWord hle ..)
  case umod =>
    exact (sets_unsigned hs hwf hm htype hx hword hw (rfl : (BinOp.signedArith .urem).instruction = some .umod)
      (by decide) hvalues).leaves_map (cutWord_aluWord hle ..)
  case or =>
    exact (sets_unsigned hs hwf hm htype hx hword hw (rfl : (BinOp.bitwise .or).instruction = some .or)
      (by decide) fun _ _ _ _ => trivial).leaves_map (cutWord_aluWord hle ..)
  case and =>
    exact (sets_unsigned hs hwf hm htype hx hword hw (rfl : (BinOp.bitwise .and).instruction = some .and)
      (by decide) hvalues).leaves_map (cutWord_aluWord hle ..)
  case xor =>
    exact (sets_unsigned hs hwf hm htype hx hword hw (rfl : (BinOp.bitwise .xor).instruction = some .xor)
      (by decide) fun _ _ _ _ => trivial).leaves_map (cutWord_aluWord hle ..)
  case lsh => exact leaves_lsh hwf hm rfl hknown hsrc hx hy hshift
  case rsh => exact leaves_rsh hwf hm rfl hknown hsrc hx hy hshift
  case arsh =>
    have hsets : Sets R dst τ σ (ashr R rcp dst (.var (R.reg .svalues src)) (width is64))
        (aluWord .arsh (width is64) x y) :=
      sets_ashr hwf hm hknown hx hw fun σ' hagree => (eval_var σ' _).trans (hy.agree hagree).1
    unfold binReg
    simp only
    rw [if_pos (hsrc.isInGroup_number hm.1)]
    exact hsets.leaves_map (cutWord_aluWord hle ..)

/-! ### Whole instructions -/

/-- The word that an immediate value stands for. -/
theorem exists_immWord (is64 : Bool) (imm : UInt64) :
    ∃ y : BitVec 64, immNumber is64 imm = y.toInt ∧
      y.setWidth (width is64) = imm.toBitVec.setWidth (width is64) := by
  cases is64 with
  | false =>
    have hint : ((imm.toBitVec.setWidth 32).signExtend 64).toInt = (imm.toBitVec.setWidth 32).toInt :=
      BitVec.toInt_signExtend_of_le (by decide)
    refine ⟨(imm.toBitVec.setWidth 32).signExtend 64, hint.symm, ?_⟩
    have hrep := @represents_toInt 32 ((imm.toBitVec.setWidth 32).signExtend 64) (by decide)
    rw [hint] at hrep
    exact hrep.symm.trans (BitVec.ofInt_toInt ..)
  | true => exact ⟨imm.toBitVec, rfl, rfl⟩

theorem Bin.eval_eq {M : Type} (s : Machine.State M) :
    b.eval s = aluWord b.op (width b.is64) (s.regs b.dst) (s.value b.v) :=
  aluWord_eval b.op b.is64 b.dst _ _ s b.v rfl rfl b.lddw

theorem cutWord_cutWord (hw : w ≤ 64) (x : BitVec 64) : cutWord w (cutWord w x) = cutWord w x :=
  congrArg (BitVec.setWidth 64) (setWidth_cutWord hw x)

/-- The two numbers of an immediate value that is moved agree after the last step. -/
theorem exists_finishMov {e : TypeToNumDomain V} (hwf : e.WF) (hm : e.Models R.toVariableRegistry
      (Function.update τ (R.regType b.dst) .num) (Function.update (Function.update σ (R.reg .svalues b.dst) y.toInt)
        (R.reg .uvalues b.dst) (cutWord (width b.is64) y).toNat)) :
    ∃ e', finish R isUnsigned b (.goesOn { d with rcp := e }) = some { d with rcp := e' } ∧
      Sets R b.dst τ σ (some e') (cutWord (width b.is64) y) := by
  unfold finish
  split_ifs with h64
  · have hw : width b.is64 = 64 := if_pos h64
    rw [hw, cutWord_self] at hm ⊢
    exact ⟨e, rfl, e, rfl, hwf, hm⟩
  · have hw : width b.is64 = 32 := if_neg h64
    rw [hw] at hm ⊢
    obtain ⟨e', he', hwf', hm'⟩ := @sets_lowHalf _ _ R isUnsigned _ _ _ b.dst (cutWord 32 y) hwf hm
      (Function.update_self ..) (Function.update_self ..)
    have hset : setReg R (Function.update (Function.update σ (R.reg .svalues b.dst) y.toInt)
        (R.reg .uvalues b.dst) (cutWord 32 y).toNat) b.dst (cutWord 32 y) = setReg R σ b.dst (cutWord 32 y) := by
      funext v
      unfold setReg setWord
      simp only [Function.update_apply]
      split_ifs <;> rfl
    rw [Function.update_idem, cutWord_cutWord (by decide), hset] at hm'
    exact ⟨e', Option.bind_eq_some_iff.mpr ⟨e', he', rfl⟩, e', rfl, hwf', hm'⟩

/-- An instruction with an immediate value. -/
theorem exists_imm {imm : UInt64} (hs : WordSigns R isUnsigned) (hwf : d.rcp.WF)
    (hm : d.rcp.Models R.toVariableRegistry τ σ) (hv : b.v = .inr imm)
    (hx : τ (R.regType b.dst) = .num → ReadsReg R σ b.dst x) (hnum : NumberOperands R b d.rcp)
    (hexact : BinExact R isUnsigned b d.rcp) :
    ∃ e, (do finish R isUnsigned b (← binImm R isUnsigned b (immNumber b.is64 imm) (width b.is64)
        { d with rcp := ← cutOperand R isUnsigned b d.rcp })) = some { d with rcp := e } ∧
      Sets R b.dst τ σ (some e) (aluWord b.op (width b.is64) x imm.toBitVec) := by
  obtain ⟨y, hy, hyw⟩ := exists_immWord b.is64 imm
  have hle : width b.is64 ≤ 64 := by rcases width_eq b.is64 with hw | hw <;> omega
  rcases hnum.imm imm hv with hop | ⟨hmove, hfits, hsub⟩
  · obtain ⟨e, σ₁, he, hwf₁, hm₁, hset⟩ := @exists_cutOperand _ _ R isUnsigned _ _ _ x b hwf hm hx
    obtain ⟨e₂, he₂, hwf₂, hm₂⟩ := @exists_movImm _ _ R _ _ _ b.dst y _ hwf₁ hm₁ (width_eq b.is64)
    obtain ⟨e₃, he₃, hsets⟩ := @exists_finishMov _ _ R isUnsigned τ σ₁ _ b d _ hwf₂ hm₂
    have hbin : binImm R isUnsigned b (immNumber b.is64 imm) (width b.is64) { d with rcp := e } =
        some (.goesOn { d with rcp := e₂ }) := by
      unfold binImm
      simp only [hop, hy, he₂]
      rfl
    refine ⟨e₃, Option.bind_eq_some_iff.mpr ⟨e, he, Option.bind_eq_some_iff.mpr ⟨_, hbin, he₃⟩⟩, ?_⟩
    have hword : aluWord b.op (width b.is64) x imm.toBitVec = cutWord (width b.is64) y := by
      unfold aluWord cutWord
      rw [hop, hyw]
      rfl
    obtain ⟨e', he', hwf', hm'⟩ := hsets
    rw [hset] at hm'
    exact ⟨e', he', hwf', hword ▸ hm'⟩
  · have hdst := hnum.dst hmove
    obtain ⟨e, he, hwf₁, htypes, hm₁⟩ := @exists_cutNumber _ _ R isUnsigned _ _ _ x b hwf hm hdst
      (hx (hdst.eq_type hm.1))
    unfold BinExact at hexact
    rw [hv] at hexact
    obtain ⟨hvalues, hshift⟩ := hexact e he
    rw [hy] at hfits hsub hshift
    have hleaves := leaves_binImm (d := { d with rcp := e }) hs hwf₁ hm₁ hmove (htypes ▸ hdst)
      (readsReg_setReg σ b.dst _) hv hy hfits hsub (cutWord_cutWord hle x) hvalues hshift
    rw [aluWord_congr b.op (setWidth_cutWord hle x) hyw] at hleaves
    obtain ⟨e', he', hsets⟩ := hleaves.exists_finish
    exact ⟨e', Option.bind_eq_some_iff.mpr ⟨e, he, he'⟩, hsets.of_setReg⟩

/-- On numbers, `Bin` returns a state that admits the word which the machine computes. -/
theorem exists_bin {M : Type} {s : Machine.State M} (hs : WordSigns R isUnsigned) (hwf : d.rcp.WF)
    (hm : d.rcp.Models R.toVariableRegistry τ σ) (hregs : HoldsNumbers R τ σ s.regs)
    (hnum : NumberOperands R b d.rcp) (hexact : BinExact R isUnsigned b d.rcp) :
    ∃ e, bin R isUnsigned b d = some { d with rcp := e } ∧ Sets R b.dst τ σ (some e) (b.eval s) := by
  have hbot : ¬ d.isBottom = true := by
    rw [show d.isBottom = false from isBottom_of_models hm]
    exact Bool.false_ne_true
  have hinit : ¬ (!d.rcp.types.isInitialized (R.regType b.dst) && !isMove b.op) = true := by
    cases hmove : isMove b.op with
    | true => simp
    | false => simp [(hnum.dst hmove).isInitialized hm.1 (by decide)]
  unfold bin
  rw [if_neg hbot, if_neg hinit, Bin.eval_eq]
  cases hv : b.v with
  | inr imm => exact exists_imm hs hwf hm hv (hregs b.dst) hnum hexact
  | inl src =>
    have hsrc := hnum.src src hv
    have hy := hregs src (hsrc.eq_type hm.1)
    unfold BinExact at hexact
    rw [hv] at hexact
    have hdst : isMove b.op = false →
        d.rcp.types.Knows (R.regType b.dst) .num ∧ ReadsReg R σ b.dst (s.regs b.dst) :=
      fun hmove => ⟨hnum.dst hmove, hregs b.dst ((hnum.dst hmove).eq_type hm.1)⟩
    simp only
    rw [if_pos (hsrc.isInitialized hm.1 (by decide))]
    exact (leaves_binReg hs hwf hm hv hdst hsrc hy hexact.1 hexact.2).exists_finishReg

end EbpfTransformer

end Prevail
