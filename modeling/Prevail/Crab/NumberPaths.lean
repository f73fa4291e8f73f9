import Prevail.Crab.BinSound
import Prevail.Crab.LocalCalls
import Prevail.Crab.TransformAssume

/-!
# Paths of arithmetic

A path runs instructions and conditions on numbers, one after another. Each step of the machine is covered by
the transfer function (`exists_transfer`), so that a run is covered by the analysis of its path
(`stands_of_run`): the intervals of a register hold its word (`admits_numbers`).
-/

namespace Prevail

open AddBottom TypeToNumDomain LinearExpression FiniteDomain ProgramVariables Number StateT

namespace EbpfTransformer

variable {V : Type} [LinearOrder V] {R : ProgramVariables V} {isUnsigned : V → Bool}
  {rcp : TypeToNumDomain V} {d : EbpfDomain V} {τ : V → TypeEncoding} {σ : V → ℤ} {dst src : Reg}
  {x y : BitVec 64} {v : V} {n : ℤ}

/-! ## `Un` -/

/-- The value of a variable is changed, or forgotten when it is not known. -/
theorem models_swapEndianness {f : BitVec 64 → ℤ} (hwf : rcp.WF) (hm : rcp.Models R.toVariableRegistry τ σ)
    (hknown : rcp.types.Knows (R.regType dst) .num) (hread : ∀ σ', Agree R.toVariableRegistry τ σ σ' → σ' v = n)
    (hfits : FitsCast 64 n) (hn : BitVec.ofInt 64 n = x) :
    (swapEndianness R dst v f rcp).WF ∧ (swapEndianness R dst v f rcp).types = rcp.types ∧
      (swapEndianness R dst v f rcp).Models R.toVariableRegistry τ (Function.update σ v (f x)) := by
  obtain ⟨hτ, σ', hagree, hσ'⟩ := hm
  have hupdate : Agree R.toVariableRegistry τ (Function.update σ v (f x)) (Function.update σ' v (f x)) := by
    intro u hu
    simp only [Function.update_apply]
    split_ifs
    · rfl
    · exact hagree u hu
  have hforgotten : ({ rcp with values := rcp.values.havoc v } : TypeToNumDomain V).Models R.toVariableRegistry τ
      (Function.update σ v (f x)) := ⟨hτ, _, hupdate, models_havoc hwf.values hσ' (f x)⟩
  have hunknown := @models_havocOffsets _ _ R { rcp with values := rcp.values.havoc v } _ _
    ⟨hwf.types, hwf.values.havoc v⟩ hforgotten dst
  have hmem := mem_evalInterval hσ' (.var v)
  rw [eval_var, hread σ' hagree] at hmem
  unfold swapEndianness
  simp only
  rw [if_pos (hknown.isInGroup_number hτ)]
  split
  · next m hsingle =>
    obtain rfl := Interval.eq_of_singleton hsingle hmem
    rw [if_pos hfits, hn]
    exact ⟨⟨hwf.types, hwf.values.set v _⟩, rfl, hτ, _, hupdate,
      models_set hwf.values hσ' (Interval.mem_const.mpr rfl)⟩
  · exact ⟨hunknown.1, rfl, hunknown.2⟩

theorem sets_swapBoth {f : BitVec 64 → BitVec 64} (hwf : rcp.WF) (hm : rcp.Models R.toVariableRegistry τ σ)
    (hknown : rcp.types.Knows (R.regType dst) .num) (hx : ReadsReg R σ dst x) :
    Sets R dst τ σ (some (swapBoth R dst f rcp)) (f x) := by
  obtain ⟨hwf₁, htypes, hm₁⟩ := @models_swapEndianness _ _ R _ _ _ dst x _ _ (fun x => (f x).toInt) hwf hm hknown
    (fun σ' hagree => (hx.agree hagree).1) (Or.inl (fitsS_toInt x)) (BitVec.ofInt_toInt ..)
  have hread : ∀ σ', Agree R.toVariableRegistry τ (Function.update σ (R.reg .svalues dst) (f x).toInt) σ' →
      σ' (R.reg .uvalues dst) = x.toNat := fun σ' hagree =>
    (hagree _ (not_meaningless_number (Or.inr rfl))).symm.trans
      ((Function.update_of_ne (svalue_ne_uvalue R dst).symm _ _).trans hx.2)
  have hword : BitVec.ofInt 64 (x.toNat : ℤ) = x := by
    rw [BitVec.ofInt_natCast, BitVec.ofNat_toNat, BitVec.setWidth_eq]
  obtain ⟨hwf₂, -, hm₂⟩ := @models_swapEndianness _ _ R _ _ _ dst x _ _ (fun x => ((f x).toNat : ℤ)) hwf₁ hm₁
    (htypes ▸ hknown) hread (Or.inr (fitsU_toNat x)) hword
  refine ⟨_, rfl, hwf₂, ?_⟩
  rw [← hknown.eq_type hm.1, Function.update_eq_self]
  exact hm₂

theorem sets_swapTo {swaps : Bool} {bytes : ℕ} (hwf : rcp.WF) (hm : rcp.Models R.toVariableRegistry τ σ)
    (hknown : rcp.types.Knows (R.regType dst) .num) (hx : ReadsReg R σ dst x) :
    Sets R dst τ σ (some (swapTo R dst swaps bytes rcp))
      (if swaps then reverseBytes bytes x else truncate bytes x) := by
  unfold swapTo
  split_ifs with hswaps hbytes
  · exact sets_swapBoth hwf hm hknown hx
  · have hword : truncate bytes x = x := by
      rw [hbytes]
      exact cutWord_self x
    refine ⟨rcp, rfl, hwf, ?_⟩
    rw [hword, setReg_self hx, ← hknown.eq_type hm.1, Function.update_eq_self]
    exact hm
  · exact sets_swapBoth hwf hm hknown hx

theorem toOrder_eq {M : Type} (E : Machine.Env M) (big : Bool) (n : ℕ) (x : BitVec 64) :
    toOrder E big n x = if (if big then !E.bigEndian else E.bigEndian) then reverseBytes n x else truncate n x := by
  unfold toOrder
  cases big <;> cases E.bigEndian <;> rfl

theorem aluWord_mul_neg_one {w : ℕ} (hw : w ≤ 64) :
    aluWord .mul w x (-1) = (-(x.setWidth w)).setWidth 64 := by
  have hone : BitVec.setWidth w (-1 : BitVec 64) = -1#w :=
    (BitVec.setWidth_neg_of_le hw).trans (congrArg _ (BitVec.setWidth_ofNat_of_le hw 1))
  unfold aluWord BinOp.eval
  rw [hone, BitVec.mul_neg, BitVec.mul_one]

/-- `Un` of a number returns a state that admits the word which the machine computes. -/
theorem exists_un {M : Type} {E : Machine.Env M} {opts : VerifierOptions} {u : Un}
    (hs : WordSigns R isUnsigned) (hbig : E.bigEndian = opts.bigEndian) (hwf : d.rcp.WF)
    (hm : d.rcp.Models R.toVariableRegistry τ σ) (hknown : d.rcp.types.Knows (R.regType u.dst) .num)
    (hx : ReadsReg R σ u.dst x) :
    ∃ e, un R isUnsigned opts u d = some { d with rcp := e } ∧ Sets R u.dst τ σ (some e) (u.eval E x) := by
  have hbot : ¬ d.isBottom = true := by
    rw [show d.isBottom = false from isBottom_of_models hm]
    exact Bool.false_ne_true
  have hto : ∀ big n, Sets R u.dst τ σ
      (some (swapTo R u.dst (if big then !opts.bigEndian else opts.bigEndian) n d.rcp)) (toOrder E big n x) := by
    intro big n
    rw [toOrder_eq, hbig]
    exact sets_swapTo hwf hm hknown hx
  unfold un
  rw [if_neg hbot]
  obtain ⟨op, dst, is64⟩ := u
  cases op
  case be16 => exact ⟨_, rfl, hto true 2⟩
  case be32 => exact ⟨_, rfl, hto true 4⟩
  case be64 => exact ⟨_, rfl, hto true 8⟩
  case le16 => exact ⟨_, rfl, hto false 2⟩
  case le32 => exact ⟨_, rfl, hto false 4⟩
  case le64 => exact ⟨_, rfl, hto false 8⟩
  case swap16 => exact ⟨_, rfl, sets_swapBoth hwf hm hknown hx⟩
  case swap32 => exact ⟨_, rfl, sets_swapBoth hwf hm hknown hx⟩
  case swap64 => exact ⟨_, rfl, sets_swapBoth hwf hm hknown hx⟩
  case neg =>
    have hword : OperandWord R σ (.inr (-1)) (-1 : BitVec 64) := ⟨by decide, by decide⟩
    obtain ⟨e, he, hwf', hm'⟩ := sets_signed hs hwf hm (hknown.eq_type hm.1) hx hword (width_eq is64)
      (rfl : (BinOp.arith .mul).instruction = some .mul) (by decide) fun _ _ _ _ => trivial
    have hle : width is64 ≤ 64 := by rcases width_eq is64 with hw | hw <;> omega
    refine ⟨e, Option.bind_eq_some_iff.mpr ⟨e, he, rfl⟩, e, rfl, hwf', ?_⟩
    have heval : Un.eval E ⟨.neg, dst, is64⟩ x = aluWord .mul (width is64) x (-1) := by
      rw [aluWord_mul_neg_one hle]
      cases is64
      · rfl
      · show -x = (-(x.setWidth 64)).setWidth 64
        rw [BitVec.setWidth_eq, BitVec.setWidth_eq]
    rw [heval]
    exact hm'

/-! ## `Assume` -/

theorem eval_eq_true_iff {op : ConditionOp} {w : ℕ} {a b : BitVec w} : op.eval a b = true ↔ op.Holds a b := by
  cases op <;> simp [ConditionOp.eval, ConditionOp.Holds, BitVec.lt_def, BitVec.le_def,
    BitVec.slt_iff_toInt_lt, BitVec.sle_iff_toInt_le]

theorem answers_assumeCstImm {z : SplitDbm V} {ls lu : V} {op : ConditionOp} {a b : BitVec 64}
    (hm : z.Models σ) (hr : Reads σ ls lu (.const b.toInt) (.const (b.toNat : ℤ)) a b) (h : op.Holds a b) :
    Answers σ (assumeCstImm z op true ls lu b) := by
  unfold assumeCstImm
  split_ifs with hs hbit
  · exact answers_assumeSignedCstInterval hr hm hs h
  · exact answers_assumeBitCstInterval hbit (hr.mem_leftU hm) (Or.inl (by simp)) h
  · exact answers_assumeUnsignedCstInterval hr hm (by simpa using hs) (by simpa using hbit) h

theorem wf_foldl_addConstraint {x : AddBottom V} (hx : x.WF) (csts : List (LinearConstraint V)) :
    (csts.foldl AddBottom.addConstraint x).WF :=
  List.foldlRecOn (motive := fun x : AddBottom V => x.WF) csts _ hx fun _ hx c _ => hx.addConstraint c

/-- A comparison of numbers keeps the states in which it holds. -/
theorem exists_assume {M : Type} {s : Machine.State M} {cond : Condition} (h64 : cond.is64 = true)
    (hwf : d.rcp.WF) (hm : d.rcp.Models R.toVariableRegistry τ σ) (hregs : HoldsNumbers R τ σ s.regs)
    (hleft : d.rcp.types.Knows (R.regType cond.left) .num)
    (hright : ∀ src, cond.right = .inl src → d.rcp.types.Knows (R.regType src) .num)
    (hcond : cond.eval s = true) :
    ∃ e, EbpfTransformer.assume R cond d = some { d with rcp := e } ∧ e.WF ∧ e.Models R.toVariableRegistry τ σ := by
  have hbot : ¬ d.isBottom = true := by
    rw [show d.isBottom = false from isBottom_of_models hm]
    exact Bool.false_ne_true
  have hx := hregs _ (hleft.eq_type hm.1)
  have hholds : cond.op.Holds (s.regs cond.left) (s.value cond.right) := by
    unfold Condition.eval at hcond
    simp only at hcond
    rw [if_pos h64] at hcond
    exact eval_eq_true_iff.mp hcond
  unfold EbpfTransformer.assume
  rw [if_neg hbot]
  cases hr : cond.right with
  | inl src =>
    have hknown := hright src hr
    have hy := hregs _ (hknown.eq_type hm.1)
    rw [hr] at hholds
    have hcompares : Compares R σ cond.op cond.left src := by
      refine ⟨_, _, ⟨hx.1, hx.2, ?_, ?_⟩, hholds⟩
      · exact (eval_var σ _).trans hy.1
      · exact (eval_var σ _).trans hy.2
    obtain ⟨res, hres, hwf', hm'⟩ := @exists_joinOverNumber _ _ R _ τ τ σ σ cond.left
      (assumeAs R cond src) hwf hm hleft fun e hwf' hm' => by
        obtain ⟨tmp, htmp⟩ := Option.isSome_iff_exists.mp
          (@assumeAs_isSome _ _ R cond src e .num h64 (isBottom_of_models hm'))
        obtain ⟨csts, heq, -⟩ := exists_of_assumeAs htmp
        refine ⟨tmp, htmp, ?_, models_assumeAs hwf' hm' (passes_of_compares h64 (Or.inl ?_) hcompares) ?_⟩
        · rw [heq]
          exact ⟨hwf'.types, wf_foldl_addConstraint hwf'.values csts⟩
        · exact ⟨hleft.eq_type hm.1, hknown.eq_type hm.1⟩
        · rw [hleft.eq_type hm.1]
          exact htmp
    have hsame : d.rcp.types.sameType (R.regType cond.left) (R.regType src) = true :=
      hleft.sameType hknown hm.1
    refine ⟨res.1, Option.bind_eq_some_iff.mpr ⟨(), ?_, Option.bind_eq_some_iff.mpr ⟨res, hres, rfl⟩⟩,
      hwf', hm'⟩
    rw [hsame]
    rfl
  | inr imm =>
    rw [hr] at hholds
    obtain ⟨hτ, σ', hagree, z, hz, hσ'⟩ := hm
    have hx' := hx.agree hagree
    have hreads : Reads σ' (R.reg .svalues cond.left) (R.reg .uvalues cond.left) (.const imm.toBitVec.toInt)
        (.const (imm.toBitVec.toNat : ℤ)) (s.regs cond.left) imm.toBitVec :=
      ⟨hx'.1, hx'.2, eval_const σ' _, eval_const σ' _⟩
    obtain ⟨csts, hcsts, hsat⟩ := answers_assumeCstImm hσ' hreads hholds
    have hunit := addable_assumeCstImm csts hcsts
    have hadd := List.foldlRecOn (motive := fun x : AddBottom V => x.WF ∧ x.Models σ') csts
      AddBottom.addConstraint ⟨hwf.values, z, hz, hσ'⟩ fun x hx c hc =>
        ⟨hx.1.addConstraint c, models_addConstraint hx.1 hx.2 (hunit c hc) (hsat c hc)⟩
    refine ⟨_, Option.bind_eq_some_iff.mpr ⟨z, hz, Option.bind_eq_some_iff.mpr ⟨csts, ?_, rfl⟩⟩,
      ⟨hwf.types, hadd.1⟩, hτ, σ', hagree, hadd.2⟩
    rw [h64]
    exact hcsts

end EbpfTransformer

/-! ## Paths -/

open EbpfTransformer

/-- A step of a path: arithmetic, or a branch that is taken. -/
inductive PathStep where
  | bin (b : Bin)
  | un (u : Un)
  | assume (cond : Condition)

namespace PathStep

section

variable {V M : Type} [LinearOrder V] (R : ProgramVariables V) (isUnsigned : V → Bool) (opts : VerifierOptions)

/-- The transfer function of the step. -/
def transfer : PathStep → EbpfDomain V → Option (EbpfDomain V)
  | bin b, d => EbpfTransformer.bin R isUnsigned b d
  | un u, d => EbpfTransformer.un R isUnsigned opts u d
  | assume cond, d => EbpfTransformer.assume R cond d

/-- The machine sets a register to a number. -/
def setNumber (dst : Reg) (x : BitVec 64) (c : Snapshot V × Machine.State M) : Snapshot V × Machine.State M :=
  (⟨Function.update c.1.types (R.regType dst) .num, setReg R c.1.values dst x⟩, c.2.set dst x)

/-- What the machine does. A branch is only taken when its condition holds. -/
def run (E : Machine.Env M) : PathStep → Snapshot V × Machine.State M → Option (Snapshot V × Machine.State M)
  | bin b, c => some (setNumber R b.dst (b.eval c.2) c)
  | un u, c => some (setNumber R u.dst (u.eval E (c.2.regs u.dst)) c)
  | assume cond, c => if cond.eval c.2 then some c else none

/-- The operands are known to be numbers, of which the step loses no result. -/
def Numeric (d : EbpfDomain V) : PathStep → Prop
  | bin b => NumberOperands R b d.rcp ∧ BinExact R isUnsigned b d.rcp
  | un u => d.rcp.types.Knows (R.regType u.dst) .num
  | assume cond => cond.is64 = true ∧ d.rcp.types.Knows (R.regType cond.left) .num ∧
      ∀ src, cond.right = .inl src → d.rcp.types.Knows (R.regType src) .num

/-- Each step of the path is numeric in the state that the analysis reaches before it. -/
def NumericPath : List PathStep → EbpfDomain V → Prop
  | [], _ => True
  | i :: l, d => i.Numeric R isUnsigned d ∧ ∀ d', i.transfer R isUnsigned opts d = some d' → NumericPath l d'

/-- What the analysis does along a path. -/
def transferPath (l : List PathStep) (d : EbpfDomain V) : Option (EbpfDomain V) :=
  l.foldlM (fun d i => i.transfer R isUnsigned opts d) d

/-- What the machine does along a path. -/
def runPath (E : Machine.Env M) (l : List PathStep) (c : Snapshot V × Machine.State M) :
    Option (Snapshot V × Machine.State M) := l.foldlM (fun c i => i.run R E c) c

/-- The state admits the machine. -/
structure Stands (d : EbpfDomain V) (c : Snapshot V × Machine.State M) : Prop where
  wf : d.rcp.WF
  models : d.rcp.Models R.toVariableRegistry c.1.types c.1.values
  numbers : HoldsNumbers R c.1.types c.1.values c.2.regs

end

variable {V M : Type} [LinearOrder V] {R : ProgramVariables V} {isUnsigned : V → Bool} {opts : VerifierOptions}
  {E : Machine.Env M} {i : PathStep} {l : List PathStep} {d d' : EbpfDomain V}
  {c c' : Snapshot V × Machine.State M} {dst r : Reg} {x : BitVec 64}

theorem holdsNumbers_setNumber (h : HoldsNumbers R c.1.types c.1.values c.2.regs) :
    HoldsNumbers R (setNumber R dst x c).1.types (setNumber R dst x c).1.values (setNumber R dst x c).2.regs := by
  intro r hr
  show ReadsReg R (setReg R c.1.values dst x) r (Function.update c.2.regs dst x r)
  by_cases heq : r = dst
  · subst heq
    rw [Function.update_self]
    exact readsReg_setReg ..
  · rw [Function.update_of_ne heq]
    have hne : R.regType r ≠ R.regType dst := fun h => heq (regType_inj.mp h)
    exact (h r ((Function.update_of_ne hne _ _).symm.trans hr)).setReg_of_ne heq x

theorem stands_of_sets {e : TypeToNumDomain V} (hc : HoldsNumbers R c.1.types c.1.values c.2.regs)
    (h : Sets R dst c.1.types c.1.values (some e) x) : Stands R { d with rcp := e } (setNumber R dst x c) := by
  obtain ⟨_, he, hwf, hm⟩ := h
  obtain rfl := Option.some.inj he
  exact ⟨hwf, hm, holdsNumbers_setNumber hc⟩

/-- The analysis of a numeric step raises no error and admits what the machine computes. -/
theorem exists_transfer (hs : WordSigns R isUnsigned) (hbig : E.bigEndian = opts.bigEndian) (hc : Stands R d c)
    (hi : i.Numeric R isUnsigned d) (hrun : i.run R E c = some c') :
    ∃ d', i.transfer R isUnsigned opts d = some d' ∧ d'.stack = d.stack ∧ Stands R d' c' := by
  cases i with
  | bin b =>
    obtain rfl := Option.some.inj hrun
    obtain ⟨e, he, hsets⟩ := exists_bin hs hc.wf hc.models hc.numbers hi.1 hi.2
    exact ⟨_, he, rfl, stands_of_sets hc.numbers hsets⟩
  | un u =>
    obtain rfl := Option.some.inj hrun
    obtain ⟨e, he, hsets⟩ := exists_un hs hbig hc.wf hc.models hi (hc.numbers _ (TypeDomain.Knows.eq_type hi hc.models.1))
    exact ⟨_, he, rfl, stands_of_sets hc.numbers hsets⟩
  | assume cond =>
    simp only [run, Option.ite_none_right_eq_some] at hrun
    obtain ⟨hcond, hrun⟩ := hrun
    obtain rfl := Option.some.inj hrun
    obtain ⟨e, he, hwf, hm⟩ := exists_assume hi.1 hc.wf hc.models hc.numbers hi.2.1 hi.2.2 hcond
    exact ⟨_, he, rfl, hwf, hm, hc.numbers⟩

/-- The intervals of a register that is a number contain it. -/
theorem Stands.mem_evalInterval (h : Stands R d c) (hr : c.1.types (R.regType r) = .num) :
    (c.2.regs r).toInt ∈ d.rcp.values.evalInterval (.var (R.reg .svalues r)) ∧
      ((c.2.regs r).toNat : ℤ) ∈ d.rcp.values.evalInterval (.var (R.reg .uvalues r)) := by
  obtain ⟨-, σ', hagree, hσ'⟩ := h.models
  have hread := (h.numbers r hr).agree hagree
  have hsigned := AddBottom.mem_evalInterval hσ' (.var (R.reg .svalues r))
  have hunsigned := AddBottom.mem_evalInterval hσ' (.var (R.reg .uvalues r))
  rw [eval_var, hread.1] at hsigned
  rw [eval_var, hread.2] at hunsigned
  exact ⟨hsigned, hunsigned⟩

theorem transferPath_cons (i : PathStep) (l : List PathStep) (d : EbpfDomain V) :
    transferPath R isUnsigned opts (i :: l) d =
      (i.transfer R isUnsigned opts d).bind (transferPath R isUnsigned opts l) := List.foldlM_cons ..

theorem runPath_cons (i : PathStep) (l : List PathStep) (c : Snapshot V × Machine.State M) :
    runPath R E (i :: l) c = (i.run R E c).bind (runPath R E l) := List.foldlM_cons ..

theorem stands_of_run (hs : WordSigns R isUnsigned) (hbig : E.bigEndian = opts.bigEndian) (hc : Stands R d c)
    (hl : NumericPath R isUnsigned opts l d) (hrun : runPath R E l c = some c') :
    ∃ d', transferPath R isUnsigned opts l d = some d' ∧ d'.stack = d.stack ∧
      Stands R d' c' := by
  induction l generalizing d c with
  | nil =>
    obtain rfl := Option.some.inj hrun
    exact ⟨d, rfl, rfl, hc⟩
  | cons i l ih =>
    rw [runPath_cons] at hrun
    rw [transferPath_cons]
    obtain ⟨c₁, hi, hrun⟩ := Option.bind_eq_some_iff.mp hrun
    obtain ⟨d₁, hd₁, hstack, hc₁⟩ := exists_transfer hs hbig hc hl.1 hi
    obtain ⟨d', hd', hstack', hc'⟩ := ih hc₁ (hl.2 d₁ hd₁) hrun
    exact ⟨d', Option.bind_eq_some_iff.mpr ⟨d₁, hd₁, hd'⟩, hstack'.trans hstack, hc'⟩

/-- Along a path of arithmetic and comparisons on numbers, the analysis raises no error and ends with a state
whose intervals contain the numbers that the machine computes. -/
theorem admits_numbers (hs : WordSigns R isUnsigned) (hbig : E.bigEndian = opts.bigEndian) (hc : Stands R d c)
    (hl : NumericPath R isUnsigned opts l d) (hrun : runPath R E l c = some c') :
    ∃ d', transferPath R isUnsigned opts l d = some d' ∧ d'.stack = d.stack ∧
      Stands R d' c' ∧ ∀ r, c'.1.types (R.regType r) = .num →
        (c'.2.regs r).toInt ∈ d'.rcp.values.evalInterval (.var (R.reg .svalues r)) ∧
          ((c'.2.regs r).toNat : ℤ) ∈ d'.rcp.values.evalInterval (.var (R.reg .uvalues r)) := by
  obtain ⟨d', hd', hstack, hc'⟩ := stands_of_run hs hbig hc hl hrun
  exact ⟨d', hd', hstack, hc', fun r hr => hc'.mem_evalInterval hr⟩

/-! ### A path that carries into the high half -/

/-- Nothing is known. -/
def anyState : EbpfDomain Name := ⟨⟨⟨.top⟩, .top⟩, .top⟩

def isUnsignedName (v : Name) : Bool := v.head? = some (DataKind.uvalues.index : ℤ)

/-- `w1 = -1; r1 += 1; if r1 == 0x100000000`. -/
def carryPath : List PathStep :=
  [.bin ⟨.mov, 1, .inr 0xffffffffffffffff, false, false⟩, .bin ⟨.add, 1, .inr 1, true, false⟩,
    .assume ⟨.eq, 1, .inr 0x100000000, true⟩]

def littleEndian : VerifierOptions := ⟨false, false, false⟩

/-- Registers that hold zero, whose types are not known. -/
def zeroRegisters : Snapshot Name × Machine.State Unit := (⟨fun _ => .uninit, fun _ => 0⟩, ⟨fun _ => 0, ()⟩)

/-- The interval of types of `r1` after some steps. -/
def typesAfter (n : ℕ) : Option Interval :=
  (transferPath (named []) isUnsignedName littleEndian (carryPath.take n) anyState).map fun d =>
    d.rcp.types.inv.evalInterval (.var ((named []).regType 1))

/-- A machine without memory. -/
def registersOnly : Machine.Env Unit where
  bigEndian := false
  load _ _ _ := none
  store _ _ _ _ := none
  packet _ _ _ _ := none
  helper _ _ := none
  mapFd _ := 0
  mapAddress _ _ := 0
  frame r10 := r10

theorem stands_anyState : Stands (named []) anyState zeroRegisters := by
  have htop : ∀ σ : Name → ℤ, AddBottom.top.Models σ := fun σ => models_some.mpr (SplitDbm.models_top σ)
  refine ⟨⟨wf_top, wf_top⟩, ⟨htop _, _, fun _ _ => rfl, htop _⟩, fun r hr => ?_⟩
  cases hr

set_option maxRecDepth 4000 in
theorem typesAfter_eq : typesAfter 1 = some (.const TypeEncoding.num.toInt) ∧
    typesAfter 2 = some (.const TypeEncoding.num.toInt) := by decide

theorem knows_of_typesAfter {n : ℕ} (h : typesAfter n = some (.const TypeEncoding.num.toInt))
    {d : EbpfDomain Name}
    (hd : transferPath (named []) isUnsignedName littleEndian (carryPath.take n) anyState = some d) :
    d.rcp.types.Knows ((named []).regType 1) .num := by
  unfold typesAfter at h
  rw [hd] at h
  have hinterval : d.rcp.types.inv.evalInterval (.var ((named []).regType 1)) = .const TypeEncoding.num.toInt :=
    Option.some.inj h
  intro k hk
  rw [hinterval] at hk
  exact Interval.mem_const.mp hk

theorem numeric_mov {d : EbpfDomain V} {imm : UInt64} {is64 lddw : Bool} :
    (bin ⟨.mov, dst, .inr imm, is64, lddw⟩).Numeric R isUnsigned d where
  left := ⟨fun h => absurd h (by decide : ¬ isMove .mov = false), fun _ h => absurd h Sum.inr_ne_inl,
    fun _ _ => Or.inl rfl⟩
  right := fun _ _ => ⟨fun _ _ => trivial, fun _ _ => trivial⟩

theorem numeric_add {d : EbpfDomain V} {imm : UInt64} {is64 lddw : Bool}
    (h : d.rcp.types.Knows (R.regType dst) .num) (himm : FitsS 32 (immNumber is64 imm)) :
    (bin ⟨.add, dst, .inr imm, is64, lddw⟩).Numeric R isUnsigned d where
  left := ⟨fun _ => h, fun _ h => absurd h Sum.inr_ne_inl, fun _ h => Or.inr
    ⟨rfl, Sum.inr.inj h ▸ himm, fun h => absurd h (by decide : ¬ Prevail.BinOp.add = .sub)⟩⟩
  right := fun _ _ => ⟨fun _ _ => trivial, fun _ _ => trivial⟩

theorem numericPath_carryPath : NumericPath (named []) isUnsignedName littleEndian carryPath anyState := by
  refine ⟨numeric_mov, fun d₁ h₁ => ?_⟩
  have hd₁ : transferPath (named []) isUnsignedName littleEndian (carryPath.take 1) anyState = some d₁ := by
    rw [carryPath, List.take_succ_cons, transferPath_cons, h₁]
    rfl
  refine ⟨numeric_add (knows_of_typesAfter typesAfter_eq.1 hd₁) (by decide), fun d₂ h₂ => ?_⟩
  have hd₂ : transferPath (named []) isUnsignedName littleEndian (carryPath.take 2) anyState = some d₂ := by
    rw [carryPath, List.take_succ_cons, List.take_succ_cons, transferPath_cons, h₁, Option.bind_some,
      transferPath_cons, h₂]
    rfl
  exact ⟨⟨rfl, knows_of_typesAfter typesAfter_eq.2 hd₂, fun _ h => absurd h Sum.inr_ne_inl⟩, fun _ _ => trivial⟩

/-- The machine takes the branch, and the last state has the word. -/
theorem admits_numbers_carryPath : ∃ d,
    transferPath (named []) isUnsignedName littleEndian carryPath anyState = some d ∧
      (0x100000000 : ℤ) ∈ d.rcp.values.evalInterval (.var ((named []).reg .uvalues 1)) := by
  obtain ⟨d, hd, -, -, hmem⟩ := @admits_numbers _ _ _ _ _ _ registersOnly carryPath anyState zeroRegisters _
    (⟨fun _ => rfl, fun _ => rfl⟩ : WordSigns (named []) isUnsignedName) (rfl : registersOnly.bigEndian =
      littleEndian.bigEndian) stands_anyState numericPath_carryPath rfl
  exact ⟨d, hd, (hmem 1 rfl).2⟩

end PathStep

end Prevail
