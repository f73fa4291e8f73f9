import Prevail.Crab.Assume64
import Prevail.Crab.CallContract
import Prevail.Crab.Feasible

/-!
# The transfer function of a condition

`Assume` compares two numbers by their values and two pointers by their offsets. It goes by the types
that the left register may have, and compares the offsets that belong to the type.

For numbers it is the constraints of `assume_cst_reg` that count, which are right for words of 64 bits,
and for words of 32 bits where the upper halves fit (`Fits32`). For pointers into one region the offsets are
in the order of the addresses, as long as the region lies in one half of the addresses. What `Assume` keeps
is said once for all of them (`Passes`, `concrete_of_assume`).
-/

namespace Prevail

open AddBottom TypeToNumDomain LinearExpression

variable {V : Type} [LinearOrder V]

namespace EbpfTransformer

variable (R : ProgramVariables V)

/-- `assume_cst_offsets_reg`: the signed comparisons of pointers are those of unsigned numbers. -/
def assumeCstOffsetsReg (op : ConditionOp) (dstOffset srcOffset : V) : LinearConstraint V :=
  match op with
  | .eq => LinearExpression.eq (.var dstOffset) (.var srcOffset)
  | .ne => LinearExpression.ne (.var dstOffset) (.var srcOffset)
  | .ge | .sge => LinearExpression.ge (.var dstOffset) (.var srcOffset)
  | .le | .sle => LinearExpression.le (.var dstOffset) (.var srcOffset)
  | .gt | .sgt => LinearExpression.gt (.var dstOffset) (.var srcOffset)
  | .lt | .slt => LinearExpression.gt (.var srcOffset) (.var dstOffset)
  | .set | .nset =>
    LinearExpression.eq (LinearExpression.subtract (.var dstOffset) (.var dstOffset)) (.const 0)

/-- `Assume` of two registers of one type. -/
def assumeAs (cond : Condition) (src : Reg) (rcp : TypeToNumDomain V) (type : TypeEncoding) :
    Option (TypeToNumDomain V) :=
  if type = .num then do
    let values ← rcp.values
    let csts ← FiniteDomain.assumeCstReg values cond.op cond.is64 (R.reg .svalues cond.left)
      (R.reg .uvalues cond.left) (R.reg .svalues src) (R.reg .uvalues src)
    return { rcp with values := csts.foldl AddBottom.addConstraint rcp.values }
  else
    match getTypeOffsetVariable R cond.left type.toInt, getTypeOffsetVariable R src type.toInt with
    | some dstOffset, some srcOffset =>
      let cst := assumeCstOffsetsReg cond.op dstOffset srcOffset
      some { rcp with values := rcp.values.addConstraint cst }
    | _, _ => some rcp

/-- `Assume`. It asserts that two registers have the same type. -/
def assume (cond : Condition) (d : EbpfDomain V) : Option (EbpfDomain V) :=
  if d.isBottom then some d
  else match cond.right with
    | .inl src => do
      guard (d.rcp.types.sameType (R.regType cond.left) (R.regType src))
      let (rcp, _) ← joinOverTypes R d.rcp cond.left
        (fun rcp type => (liftM (assumeAs R cond src rcp type) : StateT Unit Option _)) ()
      return { d with rcp := rcp }
    | .inr imm => do
      let values ← d.rcp.values
      let csts ← FiniteDomain.assumeCstImm values cond.op cond.is64 (R.reg .svalues cond.left)
        (R.reg .uvalues cond.left) imm.toBitVec
      let rcp := { d.rcp with values := csts.foldl AddBottom.addConstraint d.rcp.values }
      return { d with rcp := rcp }

end EbpfTransformer

/-! ## Constraints that can be added -/

/-- The coefficients of a difference of two variables. -/
theorem unitDisequation_ne_vars (x y : V) : SplitDbm.UnitDisequation (ne (.var x) (.var y)) := by
  rintro - ⟨v, c⟩ ht
  have hterms : (ne (.var x) (.var y)).expression.variableTerms =
      ((var x).variableTerms.insert y ((var x).coefficientOf y - 1)).filterVals (· ≠ 0) := rfl
  rw [hterms] at ht
  obtain ⟨hmem, hc⟩ := List.mem_filter.mp ht
  have hc : c ≠ 0 := of_decide_eq_true hc
  have hvar : ∀ u n, (var x).variableTerms.find? u = some n → n = 1 := by
    intro u n hn
    have hentry := OrdMap.mem_entries.mpr hn
    exact congrArg Prod.snd (List.mem_singleton.mp hentry)
  rw [OrdMap.mem_entries, OrdMap.find?_insert] at hmem
  split_ifs at hmem with hv
  · -- the coefficient of `y` is `-1`, or `0` when the variables are one
    have hcoef := Option.some.inj hmem
    unfold coefficientOf at hcoef
    cases hfind : (var x).variableTerms.find? y with
    | none =>
      rw [hfind, Option.getD_none] at hcoef
      omega
    | some n =>
      rw [hfind, Option.getD_some, hvar y n hfind] at hcoef
      omega
  · exact Or.inl (hvar v c hmem)

theorem unitDisequation_ne_const (x : V) (n : ℤ) :
    SplitDbm.UnitDisequation (ne (.var x) (.const n)) := by
  rintro - t ht
  have hterms : (ne (.var x) (.const n)).expression.variableTerms.entries = [(x, 1)] := rfl
  rw [hterms] at ht
  exact Or.inl (congrArg Prod.snd (List.mem_singleton.mp ht))

namespace FiniteDomain

open Number

variable {d : SplitDbm V} {ls lu ss su : V} {rs ru : LinearExpression V} {op : ConditionOp}
  {strict : Bool} {i : OperandIntervals} {dst src : Interval} {csts : List (LinearConstraint V)}

/-- No error is raised, and each constraint that is returned can be added. -/
def Adds (r : Option (List (LinearConstraint V))) : Prop :=
  ∃ csts, r = some csts ∧ ∀ c ∈ csts, SplitDbm.UnitDisequation c

theorem adds_some {csts : List (LinearConstraint V)} (h : ∀ c ∈ csts, c.kind ≠ .notZero) :
    Adds (some csts) := ⟨csts, rfl, fun c hc => SplitDbm.unitDisequation_of_ne (h c hc)⟩

@[simp] theorem kind_ltOrLe (strict : Bool) (e f : LinearExpression V) :
    (ltOrLe strict e f).kind ≠ .notZero := by
  unfold ltOrLe
  split_ifs <;> simp [lt, LinearExpression.le]

@[simp] theorem kind_gtOrGe (strict : Bool) (e f : LinearExpression V) :
    (gtOrGe strict e f).kind ≠ .notZero := by
  unfold gtOrGe
  split_ifs <;> simp [gt, ge, lt, LinearExpression.le]

theorem adds_falseConst : Adds (some [(LinearConstraint.falseConst : LinearConstraint V)]) := by
  refine ⟨_, rfl, fun c hc _ t ht => ?_⟩
  rw [List.mem_singleton.mp hc] at ht
  exact absurd ht List.not_mem_nil

theorem adds_assumeBitCstInterval {is64 : Bool} (hbit : isBitTest op) :
    Adds (assumeBitCstInterval op is64 dst src : Option (List (LinearConstraint V))) := by
  have hboth : ∀ (p : Prop) [Decidable p],
      Adds (some [(if p then .trueConst else .falseConst : LinearConstraint V)]) := by
    intro p _
    split_ifs
    · exact adds_some (by simp [LinearConstraint.trueConst])
    · exact adds_falseConst
  have hcast : ∀ n, FitsCast 64 n → ∃ m, castToU 64 n = some m := by
    intro n hn
    unfold castToU
    split_ifs with hu hs
    · exact ⟨_, rfl⟩
    · exact ⟨_, rfl⟩
    · exact absurd hn (not_or.mpr ⟨hs, hu⟩)
  unfold assumeBitCstInterval
  split
  · next dstN srcN _ _ =>
    by_cases hfits : FitsCast 64 dstN ∧ FitsCast 64 srcN
    · rw [if_pos hfits]
      obtain ⟨m, hm⟩ := hcast _ hfits.1
      obtain ⟨n, hn⟩ := hcast _ hfits.2
      simp only [hm, hn, Option.bind_eq_bind, Option.bind_some]
      cases op with
      | set | nset =>
        exact hboth _
      | _ => exact absurd hbit (by decide)
    · rw [if_neg hfits]
      exact ⟨[], rfl, by simp⟩
  · exact ⟨[], rfl, by simp⟩

theorem adds_assumeUnsigned64bitLt (hright : ∃ l u, i.right = ⟨.fin l, .fin u⟩) :
    Adds (assumeUnsigned64bitLt d ls lu rs ru strict i) := by
  obtain ⟨l, u, hright⟩ := hright
  obtain ⟨l', u', hext, -, -⟩ := Interval.zeroExtend_bounds 64 i.leftPositive
  unfold assumeUnsigned64bitLt
  rw [hright, hext]
  dsimp only
  split_ifs
  · refine adds_some ?_
    split <;> simp [LinearExpression.le, ge]
  · refine adds_some ?_
    split <;> simp [LinearExpression.le, ge]
  all_goals exact adds_some (by simp [LinearExpression.le])

theorem adds_assumeUnsigned64bitGt : Adds (assumeUnsigned64bitGt ls lu rs ru strict i) := by
  obtain ⟨l, u, hext, -, -⟩ := Interval.zeroExtend_bounds 64 i.leftNegative
  unfold assumeUnsigned64bitGt
  rw [hext]
  dsimp only
  split_ifs
  · refine adds_some ?_
    have hend : (if l = maxUint 64 then eq (.var lu) (.const l) else ge (.var lu) (.const l) :
        LinearConstraint V).kind ≠ .notZero := by
      split_ifs <;> simp [eq, ge, LinearExpression.le]
    simpa [lt] using hend
  all_goals exact adds_some (by simp [LinearExpression.le])

/-- The constraints of the 64-bit comparison of two registers can be added. -/
theorem adds_assumeCstReg : Adds (assumeCstReg d op true ls lu ss su) := by
  unfold assumeCstReg
  by_cases hbit : isBitTest op
  · rw [if_pos hbit]
    exact adds_assumeBitCstInterval hbit
  rw [if_neg hbit, if_pos rfl]
  cases op with
  | eq =>
    dsimp only
    split_ifs
    · exact adds_some (by simp [LinearExpression.eq])
    · exact adds_some (by simp [LinearExpression.eq])
  | ne => exact ⟨_, rfl, fun c hc => List.mem_singleton.mp hc ▸ unitDisequation_ne_vars ls ss⟩
  | sge | sle | sgt | slt => exact adds_some (by simp [LinearExpression.le, ge, gt, lt])
  | set | nset => exact absurd rfl hbit
  | lt | le | gt | ge =>
    have hright : ∃ l u, (getUnsignedIntervals d ls lu (.var su) true).right = ⟨.fin l, .fin u⟩ := by
      unfold getUnsignedIntervals
      obtain ⟨l, u, hext, -, -⟩ :=
        Interval.zeroExtend_bounds 64 (unsignedOperands d lu (.var su) true).2
      exact ⟨l, u, hext⟩
    show Adds (assumeUnsignedCstInterval d ls lu (.var ss) (.var su) _ true)
    unfold assumeUnsignedCstInterval
    simp only [disequalityAsOrder, reduceCtorEq, if_false, Bool.not_true, Bool.false_eq_true, if_true]
    split_ifs
    · exact adds_falseConst
    all_goals first
      | exact adds_assumeUnsigned64bitLt hright
      | exact adds_assumeUnsigned64bitGt
      | exact adds_some (by simp)

/-- Each constraint that is returned can be added. -/
def Addable (r : Option (List (LinearConstraint V))) : Prop :=
  ∀ csts ∈ r, ∀ c ∈ csts, SplitDbm.UnitDisequation c

theorem Adds.addable {r : Option (List (LinearConstraint V))} (h : Adds r) : Addable r := by
  obtain ⟨csts, rfl, h⟩ := h
  exact fun csts' hc => Option.some.inj hc ▸ h

theorem addable_none : Addable (none : Option (List (LinearConstraint V))) := fun _ h => nomatch h

theorem addable_bind {α : Type} {x : Option α} {f : α → Option (List (LinearConstraint V))}
    (h : ∀ a, Addable (f a)) : Addable (x >>= f) := by
  cases x with
  | none => exact addable_none
  | some a => exact h a

theorem addable_some (h : ∀ c ∈ csts, c.kind ≠ .notZero) : Addable (some csts) := (adds_some h).addable

theorem addable_assumeSignedCstInterval :
    Addable (assumeSignedCstInterval d ls lu rs ru op true) := by
  unfold assumeSignedCstInterval
  simp only [if_true]
  split_ifs
  · unfold assumeSigned64bitEq
    split_ifs
    all_goals exact addable_some (by simp [LinearExpression.eq])
  · exact adds_falseConst.addable
  · exact addable_some (by simp [LinearConstraint.trueConst])
  · unfold assumeSigned64bitLt
    dsimp only
    split_ifs
    all_goals exact addable_some (by simp [LinearExpression.le])
  · unfold assumeSigned64bitGt assumeSignedGtNonnegative
    split_ifs
    · exact addable_bind fun _ => addable_some (by simp [LinearExpression.le, ge])
    all_goals exact addable_some (by simp [lt])

theorem addable_assumeUnsignedCstInterval :
    Addable (assumeUnsignedCstInterval d ls lu rs ru op true) := by
  unfold assumeUnsignedCstInterval
  split
  · exact addable_some (by simp)
  · next op' i _ =>
    simp only [Bool.not_true, Bool.false_eq_true, if_false, if_true]
    split_ifs
    · exact adds_falseConst.addable
    · exact addable_some (by simp)
    · exact addable_some (by simp)
    · unfold assumeUnsigned64bitLt
      dsimp only
      split_ifs
      · refine addable_some ?_
        split <;> simp [LinearExpression.le, ge]
      · refine addable_bind fun _ => addable_some ?_
        split <;> simp [LinearExpression.le, ge]
      all_goals first
        | exact addable_some (by simp [LinearExpression.le])
        | exact addable_bind fun _ => addable_some (by simp [LinearExpression.le])
    · exact adds_assumeUnsigned64bitGt.addable

/-- So can those of the 64-bit comparison with a number. -/
theorem addable_assumeCstImm {n : BitVec 64} : Addable (assumeCstImm d op true ls lu n) := by
  unfold assumeCstImm
  split_ifs with hs hbit
  · exact addable_assumeSignedCstInterval
  · exact (adds_assumeBitCstInterval hbit).addable
  · exact addable_assumeUnsignedCstInterval

/-! ### 32 bits -/

theorem addable_assumeSigned32bitEq {right : Interval} : Addable (assumeSigned32bitEq d ls lu right) := by
  unfold assumeSigned32bitEq
  dsimp only
  split
  · refine addable_bind fun _ => addable_bind fun _ => addable_bind fun _ => addable_bind fun _ =>
      addable_bind fun _ => ?_
    split_ifs
    all_goals exact addable_some (by simp [ge, LinearExpression.le])
  · exact addable_some (by simp)

theorem addable_assumeSigned32bitLt : Addable (assumeSigned32bitLt d ls lu rs ru strict i) := by
  unfold assumeSigned32bitLt
  split_ifs
  · exact addable_some (by simp [lt])
  · exact addable_bind fun _ => addable_some (by simp [ge, LinearExpression.le])
  · exact addable_some (by simp)
  · exact addable_some (by simp)

theorem addable_assumeSigned32bitGt : Addable (assumeSigned32bitGt d ls lu rs ru strict i) := by
  unfold assumeSigned32bitGt assumeSignedGtNonnegative
  split_ifs
  · exact addable_bind fun _ => addable_some (by simp [ge, LinearExpression.le])
  · exact addable_some (by simp [ge, LinearExpression.le])
  · exact addable_some (by simp)
  · exact addable_some (by simp)

theorem addable_assumeUnsigned32bitLt : Addable (assumeUnsigned32bitLt d ls lu rs ru strict) := by
  unfold assumeUnsigned32bitLt
  dsimp only
  split_ifs
  all_goals exact addable_some (by simp [LinearExpression.le])

theorem addable_assumeUnsigned32bitGt : Addable (assumeUnsigned32bitGt d ls lu rs ru strict i) := by
  unfold assumeUnsigned32bitGt
  split_ifs
  all_goals exact addable_some (by simp [LinearExpression.le])

theorem addable_assumeSigned32 : Addable (assumeSignedCstInterval d ls lu rs ru op false) := by
  unfold assumeSignedCstInterval
  simp only [Bool.false_eq_true, if_false]
  split_ifs
  · exact addable_assumeSigned32bitEq
  · exact adds_falseConst.addable
  · exact addable_some (by simp [LinearConstraint.trueConst])
  · exact addable_assumeSigned32bitLt
  · exact addable_assumeSigned32bitGt

theorem addable_assumeUnsigned32 : Addable (assumeUnsignedCstInterval d ls lu rs ru op false) := by
  unfold assumeUnsignedCstInterval
  split
  · exact addable_some (by simp)
  · next op' i _ =>
    simp only [Bool.not_false, Bool.false_eq_true, if_false, if_true]
    split_ifs
    · exact adds_falseConst.addable
    · exact addable_some (by simp)
    · exact addable_assumeUnsigned32bitLt
    · exact addable_assumeUnsigned32bitGt

/-- The constraints of the comparison of two registers can be added. -/
theorem addable_assumeCstReg {is64 : Bool} : Addable (assumeCstReg d op is64 ls lu ss su) := by
  cases is64 with
  | true => exact adds_assumeCstReg.addable
  | false =>
    unfold assumeCstReg
    simp only [Bool.false_eq_true, if_false]
    split_ifs with hbit
    · exact (adds_assumeBitCstInterval hbit).addable
    · exact addable_assumeSigned32
    · exact addable_assumeUnsigned32

/-- The constraints of the 32-bit comparison of two registers hold where the upper halves fit. -/
theorem sound_assumeCstReg {σ : V → ℤ} {a b : BitVec 64} (hm : d.Models σ)
    (hr : Reads σ ls lu (.var ss) (.var su) a b) (h : op.Holds (a.setWidth 32) (b.setWidth 32))
    (hfits : Fits32 d op ls lu (.reg ss su) a b) : Sound σ (assumeCstReg d op false ls lu ss su) := by
  unfold Fits32 at hfits
  unfold assumeCstReg
  by_cases hbit : isBitTest op
  · rw [if_pos hbit]
    exact (answers_assumeBitCstInterval hbit (hr.mem_leftU hm) (Or.inr (hr.mem_rightU hm))
      (by simpa using h)).sound
  · rw [if_neg hbit] at hfits ⊢
    rw [if_neg Bool.false_ne_true]
    split_ifs at hfits ⊢ with hs
    · exact (sound_assumeSignedCstInterval_iff hr hm hs h).mpr hfits
    · exact (sound_assumeUnsignedCstInterval_iff hr hm (by simpa using hs) (by simpa using hbit) h).mpr hfits

end FiniteDomain

namespace EbpfTransformer

variable {R : ProgramVariables V} {cond : Condition} {src : Reg} {rcp tmp : TypeToNumDomain V}
  {type : TypeEncoding} {τ : V → TypeEncoding} {σ : V → ℤ}

theorem unitDisequation_assumeCstOffsetsReg (op : ConditionOp) (x y : V) :
    SplitDbm.UnitDisequation (assumeCstOffsetsReg op x y) := by
  cases op with
  | ne => exact unitDisequation_ne_vars x y
  | _ => exact SplitDbm.unitDisequation_of_ne (by simp [assumeCstOffsetsReg, eq, ge, gt, lt,
      LinearExpression.le])

theorem assumeAs_num {values : SplitDbm V} (hvalues : rcp.values = some values) :
    assumeAs R cond src rcp .num = (FiniteDomain.assumeCstReg values cond.op cond.is64
      (R.reg .svalues cond.left) (R.reg .uvalues cond.left) (R.reg .svalues src)
      (R.reg .uvalues src)).map fun csts =>
        { rcp with values := csts.foldl AddBottom.addConstraint rcp.values } := by
  unfold assumeAs
  rw [if_pos rfl, hvalues]
  exact Option.map_eq_bind.symm

theorem assumeAs_of_offsets {x y : V} (htype : type ≠ .num)
    (hx : getTypeOffsetVariable R cond.left type.toInt = some x)
    (hy : getTypeOffsetVariable R src type.toInt = some y) : assumeAs R cond src rcp type =
      some { rcp with values := rcp.values.addConstraint (assumeCstOffsetsReg cond.op x y) } := by
  unfold assumeAs
  rw [if_neg htype, hx, hy]

/-- A type without an offset tells nothing. -/
theorem assumeAs_of_none (htype : type ≠ .num) (h : getTypeOffsetVariable R cond.left type.toInt = none ∨
    getTypeOffsetVariable R src type.toInt = none) : assumeAs R cond src rcp type = some rcp := by
  unfold assumeAs
  rw [if_neg htype]
  rcases h with h | h
  · rw [h]
  · rw [h]
    cases getTypeOffsetVariable R cond.left type.toInt <;> rfl

/-- What `Assume` of two registers of one type does to the values. -/
theorem exists_of_assumeAs (htmp : assumeAs R cond src rcp type = some tmp) : ∃ csts,
    tmp = { rcp with values := csts.foldl AddBottom.addConstraint rcp.values } ∧
      (∀ c ∈ csts, SplitDbm.UnitDisequation c) ∧
      (type = .num → ∀ values, rcp.values = some values →
        FiniteDomain.assumeCstReg values cond.op cond.is64 (R.reg .svalues cond.left)
          (R.reg .uvalues cond.left) (R.reg .svalues src) (R.reg .uvalues src) = some csts) ∧
      ∀ x y, type ≠ .num → getTypeOffsetVariable R cond.left type.toInt = some x →
        getTypeOffsetVariable R src type.toInt = some y → csts = [assumeCstOffsetsReg cond.op x y] := by
  by_cases htype : type = .num
  · subst htype
    cases hvalues : rcp.values with
    | none =>
      unfold assumeAs at htmp
      rw [if_pos rfl, hvalues] at htmp
      cases htmp
    | some values =>
      rw [assumeAs_num hvalues] at htmp
      obtain ⟨csts, hcsts, rfl⟩ := Option.map_eq_some_iff.mp htmp
      refine ⟨csts, by rw [hvalues], FiniteDomain.addable_assumeCstReg csts hcsts, fun _ z hz => ?_,
        fun _ _ h => absurd rfl h⟩
      rw [← Option.some.inj hz]
      exact hcsts
  · have hnone : (getTypeOffsetVariable R cond.left type.toInt = none ∨
        getTypeOffsetVariable R src type.toInt = none) → tmp = rcp := fun h =>
      Option.some.inj (htmp.symm.trans (assumeAs_of_none htype h))
    cases hx : getTypeOffsetVariable R cond.left type.toInt with
    | none => exact ⟨[], hnone (Or.inl hx), by simp, fun h => absurd h htype, fun _ _ _ h => nomatch h⟩
    | some x =>
      cases hy : getTypeOffsetVariable R src type.toInt with
      | none =>
        exact ⟨[], hnone (Or.inr hy), by simp, fun h => absurd h htype, fun _ _ _ _ h => nomatch h⟩
      | some y =>
        refine ⟨[assumeCstOffsetsReg cond.op x y],
          Option.some.inj (htmp.symm.trans (assumeAs_of_offsets htype hx hy)), fun c hc => ?_,
          fun h => absurd h htype, fun x' y' _ hx' hy' => ?_⟩
        · rw [List.mem_singleton.mp hc]
          exact unitDisequation_assumeCstOffsetsReg _ x y
        · rw [Option.some.inj hx', Option.some.inj hy']

/-- The 64-bit comparison of two registers raises no error. -/
theorem assumeAs_isSome (h64 : cond.is64 = true) (hbot : rcp.isBottom = false) :
    (assumeAs R cond src rcp type).isSome = true := by
  by_cases htype : type = .num
  · subst htype
    obtain ⟨types, values⟩ := rcp
    cases values with
    | none => cases hbot
    | some values =>
      obtain ⟨csts, hcsts, -⟩ := @FiniteDomain.adds_assumeCstReg _ _ values
        (R.reg .svalues cond.left) (R.reg .uvalues cond.left) (R.reg .svalues src)
        (R.reg .uvalues src) cond.op
      rw [assumeAs_num rfl, h64, hcsts]
      rfl
  · cases hx : getTypeOffsetVariable R cond.left type.toInt with
    | none =>
      rw [assumeAs_of_none htype (Or.inl hx)]
      rfl
    | some x =>
      cases hy : getTypeOffsetVariable R src type.toInt with
      | none =>
        rw [assumeAs_of_none htype (Or.inr hy)]
        rfl
      | some y =>
        rw [assumeAs_of_offsets htype hx hy]
        rfl

/-- The registers are addresses in one region. Both words are a start of the region plus the offset, as
unsigned numbers and, since the region lies in one half of the addresses, as signed numbers. -/
def SameRegion (R : ProgramVariables V) (τ : V → TypeEncoding) (σ : V → ℤ) (r r' : Reg) : Prop :=
  τ (R.regType r) ∈ [TypeEncoding.ctx, .packet, .stack, .shared] ∧ τ (R.regType r') = τ (R.regType r) ∧
    ∃ start start' : ℤ, ∀ s ∈ [r, r'], σ (R.reg .uvalues s) = start + pointerOffset R τ σ s ∧
      σ (R.reg .svalues s) = start' + pointerOffset R τ σ s

def BothNumbers (R : ProgramVariables V) (τ : V → TypeEncoding) (r r' : Reg) : Prop :=
  τ (R.regType r) = .num ∧ τ (R.regType r') = .num

/-- The words in the registers compare as the condition says. -/
def Compares (R : ProgramVariables V) (σ : V → ℤ) (op : ConditionOp) (r r' : Reg) : Prop :=
  ∃ a b : BitVec 64, FiniteDomain.Reads σ (R.reg .svalues r) (R.reg .uvalues r)
    (.var (R.reg .svalues r')) (.var (R.reg .uvalues r')) a b ∧ op.Holds a b

/-- The registers are descriptors of one map. -/
def SameMap (R : ProgramVariables V) (τ : V → TypeEncoding) (σ : V → ℤ) (r r' : Reg) : Prop :=
  τ (R.regType r) = .map ∧ τ (R.regType r') = .map ∧
    ∀ kind ∈ [DataKind.mapFds, .svalues, .uvalues], σ (R.reg kind r') = σ (R.reg kind r)

/-- The condition holds of the registers: of two numbers at its width, where at 32 bits the upper halves
fit the branch that is taken, and of two pointers into one region, or two descriptors of one map, as
whole words. -/
def Passes (R : ProgramVariables V) (values : AddBottom V) (cond : Condition) (src : Reg)
    (τ : V → TypeEncoding) (σ : V → ℤ) : Prop :=
  ∃ a b : BitVec 64, FiniteDomain.Reads σ (R.reg .svalues cond.left) (R.reg .uvalues cond.left)
      (.var (R.reg .svalues src)) (.var (R.reg .uvalues src)) a b ∧
    (BothNumbers R τ cond.left src ∧ (if cond.is64 then cond.op.Holds a b
        else cond.op.Holds (a.setWidth 32) (b.setWidth 32) ∧
          ∀ z, values = some z → FiniteDomain.Fits32 z cond.op (R.reg .svalues cond.left)
            (R.reg .uvalues cond.left) (.reg (R.reg .svalues src) (R.reg .uvalues src)) a b) ∨
      (SameRegion R τ σ cond.left src ∨ SameMap R τ σ cond.left src) ∧ cond.op.Holds a b)

theorem passes_of_compares {values : AddBottom V} (h64 : cond.is64 = true)
    (halike : BothNumbers R τ cond.left src ∨ SameRegion R τ σ cond.left src)
    (h : Compares R σ cond.op cond.left src) : Passes R values cond src τ σ := by
  obtain ⟨a, b, hreads, hholds⟩ := h
  refine ⟨a, b, hreads, halike.imp (fun hnum => ⟨hnum, ?_⟩) fun hregion => ⟨Or.inl hregion, hholds⟩⟩
  rwa [if_pos h64]

/-- Addresses in one region compare as their offsets do. -/
theorem sat_assumeCstOffsetsReg {op : ConditionOp} {x y : V} {a b : BitVec 64} {start start' : ℤ}
    (ha : (a.toNat : ℤ) = start + σ x) (hb : (b.toNat : ℤ) = start + σ y)
    (has : a.toInt = start' + σ x) (hbs : b.toInt = start' + σ y) (h : op.Holds a b) :
    (assumeCstOffsetsReg op x y).Sat σ := by
  cases op with
  | eq =>
    obtain rfl : a = b := h
    rw [assumeCstOffsetsReg, sat_eq, eval_var, eval_var]
    omega
  | ne =>
    rw [assumeCstOffsetsReg, sat_ne, eval_var, eval_var]
    intro heq
    refine h (BitVec.eq_of_toNat_eq ?_)
    omega
  | set | nset =>
    rw [assumeCstOffsetsReg, sat_eq, eval_subtract, eval_const]
    omega
  | _ =>
    simp only [ConditionOp.Holds] at h
    simp only [assumeCstOffsetsReg, sat_ge, sat_le, sat_gt, eval_var]
    omega

/-- The words in the registers are a start plus the offsets that belong to the type. -/
def AtOffsets (R : ProgramVariables V) (τ : V → TypeEncoding) (σ : V → ℤ) (r r' : Reg) : Prop :=
  τ (R.regType r') = τ (R.regType r) ∧ ∃ kind, ∃ e ∈ typeToKinds, kind ∈ e.2 ∧ e.1 = τ (R.regType r) ∧
    (∀ s, getTypeOffsetVariable R s (τ (R.regType r)).toInt = some (R.reg kind s)) ∧
      ∃ start start' : ℤ, ∀ s ∈ [r, r'], σ (R.reg .uvalues s) = start + σ (R.reg kind s) ∧
        σ (R.reg .svalues s) = start' + σ (R.reg kind s)

omit [LinearOrder V] in
/-- The offset variable of a pointer into a region of its own. -/
theorem exists_offsetKind (h : type ∈ [TypeEncoding.ctx, .packet, .stack, .shared]) :
    ∃ kind, ∃ e ∈ typeToKinds, kind ∈ e.2 ∧ e.1 = type ∧ ∀ r : Reg,
      getTypeOffsetVariable R r type.toInt = some (R.reg kind r) ∧
        (τ (R.regType r) = type → pointerOffset R τ σ r = σ (R.reg kind r)) := by
  simp only [List.mem_cons, List.not_mem_nil, or_false] at h
  rcases h with rfl | rfl | rfl | rfl
  · refine ⟨.ctxOffsets, (.ctx, [.ctxOffsets]), by decide, by simp, rfl, fun r => ⟨rfl, fun hr => ?_⟩⟩
    rw [pointerOffset, hr]
  · refine ⟨.packetOffsets, (.packet, [.packetOffsets]), by decide, by simp, rfl,
      fun r => ⟨rfl, fun hr => ?_⟩⟩
    rw [pointerOffset, hr]
  · refine ⟨.stackOffsets, (.stack, [.stackOffsets, .stackNumericSizes]), by decide, by simp, rfl,
      fun r => ⟨rfl, fun hr => ?_⟩⟩
    rw [pointerOffset, hr]
  · refine ⟨.sharedOffsets, (.shared, [.sharedOffsets, .sharedRegionSizes]), by decide, by simp, rfl,
      fun r => ⟨rfl, fun hr => ?_⟩⟩
    rw [pointerOffset, hr]

omit [LinearOrder V] in
theorem SameRegion.atOffsets {r r' : Reg} (h : SameRegion R τ σ r r') : AtOffsets R τ σ r r' := by
  obtain ⟨htype, hsame, start, start', haddr⟩ := h
  obtain ⟨kind, e, he, hkind, heq, hvar⟩ := @exists_offsetKind _ R _ τ σ htype
  have hoffset : ∀ s ∈ [r, r'], pointerOffset R τ σ s = σ (R.reg kind s) := by
    intro s hs
    refine (hvar s).2 ?_
    rcases List.mem_cons.mp hs with rfl | hs
    · rfl
    · rw [List.mem_singleton.mp hs, hsame]
  refine ⟨hsame, kind, e, he, hkind, heq, fun s => (hvar s).1, start, start', fun s hs => ?_⟩
  rw [← hoffset s hs]
  exact haddr s hs

omit [LinearOrder V] in
theorem SameMap.atOffsets {r r' : Reg} (h : SameMap R τ σ r r') : AtOffsets R τ σ r r' := by
  obtain ⟨hleft, hright, hsame⟩ := h
  have hfd := hsame .mapFds (by simp)
  have hs := hsame .svalues (by simp)
  have hu := hsame .uvalues (by simp)
  refine ⟨hright.trans hleft.symm, .mapFds, (.map, [.mapFds]), by decide, by simp, hleft.symm,
    fun s => ?_, σ (R.reg .uvalues r) - σ (R.reg .mapFds r), σ (R.reg .svalues r) - σ (R.reg .mapFds r),
    fun s hmem => ?_⟩
  · rw [hleft]
    rfl
  · rcases List.mem_cons.mp hmem with rfl | hmem
    · omega
    · obtain rfl := List.mem_singleton.mp hmem
      omega

/-- The constraints hold in a state in which the condition does. -/
theorem sat_of_assumeAs {csts : List (LinearConstraint V)} {σ' : V → ℤ}
    (hagree : Agree R.toVariableRegistry τ σ σ') (hσ' : rcp.values.Models σ')
    (hpasses : Passes R rcp.values cond src τ σ)
    (hnum : τ (R.regType cond.left) = .num → ∀ values, rcp.values = some values →
      FiniteDomain.assumeCstReg values cond.op cond.is64 (R.reg .svalues cond.left)
        (R.reg .uvalues cond.left) (R.reg .svalues src) (R.reg .uvalues src) = some csts)
    (hptr : ∀ x y, τ (R.regType cond.left) ≠ .num →
      getTypeOffsetVariable R cond.left (τ (R.regType cond.left)).toInt = some x →
        getTypeOffsetVariable R src (τ (R.regType cond.left)).toInt = some y →
          csts = [assumeCstOffsetsReg cond.op x y]) : ∀ c ∈ csts, c.Sat σ' := by
  have hnumber : ∀ {kind}, kind = .svalues ∨ kind = .uvalues → ∀ r,
      σ' (R.reg kind r) = σ (R.reg kind r) :=
    fun hkind r => (hagree _ (not_meaningless_number hkind)).symm
  obtain ⟨a, b, hreads, hcases⟩ := hpasses
  have hreads' : FiniteDomain.Reads σ' (R.reg .svalues cond.left) (R.reg .uvalues cond.left)
      (.var (R.reg .svalues src)) (.var (R.reg .uvalues src)) a b := by
    refine ⟨(hnumber (Or.inl rfl) _).trans hreads.leftS, (hnumber (Or.inr rfl) _).trans hreads.leftU,
      ?_, ?_⟩
    · rw [eval_var, hnumber (Or.inl rfl), ← eval_var σ]
      exact hreads.rightS
    · rw [eval_var, hnumber (Or.inr rfl), ← eval_var σ]
      exact hreads.rightU
  rcases hcases with ⟨⟨hleft, -⟩, hholds⟩ | ⟨halike, hholds⟩
  · obtain ⟨values, hvalues, hσ'⟩ := hσ'
    have hcsts := hnum hleft values hvalues
    cases h64 : cond.is64 with
    | true =>
      rw [h64, if_pos rfl] at hholds
      rw [h64] at hcsts
      obtain ⟨csts', hcsts', hsat⟩ := FiniteDomain.answers_assumeCstReg hσ' hreads' hholds
      obtain rfl := Option.some.inj (hcsts.symm.trans hcsts')
      exact hsat
    | false =>
      rw [h64, if_neg Bool.false_ne_true] at hholds
      rw [h64] at hcsts
      exact FiniteDomain.sound_assumeCstReg hσ' hreads' hholds.1 (hholds.2 values hvalues) csts hcsts
  · have hat : AtOffsets R τ σ cond.left src := by
      rcases halike with h | h
      · exact h.atOffsets
      · exact h.atOffsets
    obtain ⟨hright, kind, e, he, hkind, htype, hvar, start, start', haddr⟩ := hat
    -- the offsets of both registers have a meaning
    have hvalue : ∀ r, τ (R.regType r) = τ (R.regType cond.left) →
        σ (R.reg kind r) = σ' (R.reg kind r) := fun r hr =>
      hagree _ (not_meaningless he hkind (hr.trans htype.symm))
    have hne : τ (R.regType cond.left) ≠ .num := by
      intro heq
      have hnone := hvar cond.left
      rw [heq] at hnone
      cases hnone
    rw [hptr _ _ hne (hvar cond.left) (hvar src)]
    intro c hc
    rw [List.mem_singleton.mp hc]
    obtain ⟨hu, hs⟩ := haddr cond.left (List.mem_cons_self ..)
    obtain ⟨hu', hs'⟩ := haddr src (List.mem_cons_of_mem _ (List.mem_singleton_self _))
    rw [hvalue _ rfl] at hu hs
    rw [hvalue _ hright] at hu' hs'
    have hrightS := hreads.rightS
    have hrightU := hreads.rightU
    rw [eval_var] at hrightS hrightU
    exact sat_assumeCstOffsetsReg (hreads.leftU.symm.trans hu) (hrightU.symm.trans hu')
      (hreads.leftS.symm.trans hs) (hrightS.symm.trans hs') hholds

/-- A state in which the condition holds is kept. -/
theorem models_assumeAs (hrcp : rcp.WF) (hτσ : rcp.Models R.toVariableRegistry τ σ)
    (hpasses : Passes R rcp.values cond src τ σ)
    (htmp : assumeAs R cond src rcp (τ (R.regType cond.left)) = some tmp) :
    tmp.Models R.toVariableRegistry τ σ := by
  obtain ⟨csts, rfl, hunit, hnum, hptr⟩ := exists_of_assumeAs htmp
  obtain ⟨hτ, σ', hagree, hσ'⟩ := hτσ
  have hsat := sat_of_assumeAs hagree hσ' hpasses hnum hptr
  refine ⟨hτ, σ', hagree, (List.foldlRecOn
    (motive := fun x : AddBottom V => x.WF ∧ x.Models σ') csts _ ⟨hrcp.values, hσ'⟩ ?_).2⟩
  exact fun x hx c hc => ⟨hx.1.addConstraint c, models_addConstraint hx.1 hx.2 (hunit c hc) (hsat c hc)⟩

/-- What `Assume` of two registers returns. -/
theorem exists_of_assume {d d' : EbpfDomain V} (hright : cond.right = .inl src) (hbot : d.isBottom = false)
    (h : EbpfTransformer.assume R cond d = some d') :
    d.rcp.types.sameType (R.regType cond.left) (R.regType src) = true ∧ ∃ res : TypeToNumDomain V × Unit,
      joinOverTypes R d.rcp cond.left (fun rcp type => liftM (assumeAs R cond src rcp type)) () = some res ∧
        d' = { d with rcp := res.1 } := by
  unfold EbpfTransformer.assume at h
  rw [hbot, hright, if_neg Bool.false_ne_true] at h
  obtain ⟨u, hguard, h⟩ := Option.bind_eq_some_iff.mp h
  obtain ⟨res, hres, h⟩ := Option.bind_eq_some_iff.mp h
  refine ⟨(Option.guard_eq_some' ..).mp hguard, res, hres, (Option.some.inj h).symm⟩

end EbpfTransformer

/-! ## Accepted comparisons -/

open EbpfTransformer EbpfChecker AssertExtractor StateT

variable {R : ProgramVariables V} {info : ProgramInfo} {opts : VerifierOptions} {d : EbpfDomain V}
  {cond : Condition} {src : Reg} {label : Option Label} {target : Label} {τ : V → TypeEncoding}
  {σ : V → ℤ}

/-- Two numbers, two pointers into the same region, or two map descriptors. -/
def ComparedAlike (R : ProgramVariables V) (τ : V → TypeEncoding) (r r' : Reg) : Prop :=
  τ (R.regType r') = τ (R.regType r) ∧
    τ (R.regType r) ∈ [TypeEncoding.num, .ctx, .packet, .stack, .map]

theorem comparedAlike_of_comparable {a : Assertion} {r r' : Reg} (hd : d.rcp.types.inv.WF)
    (hτ : d.rcp.types.Models τ)
    (hsame : d.rcp.types.sameType (R.regType r) (R.regType r') = true)
    (h : (comparable R info d a r r').Succeeds) : ComparedAlike R τ r r' := by
  have heq : τ (R.regType r') = τ (R.regType r) := by
    have hsat := sat_of_entail hd hsame hτ
    rw [sat_eq, eval_var, eval_var] at hsat
    exact (TypeEncoding.toInt_inj hsat).symm
  refine ⟨heq, ?_⟩
  by_cases hnum : τ (R.regType r') = .num
  · rw [← heq, hnum]
    exact List.mem_cons_self ..
  unfold comparable at h
  rw [hsame, if_pos rfl] at h
  have hgroup := succeeds_require.mp (Except.succeeds_andThen.mp h).1
  have hmodels : (d.rcp.types.addConstraint (TypeDomain.typeIsNot (R.regType r') .num)).Models τ := by
    refine models_addConstraint hd hτ (unitDisequation_ne_const _ _) ?_
    rw [TypeDomain.typeIsNot, sat_ne, eval_var, eval_const]
    exact fun h => hnum (TypeEncoding.toInt_inj h)
  have hwf := hd.addConstraint (TypeDomain.typeIsNot (R.regType r') .num)
  rcases Bool.or_eq_true_iff.mp hgroup with hgroup | hgroup
  · have hmem := mem_types_of_isInGroup hwf hmodels hgroup
    revert hmem
    cases τ (R.regType r) <;> decide
  · have hmem := mem_types_of_isInGroup hwf hmodels hgroup
    revert hmem
    cases τ (R.regType r) <;> decide

/-- The types of a register that may be accessed for a comparison. -/
theorem exists_types_of_validAccess {a : Assertion} {s : ValidAccess}
    (h : (validAccess R info d a s).Succeeds) :
    d.rcp.types.isInitialized (R.regType s.reg) = true ∧
      ∃ types, d.rcp.types.iterateTypes (R.regType s.reg) = some types ∧ .uninit ∉ types := by
  obtain ⟨types, htypes, h⟩ := succeeds_ask_bind.mp h
  rw [Except.succeeds_forM] at h
  have huninit : .uninit ∉ types := fun hin => not_succeeds_throwFail _ _ (h .uninit hin)
  unfold enumerateTypes at htypes
  split_ifs at htypes with hinit
  · rw [← Option.some.inj htypes] at huninit
    exact absurd (List.mem_singleton_self _) huninit
  · exact ⟨by simpa using hinit, types, htypes, huninit⟩

/-- The assertions of a comparison. -/
theorem mem_explicate (hprivileged : info.isPrivileged = false) (hright : cond.right = .inl src) :
    makeValidComparison label cond.left ∈ explicate info label cond ∧
      .comparable cond.left src false ∈ explicate info label cond := by
  unfold explicate
  rw [hprivileged, hright]
  simp

/-- A 64-bit comparison that is accepted is carried out when the types are known to be the same. -/
theorem assume_isSome_of_accepts (hprivileged : info.isPrivileged = false)
    (hright : cond.right = .inl src) (h64 : cond.is64 = true) (hbot : d.isBottom = false)
    (h : Accepts R info opts d (getAssertions (.jmp (some cond) target) info label))
    (hsame : d.rcp.types.sameType (R.regType cond.left) (R.regType src) = true) :
    (EbpfTransformer.assume R cond d).isSome = true := by
  obtain ⟨l, hl, h⟩ := h
  obtain rfl : explicate info label cond = l := Option.some.inj hl
  have haccess := h _ (mem_explicate hprivileged hright).1
  rw [ebpfDomainCheck_eq hbot] at haccess
  obtain ⟨hinit, types, htypes, huninit⟩ := exists_types_of_validAccess haccess
  obtain ⟨res, hres⟩ := Option.isSome_iff_exists.mp (@joinOverTypes_isSome _ _ R d.rcp cond.left Unit
    (fun rcp type => liftM (assumeAs R cond src rcp type)) types hinit htypes huninit
    (fun type s => by
      obtain ⟨tmp, htmp⟩ := Option.isSome_iff_exists.mp
        (@assumeAs_isSome _ _ R cond src _ type h64 (isBottom_restrictedTo hbot type))
      exact Option.isSome_iff_exists.mpr ⟨(tmp, s), liftM_eq_some.mpr ⟨htmp, rfl⟩⟩) ())
  refine Option.isSome_iff_exists.mpr ⟨{ d with rcp := res.1 }, ?_⟩
  unfold EbpfTransformer.assume
  rw [hbot, hright, if_neg Bool.false_ne_true]
  simp only [hsame, guard_true, hres, Option.bind_eq_bind, Option.bind_some]
  rfl

/-- `if r1 <= r2`. -/
def packetCondition : Condition := ⟨.le, 1, .inl 2, true⟩

/-- `r1` is a pointer into the packet, `r2` is four. -/
def packetAndNumber : EbpfDomain ProgramVariables.Name :=
  let R := ProgramVariables.named []
  ⟨⟨⟨setAll AddBottom.top [(R.regType 1, .const TypeEncoding.packet.toInt),
      (R.regType 2, .const TypeEncoding.num.toInt)]⟩,
    setAll AddBottom.top [(R.reg .packetOffsets 1, .ofInts 0 8), (R.reg .svalues 2, .const 4),
      (R.reg .uvalues 2, .const 4), (R.metaOffset, .const 0)]⟩, .top⟩

/-- An accepted 64-bit comparison is carried out exactly when the types are known to be the same. Where they
are not, the checker has looked at the right register only, which is a number. -/
theorem assume_isSome_iff_of_accepts (hprivileged : info.isPrivileged = false)
    (hright : cond.right = .inl src) (h64 : cond.is64 = true) (hd : d.rcp.Feasible) (hbot : d.isBottom = false)
    (h : Accepts R info opts d (getAssertions (.jmp (some cond) target) info label)) :
    ((EbpfTransformer.assume R cond d).isSome = true ↔
        d.rcp.types.sameType (R.regType cond.left) (R.regType src) = true) ∧
      (d.rcp.types.sameType (R.regType cond.left) (R.regType src) = false →
        ∀ τ, d.rcp.types.Models τ → τ (R.regType src) = .num) := by
  refine ⟨⟨fun hsome => ?_, assume_isSome_of_accepts hprivileged hright h64 hbot h⟩, fun hsame τ hτ => ?_⟩
  · obtain ⟨d', hd'⟩ := Option.isSome_iff_exists.mp hsome
    exact (exists_of_assume hright hbot hd').1
  · obtain ⟨l, hl, h⟩ := h
    obtain rfl : explicate info label cond = l := Option.some.inj hl
    have hcomparable := h _ (mem_explicate hprivileged hright).2
    rw [ebpfDomainCheck_eq hbot] at hcomparable
    change (comparable R info d _ cond.left src).Succeeds at hcomparable
    unfold comparable at hcomparable
    rw [hsame, if_neg Bool.false_ne_true] at hcomparable
    have hentail := succeeds_require.mp hcomparable
    have hsat := sat_of_entail hd.wf.types hentail hτ
    rw [TypeDomain.typeIs, sat_eq, eval_var, eval_const] at hsat
    exact TypeEncoding.toInt_inj hsat

/-- The pointer is not compared with the number. -/
theorem assume_isSome_iff_of_accepts_packetAndNumber :
    (EbpfTransformer.assume (.named []) packetCondition packetAndNumber).isSome = false ∧
      ∀ τ, packetAndNumber.rcp.types.Models τ → τ ((ProgramVariables.named []).regType 2) = .num := by
  have haccepts : Accepts (.named []) nullableInfo ⟨false, true, false⟩ packetAndNumber
      (getAssertions (.jmp (some packetCondition) .entry) nullableInfo none) := by
    refine ⟨explicate nullableInfo none packetCondition, rfl, ?_⟩
    unfold Except.Succeeds
    decide
  obtain ⟨hiff, hnum⟩ := assume_isSome_iff_of_accepts rfl rfl rfl (feasible_setAll _ _) rfl haccepts
  refine ⟨Bool.eq_false_iff.mpr fun hsome => ?_, hnum (by decide)⟩
  exact absurd (hiff.mp hsome) (by decide)

end Prevail
