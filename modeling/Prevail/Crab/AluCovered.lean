import Prevail.Crab.NumberPaths

/-!
# Arithmetic covers the machine

On registers that are numbers, an instruction `Covers` the machine when its transfer function raises no error and
the state that it leaves admits the word that the machine computes. `Un` always does. `Bin` does where its
operations on intervals lose no result, and does not where the negation of the immediate value of a subtraction
does not fit.
-/

namespace Prevail

open AddBottom TypeToNumDomain ProgramVariables EbpfTransformer Number

/-- An immediate value as it is decoded: a number of 32 bits with a sign, or any number that is moved. -/
def Bin.ImmDecoded (b : Bin) : Prop :=
  ∀ imm, b.v = .inr imm → b.op = .mov ∨ isMove b.op = false ∧ FitsS 32 (immNumber b.is64 imm)

/-- The immediate value of a subtraction can be negated in 32 bits. -/
def Bin.ImmNegates (b : Bin) : Prop :=
  ∀ imm, b.v = .inr imm → b.op = .sub → immNumber b.is64 imm ≠ minInt 32

namespace PathStep

section

variable {V M : Type} [LinearOrder V] (R : ProgramVariables V) (isUnsigned : V → Bool) (opts : VerifierOptions)
  (E : Machine.Env M)

/-- The registers that the instruction reads are known to be numbers. -/
structure ReadsNumbers (b : Bin) (rcp : TypeToNumDomain V) : Prop where
  dst : isMove b.op = false → rcp.types.Knows (R.regType b.dst) .num
  src : ∀ src, b.v = .inl src → rcp.types.Knows (R.regType src) .num

/-- For every machine state of the abstract state, the step leaves an abstract state that has what the machine
computes. -/
def Covers (i : PathStep) (d : EbpfDomain V) : Prop :=
  ∀ c c', Stands R d c → i.run R E c = some c' →
    ∃ d', i.transfer R isUnsigned opts d = some d' ∧ d'.stack = d.stack ∧ Stands R d' c'

end

variable {V M : Type} [LinearOrder V] {R : ProgramVariables V} {isUnsigned : V → Bool} {opts : VerifierOptions}
  {E : Machine.Env M} {d : EbpfDomain V} {b : Bin} {u : Un} {c : Snapshot V × Machine.State M}

theorem ReadsNumbers.operands (h : ReadsNumbers R b d.rcp) (himm : b.ImmDecoded) (hneg : b.ImmNegates) :
    NumberOperands R b d.rcp where
  dst := h.dst
  src := h.src
  imm imm hv := (himm imm hv).imp_right fun h => ⟨h.1, h.2, hneg imm hv⟩

/-- The least number of 32 bits is not subtracted: its negation is narrowed, which raises an error. -/
theorem bin_eq_none {imm : UInt64} (hbot : d.isBottom = false)
    (hinit : d.rcp.types.isInitialized (R.regType b.dst) = true) (hv : b.v = .inr imm) (hop : b.op = .sub)
    (himm : immNumber b.is64 imm = minInt 32) : EbpfTransformer.bin R isUnsigned b d = none := by
  have hnarrow : narrowS 32 (-minInt 32) = none := by decide
  have hsub : ∀ e, binImm R isUnsigned b (immNumber b.is64 imm) (width b.is64) { d with rcp := e } = none := by
    intro e
    unfold binImm addImm
    rw [hop, himm]
    simp only
    rw [if_neg (by decide), hnarrow]
    rfl
  unfold EbpfTransformer.bin
  rw [if_neg (by simp [hbot]), if_neg (by simp [hinit]), hv]
  cases hcut : cutOperand R isUnsigned b d.rcp with
  | none => rfl
  | some e =>
    show (binImm R isUnsigned b (immNumber b.is64 imm) (width b.is64) { d with rcp := e }).bind _ = none
    rw [hsub]
    rfl

theorem immNegates_of_covers (hc : Stands R d c) (hnum : ReadsNumbers R b d.rcp)
    (h : (bin b).Covers R isUnsigned opts E d) : b.ImmNegates := by
  intro imm hv hop himm
  have hdst := hnum.dst (by rw [hop]; rfl)
  have hnone : EbpfTransformer.bin R isUnsigned b d = none :=
    bin_eq_none (isBottom_of_models hc.models) (hdst.isInitialized hc.models.1 (by decide)) hv hop himm
  obtain ⟨d', hd', -⟩ := h c _ hc rfl
  exact absurd (hnone.symm.trans hd') nofun

/-- Arithmetic on numbers covers the machine where its operations on intervals lose no result. -/
theorem covers_arithmetic (hs : WordSigns R isUnsigned) (hbig : E.bigEndian = opts.bigEndian) :
    (∀ u : Un, d.rcp.types.Knows (R.regType u.dst) .num → (un u).Covers R isUnsigned opts E d) ∧
      ∀ b : Bin, b.ImmDecoded → ReadsNumbers R b d.rcp →
        (b.ImmNegates → BinExact R isUnsigned b d.rcp → (bin b).Covers R isUnsigned opts E d) ∧
          ((∃ c, Stands (M := M) R d c) → (bin b).Covers R isUnsigned opts E d → b.ImmNegates) := by
  refine ⟨fun u hknown c c' hc hrun => exists_transfer hs hbig hc hknown hrun, fun b himm hnum => ⟨?_, ?_⟩⟩
  · intro hneg hexact c c' hc hrun
    exact exists_transfer hs hbig hc ⟨hnum.operands himm hneg, hexact⟩ hrun
  · rintro ⟨c, hc⟩ hcovers
    exact immNegates_of_covers hc hnum hcovers

/-! ### A signed division -/

/-- `r1 s/= r2`. -/
def divide : Bin := ⟨.sdiv, 1, .inl 2, true, false⟩

/-- Both registers are numbers. -/
def numberTypes : TypeDomain Name :=
  ⟨setAll AddBottom.top [((named []).regType 1, .const TypeEncoding.num.toInt),
    ((named []).regType 2, .const TypeEncoding.num.toInt)]⟩

/-- `n` in `r1`, three or four in `r2`. -/
def dividend (n : BitVec 64) : EbpfDomain Name :=
  let R := named []
  ⟨⟨numberTypes, setAll AddBottom.top [(R.reg .svalues 1, .const n.toInt), (R.reg .uvalues 1, .const n.toNat),
      (R.reg .svalues 2, .ofInts 3 4), (R.reg .uvalues 2, .ofInts 3 4)]⟩, .top⟩

/-- The types of the two registers. -/
def registerTypes (v : Name) : TypeEncoding :=
  if v = (named []).regType 1 ∨ v = (named []).regType 2 then .num else .uninit

/-- The registers hold `n` and four. -/
def dividing (n : BitVec 64) : Snapshot Name × Machine.State Unit :=
  (⟨registerTypes, fun v => if v = (named []).reg .svalues 1 then n.toInt
      else if v = (named []).reg .uvalues 1 then n.toNat else 4⟩, ⟨fun r => if r = 1 then n else 4, ()⟩)

theorem knows_numberTypes {r : Reg}
    (h : numberTypes.inv.evalInterval (.var ((named []).regType r)) = .const TypeEncoding.num.toInt) :
    numberTypes.Knows ((named []).regType r) .num := by
  intro k hk
  rw [h] at hk
  exact Interval.mem_const.mp hk

theorem readsNumbers_divide (n : BitVec 64) : ReadsNumbers (named []) divide (dividend n).rcp where
  dst _ := @knows_numberTypes 1 (by decide)
  src _ hsrc := Sum.inl.inj hsrc ▸ @knows_numberTypes 2 (by decide)

theorem immDecoded_divide : divide.ImmDecoded := fun _ h => absurd h Sum.inl_ne_inr

theorem immNegates_divide : divide.ImmNegates := fun _ h => absurd h Sum.inl_ne_inr

theorem stands_dividing {n : BitVec 64} (h : (dividend n).rcp.values.Models (dividing n).1.values) :
    Stands (named []) (dividend n) (dividing n) := by
  have htypes : numberTypes.Models registerTypes := models_setAll_top (by decide)
  refine ⟨⟨wf_setAll wf_top, wf_setAll wf_top⟩, ⟨htypes, _, fun _ _ => rfl, h⟩, fun r hr => ?_⟩
  have hr : r = 1 ∨ r = 2 := by
    change registerTypes ((named []).regType r) = .num at hr
    unfold registerTypes at hr
    split_ifs at hr with h
    exact h.imp regType_inj.mp regType_inj.mp
  rcases hr with rfl | rfl
  · exact ⟨rfl, rfl⟩
  · exact ⟨rfl, rfl⟩

theorem stands_minusThree : Stands (named []) (dividend (-3)) (dividing (-3)) :=
  stands_dividing (models_setAll_top (by decide))

/-- The quotients of seven are kept. -/
theorem covers_arithmetic_seven :
    (bin divide).Covers (named []) isUnsignedName littleEndian registersOnly (dividend 7) := by
  obtain ⟨-, hbin⟩ := @covers_arithmetic Name Unit _ (named []) isUnsignedName littleEndian registersOnly (dividend 7)
    ⟨fun _ => rfl, fun _ => rfl⟩ rfl
  refine (hbin divide immDecoded_divide (readsNumbers_divide 7)).1 immNegates_divide ⟨?_, fun _ _ _ _ _ _ => trivial⟩
  have hintervals : ∃ z, (dividend 7).rcp.values = some z ∧
      (FiniteDomain.BinOp.signedArith .sdiv).varInterval isUnsignedName z 64 ((named []).reg .svalues 1) =
        ⟨.fin 7, .fin 7⟩ ∧
      (FiniteDomain.BinOp.signedArith .sdiv).varInterval isUnsignedName z 64 ((named []).reg .svalues 2) =
        ⟨.fin 3, .fin 4⟩ := ⟨_, rfl, by decide, by decide⟩
  obtain ⟨z, hz, hleft, hright⟩ := hintervals
  rintro d hd right hoperand
  obtain rfl := Option.some.inj (hz.symm.trans hd)
  obtain rfl := Option.some.inj hoperand
  show FiniteDomain.BinOp.Exact _ 64 (FiniteDomain.BinOp.varInterval _ _ z 64 ((named []).reg .svalues 1))
    (FiniteDomain.BinOp.varInterval _ _ z 64 ((named []).reg .svalues 2))
  rw [hleft, hright]
  show Interval.SdivExact 7 7 3 4
  decide

/-- The quotient of -3 by 4 is lost. -/
theorem not_covers_divide : Stands (named []) (dividend (-3)) (dividing (-3)) ∧
    ReadsNumbers (named []) divide (dividend (-3)).rcp ∧
      ¬ (bin divide).Covers (named []) isUnsignedName littleEndian registersOnly (dividend (-3)) := by
  refine ⟨stands_minusThree, readsNumbers_divide _, fun h => ?_⟩
  obtain ⟨d', hd', -, hc'⟩ := h _ _ (stands_minusThree) rfl
  have hmem := (hc'.mem_evalInterval (r := 1) rfl).1
  have hinterval : ((bin divide).transfer (named []) isUnsignedName littleEndian (dividend (-3))).map
      (·.rcp.values.evalInterval (.var ((named []).reg .svalues 1))) = some ⟨.fin (-2), .fin (-1)⟩ := by decide
  rw [hd', Option.map_some, Option.some.injEq] at hinterval
  rw [hinterval] at hmem
  have hle : (0 : ℤ) ≤ -1 := Bound.fin_le_fin.mp hmem.2
  omega

end PathStep

end Prevail
