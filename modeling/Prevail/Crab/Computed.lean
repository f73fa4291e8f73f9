import Prevail.Analysis.Invariant
import Prevail.Crab.BuiltMemory
import Prevail.Crab.RevMap

/-!
# The states of an analysis

An analysis starts with the entry state, in which `r10` and perhaps `r1` are set up, or with one that is made
from constraints, and goes on by transfer functions, joins, widenings and narrowings. Whatever it does in which
order, and whichever cells the shared map has, its zones are built (`Computed.built`). So they keep the
invariant of the zone domain, and as long as no meet disturbs potentials, each state that is not empty has a
model (`zones_of_computed`). The invariants of a run of the iterator are such states (`zones_of_run`).
-/

namespace Prevail

open TypeToNumDomain EbpfTransformer
open SplitDbm (Reachable UndisturbedMeet)

variable {V : Type} [LinearOrder V]

namespace EbpfDomain

variable (R : ProgramVariables V) (isUnsigned : V → Bool) (info : ProgramInfo) (opts : VerifierOptions)

/-- The part of `setup_entry` for `r1`, a pointer to the context. -/
def setupContext (rcp : TypeToNumDomain V) : TypeToNumDomain V :=
  let svalue := LinearExpression.var (R.reg .svalues 1)
  let values := rcp.values.addConstraint (LinearExpression.le (.const 1) svalue)
  let values := values.addConstraint (LinearExpression.le svalue (.const ptrMax))
  let values := values.assignInt (R.reg .ctxOffsets 1) 0
  { rcp with values := values }.assignType (R.regType 1) (.const TypeEncoding.ctx.toInt)

/-- `setup_entry`. -/
def setupEntry (initR1 : Bool) : EbpfDomain V :=
  let svalue := LinearExpression.var (R.reg .svalues 10)
  let values := AddBottom.top.addConstraint (LinearExpression.le (.const totalStackSize) svalue)
  let values := values.addConstraint (LinearExpression.le svalue (.const ptrMax))
  let values := values.assignInt (R.reg .stackOffsets 10) totalStackSize
  let rcp := assignType ⟨.top, values⟩ (R.regType 10) (.const TypeEncoding.stack.toInt)
  initializePacket R info ⟨if initR1 then setupContext R rcp else rcp, .top⟩

/-- The zones of two states may be met. -/
structure Meets (meets : SplitDbm V → SplitDbm V → Prop) (d o : EbpfDomain V) : Prop where
  types : AddBottom.Meets meets d.rcp.types.inv o.rcp.types.inv
  values : AddBottom.Meets meets d.rcp.values o.rcp.values

/-- The states that an analysis may compute, with the condition `meets` on the zones of each meet. -/
inductive Computed (meets : SplitDbm V → SplitDbm V → Prop) : EbpfDomain V → Prop
  | entry (initR1 : Bool) : Computed meets (setupEntry R info initR1)
  | top : Computed meets .top
  | bottom : Computed meets .bottom
  | addTypeConstraint {d : EbpfDomain V} (hd : Computed meets d) (c : LinearConstraint V) :
    Computed meets (d.addTypeConstraint c)
  | addValueConstraint {d : EbpfDomain V} (hd : Computed meets d) (c : LinearConstraint V) :
    Computed meets (d.addValueConstraint c)
  | setStack {d : EbpfDomain V} (hd : Computed meets d) (stack : ArrayDomain) :
    Computed meets { d with stack := stack }
  | initializeLoopCounter {d : EbpfDomain V} (hd : Computed meets d) (name : Label) :
    Computed meets (EbpfTransformer.initializeLoopCounter R name d)
  | transform {d d' : EbpfDomain V} {arrays arrays' : ArrayMap} (hd : Computed meets d)
    (i : Instruction Operation CallInfo)
    (h : EbpfTransformer.transform R isUnsigned info opts i d arrays = some (d', arrays')) : Computed meets d'
  | joinAssign {d o : EbpfDomain V} (hd : Computed meets d) (ho : Computed meets o) :
    Computed meets (d.joinAssign R.toVariableRegistry o)
  | join {d o : EbpfDomain V} (hd : Computed meets d) (ho : Computed meets o) :
    Computed meets (d.join R.toVariableRegistry o)
  | meet {d o : EbpfDomain V} (hd : Computed meets d) (ho : Computed meets o) (h : Meets meets d o) :
    Computed meets (d.meet o)
  | widen {d o : EbpfDomain V} (hd : Computed meets d) (ho : Computed meets o) :
    Computed meets (d.widen R.toVariableRegistry o false)
  | widenToConstants {d o : EbpfDomain V} (hd : Computed meets d) (ho : Computed meets o)
    (h : Meets meets (d.widen R.toVariableRegistry o false) (constantLimits R.toVariableRegistry)) :
    Computed meets (d.widen R.toVariableRegistry o true)
  | narrow {d o : EbpfDomain V} (hd : Computed meets d) (ho : Computed meets o) : Computed meets (d.narrow o)

variable {R isUnsigned info opts} {meets : SplitDbm V → SplitDbm V → Prop} {d o : EbpfDomain V}

theorem built_setupEntry (initR1 : Bool) : (setupEntry R info initR1).rcp.Built meets := by
  have hx : AddBottom.Built meets _ := ((AddBottom.built_top.addConstraint
    (LinearExpression.le (.const totalStackSize) (.var (R.reg .svalues 10)))).addConstraint
      (LinearExpression.le (.var (R.reg .svalues 10)) (.const ptrMax))).assignInt
        (R.reg .stackOffsets 10) totalStackSize
  have hrcp : Built meets (assignType ⟨.top, _⟩ (R.regType 10) (.const TypeEncoding.stack.toInt)) :=
    Built.assignType ⟨AddBottom.built_top, hx⟩ _ _
  refine built_initializePacket ?_
  split_ifs
  · have hvalues := ((hrcp.values.addConstraint
      (LinearExpression.le (.const 1) (.var (R.reg .svalues 1)))).addConstraint
        (LinearExpression.le (.var (R.reg .svalues 1)) (.const ptrMax))).assignInt (R.reg .ctxOffsets 1) 0
    exact Built.assignType (built_values hrcp hvalues) _ _
  · exact hrcp

theorem built_joinAssign (hd : d.rcp.Built meets) (ho : o.rcp.Built meets) :
    (d.joinAssign R.toVariableRegistry o).rcp.Built meets := by
  unfold joinAssign
  split_ifs
  · exact hd
  · exact ho
  · exact hd.join ho

theorem built_join (hd : d.rcp.Built meets) (ho : o.rcp.Built meets) :
    (d.join R.toVariableRegistry o).rcp.Built meets := by
  unfold EbpfDomain.join
  split_ifs
  · exact hd
  · exact ho
  · exact built_joinAssign ho hd

theorem built_meet (hd : d.rcp.Built meets) (ho : o.rcp.Built meets) (h : Meets meets d o) :
    (d.meet o).rcp.Built meets := by
  unfold EbpfDomain.meet
  simp only
  split_ifs
  · exact hd.meet ho h.types h.values
  · exact built_bottom

theorem built_constantLimits : (constantLimits R.toVariableRegistry).rcp.Built meets :=
  List.foldlRecOn (motive := fun d : EbpfDomain V => d.rcp.Built meets) _ _ TypeToNumDomain.built_top
    fun _ hd c _ => built_values hd (hd.values.addConstraint c)

/-- Whatever an analysis computes is built by the operations of the zone domain. -/
theorem Computed.built (h : Computed R isUnsigned info opts meets d) : d.rcp.Built meets := by
  induction h with
  | entry initR1 => exact built_setupEntry initR1
  | top => exact TypeToNumDomain.built_top
  | bottom => exact built_bottom
  | addTypeConstraint _ c ih => exact ⟨ih.types.addConstraint c, ih.values⟩
  | addValueConstraint _ c ih => exact built_values ih (ih.values.addConstraint c)
  | setStack _ _ ih => exact ih
  | initializeLoopCounter _ name ih => exact built_values ih (ih.values.assignInt _ 0)
  | transform _ i h ih => exact built_transform ih _ _ _ h
  | joinAssign _ _ ihd iho => exact built_joinAssign ihd iho
  | join _ _ ihd iho => exact built_join ihd iho
  | meet _ _ h ihd iho => exact built_meet ihd iho h
  | widen _ _ ihd iho => exact ihd.widen iho
  | widenToConstants _ _ h ihd iho => exact built_meet (Built.widen ihd iho) built_constantLimits h
  | narrow _ _ ihd iho => exact ihd.narrow iho

theorem Computed.reachable (h : Computed R isUnsigned info opts meets d) {z : SplitDbm V}
    (hz : d.rcp.types.inv = some z ∨ d.rcp.values = some z) : Reachable meets z :=
  hz.elim (h.built.types z) (h.built.values z)

/-- The zones of a computed state are built by the zone domain's operations, so they keep its invariants. When no
meet disturbs potentials, the potential of each zone is a model of it. -/
theorem zones_of_computed (h : Computed R isUnsigned info opts meets d) {z : SplitDbm V}
    (hz : d.rcp.types.inv = some z ∨ d.rcp.values = some z) :
    Reachable meets z ∧ z.WF ∧ z.Inverse ∧
      ((∀ a b, meets a b → UndisturbedMeet a b) → z.Models z.relPot) := by
  have hreach := h.reachable hz
  exact ⟨hreach, hreach.wf, hreach.inverse, fun hm => (hreach.potent fun a b h => Or.inl (hm a b h)).models hreach.wf⟩

/-- `*(u64 *)(r10 - 8) = 5`. -/
def storeFive : Operation := .mem ⟨⟨8, 10, -8⟩, .inr 5, false⟩

/-- The entry state after a store in the last word of the stack. -/
def storedFive : Option (EbpfDomain ProgramVariables.Name × ArrayMap) :=
  EbpfTransformer.transform (.named []) (fun _ => false) twoFieldInfo ⟨false, false, false⟩
    (.other storeFive) (setupEntry (.named []) twoFieldInfo true) fun _ => .empty

theorem zones_of_storedFive : ∃ d arrays z, storedFive = some (d, arrays) ∧ d.rcp.values = some z ∧
    Reachable UndisturbedMeet z ∧ z.WF ∧ z.Inverse ∧ z.Models z.relPot := by
  have hsome : (storedFive.bind fun p => p.1.rcp.values).isSome = true := by decide +kernel
  obtain ⟨z, hz⟩ := Option.isSome_iff_exists.mp hsome
  obtain ⟨p, hp, hz⟩ := Option.bind_eq_some_iff.mp hz
  have hcomputed : Computed (.named []) (fun _ => false) twoFieldInfo ⟨false, false, false⟩
      UndisturbedMeet p.1 := .transform (.entry true) _ hp
  obtain ⟨hreach, hwf, hinv, hmodel⟩ := zones_of_computed hcomputed (.inr hz)
  exact ⟨p.1, p.2, z, hp, hz, hreach, hwf, hinv, hmodel fun _ _ h => h⟩

/-! ## Runs of the iterator -/

section Run

variable {A E : Type}

/-- The operations of the iterator's domain are those of the states. A transfer function finds some cells in the
shared map; where it throws, which ends the analysis, the domain may give bottom. -/
structure Operates (R : ProgramVariables V) (isUnsigned : V → Bool) (info : ProgramInfo)
    (opts : VerifierOptions) (dom : FwdDomain Operation CallInfo A E (EbpfDomain V)) : Prop where
  bottom : dom.bottom = .bottom
  join (a b : EbpfDomain V) : dom.join a b = a.join R.toVariableRegistry b ∨
    dom.join a b = a.joinAssign R.toVariableRegistry b
  meet (a b : EbpfDomain V) : dom.meet a b = a.meet b
  widen (a b : EbpfDomain V) (toConstants : Bool) :
    dom.widen a b toConstants = a.widen R.toVariableRegistry b toConstants
  narrow (a b : EbpfDomain V) : dom.narrow a b = a.narrow b
  transform (d : EbpfDomain V) (i : Instruction Operation CallInfo) : dom.transform d i = .bottom ∨
    ∃ arrays arrays', EbpfTransformer.transform R isUnsigned info opts i d arrays =
      some (dom.transform d i, arrays')
  initializeLoopCounter (d : EbpfDomain V) (l : Label) :
    dom.initializeLoopCounter d l = EbpfTransformer.initializeLoopCounter R l d

variable {checkForTermination : Bool} {dom : FwdDomain Operation CallInfo A E (EbpfDomain V)}
  {prog : Program Operation CallInfo A} {entryInv : EbpfDomain V} {fuel : ℕ}
  {s : FwdAnalyzer E (EbpfDomain V)} {l : Label} {i : InvariantMapPair E (EbpfDomain V)} {z : SplitDbm V}

theorem meets_true (d o : EbpfDomain V) : Meets (fun _ _ => True) d o :=
  ⟨fun _ _ _ _ => trivial, fun _ _ _ _ => trivial⟩

/-- Whatever is made from a computed state by the operations of the domain is computed. -/
theorem Operates.computed (hdom : Operates R isUnsigned info opts dom)
    (hentry : Computed R isUnsigned info opts (fun _ _ => True) entryInv) (h : dom.Made prog entryInv d) :
    Computed R isUnsigned info opts (fun _ _ => True) d := by
  induction h with
  | entry => exact hentry
  | bottom => exact hdom.bottom ▸ .bottom
  | @join a b _ _ iha ihb =>
    rcases hdom.join a b with heq | heq
    · exact heq ▸ .join iha ihb
    · exact heq ▸ .joinAssign iha ihb
  | @meet a b _ _ iha ihb => exact hdom.meet a b ▸ .meet iha ihb (meets_true a b)
  | @widen a b _ _ toConstants iha ihb =>
    rw [hdom.widen a b toConstants]
    cases toConstants with
    | false => exact .widen iha ihb
    | true => exact .widenToConstants iha ihb (meets_true _ _)
  | @narrow a b _ _ iha ihb => exact hdom.narrow a b ▸ .narrow iha ihb
  | @transform d _ _ i _ ih =>
    rcases hdom.transform d i with heq | ⟨arrays, arrays', heq⟩
    · exact heq ▸ .bottom
    · exact .transform ih i heq
  | @initializeLoopCounter d _ l ih => exact hdom.initializeLoopCounter d l ▸ .initializeLoopCounter ih l

/-- The zones of each invariant of a run keep the invariants of the zone domain. -/
theorem zones_of_run (hdom : Operates R isUnsigned info opts dom)
    (hentry : Computed R isUnsigned info opts (fun _ _ => True) entryInv)
    (h : FwdAnalyzer.run dom prog checkForTermination fuel entryInv = .ok s) (hi : s.find? l = some i)
    (hd : d = i.pre ∨ d = i.post) (hz : d.rcp.types.inv = some z ∨ d.rcp.values = some z) :
    z.WF ∧ z.Inverse := by
  obtain ⟨hpre, hpost⟩ := FwdAnalyzer.made_of_run h l i hi
  have hmade : dom.Made prog entryInv d := by
    rcases hd with rfl | rfl
    · exact hpre
    · exact hpost
  have hreach := (hdom.computed hentry hmade).reachable hz
  exact ⟨hreach.wf, hreach.inverse⟩

end Run

/-- The domain of a program without assertions, in which transfer functions find an empty map. -/
def emptyMapDomain : FwdDomain Operation CallInfo Unit Unit (EbpfDomain ProgramVariables.Name) :=
  let R := ProgramVariables.named []
  { bottom := .bottom
    isBottom d := d.isBottom
    le a b := a.le R.toVariableRegistry b
    join a b := a.join R.toVariableRegistry b
    meet a b := a.meet b
    widen a b toConstants := a.widen R.toVariableRegistry b toConstants
    narrow a b := a.narrow b
    getR0 d := d.rcp.values.evalInterval (.var (R.reg .svalues 0))
    getLoopCountUpperBound _ := .fin 0
    transform d i :=
      ((EbpfTransformer.transform R (fun _ => false) twoFieldInfo ⟨false, false, false⟩ i d
        fun _ => .empty).map Prod.fst).getD .bottom
    check _ _ _ := none
    initializeLoopCounter d l := EbpfTransformer.initializeLoopCounter R l d }

theorem operates_emptyMapDomain :
    Operates (.named []) (fun _ => false) twoFieldInfo ⟨false, false, false⟩ emptyMapDomain where
  bottom := rfl
  join _ _ := Or.inl rfl
  meet _ _ := rfl
  widen _ _ _ := rfl
  narrow _ _ := rfl
  transform d i := by
    cases h : EbpfTransformer.transform (.named []) (fun _ => false) twoFieldInfo ⟨false, false, false⟩ i d
      fun _ => .empty with
    | none =>
      left
      show ((EbpfTransformer.transform (.named []) _ _ _ i d _).map Prod.fst).getD .bottom = .bottom
      rw [h]
      rfl
    | some p =>
      refine Or.inr ⟨fun _ => .empty, p.2, h.trans (congrArg some (Prod.ext ?_ rfl))⟩
      show p.1 = ((EbpfTransformer.transform (.named []) _ _ _ i d _).map Prod.fst).getD .bottom
      rw [h]
      rfl
  initializeLoopCounter _ _ := rfl

/-- `*(u64 *)(r10 - 8) = 5; exit`. -/
def storeProgram : Except ProgramError (Program Operation CallInfo Unit) :=
  Program.fromSequence (fun _ _ => []) 100
    [(.ofIndex 0, .other storeFive), (.ofIndex 1, .exit [])] true false

/-- The analysis ends with values at the exit. -/
def storeTest (prog : Program Operation CallInfo Unit) : Bool :=
  (FwdAnalyzer.run emptyMapDomain prog false 100 (setupEntry (.named []) twoFieldInfo true)).okWith
    fun s => ((s.find? .exit).bind fun i => i.post.rcp.values).isSome

theorem zones_of_run_store : ∃ prog s i z, storeProgram = .ok prog ∧
    FwdAnalyzer.run emptyMapDomain prog false 100 (setupEntry (.named []) twoFieldInfo true) = .ok s ∧
      s.find? .exit = some i ∧ i.post.rcp.values = some z ∧ z.WF ∧ z.Inverse := by
  obtain ⟨prog, hprog, htest⟩ :=
    Except.exists_of_okWith (show storeProgram.okWith storeTest from by decide +kernel)
  obtain ⟨s, hs, hsome⟩ := Except.exists_of_okWith htest
  obtain ⟨z, hz⟩ := Option.isSome_iff_exists.mp hsome
  obtain ⟨i, hi, hz⟩ := Option.bind_eq_some_iff.mp hz
  have hzones := zones_of_run operates_emptyMapDomain (.entry true) hs hi (.inr rfl) (.inr hz)
  exact ⟨prog, s, i, z, hprog, hs, hi, hz, hzones⟩

end EbpfDomain

end Prevail
