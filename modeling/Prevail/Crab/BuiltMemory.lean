import Prevail.Crab.BuiltTransform
import Prevail.Crab.TransformMem

/-!
# The transfer functions of calls and of memory keep the zones built

The cells of the stack are variables of the zones. To load, to store and to forget bytes assigns to cells and
forgets cells, whichever cells the shared map has. With that each instruction keeps the zones built
(`built_transform`).
-/

namespace Prevail

open Option StateT TypeToNumDomain
open SplitDbm (Reachable)

variable {V : Type} [LinearOrder V] {meets : SplitDbm V → SplitDbm V → Prop} {R : ProgramVariables V}
  {isUnsigned : V → Bool} {info : ProgramInfo} {opts : VerifierOptions} {rcp : TypeToNumDomain V}
  {d : EbpfDomain V} {stack : ArrayDomain}

/-! ## Cells -/

namespace ArrayDomain

variable {bigEndian : Bool} {x : AddBottom V} {a : ArrayDomain} {kind : DataKind} {idx elemSize : Interval}

/-- The piece of a cell takes the bytes that the cell is known to hold. -/
theorem built_splitCell (hx : x.Built meets) (start len : ℕ) :
    Ensures (splitCell R bigEndian x kind start len) (AddBottom.Built meets) := by
  unfold splitCell
  refine Ensures.bind' fun svalue => Ensures.bind' fun uvalue => Ensures.bind' fun c => Ensures.pure ?_
  exact (hx.assignOpt _ svalue).assignOpt _ uvalue

/-- A cell that the access cuts leaves a piece on either side of it, or on one. -/
theorem built_splitOverlap (hx : x.Built meets) (o size : ℕ) (c : Cell) :
    Ensures (splitOverlap R bigEndian a kind o size x c) (AddBottom.Built meets) := by
  unfold splitOverlap
  refine Ensures.bind' fun i => Ensures.bind' fun lb => Ensures.bind' fun start => ?_
  refine Ensures.bind' fun ub => Ensures.bind' fun last => ?_
  split_ifs
  · exact Ensures.pure hx
  · exact Ensures.pure hx
  · exact (built_splitCell hx _ _).bind fun y hy => built_splitCell hy _ _
  · exact (Ensures.pure hx).bind fun y hy => built_splitCell hy _ _
  · exact (built_splitCell hx _ _).bind fun y hy => Ensures.pure hy
  · exact (Ensures.pure hx).bind fun y hy => Ensures.pure hy

theorem built_splitNumberVar (hx : x.Built meets) :
    Ensures (splitNumberVar R bigEndian a x kind idx elemSize) (AddBottom.Built meets) := by
  unfold splitNumberVar
  split
  · refine Ensures.bind' fun size => Ensures.bind' fun o => Ensures.bind' fun cells => ?_
    exact Ensures.foldlM hx fun c _ y hy => built_splitOverlap hy _ _ c
  · exact Ensures.pure hx

/-- The variables of a cell are forgotten, both words of a number with each other. -/
theorem built_havocCell (hx : x.Built meets) (c : Cell) : (havocCell R kind x c).Built meets := by
  have hx' := hx.havoc (getScalar R kind c)
  unfold havocCell
  simp only
  split_ifs
  · exact hx'.havoc _
  · exact hx'.havoc _
  · exact hx'

/-- The cells that the access overlaps are killed and forgotten. -/
theorem built_killAndFindVar (hx : x.Built meets) :
    Ensures (killAndFindVar R x kind idx elemSize) fun r => r.2.Built meets := by
  unfold killAndFindVar
  refine Ensures.bind' fun res => Ensures.bind' fun _ => Ensures.pure ?_
  exact hx.foldl fun y c hy => built_havocCell hy c

/-- Numbers keep what the access leaves of them; other kinds are only killed. -/
theorem built_splitAndFindVar (hx : x.Built meets) :
    Ensures (splitAndFindVar R bigEndian a x kind idx elemSize) fun r => r.2.Built meets := by
  unfold splitAndFindVar
  split_ifs
  · exact (built_splitNumberVar hx).bind fun y hy => built_killAndFindVar hy
  · exact (Ensures.pure hx).bind fun y hy => built_killAndFindVar hy

theorem built_havoc (hx : x.Built meets) :
    Ensures (havoc R bigEndian a x kind idx elemSize) (AddBottom.Built meets) := by
  unfold havoc
  exact (built_splitAndFindVar hx).bind fun r hr => Ensures.pure hr

theorem built_havocKinds (hx : x.Built meets) :
    Ensures (havocKinds R bigEndian a x idx elemSize) (AddBottom.Built meets) :=
  Ensures.foldlM hx fun _ _ _ hy => built_havoc hy

/-- A store looks for its cell, which has no value yet: the caller assigns it. -/
theorem built_store (hx : x.Built meets) :
    Ensures (store R bigEndian a x kind idx elemSize) fun r => r.2.Built meets := by
  unfold store
  refine (built_splitAndFindVar hx).bind fun r hr => ?_
  obtain ⟨place, y⟩ := r
  cases place with
  | none => exact Ensures.pure hr
  | some place => exact Ensures.bind' fun c => Ensures.pure hr

/-- The type of a store is kept in the zone of the types. -/
theorem built_storeType {t : TypeDomain V} {isNum : Bool} (ht : t.inv.Built meets) :
    Ensures (storeType R bigEndian a t idx elemSize isNum) fun r => r.2.1.inv.Built meets := by
  unfold storeType
  refine (built_splitAndFindVar ht).bind fun r hr => ?_
  obtain ⟨place, y⟩ := r
  cases place with
  | none => exact Ensures.bind' fun range => Ensures.pure hr
  | some place => exact Ensures.bind' fun c => Ensures.pure hr

theorem built_havocType {t : TypeDomain V} (ht : t.inv.Built meets) :
    Ensures (havocType R bigEndian a t idx elemSize) fun r => r.1.inv.Built meets := by
  unfold havocType
  refine (built_splitAndFindVar ht).bind fun r hr => ?_
  obtain ⟨place, y⟩ := r
  cases place with
  | none => exact Ensures.pure hr
  | some place => exact Ensures.pure hr

end ArrayDomain

namespace EbpfTransformer

open ArrayDomain

/-! ## Calls -/

/-- A call scratches the registers that the callee need not keep. -/
theorem built_scratchCallerSavedRegisters (hd : rcp.Built meets) :
    (scratchCallerSavedRegisters R rcp).Built meets :=
  List.foldlRecOn (motive := fun rcp : TypeToNumDomain V => rcp.Built meets) _ _ hd
    fun _ hd r _ => hd.havocRegister r

/-- The size of the packet becomes any number below the greatest size. -/
theorem built_initializePacket (hd : d.rcp.Built meets) : (d.initializePacket R info).rcp.Built meets := by
  have hx := ((((hd.values.havoc R.packetSize).havoc R.metaOffset).addConstraint
    (LinearExpression.le (.const 0) (.var R.packetSize))).addConstraint
      (LinearExpression.lt (.var R.packetSize) (.const maxPacketSize)))
  refine ⟨hd.types, ?_⟩
  unfold EbpfDomain.initializePacket
  simp only
  split_ifs
  · exact (hx.addConstraint _).addConstraint _
  · exact hx.assignInt _ _

theorem built_forgetPacketPointers (hd : d.rcp.Built meets) :
    (forgetPacketPointers R info d).Returns (·.rcp.Built meets) :=
  (hd.havocAllLocationsHavingType _).bind fun rcp hrcp =>
    .some (@built_initializePacket _ _ _ _ _ { d with rcp := rcp } hrcp)

theorem built_assignValidPtr (hd : rcp.Built meets) (dst : Reg) (maybeNull : Bool) :
    (assignValidPtr R rcp dst maybeNull).Built meets :=
  built_values hd (((((hd.values.havoc _).havoc _).addConstraint _).addConstraint _).assign _ _)

theorem built_doLoadMapfd (hd : rcp.Built meets) (dst : Reg) (mapfd : ℤ) (maybeNull : Bool) :
    (doLoadMapfd R info rcp dst mapfd maybeNull).Returns (Built meets) := by
  refine Returns.bind' fun desc => .some (built_assignValidPtr ?_ dst maybeNull)
  exact built_values (hd.assignType _ _) (hd.values.assignInt _ _)

/-- Each region that the pointer of the argument may have is written; only the stack has cells. -/
theorem built_writeMem (hd : d.rcp.Built meets) (param : ArgPair) :
    Ensures (writeMem R opts d param) (·.rcp.Built meets) := by
  unfold writeMem
  split_ifs
  · exact Ensures.pure hd
  · refine Ensures.bind' fun offset => ?_
    cases offset with
    | none => exact Ensures.pure hd
    | some offset =>
      refine Ensures.bind (Q := fun r : TypeToNumDomain V × Bool => r.1.Built meets) ?_ fun r hr => ?_
      · intro s r s' heq
        obtain ⟨⟨rcp, arrays, store⟩, hjoin, heq⟩ := Option.bind_eq_some_iff.mp heq
        obtain ⟨rfl, -⟩ := Prod.mk.inj (Option.some.inj heq)
        refine hd.joinOverTypes (fun rcp t hrcp => ?_) _ _ _ hjoin
        intro s rcp' s' heq
        simp only at heq
        split_ifs at heq
        · obtain ⟨⟨values, arrays⟩, hhavoc, heq⟩ := Option.bind_eq_some_iff.mp heq
          obtain ⟨rfl, -⟩ := Prod.mk.inj (Option.some.inj heq)
          exact built_values hrcp (built_havocKinds hrcp.values _ _ _ hhavoc)
        · obtain ⟨rfl, -⟩ := Prod.mk.inj (Option.some.inj heq)
          exact hrcp
      · obtain ⟨rcp, store⟩ := r
        cases store
        · exact Ensures.bind' fun _ => Ensures.pure hr
        · exact Ensures.bind' fun _ => Ensures.pure hr

theorem built_sharedOrNull (hd : rcp.Built meets) : (sharedOrNull R rcp).Built meets := by
  have hptr := built_assignValidPtr (R := R) hd 0 true
  exact Built.assignType (built_values hptr (hptr.values.assignInt _ 0)) _ _

/-- The result is a pointer into the map found, a map inside it, or to shared memory of no known size. -/
theorem built_mapLookup {fdReg : Option Reg} (hd : d.rcp.Built meets) :
    (mapLookup R info d fdReg).Returns (Built meets) := by
  have hnull := built_sharedOrNull (R := R) hd
  unfold mapLookup
  cases fdReg with
  | none => exact .some hnull
  | some fdReg =>
    refine Returns.bind' fun mapType => ?_
    cases mapType with
    | none => exact .some hnull
    | some mapType =>
      simp only
      split_ifs
      · refine Returns.bind' fun innerMapFd => ?_
        cases innerMapFd with
        | none => exact .some hnull
        | some innerMapFd => exact built_doLoadMapfd hd _ _ _
      · refine Returns.bind' fun size => .some (built_sharedOrNull ?_)
        have hptr := built_assignValidPtr (R := R) hd 0 true
        have hzero := built_values hptr (hptr.values.assignInt (R.reg .sharedOffsets 0) 0)
        exact Built.assignType (built_values hzero (hzero.values.set _ size)) _ _

theorem built_callResult (hd : d.rcp.Built meets) (c : CallInfo) :
    (callResult R info d c).Returns (Built meets) := by
  have hsize := built_values hd (hd.values.havoc (R.reg .stackNumericSizes 0))
  unfold callResult
  simp only
  split_ifs
  · exact @built_mapLookup _ _ _ _ _ { d with rcp := _ } _ hsize
  · exact .some ((hsize.havocRegisterExceptType 0).assignType _ _)

/-- The call writes its buffers, then sets the result, then scratches the registers. -/
theorem built_call (hd : d.rcp.Built meets) (c : CallInfo) :
    Ensures (call R info opts c d) (·.rcp.Built meets) := by
  unfold call
  split_ifs with hbot hpacket
  · exact Ensures.pure hd
  all_goals
    refine Ensures.bind (Q := fun d : EbpfDomain V => d.rcp.Built meets)
      (Ensures.foldlM hd fun param _ d hd => built_writeMem hd param) fun d hd => ?_
    refine (built_callResult hd c).lift.bind fun rcp hrcp => ?_
    have hrcp := built_scratchCallerSavedRegisters (R := R) hrcp
  · exact (@built_forgetPacketPointers _ _ _ _ _ { d with rcp := _ } hrcp).lift
  · exact Ensures.pure hrcp

/-- A register that is not one helper leaves the state as it is; the checker reports it. -/
theorem built_callx (hd : d.rcp.Built meets) (func : Reg) :
    Ensures (callx R info opts func d) (·.rcp.Built meets) := by
  unfold callx
  split
  · exact Ensures.pure hd
  · split
    · exact Ensures.pure hd
    · split
      · exact Ensures.pure hd
      · split
        · exact Ensures.pure hd
        · split
          · exact Ensures.failure
          · exact built_call hd _

/-! ## Local calls -/

/-- Both the saving and the restoring of a register loop over the kinds of the types it may have. -/
theorem built_forSavedKinds {types : TypeDomain V} {v : V} {step : AddBottom V → DataKind → AddBottom V}
    {x : AddBottom V} (hx : x.Built meets) (hstep : ∀ x kind, x.Built meets → (step x kind).Built meets) :
    (forSavedKinds types v step x).Returns (AddBottom.Built meets) :=
  Returns.bind' fun _ => Returns.foldlM hx fun _ _ _ hx => Returns.bind' fun _ => .some (hx.foldl hstep)

/-- The registers of the caller are saved into variables of the frame. -/
theorem built_saveCalleeSavedRegisters (hd : rcp.Built meets) (f : Frame) :
    (saveCalleeSavedRegisters R f rcp).Returns (Built meets) := by
  refine Returns.foldlM hd fun r _ rcp hd => ?_
  unfold saveRegister
  refine .ite ?_ (.some hd)
  have hd := hd.assignType (R.stackFrameVar .types r f) (.var (R.regType r))
  refine (built_forSavedKinds hd.values fun x kind hx => ?_).bind fun x hx => .some (built_values hd hx)
  unfold saveKind
  split_ifs
  · exact hx
  · exact hx.assign _ _

theorem built_restoreInitialized (hd : rcp.Built meets) (f : Frame) (r : Reg) :
    (restoreInitialized R f rcp r).Returns (Built meets) := by
  unfold restoreInitialized
  refine .ite ?_ (.some hd)
  have hd := hd.assignType (R.regType r) (.var (R.stackFrameVar .types r f))
  refine (built_forSavedKinds hd.values fun x kind hx => ?_).bind fun x hx => .some (built_values hd hx)
  unfold restoreKind
  simp only
  split_ifs
  · exact (hx.assign _ _).havoc _
  · exact (hx.havoc _).havoc _

/-- Each register is restored where its saved type is initialized, then that type is forgotten. -/
theorem built_restoreCalleeSavedRegisters (hd : rcp.Built meets) (f : Frame) :
    (restoreCalleeSavedRegisters R f rcp).Returns (Built meets) :=
  Returns.foldlM hd fun r _ _ hd => (built_restoreInitialized hd f r).bind fun _ hd =>
    .some ⟨hd.types.havoc _, hd.values⟩

/-- The bytes of the stack frame of the callee are forgotten. -/
theorem built_havocSubprogramStack (hd : d.rcp.Built meets) :
    Ensures (havocSubprogramStack R opts d) (·.rcp.Built meets) := by
  unfold havocSubprogramStack
  split
  · exact Ensures.pure hd
  · refine Ensures.bind' fun n => (built_havocType hd.types).bind fun res htypes => ?_
    exact (built_havocKinds hd.values).bind fun values hvalues => Ensures.pure ⟨htypes, hvalues⟩

theorem built_callLocal (hd : d.rcp.Built meets) (f : Frame) :
    (callLocal R isUnsigned f d).Returns (·.rcp.Built meets) := by
  unfold callLocal
  refine .ite (.some hd) ((built_saveCalleeSavedRegisters hd f).bind fun rcp hrcp => ?_)
  exact @built_add _ _ _ _ _ { d with rcp := rcp } _ _ hrcp _

/-- The exit of `main` changes nothing. A callee forgets its stack frame and restores the caller. -/
theorem built_exit (hd : d.rcp.Built meets) (f : Frame) :
    Ensures (exit R isUnsigned opts f d) (·.rcp.Built meets) := by
  unfold exit
  split_ifs
  · exact Ensures.pure hd
  · exact Ensures.pure hd
  · refine (built_havocSubprogramStack hd).bind fun d hd => ?_
    refine (built_restoreCalleeSavedRegisters hd f).lift.bind fun rcp hrcp => ?_
    exact (@built_add _ _ _ _ _ { d with rcp := rcp } _ _ hrcp _).lift

/-! ## Loads -/

/-- A packet pointer of the context gets its offset from `assign`. -/
theorem built_loadCtxField {target : Reg} {width : ℤ} {assign : AddBottom V → V → AddBottom V}
    (hd : rcp.Built meets) (hassign : ∀ x v, x.Built meets → (assign x v).Built meets) :
    (loadCtxField R info rcp target width assign).Built meets := by
  unfold loadCtxField
  simp only
  split_ifs
  · have hpacket := (built_values hd (hassign _ (R.reg .packetOffsets target) hd.values)).assignType
      (R.regType target) (.const TypeEncoding.packet.toInt)
    exact built_values hpacket ((hpacket.values.addConstraint _).addConstraint _)
  · exact hd

/-- The address decides whether a packet pointer, a number or something unknown is loaded. -/
theorem built_doLoadCtx {target : Reg} {addr : LinearExpression V} {width : ℤ} (hd : rcp.Built meets) :
    (doLoadCtx R info rcp target addr width).Built meets := by
  have hhavoc := hd.havocRegister (R := R) target
  have hnumber := hhavoc.assignType (R.regType target) (.const TypeEncoding.num.toInt)
  have hother : ∀ c : Bool, Built meets (if c then
      { havocRegister R rcp target with
        types := (havocRegister R rcp target).types.havocType (R.regType target) }
      else (havocRegister R rcp target).assignType (R.regType target) (.const TypeEncoding.num.toInt)) := by
    intro c
    split_ifs
    · exact ⟨hhavoc.types.havoc _, hhavoc.values⟩
    · exact hnumber
  unfold doLoadCtx
  simp only
  split
  · exact hd
  · split
    · exact hnumber
    · split
      · exact hother _
      · split
        · exact built_loadCtxField hhavoc fun x v hx => hx.assignInt _ _
        · split
          · exact built_loadCtxField hhavoc fun x v hx => hx.assign _ _
          · split
            · exact built_loadCtxField hhavoc fun x v hx => hx.assign _ _
            · exact hother _

/-- A load of 1, 2, 4 or 8 bytes reads the cells; other widths leave the value unknown. -/
theorem built_loadValues {target : Reg} {addr : Interval} {width : ℤ} (hd : rcp.Built meets) :
    Ensures (loadValues R opts target addr width rcp) (Built meets) := by
  have hhavoc := hd.havocRegisterExceptType (R := R) target
  unfold loadValues
  split_ifs
  · refine Ensures.bind' fun sresult => Ensures.bind' fun uresult => Ensures.bind' fun types => ?_
    have hx := (hhavoc.values.assignOpt (R.reg .svalues target) sresult).assignOpt
      (R.reg .uvalues target) uresult
    refine (Ensures.foldlM hx fun type _ x hx => ?_).bind fun x hx => Ensures.pure (built_values hhavoc hx)
    refine Ensures.bind' fun kinds => Ensures.foldlM hx fun kind _ x hx => ?_
    exact Ensures.bind' fun e => Ensures.pure (hx.assignOpt _ e)
  · exact Ensures.pure hhavoc

/-- Numeric bytes are loaded as a number; else the cell of the types says what is loaded. -/
theorem built_doLoadStack {target src : Reg} {addr : LinearExpression V} {width : ℤ} (hd : rcp.Built meets) :
    Ensures (doLoadStack R opts stack target addr width src rcp) (Built meets) := by
  unfold doLoadStack
  simp only
  split_ifs
  · exact built_loadValues (hd.assignType _ _)
  · refine Ensures.bind' fun type => ?_
    have htyped : Built meets { rcp with types := rcp.types.assignTypeOpt (R.regType target) type } :=
      ⟨hd.types.assignOpt _ type, hd.values⟩
    split_ifs
    · exact built_loadValues htyped
    · exact Ensures.pure (htyped.havocRegister _)

theorem built_doLoadPacketOrShared {target : Reg} {width : ℤ} (hd : rcp.Built meets) :
    (doLoadPacketOrShared R target width rcp).Built meets := by
  have hnumber := (hd.havocRegister (R := R) target).assignType (R.regType target)
    (.const TypeEncoding.num.toInt)
  unfold doLoadPacketOrShared
  simp only
  split_ifs
  · exact hd
  · exact built_values hnumber ((hnumber.values.set _ _).set _ _)
  · exact hnumber

/-- Only pointers to memory are loaded through. -/
theorem built_loadTyped {a : Deref} {target : Reg} {type : TypeEncoding} (hd : rcp.Built meets) :
    Ensures (loadTyped R info opts stack a target rcp type) (Built meets) := by
  cases type with
  | ctx => exact Ensures.pure (built_doLoadCtx hd)
  | stack => exact built_doLoadStack hd
  | packet => exact Ensures.pure (built_doLoadPacketOrShared hd)
  | shared => exact Ensures.pure (built_doLoadPacketOrShared hd)
  | uninit => exact Ensures.pure hd
  | map => exact Ensures.pure hd
  | mapPrograms => exact Ensures.pure hd
  | num => exact Ensures.pure hd

theorem built_doLoad {a : Deref} {target : Reg} (hd : d.rcp.Built meets) :
    Ensures (doLoad R info opts a target d) (·.rcp.Built meets) := by
  unfold doLoad
  split_ifs
  · exact (built_doLoadStack hd).bind fun rcp hrcp => Ensures.pure hrcp
  · exact (hd.joinOverTypes fun rcp type hrcp => built_loadTyped hrcp).bind fun rcp hrcp => Ensures.pure hrcp

/-! ## Stores -/

section Stores

variable {addr width : Interval} {x : AddBottom V} {e : LinearExpression V} {kind : DataKind} {n : ℤ}
  {v : StoredValue V} {r : Reg} {types : TypeDomain V}

theorem built_assignTo (hx : x.Built meets) (v : Option V) : (assignTo x v e).Built meets := by
  cases v with
  | none => exact hx
  | some v => exact hx.assign v e

theorem built_havocNumbers (hx : x.Built meets) :
    Ensures (havocNumbers R opts stack addr width x) (AddBottom.Built meets) :=
  (built_havoc hx).bind fun _ hx => built_havoc hx

theorem built_storeKind (hx : x.Built meets) :
    Ensures (storeKind R opts stack addr width e kind x) (AddBottom.Built meets) := by
  refine (built_store hx).bind fun r hr => ?_
  obtain ⟨v, y⟩ := r
  exact Ensures.pure (built_assignTo hr v)

/-- A word narrower than a register is bounded by its width after the store. -/
theorem built_storeCut (hx : x.Built meets) :
    Ensures (storeCut R opts stack addr n e kind x) (AddBottom.Built meets) := by
  refine (built_store hx).bind fun r hr => ?_
  obtain ⟨v, y⟩ := r
  cases v with
  | none => exact built_havoc hr
  | some v =>
    refine (Returns.lift (hr.assign v e)).bind fun z hz => ?_
    exact (FiniteDomain.reachable_overflowBound hz v _ _).lift.bind fun z hz =>
      Ensures.pure (AddBottom.built_some.mpr hz)

/-- A pointer is stored with the kinds of each type it may have. -/
theorem built_storePointer (hx : x.Built meets) :
    Ensures (storePointer R opts stack addr types r x) (AddBottom.Built meets) :=
  Ensures.bind' fun _ => Ensures.foldlM hx fun _ _ _ hx =>
    Ensures.bind' fun _ => Ensures.foldlM hx fun _ _ _ hx => built_storeKind hx

/-- Eight bytes may hold a pointer, and fewer hold a cut number. Else the numbers there are forgotten. -/
theorem built_storeValues {pointer : Option Reg} (hx : x.Built meets) :
    Ensures (storeValues R opts stack addr n v pointer types x) (AddBottom.Built meets) := by
  unfold storeValues
  split_ifs
  · refine (built_havocNumbers hx).bind fun x hx => (built_storeKind hx).bind fun x hx => ?_
    refine (built_storeKind hx).bind fun x hx => ?_
    cases pointer with
    | none => exact Ensures.pure hx
    | some r => exact built_storePointer hx
  · exact (built_storeCut hx).bind fun x hx => built_storeCut hx
  · exact built_havocNumbers hx

/-- A stack pointer whose numeric bytes the store may touch has them counted again. -/
theorem built_updateNumericSize {symbAddr : LinearExpression V} {isNum : Bool} (hd : rcp.Built meets) (u : V) :
    (updateNumericSize R stack symbAddr n isNum rcp u).Built meets := by
  have hrecompute : ∀ {rcp : TypeToNumDomain V}, rcp.Built meets →
      (recomputeNumericSizeOf R rcp stack u).Built meets := by
    intro rcp hd
    unfold recomputeNumericSizeOf
    simp only
    split_ifs
    · exact built_values hd (hd.values.assignInt _ _)
    · exact hd
    · exact hd
  unfold updateNumericSize
  simp only
  split
  · exact hd
  · split
    · refine hrecompute ?_
      split_ifs
      · exact hd
      · exact built_values hd (hd.values.havoc _)
    · exact hd

theorem built_storeTyped (hd : rcp.Built meets) :
    Ensures (storeTyped R opts addr n v rcp stack) (·.1.Built meets) := by
  refine (built_storeType hd.types).bind fun r hr => ?_
  obtain ⟨cell, types, stack⟩ := r
  exact (built_storeValues hd.values).bind fun x hx => Ensures.pure ⟨built_assignTo hr cell, hx⟩

theorem built_havocBytes (hd : rcp.Built meets) :
    Ensures (havocBytes R opts addr width rcp stack) (·.1.Built meets) := by
  refine (built_havocType hd.types).bind fun r hr => ?_
  obtain ⟨types, stack⟩ := r
  exact (Ensures.foldlM hd.values fun _ _ _ hx => built_havoc hx).bind fun x hx => Ensures.pure ⟨hr, hx⟩

theorem built_storeBytes (hd : rcp.Built meets) :
    Ensures (storeBytes R opts addr n v rcp stack) (·.1.1.Built meets) := by
  unfold storeBytes
  split_ifs
  · exact (built_havocNumbers hd.values).bind fun x hx => Ensures.pure (built_values hd hx)
  · exact (built_storeTyped hd).bind fun r hr => Ensures.pure hr

/-- The bytes are forgotten before the store, and the numeric sizes are updated after it. -/
theorem built_doStoreStack {symbAddr : LinearExpression V} (hd : rcp.Built meets) :
    Ensures (doStoreStack R opts symbAddr n v rcp stack) (·.1.Built meets) := by
  refine (built_havocBytes hd).bind fun r hr => ?_
  obtain ⟨rcp, stack⟩ := r
  refine (built_storeBytes hr).bind fun r hr => ?_
  obtain ⟨⟨rcp, stack⟩, isNum⟩ := r
  exact Ensures.pure (List.foldlRecOn (motive := fun rcp : TypeToNumDomain V => rcp.Built meets) _ _ hr
    fun _ hd u _ => built_updateNumericSize hd u)

/-- A store through another register than the frame pointer splits the regions it may have. -/
theorem built_doMemStore {a : Deref} (hd : d.rcp.Built meets) :
    Ensures (doMemStore R opts a v d) (·.rcp.Built meets) := by
  unfold doMemStore
  split
  · refine Ensures.bind' fun offset => (built_doStoreStack hd).bind fun r hr => ?_
    obtain ⟨rcp, stack⟩ := r
    exact Ensures.pure hr
  · intro s r s' heq
    obtain ⟨⟨rcp, arrays, stack⟩, hjoin, heq⟩ := Option.bind_eq_some_iff.mp heq
    obtain ⟨rfl, -⟩ := Prod.mk.inj (Option.some.inj heq)
    refine hd.joinOverTypes (fun rcp t hrcp => ?_) _ _ _ hjoin
    intro s rcp' s' heq
    simp only at heq
    split_ifs at heq
    · obtain ⟨⟨⟨rcp₁, stack₁⟩, arrays₁⟩, hstore, heq⟩ := Option.bind_eq_some_iff.mp heq
      obtain ⟨rfl, -⟩ := Prod.mk.inj (Option.some.inj heq)
      exact built_doStoreStack hrcp _ _ _ hstore
    · obtain ⟨rfl, -⟩ := Prod.mk.inj (Option.some.inj heq)
      exact hrcp

end Stores

/-! ## The instructions -/

theorem built_mem {m : Mem} (hd : d.rcp.Built meets) :
    Ensures (mem R info opts m d) (·.rcp.Built meets) := by
  unfold mem
  split
  · exact Ensures.pure hd
  · split
    · exact built_doLoad hd
    · exact built_doMemStore hd
    · exact built_doMemStore hd

/-- A compare-and-exchange loads the old value into `r0`, others that fetch into their own register. -/
theorem built_fetchOld {a : Atomic} (hd : d.rcp.Built meets) :
    Ensures (fetchOld R info opts a d) (·.rcp.Built meets) := by
  unfold fetchOld
  split_ifs
  · exact (built_mem hd).bind fun d hd => Ensures.pure (hd.havocRegisterExceptType _)
  · exact built_mem hd
  · exact Ensures.pure hd

/-- Off the stack only the fetched register changes; on it the operation is a load, a `Bin` and a store. -/
theorem built_atomic {a : Atomic} (hd : d.rcp.Built meets) :
    Ensures (atomic R isUnsigned info opts a d) (·.rcp.Built meets) := by
  unfold atomic
  split_ifs
  · exact Ensures.pure hd
  · exact Ensures.pure hd
  · refine Ensures.pure ?_
    unfold atomicOther
    split_ifs
    · exact hd.havocRegisterExceptType _
    · exact hd.havocRegisterExceptType _
    · exact hd
  · refine (built_mem hd).bind fun d hd => (built_bin hd).lift.bind fun d hd => ?_
    refine (built_fetchOld hd).bind fun d hd => (built_mem hd).bind fun d hd => ?_
    exact Ensures.pure (hd.havocRegister _)

theorem built_loadMapFd {dst : Reg} {mapfd : BitVec 32} (hd : d.rcp.Built meets) :
    (loadMapFd R info dst mapfd d).Returns (·.rcp.Built meets) :=
  .ite (.some hd) ((built_doLoadMapfd hd _ _ _).bind fun _ hrcp => .some hrcp)

theorem built_loadMapAddress {dst : Reg} {mapfd offset : BitVec 32} (hd : d.rcp.Built meets) :
    (loadMapAddress R info dst mapfd offset d).Returns (·.rcp.Built meets) := by
  refine .ite (.some hd) (Returns.bind (Q := Built meets) ?_ fun _ hrcp => .some hrcp)
  refine Returns.bind' fun desc => .ite .none (.some (built_assignValidPtr ?_ dst false))
  exact built_values (hd.assignType _ _) ((hd.values.assignInt _ _).assignInt _ _)

theorem built_packet (hd : d.rcp.Built meets) : (packet R d).rcp.Built meets := by
  unfold packet
  split
  · exact hd
  · exact built_scratchCallerSavedRegisters ((hd.havocRegisterExceptType 0).assignType _ _)

theorem built_incrementLoopCounter {name : Label} (hd : d.rcp.Built meets) :
    (incrementLoopCounter R isUnsigned name d).Returns (·.rcp.Built meets) := by
  refine .ite (.some hd) (Returns.bind hd.values fun z hz => ?_)
  exact (FiniteDomain.reachable_applySigned _ hz).bind fun z hz =>
    .some (built_values hd (AddBottom.built_some.mpr hz))

theorem built_operation {o : Operation} (hd : d.rcp.Built meets) :
    Ensures (operation R isUnsigned info opts o d) (·.rcp.Built meets) := by
  cases o with
  | bin b => exact (built_bin hd).lift
  | un u => exact (built_un hd).lift
  | loadMapFd dst mapfd => exact (built_loadMapFd hd).lift
  | loadMapAddress dst mapfd offset => exact (built_loadMapAddress hd).lift
  | callx func => exact built_callx hd func
  | mem m => exact built_mem hd
  | packet p => exact Ensures.pure (built_packet hd)
  | atomic a => exact built_atomic hd

/-- The cases are the kinds of instructions. -/
theorem built_visit {i : Instruction Operation CallInfo} (hd : d.rcp.Built meets) :
    Ensures (visit R isUnsigned info opts i d) (·.rcp.Built meets) := by
  cases i with
  | undefined _ => exact Ensures.pure hd
  | jmp _ _ => exact Ensures.pure hd
  | call c _ => exact built_call hd c
  | callLocal _ f => exact (built_callLocal hd f).lift
  | exit f => exact built_exit hd f
  | assume cond _ => exact (built_assume hd).lift
  | incrementLoopCounter name => exact (built_incrementLoopCounter hd).lift
  | other o => exact built_operation hd

/-- Every transfer function keeps the zones built. -/
theorem built_transform {i : Instruction Operation CallInfo} (hd : d.rcp.Built meets) :
    Ensures (transform R isUnsigned info opts i d) (·.rcp.Built meets) := by
  unfold transform
  split
  · exact Ensures.pure hd
  · refine (built_visit hd).bind fun d hd => ?_
    split
    · exact Ensures.failure
    · exact Ensures.pure hd

end EbpfTransformer

end Prevail
