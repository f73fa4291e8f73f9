import Prevail.Crab.Assigned
import Prevail.Crab.Forgetting
import Prevail.Crab.IndirectCall

/-!
# Loads from the context

The context has fields with the pointers to the packet, to its end and to its meta data. A load of one
of these fields gives a pointer, and a load that touches one of them in another way must not give a
number. The source looks at whether the interval of offsets has the start of a field, so it misses the
loads that only reach into a field. `CtxLoadExact` is when this makes no difference.

A type that is not known may also be none (`T_UNINIT`), and no use of such a register is accepted; so a
register has a type when it may have the type and is known to have some (`MayBeTyped`).
-/

namespace Prevail

open AddBottom TypeToNumDomain

namespace EbpfTransformer

variable {V : Type} [LinearOrder V] (R : ProgramVariables V) (info : ProgramInfo)

/-- The case of `do_load_ctx` for the start of a field, whose packet offset is given. -/
def loadCtxField (rcp : TypeToNumDomain V) (target : Reg) (width : ℤ)
    (assign : AddBottom V → V → AddBottom V) : TypeToNumDomain V :=
  let desc := info.contextDescriptor
  if width = desc.last - desc.data then
    let values := assign rcp.values (R.reg .packetOffsets target)
    let rcp := { rcp with values := values }.assignType (R.regType target) (.const TypeEncoding.packet.toInt)
    let svalue := LinearExpression.var (R.reg .svalues target)
    let values := rcp.values.addConstraint (LinearExpression.le (.const 4098) svalue)
    { rcp with values := values.addConstraint (LinearExpression.le svalue (.const ptrMax)) }
  else rcp

/-- `do_load_ctx`. -/
def doLoadCtx (rcp : TypeToNumDomain V) (target : Reg) (addrVague : LinearExpression V) (width : ℤ) :
    TypeToNumDomain V :=
  if rcp.values.isBottom then rcp
  else
    let desc := info.contextDescriptor
    let number (rcp : TypeToNumDomain V) :=
      rcp.assignType (R.regType target) (.const TypeEncoding.num.toInt)
    if desc.last < 0 then number (havocRegister R rcp target)
    else
      let interval := rcp.values.evalInterval addrVague
      let rcp := havocRegister R rcp target
      let mayTouchPtr :=
        interval.contains desc.data || interval.contains desc.metaData || interval.contains desc.last
      let other :=
        if mayTouchPtr then { rcp with types := rcp.types.havocType (R.regType target) }
        else number rcp
      match interval.singleton with
      | none => other
      | some addr =>
        if addr = desc.data then
          loadCtxField R info rcp target width fun values offset => values.assignInt offset 0
        else if addr = desc.last then
          loadCtxField R info rcp target width fun values offset => values.assign offset (.var R.packetSize)
        else if addr = desc.metaData then
          loadCtxField R info rcp target width fun values offset => values.assign offset (.var R.metaOffset)
        else other

end EbpfTransformer

/-! ## Fields and types -/

/-- Where the fields with pointers start, when they exist. -/
def ContextDescriptor.fields (desc : ContextDescriptor) : List ℤ :=
  [desc.data, desc.last, desc.metaData]

def ContextDescriptor.fieldWidth (desc : ContextDescriptor) : ℤ := desc.last - desc.data

/-- A byte of the access is a byte of a field. -/
def ContextDescriptor.Touches (desc : ContextDescriptor) (off width : ℤ) : Prop :=
  ∃ pos ∈ desc.fields, 0 ≤ pos ∧
    ∃ b, (off ≤ b ∧ b < off + width) ∧ pos ≤ b ∧ b < pos + desc.fieldWidth

variable {V : Type} [LinearOrder V]

/-- The register may have the type, and it has some type. -/
def MayBeTyped (t : TypeDomain V) (v : V) (type : TypeEncoding) : Prop :=
  (∃ τ, t.Models τ ∧ τ v = type) ∧ ∀ τ, t.Models τ → τ v ≠ .uninit

/-- The packet offset that belongs to the field at `off`. -/
def FieldOffset (R : ProgramVariables V) (desc : ContextDescriptor) (off : ℤ) (σ : V → ℤ) (offset : ℤ) :
    Prop :=
  off = desc.data ∧ offset = 0 ∨ off = desc.last ∧ offset = σ R.packetSize ∨
    off = desc.metaData ∧ offset = σ R.metaOffset

/-- What a load of `width` bytes leaves in the target: a number only when no offset touches a field, and
a packet pointer only for one whole field, with the offset that belongs to it. -/
structure CtxLoadSound (R : ProgramVariables V) (info : ProgramInfo) (rcp rcp' : TypeToNumDomain V)
    (target : Reg) (addr : LinearExpression V) (width : ℤ) : Prop where
  number : MayBeTyped rcp'.types (R.regType target) .num →
    ∀ off ∈ rcp.values.evalInterval addr, ¬ info.contextDescriptor.Touches off width
  packet : MayBeTyped rcp'.types (R.regType target) .packet →
    ∃ off, (rcp.values.evalInterval addr).singleton = some off ∧ 0 ≤ off ∧
      width = info.contextDescriptor.fieldWidth ∧ ∀ σ, rcp'.values.Models σ →
        FieldOffset R info.contextDescriptor off σ (σ (R.reg .packetOffsets target))

/-- The interval of offsets has the start of a field. -/
def HitsField (desc : ContextDescriptor) (i : Interval) : Prop :=
  0 ≤ desc.last ∧ ∃ pos ∈ desc.fields, i.contains pos = true

instance (desc : ContextDescriptor) (i : Interval) : Decidable (HitsField desc i) :=
  inferInstanceAs (Decidable (_ ∧ _))

/-- When the interval of offsets has the start of a field, the field must exist if it is loaded. When it
has no start of a field, it must end before each field, or start behind it. -/
def CtxLoadExact (desc : ContextDescriptor) (i : Interval) (width : ℤ) : Prop :=
  if HitsField desc i then
    ∀ pos ∈ desc.fields, i.singleton = some pos → width = desc.fieldWidth → 0 ≤ pos
  else ∀ pos ∈ desc.fields, 0 ≤ pos → 0 < desc.fieldWidth →
    i.ub ≤ .fin (pos - width) ∨ .fin (pos + desc.fieldWidth) ≤ i.lb

instance (desc : ContextDescriptor) (i : Interval) (width : ℤ) : Decidable (CtxLoadExact desc i width) := by
  unfold CtxLoadExact
  infer_instance

variable {R : ProgramVariables V} {info : ProgramInfo} {rcp : TypeToNumDomain V} {target : Reg}
  {addr : LinearExpression V} {width pos : ℤ} {desc : ContextDescriptor} {i : Interval}
  {τ : V → TypeEncoding} {σ : V → ℤ}

/-! ## Offsets outside a field -/

theorem touches_iff {off : ℤ} (hw : 0 < width) : desc.Touches off width ↔
    ∃ pos ∈ desc.fields, 0 ≤ pos ∧ 0 < desc.fieldWidth ∧ pos - width < off ∧ off < pos + desc.fieldWidth := by
  refine exists_congr fun pos => and_congr Iff.rfl (and_congr Iff.rfl ?_)
  constructor
  · rintro ⟨b, hb, hb'⟩
    omega
  · rintro ⟨hfw, hlo, hhi⟩
    exact ⟨max off pos, by omega, by omega⟩

/-- An interval avoids a gap when it ends before the gap or starts behind it. -/
theorem avoids_iff {a b k : ℤ} (hk : k ∈ i) (hab : a + 1 < b) :
    (∀ off ∈ i, ¬ (a < off ∧ off < b)) ↔ i.ub ≤ .fin a ∨ .fin b ≤ i.lb := by
  obtain ⟨hlk, hku⟩ := hk
  constructor
  · intro hall
    by_contra hno
    obtain ⟨hu, hl⟩ := not_or.mp hno
    have hk := hall k ⟨hlk, hku⟩
    rcases le_or_gt k a with hka | hka
    · -- the first number of the gap is in the interval
      refine hall (a + 1) ⟨Bound.le_trans hlk (Bound.fin_le_fin.mpr (by omega)), ?_⟩ ⟨by omega, hab⟩
      cases hub : i.ub with
      | negInf => rw [hub] at hu; exact absurd (Bound.negInf_le _) hu
      | posInf => exact Bound.le_posInf _
      | fin u =>
        rw [hub, Bound.fin_le_fin] at hu
        exact Bound.fin_le_fin.mpr (by omega)
    · -- the last one is
      refine hall (b - 1) ⟨?_, Bound.le_trans (Bound.fin_le_fin.mpr (by omega)) hku⟩ ⟨by omega, by omega⟩
      cases hlb : i.lb with
      | negInf => exact Bound.negInf_le _
      | posInf => rw [hlb] at hl; exact absurd (Bound.le_posInf _) hl
      | fin l =>
        rw [hlb, Bound.fin_le_fin] at hl
        exact Bound.fin_le_fin.mpr (by omega)
  · rintro (hu | hl) off ⟨hlo, huo⟩ hgap
    · exact absurd (Bound.fin_le_fin.mp (Bound.le_trans huo hu)) (by omega)
    · exact absurd (Bound.fin_le_fin.mp (Bound.le_trans hl hlo)) (by omega)

/-! ## The three outcomes -/

/-- A whole field is loaded. -/
structure LoadsField (R : ProgramVariables V) (desc : ContextDescriptor) (rcp' : TypeToNumDomain V)
    (target : Reg) (pos : ℤ) : Prop where
  types : ∀ τ, rcp'.types.Models τ → τ (R.regType target) = .packet
  exists_types : ∃ τ, rcp'.types.Models τ
  offset : ∀ σ, rcp'.values.Models σ →
    FieldOffset R desc pos σ (σ (R.reg .packetOffsets target))

open EbpfTransformer

theorem loadsField_loadCtxField {assign : AddBottom V → V → AddBottom V} (h : rcp.WF)
    (hτ : rcp.types.Models τ) (hwidth : width = info.contextDescriptor.fieldWidth)
    (hwf : (assign rcp.values (R.reg .packetOffsets target)).WF)
    (hassign : ∀ σ, (assign rcp.values (R.reg .packetOffsets target)).Models σ →
      FieldOffset R info.contextDescriptor pos σ (σ (R.reg .packetOffsets target))) :
    LoadsField R info.contextDescriptor (loadCtxField R info rcp target width assign) target pos := by
  unfold loadCtxField
  rw [if_pos (show width = info.contextDescriptor.last - info.contextDescriptor.data from hwidth)]
  constructor
  · exact fun τ hτ => eq_of_models_assignType h.types hτ
  · exact ⟨_, models_assignType h.types hτ _ .packet⟩
  · intro σ hσ
    refine hassign σ (models_of_addConstraint hwf ?_ (models_of_addConstraint (hwf.addConstraint _) ?_ hσ))
    · exact fun h => by cases h
    · exact fun h => by cases h

theorem loadCtxField_of_ne {assign : AddBottom V → V → AddBottom V}
    (hwidth : width ≠ info.contextDescriptor.fieldWidth) :
    loadCtxField R info rcp target width assign = rcp := if_neg hwidth

theorem mayTouchPtr_iff {desc : ContextDescriptor} {i : Interval} (hlast : 0 ≤ desc.last) :
    (i.contains desc.data || i.contains desc.metaData || i.contains desc.last) = true ↔
      HitsField desc i := by
  unfold HitsField ContextDescriptor.fields
  simp only [Bool.or_eq_true, List.mem_cons, List.not_mem_nil, or_false, exists_eq_or_imp,
    exists_eq_left, hlast, true_and]
  tauto

/-- An interval that hits no field is none. -/
theorem not_mem_fields_of_singleton {e : LinearExpression V} {off : ℤ} (hσ : rcp.values.Models σ)
    (hlast : 0 ≤ info.contextDescriptor.last)
    (hno : ¬ HitsField info.contextDescriptor (rcp.values.evalInterval e))
    (h : (rcp.values.evalInterval e).singleton = some off) : off ∉ info.contextDescriptor.fields := by
  intro hmem
  refine hno ⟨hlast, off, hmem, Interval.contains_iff.mpr ?_⟩
  have hvalue := AddBottom.mem_evalInterval hσ e
  exact Interval.eq_of_singleton h hvalue ▸ hvalue

/-- Where no field is hit, a number is loaded. -/
theorem doLoadCtx_number (hσ : rcp.values.Models σ)
    (hno : ¬ HitsField info.contextDescriptor (rcp.values.evalInterval addr)) :
    doLoadCtx R info rcp target addr width =
      (havocRegister R rcp target).assignType (R.regType target) (.const TypeEncoding.num.toInt) := by
  have hbot : ¬ rcp.values.isBottom = true := by rw [hσ.isBottom]; simp
  unfold doLoadCtx
  rw [if_neg hbot]
  dsimp only
  by_cases hlast : info.contextDescriptor.last < 0
  · rw [if_pos hlast]
  · have hlast' := not_lt.mp hlast
    rw [if_neg hlast, if_neg fun htouch => hno ((mayTouchPtr_iff hlast').mp htouch)]
    cases hsingle : (rcp.values.evalInterval addr).singleton with
    | none => rfl
    | some off =>
      have hoff := not_mem_fields_of_singleton hσ hlast' hno hsingle
      simp only [ContextDescriptor.fields, List.mem_cons, List.not_mem_nil, or_false, not_or] at hoff
      dsimp only
      rw [if_neg hoff.1, if_neg hoff.2.1, if_neg hoff.2.2]

/-- Where the address is not known to be that of a field that may be hit, the target has no type. -/
theorem doLoadCtx_untyped (hσ : rcp.values.Models σ)
    (hhits : HitsField info.contextDescriptor (rcp.values.evalInterval addr))
    (hno : ∀ pos ∈ info.contextDescriptor.fields, (rcp.values.evalInterval addr).singleton ≠ some pos) :
    doLoadCtx R info rcp target addr width = { havocRegister R rcp target with
      types := (havocRegister R rcp target).types.havocType (R.regType target) } := by
  have hbot : ¬ rcp.values.isBottom = true := by rw [hσ.isBottom]; simp
  unfold doLoadCtx
  rw [if_neg hbot]
  dsimp only
  rw [if_neg (not_lt.mpr hhits.1), if_pos ((mayTouchPtr_iff hhits.1).mpr hhits)]
  cases hsingle : (rcp.values.evalInterval addr).singleton with
  | none => rfl
  | some off =>
    have hoff : off ∉ info.contextDescriptor.fields := fun hmem => hno off hmem hsingle
    simp only [ContextDescriptor.fields, List.mem_cons, List.not_mem_nil, or_false, not_or] at hoff
    dsimp only
    rw [if_neg hoff.1, if_neg hoff.2.1, if_neg hoff.2.2]

/-- At the address of a field, the offset of the field is assigned. -/
theorem doLoadCtx_field {pos : ℤ} (h : rcp.WF) (hσ : rcp.values.Models σ)
    (hlast : 0 ≤ info.contextDescriptor.last) (hpos : pos ∈ info.contextDescriptor.fields)
    (hsingle : (rcp.values.evalInterval addr).singleton = some pos) :
    ∃ assign : AddBottom V → V → AddBottom V, doLoadCtx R info rcp target addr width =
        loadCtxField R info (havocRegister R rcp target) target width assign ∧
      (assign (havocRegister R rcp target).values (R.reg .packetOffsets target)).WF ∧
      ∀ σ, (assign (havocRegister R rcp target).values (R.reg .packetOffsets target)).Models σ →
        FieldOffset R info.contextDescriptor pos σ (σ (R.reg .packetOffsets target)) := by
  have hbot : ¬ rcp.values.isBottom = true := by rw [hσ.isBottom]; simp
  have hwf := (passes_havocRegister (R := R) (K := fun _ => False) h target).wf.values
  have hne : ∀ {u : V}, R.Packet u → u ≠ R.reg .packetOffsets target := by
    rintro u hu rfl
    exact R.reg_not_packet _ _ hu
  unfold doLoadCtx
  rw [if_neg hbot]
  dsimp only
  rw [if_neg (not_lt.mpr hlast), hsingle]
  dsimp only
  simp only [ContextDescriptor.fields, List.mem_cons, List.not_mem_nil, or_false] at hpos
  by_cases hdata : pos = info.contextDescriptor.data
  · rw [if_pos hdata]
    exact ⟨_, rfl, hwf.assignInt _ _, fun σ hσ => Or.inl ⟨hdata, eq_of_models_assignInt hwf hσ⟩⟩
  rw [if_neg hdata]
  by_cases hend : pos = info.contextDescriptor.last
  · rw [if_pos hend]
    exact ⟨_, rfl, hwf.assign _ _,
      fun σ hσ => Or.inr (Or.inl ⟨hend, eq_of_models_assign hwf (hne (Or.inl rfl)) hσ⟩)⟩
  have hmeta : pos = info.contextDescriptor.metaData := (hpos.resolve_left hdata).resolve_left hend
  rw [if_neg hend, if_pos hmeta]
  exact ⟨_, rfl, hwf.assign _ _,
    fun σ hσ => Or.inr (Or.inr ⟨hmeta, eq_of_models_assign hwf (hne (Or.inr rfl)) hσ⟩)⟩

/-- The target is a number, a packet pointer, or may have no type. -/
theorem doLoadCtx_cases (h : rcp.WF) (hτ : rcp.types.Models τ) (hσ : rcp.values.Models σ) :
    let rcp' := doLoadCtx R info rcp target addr width
    let desc := info.contextDescriptor
    let i := rcp.values.evalInterval addr
    (¬ HitsField desc i ∧ (∃ τ, rcp'.types.Models τ) ∧
        ∀ τ, rcp'.types.Models τ → τ (R.regType target) = .num) ∨
      (HitsField desc i ∧ ∃ pos ∈ desc.fields, i.singleton = some pos ∧ width = desc.fieldWidth ∧
        LoadsField R desc rcp' target pos) ∨
      (HitsField desc i ∧ (∀ pos ∈ desc.fields, i.singleton = some pos → width ≠ desc.fieldWidth) ∧
        ∃ τ, rcp'.types.Models τ ∧ τ (R.regType target) = .uninit) := by
  intro rcp' desc i
  have hpass := passes_havocRegister (R := R) (K := fun _ => False) h target
  have hτ₀ := hpass.types τ hτ
  by_cases hhits : HitsField desc i
  · by_cases hpos : ∃ pos ∈ desc.fields, i.singleton = some pos
    · obtain ⟨pos, hpos, hsingle⟩ := hpos
      obtain ⟨assign, heq, hwf, hassign⟩ :=
        @doLoadCtx_field _ _ R info rcp target addr width _ _ h hσ hhits.1 hpos hsingle
      have heq : rcp' = _ := heq
      by_cases hwidth : width = desc.fieldWidth
      · refine Or.inr (Or.inl ⟨hhits, pos, hpos, hsingle, hwidth, ?_⟩)
        rw [heq]
        exact loadsField_loadCtxField hpass.wf hτ₀ hwidth hwf hassign
      · refine Or.inr (Or.inr ⟨hhits, fun _ _ _ => hwidth, ?_⟩)
        rw [heq, loadCtxField_of_ne hwidth]
        exact ⟨_, models_havocType h.types hτ (R.regType target) .uninit, Function.update_self ..⟩
    · have hno : ∀ pos ∈ desc.fields, i.singleton ≠ some pos := fun pos hmem hsingle =>
        hpos ⟨pos, hmem, hsingle⟩
      have heq : rcp' = _ := doLoadCtx_untyped hσ hhits hno
      refine Or.inr (Or.inr ⟨hhits, fun pos hmem hsingle => absurd hsingle (hno pos hmem), ?_⟩)
      rw [heq]
      exact ⟨_, models_havocType hpass.wf.types hτ₀ (R.regType target) .uninit, Function.update_self ..⟩
  · have heq : rcp' = _ := doLoadCtx_number hσ hhits
    rw [heq]
    exact Or.inl ⟨hhits, ⟨_, models_assignType hpass.wf.types hτ₀ _ .num⟩,
      fun τ hτ => eq_of_models_assignType hpass.wf.types hτ⟩

/-! ## Sound loads -/

theorem ctxLoadExact_iff_sound (h : rcp.WF) (hτ : rcp.types.Models τ) (hσ : rcp.values.Models σ)
    (hw : 0 < width) : CtxLoadExact info.contextDescriptor (rcp.values.evalInterval addr) width ↔
      CtxLoadSound R info rcp (doLoadCtx R info rcp target addr width) target addr width := by
  have hcases := @doLoadCtx_cases _ _ R info rcp target addr width _ _ h hτ hσ
  have hmem := AddBottom.mem_evalInterval hσ addr
  dsimp only at hcases
  set rcp' := doLoadCtx R info rcp target addr width
  set desc := info.contextDescriptor
  set i := rcp.values.evalInterval addr
  have htyped : ∀ {type : TypeEncoding}, type ≠ .uninit → (∃ τ, rcp'.types.Models τ) →
      (∀ τ, rcp'.types.Models τ → τ (R.regType target) = type) →
      MayBeTyped rcp'.types (R.regType target) type := by
    rintro type hne ⟨τ, hτ⟩ hall
    exact ⟨⟨τ, hτ, hall τ hτ⟩, fun τ hτ heq => hne ((hall τ hτ).symm.trans heq)⟩
  rw [Iff.comm]
  unfold CtxLoadExact
  rcases hcases with ⟨hhits, hex, hnum⟩ | ⟨hhits, pos, hpos, hsingle, hwidth, hload⟩ |
      ⟨hhits, hno, τ, hτ, huninit⟩
  · rw [if_neg hhits]
    constructor
    · intro hsound pos hpos h0 hfw
      refine (avoids_iff hmem (by omega)).mp fun off hoff hgap => ?_
      exact hsound.number (htyped (by decide) hex hnum) off hoff
        ((touches_iff hw).mpr ⟨pos, hpos, h0, hfw, hgap⟩)
    · refine fun hexact => ⟨fun _ off hoff htouches => ?_, fun hpacket => ?_⟩
      · obtain ⟨pos, hpos, h0, hfw, hgap⟩ : ∃ pos ∈ desc.fields, 0 ≤ pos ∧ 0 < desc.fieldWidth ∧
          pos - width < off ∧ off < pos + desc.fieldWidth := (touches_iff hw).mp htouches
        have hwide : pos - width + 1 < pos + desc.fieldWidth := by omega
        exact (avoids_iff hmem hwide).mpr (hexact pos hpos h0 hfw) off hoff hgap
      · obtain ⟨⟨τ, hτ, heq⟩, -⟩ := hpacket
        exact absurd ((hnum τ hτ).symm.trans heq) (by decide)
  · rw [if_pos hhits]
    constructor
    · intro hsound pos' _ hsingle' _
      obtain ⟨off, hoff, h0, -⟩ :=
        hsound.packet (htyped (by decide) hload.exists_types hload.types)
      rwa [Option.some.inj (hsingle'.symm.trans hoff)]
    · refine fun hexact => ⟨fun hnum => ?_, fun _ => ?_⟩
      · obtain ⟨⟨τ, hτ, heq⟩, -⟩ := hnum
        exact absurd ((hload.types τ hτ).symm.trans heq) (by decide)
      · exact ⟨pos, hsingle, hexact pos hpos hsingle hwidth, hwidth, hload.offset⟩
  · rw [if_pos hhits]
    refine iff_of_true ⟨fun hnum => ?_, fun hpacket => ?_⟩ fun pos hpos hsingle hwidth => ?_
    · exact absurd huninit (hnum.2 τ hτ)
    · exact absurd huninit (hpacket.2 τ hτ)
    · exact absurd hwidth (hno pos hpos hsingle)

/-- A load is sound exactly when looking at the starts of the fields is enough. -/
theorem ctxLoadSound_iff (h : rcp.WF) (hτσ : rcp.Models R.toVariableRegistry τ σ) (hw : 0 < width) :
    CtxLoadSound R info rcp (doLoadCtx R info rcp target addr width) target addr width ↔
      CtxLoadExact info.contextDescriptor (rcp.values.evalInterval addr) width := by
  obtain ⟨hτ, σ', -, hσ'⟩ := hτσ
  exact (ctxLoadExact_iff_sound h hτ hσ' hw).symm

/-- A context with the pointers in its first two words. -/
def twoFieldInfo : ProgramInfo := ⟨tailCallPlatform, false, ⟨64, 0, 4, -1⟩⟩

/-- The context is in `r1` at the offset, and nothing else is known. -/
def ctxState (off : ℤ) : TypeToNumDomain ProgramVariables.Name :=
  let R := ProgramVariables.named []
  ⟨⟨setAll AddBottom.top [(R.regType 1, .const TypeEncoding.ctx.toInt)]⟩,
    setAll AddBottom.top [(R.reg .ctxOffsets 1, .const off)]⟩

/-- The address of the word at the context pointer. -/
def ctxAddr : LinearExpression ProgramVariables.Name := .var ((ProgramVariables.named []).reg .ctxOffsets 1)

theorem wf_ctxState (off : ℤ) : (ctxState off).WF :=
  ⟨wf_setAll wf_top, wf_setAll wf_top⟩

theorem models_ctxState_types (off : ℤ) : (ctxState off).types.Models fun _ => .ctx :=
  models_setAll_top (by decide)

theorem models_ctxState_values (off : ℤ) : (ctxState off).values.Models fun _ => off :=
  models_setAll_top fun e he => by
    obtain rfl := List.mem_singleton.mp he
    exact Interval.contains_iff.mpr (Interval.mem_const.mpr rfl)

/-- The word behind the two pointers is a number. -/
theorem ctxLoadSound_iff_behind : CtxLoadSound (.named []) twoFieldInfo (ctxState 8)
    (doLoadCtx (.named []) twoFieldInfo (ctxState 8) 2 ctxAddr 4) 2 ctxAddr 4 :=
  (ctxLoadSound_iff (wf_ctxState 8) ⟨models_ctxState_types 8, _, fun _ _ => rfl, models_ctxState_values 8⟩
    (by decide)).mpr (by decide)

/-- A word that has the end of one pointer and the start of the other is taken for a number. -/
theorem not_ctxLoadSound_between : ¬ CtxLoadSound (.named []) twoFieldInfo (ctxState 2)
    (doLoadCtx (.named []) twoFieldInfo (ctxState 2) 2 ctxAddr 4) 2 ctxAddr 4 := by
  intro hsound
  have hexact := (ctxLoadExact_iff_sound (wf_ctxState 2) (models_ctxState_types 2)
    (models_ctxState_values 2) (by decide)).mpr hsound
  revert hexact
  decide

end Prevail
