import Prevail.Crab.JoinOverTypes
import Prevail.Crab.Keeps
import Prevail.Crab.TransformCall

/-!
# Forgetting registers and packets

Forgetting a location admits all that was admitted before (`Passes`), and keeps what is known about
the others (`KeepsReg`). A call forgets the registers of its arguments this way and, when it may move
the packet, all locations that may hold a pointer into it.
-/

namespace Prevail

open AddBottom

namespace ProgramVariables

variable {V : Type*} {R : ProgramVariables V} {r r' : Reg} {k k' : DataKind}

theorem reg_eq (R : ProgramVariables V) (k : DataKind) (r : Reg) :
    R.reg k r = R.kindVar k (R.typeVar (.reg r.toNat)) := by
  rw [reg, regType, R.typeReg_eq]

theorem regType_eq (R : ProgramVariables V) (r : Reg) : R.regType r = R.typeVar (.reg r.toNat) :=
  R.typeReg_eq _

theorem reg_types (R : ProgramVariables V) (r : Reg) : R.reg .types r = R.regType r := by
  rw [reg_eq, regType_eq, R.kindVar_types]

theorem reg_inj : R.reg k r = R.reg k' r' ↔ k = k' ∧ r = r' := by
  constructor
  · intro h
    rw [reg_eq, reg_eq] at h
    obtain ⟨hk, hl⟩ := R.kindVar_eq h
    exact ⟨hk, UInt8.toNat_inj.mp (Location.reg.inj hl)⟩
  · rintro ⟨rfl, rfl⟩
    rfl

theorem reg_ne (h : k ≠ k') : R.reg k r ≠ R.reg k' r' := fun heq => h (reg_inj.mp heq).1

theorem regType_inj : R.regType r = R.regType r' ↔ r = r' := by
  rw [← reg_types, ← reg_types, reg_inj, and_iff_right rfl]

theorem reg_not_cell (R : ProgramVariables V) (k : DataKind) (r : Reg) : ¬ R.Cells (R.reg k r) := by
  rintro ⟨kind, o, n, h⟩
  rw [reg_eq] at h
  cases (R.kindVar_eq h).2

/-- The variables of the packet. -/
def Packet (R : ProgramVariables V) (v : V) : Prop := v = R.packetSize ∨ v = R.metaOffset

theorem reg_not_packet (R : ProgramVariables V) (k : DataKind) (r : Reg) : ¬ R.Packet (R.reg k r) := by
  rw [reg_eq]
  rintro (h | h)
  · exact R.packetSize_ne _ _ h
  · exact R.metaOffset_ne _ _ h

end ProgramVariables

namespace TypeToNumDomain

variable {V : Type} [LinearOrder V] {R : ProgramVariables V} {info : ProgramInfo}
  {a b d d₁ d₂ : TypeToNumDomain V} {K : V → Prop} {τ : V → TypeEncoding} {v : V} {r : Reg}

/-- What `a` admits is admitted by `b`, up to the values of the variables in `K`. -/
structure Passes (K : V → Prop) (a b : TypeToNumDomain V) : Prop where
  wf : b.WF
  types : ∀ τ, a.types.Models τ → b.types.Models τ
  values : ∀ σ, a.values.Models σ → ∃ σ', b.values.Models σ' ∧ ∀ v, ¬ K v → σ' v = σ v

theorem Passes.refl (ha : a.WF) : Passes K a a :=
  ⟨ha, fun _ h => h, fun σ hσ => ⟨σ, hσ, fun _ _ => rfl⟩⟩

theorem Passes.untouched (h : Passes K a b) : Untouched K a.values b.values := ⟨h.wf.values, h.values⟩

theorem Passes.trans (h : Passes K a b) (h' : Passes K b d) : Passes K a d :=
  ⟨h'.wf, fun τ hτ => h'.types τ (h.types τ hτ), (h.untouched.trans h'.untouched).models⟩

theorem Passes.foldl {α : Type*} {l : List α} {f : TypeToNumDomain V → α → TypeToNumDomain V}
    (ha : a.WF) (hf : ∀ e d, d.WF → Passes K d (f d e)) : Passes K a (l.foldl f a) :=
  List.foldlRecOn (motive := Passes K a) l f (.refl ha) fun d hd e _ => hd.trans (hf e d hd.wf)

theorem Passes.foldlM {α : Type*} {l : List α} {f : TypeToNumDomain V → α → Option (TypeToNumDomain V)}
    (ha : a.WF) (hf : ∀ e ∈ l, ∀ d d', d.WF → f d e = some d' → Passes K d d')
    (h : l.foldlM f a = some b) : Passes K a b :=
  Option.foldlM_induction (Passes K a) h (.refl ha) fun e he _ d' hd hd' =>
    hd.trans (hf e he _ d' hd.wf hd')

/-! ## Assigning a type -/

/-- The type of a register is assigned. -/
theorem models_assignType {t : TypeDomain V} (h : t.inv.WF) (hτ : t.Models τ) (v : V)
    (type : TypeEncoding) :
    (t.assignType v (.const type.toInt)).Models (Function.update τ v type) := by
  have hm := models_assign h hτ (v := v) (.const type.toInt)
  rw [LinearExpression.eval_const] at hm
  show (t.inv.assign v _).Models _
  convert hm using 1
  funext u
  by_cases hu : u = v
  · rw [hu, Function.update_self, Function.update_self]
  · rw [Function.update_of_ne hu, Function.update_of_ne hu]

theorem eq_of_models_assignType {t : TypeDomain V} (h : t.inv.WF) {type : TypeEncoding}
    (hτ : (t.assignType v (.const type.toInt)).Models τ) : τ v = type := by
  have hmem := AddBottom.mem_evalInterval hτ (.var v)
  rw [LinearExpression.eval_var] at hmem
  exact TypeEncoding.toInt_inj (eq_of_mem_assign h hmem)

/-- A forgotten type may be any. -/
theorem models_havocType {t : TypeDomain V} (h : t.inv.WF) (hτ : t.Models τ) (v : V)
    (type : TypeEncoding) : (t.havocType v).Models (Function.update τ v type) := by
  have hm := models_havoc h hτ (v := v) type.toInt
  show (t.inv.havoc v).Models _
  convert hm using 1
  funext u
  by_cases hu : u = v
  · rw [hu, Function.update_self, Function.update_self]
  · rw [Function.update_of_ne hu, Function.update_of_ne hu]

/-! ## Forgetting a location -/

theorem models_havocKindsOf {x : AddBottom V} (hx : x.WF) (kinds : List DataKind) {σ : V → ℤ}
    (hσ : x.Models σ) : (havocKindsOf R x v kinds).WF ∧ (havocKindsOf R x v kinds).Models σ := by
  refine List.foldlRecOn (motive := fun y : AddBottom V => y.WF ∧ y.Models σ) _ _ ⟨hx, hσ⟩ ?_
  rintro y ⟨hy, hσy⟩ kind -
  have h := models_havoc hy hσy (v := R.kindVar kind v) (σ (R.kindVar kind v))
  rw [Function.update_eq_self] at h
  exact ⟨hy.havoc _, h⟩

theorem wf_havocKindsOf {x : AddBottom V} (hx : x.WF) (kinds : List DataKind) :
    (havocKindsOf R x v kinds).WF :=
  List.foldlRecOn (motive := AddBottom.WF) _ _ hx fun _ hy _ _ => hy.havoc _

theorem passes_havocLocation (hd : d.WF) (v : V) (kinds : List DataKind) :
    Passes K d (d.havocLocation R v kinds) where
  wf := ⟨hd.types.havoc v, wf_havocKindsOf hd.values _⟩
  types τ hτ := by
    have h := models_havoc hd.types hτ (v := v) (τ v).toInt
    rwa [Function.update_eq_self] at h
  values σ hσ := ⟨σ, (models_havocKindsOf hd.values _ hσ).2, fun _ _ => rfl⟩

theorem passes_havocRegister (hd : d.WF) (r : Reg) : Passes K d (havocRegister R d r) where
  wf := ⟨hd.types.havoc _, wf_havocKindsOf hd.values _⟩
  types τ hτ := by
    have h := models_havoc hd.types hτ (v := R.regType r) (τ (R.regType r)).toInt
    rwa [Function.update_eq_self] at h
  values σ hσ := ⟨σ, (models_havocKindsOf hd.values _ hσ).2, fun _ _ => rfl⟩

theorem passes_havocAllLocationsHavingType (hd : d.WF) {type : TypeEncoding}
    (h : d.havocAllLocationsHavingType R type = some b) : Passes K d b := by
  refine Passes.foldlM hd (fun v _ d₁ d₂ hd₁ h => ?_) h
  split_ifs at h
  · obtain ⟨kinds, -, h⟩ := Option.bind_eq_some_iff.mp h
    exact Option.some.inj h ▸ passes_havocLocation hd₁ v kinds
  · exact Option.some.inj h ▸ .refl hd₁

/-! ## What is kept about a register -/

/-- What `a` knows about the register is known by `b`. -/
structure KeepsReg (R : ProgramVariables V) (r : Reg) (a b : TypeToNumDomain V) : Prop where
  wf : b.WF
  types : Keeps (fun y => y = none ∨ y = some (R.regType r)) a.types.inv b.types.inv
  values : Keeps (fun y => y = none ∨ ∃ kind, y = some (R.reg kind r)) a.values b.values

theorem KeepsReg.refl (ha : a.WF) : KeepsReg R r a a := ⟨ha, .refl, .refl⟩

theorem KeepsReg.trans (h : KeepsReg R r a b) (h' : KeepsReg R r b d) : KeepsReg R r a d :=
  ⟨h'.wf, h.types.trans h'.types, h.values.trans h'.values⟩

theorem KeepsReg.mem_type (h : KeepsReg R r a b) {k : ℤ}
    (hk : k ∈ b.types.inv.evalInterval (.var (R.regType r))) :
    k ∈ a.types.inv.evalInterval (.var (R.regType r)) :=
  h.types.mem_evalInterval (Or.inr rfl) (Or.inl rfl) hk

theorem KeepsReg.mem_value (h : KeepsReg R r a b) {kind : DataKind} {k : ℤ}
    (hk : k ∈ b.values.evalInterval (.var (R.reg kind r))) :
    k ∈ a.values.evalInterval (.var (R.reg kind r)) :=
  h.values.mem_evalInterval (Or.inr ⟨kind, rfl⟩) (Or.inl rfl) hk

theorem KeepsReg.mayHaveType (h : KeepsReg R r a b) {type : TypeEncoding}
    (hmay : b.types.mayHaveType (R.regType r) type = true) :
    a.types.mayHaveType (R.regType r) type = true :=
  Interval.contains_iff.mpr (h.mem_type (Interval.contains_iff.mp hmay))

theorem keeps_havocKindsOf {S : Option V → Prop} {x : AddBottom V} (hx : x.WF)
    (hS : ∀ kind y, S y → y ≠ some (R.kindVar kind v)) (kinds : List DataKind) :
    Keeps S x (havocKindsOf R x v kinds) := by
  refine (List.foldlRecOn (motive := fun y : AddBottom V => y.WF ∧ Keeps S x y) _ _ ⟨hx, .refl⟩ ?_).2
  rintro y ⟨hy, hk⟩ kind -
  exact ⟨hy.havoc _, hk.trans (keeps_havoc hy (hS kind))⟩

theorem keepsReg_havoc (hd : d.WF) {l : Location} (hl : l ≠ .reg r.toNat) (kinds : List DataKind) :
    KeepsReg R r d ⟨d.types.havocType (R.typeVar l), havocKindsOf R d.values (R.typeVar l) kinds⟩ where
  wf := ⟨hd.types.havoc _, wf_havocKindsOf hd.values _⟩
  types := by
    refine keeps_havoc hd.types fun y hy heq => ?_
    rcases hy with rfl | rfl
    · cases heq
    · have hv := Option.some.inj heq
      rw [← R.reg_types, R.reg_eq, ← R.kindVar_types l] at hv
      exact hl (R.kindVar_eq hv).2.symm
  values := by
    refine keeps_havocKindsOf hd.values (fun kind y hy heq => ?_) kinds
    rcases hy with rfl | ⟨kind', rfl⟩
    · cases heq
    · have hv := Option.some.inj heq
      rw [R.reg_eq] at hv
      exact hl (R.kindVar_eq hv).2.symm

theorem keepsReg_havocRegister (hd : d.WF) {r' : Reg} (hne : r' ≠ r) :
    KeepsReg R r d (havocRegister R d r') := by
  have h := keepsReg_havoc (R := R) (r := r) hd (l := .reg r'.toNat)
    (fun h => hne (UInt8.toNat_inj.mp (Location.reg.inj h))) (offsetKinds ++ [.svalues, .uvalues])
  rwa [← R.regType_eq] at h

/-- A register that does not have the type is left alone. -/
theorem keepsReg_havocAllLocationsHavingType (hd : d.WF) {type : TypeEncoding}
    (hmay : d.types.mayHaveType (R.regType r) type = false)
    (h : d.havocAllLocationsHavingType R type = some b) : KeepsReg R r d b := by
  refine Option.foldlM_induction (KeepsReg R r d) h (.refl hd) fun v hv d₁ d₂ hd₁ h => ?_
  split_ifs at h with hmay₁
  · obtain ⟨kinds, -, h⟩ := Option.bind_eq_some_iff.mp h
    obtain ⟨l, rfl⟩ := R.location v hv
    refine Option.some.inj h ▸ hd₁.trans (keepsReg_havoc hd₁.wf ?_ _)
    rintro rfl
    rw [← R.regType_eq] at hmay₁
    exact absurd (hd₁.mayHaveType hmay₁) (by rw [hmay]; simp)
  · exact Option.some.inj h ▸ hd₁

end TypeToNumDomain

namespace EbpfDomain

open TypeToNumDomain

variable {V : Type} [LinearOrder V] {R : ProgramVariables V} {info : ProgramInfo} {d : EbpfDomain V}

/-- The sizes and the lengths of the metadata that a new packet may have. -/
structure PacketRange (info : ProgramInfo) (size metaOffset : ℤ) : Prop where
  size : 0 ≤ size ∧ size < maxPacketSize
  metaOffset : if 0 ≤ info.contextDescriptor.metaData then -4098 ≤ metaOffset ∧ metaOffset ≤ 0
    else metaOffset = 0

/-- An empty packet without metadata is always possible. -/
theorem packetRange_zero (info : ProgramInfo) : PacketRange info 0 0 where
  size := by decide
  metaOffset := by split_ifs <;> decide

theorem spec_initializePacket (hd : d.rcp.WF) :
    (d.initializePacket R info).rcp.values.WF ∧
      ∀ σ n m, d.rcp.values.Models σ → PacketRange info n m →
        (d.initializePacket R info).rcp.values.Models
          (Function.update (Function.update σ R.packetSize n) R.metaOffset m) := by
  let P (x : AddBottom V) : Prop := x.WF ∧ ∀ σ n m, d.rcp.values.Models σ → PacketRange info n m →
    x.Models (Function.update (Function.update σ R.packetSize n) R.metaOffset m)
  have hadd : ∀ {x : AddBottom V} {c : LinearConstraint V}, P x → c.kind ≠ .notZero →
      (∀ σ : V → ℤ, PacketRange info (σ R.packetSize) (σ R.metaOffset) → c.Sat σ) →
        P (x.addConstraint c) := by
    refine fun hx hc hsat => ⟨hx.1.addConstraint _, fun σ n m hσ hnm => ?_⟩
    refine models_addConstraint hx.1 (hx.2 σ n m hσ hnm) (SplitDbm.unitDisequation_of_ne hc) (hsat _ ?_)
    rw [Function.update_of_ne R.metaOffset_ne_packetSize.symm, Function.update_self,
      Function.update_self]
    exact hnm
  have h₀ : P ((d.rcp.values.havoc R.packetSize).havoc R.metaOffset) :=
    ⟨(hd.values.havoc _).havoc _, fun σ n m hσ _ =>
      models_havoc (hd.values.havoc _) (models_havoc hd.values hσ n) m⟩
  have h₁ := hadd h₀ (c := LinearExpression.le (.const 0) (.var R.packetSize))
    (fun h => by cases h) fun σ h => by simpa using h.size.1
  have h₂ := hadd h₁ (c := LinearExpression.lt (.var R.packetSize) (.const maxPacketSize))
    (fun h => by cases h) fun σ h => by simpa using h.size.2
  show P (if 0 ≤ info.contextDescriptor.metaData then _ else _)
  split_ifs with hmeta
  · have hm : ∀ σ : V → ℤ, PacketRange info (σ R.packetSize) (σ R.metaOffset) →
        -4098 ≤ σ R.metaOffset ∧ σ R.metaOffset ≤ 0 := by
      intro σ h
      have hm := h.metaOffset
      rwa [if_pos hmeta] at hm
    have h₃ := hadd h₂ (c := LinearExpression.le (.var R.metaOffset) (.const 0))
      (fun h => by cases h) fun σ h => by simpa using (hm σ h).2
    exact hadd h₃ (c := LinearExpression.ge (.var R.metaOffset) (.const (-4098)))
      (fun h => by cases h) fun σ h => by simpa using (hm σ h).1
  · refine ⟨h₂.1.assignInt _ _, fun σ n m hσ hnm => ?_⟩
    have hm := hnm.metaOffset
    rw [if_neg hmeta] at hm
    subst hm
    have h := models_assignInt h₂.1 (h₂.2 σ n 0 hσ hnm) (v := R.metaOffset) 0
    rwa [Function.update_idem] at h

theorem passes_initializePacket (hd : d.rcp.WF) :
    Passes R.Packet d.rcp (d.initializePacket R info).rcp := by
  obtain ⟨hwf, hmodels⟩ := @spec_initializePacket _ _ R info _ hd
  refine ⟨⟨hd.types, hwf⟩, fun _ hτ => hτ, fun σ hσ =>
    ⟨_, hmodels σ 0 0 hσ (packetRange_zero info), fun v hv => ?_⟩⟩
  obtain ⟨hsize, hmeta⟩ := not_or.mp hv
  rw [Function.update_of_ne hmeta, Function.update_of_ne hsize]

/-- What is known about other variables is kept. -/
theorem keeps_initializePacket (hd : d.rcp.values.WF) :
    Keeps (fun y => ∀ v, y = some v → ¬ R.Packet v) d.rcp.values
      (d.initializePacket R info).rcp.values := by
  let S (y : Option V) : Prop := ∀ v, y = some v → ¬ R.Packet v
  have hS : ∀ {v : V}, R.Packet v → ∀ y, S y → y ≠ some v := fun hv y hy heq => hy _ heq hv
  let P (x : AddBottom V) : Prop := x.WF ∧ Keeps S d.rcp.values x
  have hadd : ∀ {x : AddBottom V} {c : LinearConstraint V}, P x → c.kind ≠ .notZero →
      P (x.addConstraint c) := fun hx hc =>
    ⟨hx.1.addConstraint _, hx.2.trans (keeps_addConstraint hx.1 hc)⟩
  have h₀ : P ((d.rcp.values.havoc R.packetSize).havoc R.metaOffset) :=
    ⟨(hd.havoc _).havoc _, (keeps_havoc hd (hS (Or.inl rfl))).trans
      (keeps_havoc (hd.havoc _) (hS (Or.inr rfl)))⟩
  have h₁ := hadd h₀ (c := LinearExpression.le (.const 0) (.var R.packetSize)) (fun h => by cases h)
  have h₂ := hadd h₁ (c := LinearExpression.lt (.var R.packetSize) (.const maxPacketSize))
    (fun h => by cases h)
  suffices h : P (d.initializePacket R info).rcp.values from h.2
  show P (if 0 ≤ info.contextDescriptor.metaData then _ else _)
  split_ifs
  · have h₃ := hadd h₂ (c := LinearExpression.le (.var R.metaOffset) (.const 0))
      (fun h => by cases h)
    exact hadd h₃ (c := LinearExpression.ge (.var R.metaOffset) (.const (-4098)))
      (fun h => by cases h)
  · exact ⟨h₂.1.assignInt _ _, h₂.2.trans (keeps_assignInt h₂.1 0 (hS (Or.inr rfl)))⟩

theorem keepsReg_initializePacket (hd : d.rcp.WF) (r : Reg) :
    KeepsReg R r d.rcp (d.initializePacket R info).rcp where
  wf := ⟨hd.types, (spec_initializePacket hd).1⟩
  types := .refl
  values := by
    refine (keeps_initializePacket hd.values).mono fun y hy v hv => ?_
    rcases hy with rfl | ⟨kind, rfl⟩
    · cases hv
    · exact Option.some.inj hv ▸ R.reg_not_packet kind r

end EbpfDomain

namespace EbpfTransformer

open TypeToNumDomain

variable {V : Type} [LinearOrder V] {R : ProgramVariables V} {info : ProgramInfo}
  {rcp : TypeToNumDomain V} {d d' : EbpfDomain V} {K : V → Prop}

theorem passes_scratchCallerSavedRegisters (h : rcp.WF) :
    Passes K rcp (scratchCallerSavedRegisters R rcp) :=
  Passes.foldl h fun r _ hd => passes_havocRegister hd r

theorem passes_forgetPacketPointers (hd : d.rcp.WF) (h : forgetPacketPointers R info d = some d') :
    Passes R.Packet d.rcp d'.rcp := by
  obtain ⟨rcp, hrcp, h⟩ := Option.bind_eq_some_iff.mp h
  obtain rfl := Option.some.inj h
  have hpass := passes_havocAllLocationsHavingType (K := R.Packet) hd hrcp
  exact hpass.trans (EbpfDomain.passes_initializePacket (d := { d with rcp := rcp }) hpass.wf)

theorem keepsReg_scratchCallerSavedRegisters (h : rcp.WF) :
    KeepsReg R 0 rcp (scratchCallerSavedRegisters R rcp) := by
  refine List.foldlRecOn (motive := KeepsReg R 0 rcp) _ _ (.refl h) fun d hd r hr => ?_
  exact hd.trans (keepsReg_havocRegister hd.wf (by rintro rfl; revert hr; decide))

theorem keepsReg_forgetPacketPointers (hd : d.rcp.WF) {r : Reg}
    (hmay : d.rcp.types.mayHaveType (R.regType r) .packet = false)
    (h : forgetPacketPointers R info d = some d') : KeepsReg R r d.rcp d'.rcp := by
  obtain ⟨rcp, hrcp, h⟩ := Option.bind_eq_some_iff.mp h
  obtain rfl := Option.some.inj h
  have hkeep := keepsReg_havocAllLocationsHavingType hd hmay hrcp
  exact hkeep.trans (EbpfDomain.keepsReg_initializePacket (d := { d with rcp := rcp }) hkeep.wf r)

end EbpfTransformer

end Prevail
