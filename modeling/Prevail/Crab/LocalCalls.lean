import Prevail.Crab.KnownTypes
import Prevail.Crab.TransformLocal
import Prevail.Crab.Shift

/-!
# Local calls

The machine has a call stack: a call saves `r6` to `r9` for the caller and the exit gives them back. A
`Snapshot` has the types and the values of all locations, and the call stack is the saved locations of
the frames. `Admits` is what an abstract state says of a snapshot: the types, and the values that belong to
these types. It leaves out the cells of the stack and the size of the numeric bytes behind `r10`, which the
analysis works out again after each call.

The analysis of a routine admits whatever the machine reaches, to any depth of calls, and each call
gives back the registers and the frame of the caller (`Routine.admits_of_analyzed`). A frame must not be
in use when it is entered, and a register whose saved type may be missing at the exit must not be written
in between: the exit leaves such a register as the subprogram left it.
-/

namespace Prevail

open AddBottom TypeToNumDomain LinearExpression

/-! ## Snapshots -/

/-- The types and the values of all locations. -/
structure Snapshot (V : Type) where
  types : V → TypeEncoding
  values : V → ℤ

section Copy

variable {V ι α : Type} [DecidableEq V] {dst src : ι → V} {l : List ι} {σ : V → α} {i : ι} {v : V}

/-- The values of the variables `src` are copied to the variables `dst`, one after another. -/
def copyEach (dst src : ι → V) (l : List ι) (σ : V → α) : V → α :=
  l.foldl (fun σ i => Function.update σ (dst i) (σ (src i))) σ

theorem copyEach_of_ne (h : ∀ i ∈ l, v ≠ dst i) : copyEach dst src l σ v = σ v := by
  induction l generalizing σ with
  | nil => rfl
  | cons i l ih =>
    have hl := ih (σ := Function.update σ (dst i) (σ (src i))) fun j hj => h j (List.mem_cons_of_mem _ hj)
    exact hl.trans (Function.update_of_ne (h i List.mem_cons_self) _ _)

end Copy

namespace Snapshot

section

variable {V : Type} {R : ProgramVariables V} {l l' : Location} {s s' s'' : Snapshot V} {f : Frame}

variable (R) in
/-- A location is the same in both snapshots. -/
structure Same (l : Location) (s s' : Snapshot V) : Prop where
  type : s'.types (R.typeVar l) = s.types (R.typeVar l)
  value : ∀ kind ∈ DataKind.values,
    s'.values (R.kindVar kind (R.typeVar l)) = s.values (R.kindVar kind (R.typeVar l))

variable (R) in
/-- `r10` is the same in both snapshots, but for the size of the numeric bytes behind it. -/
structure SamePointer (s s' : Snapshot V) : Prop where
  type : s'.types (R.regType 10) = s.types (R.regType 10)
  svalue : s'.values (R.reg .svalues 10) = s.values (R.reg .svalues 10)
  uvalue : s'.values (R.reg .uvalues 10) = s.values (R.reg .uvalues 10)
  offset : s'.values (R.reg .stackOffsets 10) = s.values (R.reg .stackOffsets 10)

/-- The registers that are saved, as locations of the machine and of a frame. -/
def regLocation (r : Reg) : Location := .reg r.toNat

def savedLocation (f : Frame) (r : Reg) : Location := .saved r.toNat f

theorem typeVar_regLocation (r : Reg) : R.typeVar (regLocation r) = R.regType r := (R.regType_eq r).symm

theorem kindVar_regLocation (kind : DataKind) (r : Reg) :
    R.kindVar kind (R.typeVar (regLocation r)) = R.reg kind r := (R.reg_eq kind r).symm

theorem Same.refl : Same R l s s := ⟨rfl, fun _ _ => rfl⟩

theorem Same.trans (h : Same R l s s') (h' : Same R l s' s'') : Same R l s s'' :=
  ⟨h'.type.trans h.type, fun kind hkind => (h'.value kind hkind).trans (h.value kind hkind)⟩

theorem SamePointer.trans (h : SamePointer R s s') (h' : SamePointer R s' s'') : SamePointer R s s'' :=
  ⟨h'.type.trans h.type, h'.svalue.trans h.svalue, h'.uvalue.trans h.uvalue, h'.offset.trans h.offset⟩

theorem typeVar_inj : R.typeVar l = R.typeVar l' ↔ l = l' := by
  constructor
  · intro h
    rw [← R.kindVar_types l, ← R.kindVar_types l'] at h
    exact (R.kindVar_eq h).2
  · rintro rfl
    rfl

end

variable {V : Type} [LinearOrder V] (R : ProgramVariables V)

/-- The type and the values of one location are copied to another. -/
def copy (dst src : Location) (s : Snapshot V) : Snapshot V where
  types := Function.update s.types (R.typeVar dst) (s.types (R.typeVar src))
  values := copyEach (fun kind => R.kindVar kind (R.typeVar dst))
    (fun kind => R.kindVar kind (R.typeVar src)) DataKind.values s.values

/-- `r10` is moved by `n` bytes. -/
def movePointer (n : ℤ) (s : Snapshot V) : Snapshot V where
  types := s.types
  values :=
    let word := BitVec.ofInt 64 (s.values (R.reg .svalues 10) + n)
    Function.update (FiniteDomain.setWord s.values (R.reg .svalues 10) (R.reg .uvalues 10) word)
      (R.reg .stackOffsets 10) (s.values (R.reg .stackOffsets 10) + n)

variable {R} {s : Snapshot V} {l dst src : Location} {kind : DataKind} {v : V}

theorem copy_type_of_ne (h : v ≠ R.typeVar dst) : (s.copy R dst src).types v = s.types v :=
  Function.update_of_ne h _ _

theorem copy_value_of_ne (h : ∀ kind ∈ DataKind.values, v ≠ R.kindVar kind (R.typeVar dst)) :
    (s.copy R dst src).values v = s.values v := copyEach_of_ne h

theorem same_copy (h : l ≠ dst) : Same R l s (s.copy R dst src) where
  type := copy_type_of_ne fun heq => h (typeVar_inj.mp heq)
  value _ _ := copy_value_of_ne fun _ _ heq => h (R.kindVar_eq heq).2

/-- A location of each register is copied to another one. -/
def copyRegs (R : ProgramVariables V) (dst src : Reg → Location) (regs : List Reg) (s : Snapshot V) :
    Snapshot V := regs.foldl (fun s r => s.copy R (dst r) (src r)) s

variable {dst src : Reg → Location} {regs : List Reg} {r : Reg}

theorem same_copyRegs (h : ∀ r ∈ regs, l ≠ dst r) : Same R l s (s.copyRegs R dst src regs) :=
  List.foldlRecOn (motive := Same R l s) _ _ .refl fun _ hs r hr => hs.trans (same_copy (h r hr))

/-- The machine calls a subprogram. -/
def enter (R : ProgramVariables V) (f : Frame) (s : Snapshot V) : Snapshot V :=
  movePointer R (-subprogramStackSize) (s.copyRegs R (savedLocation f) regLocation calleeSaved)

/-- The machine leaves a subprogram. -/
def leave (R : ProgramVariables V) (f : Frame) (s : Snapshot V) : Snapshot V :=
  movePointer R subprogramStackSize (s.copyRegs R regLocation (savedLocation f) calleeSaved)

end Snapshot

/-! ## What an abstract state says of a snapshot -/

variable {V : Type} [LinearOrder V]

/-- The kind belongs to all types or to this one. -/
def DataKind.BelongsTo (kind : DataKind) (type : TypeEncoding) : Prop :=
  kind ∈ (EbpfTransformer.savedKinds type).getD []

instance (kind : DataKind) (type : TypeEncoding) : Decidable (kind.BelongsTo type) :=
  inferInstanceAs (Decidable (_ ∈ _))

/-- The variable matters when the types are as in `τ`: the kind of a variable of a location belongs to the
type of the location. The cells of the stack and the size of the numeric bytes behind `r10` are left out. -/
structure Visible (R : ProgramVariables V) (τ : V → TypeEncoding) (v : V) : Prop where
  not_cell : ¬ R.Cells v
  ne_size : v ≠ R.reg .stackNumericSizes 10
  belongs : ∀ kind l, v = R.kindVar kind (R.typeVar l) → kind.BelongsTo (τ (R.typeVar l))

/-- The snapshots agree on what matters. -/
structure AgreesWith (R : ProgramVariables V) (m s : Snapshot V) : Prop where
  types : ∀ v, ¬ R.Cells v → m.types v = s.types v
  values : ∀ v, Visible R s.types v → m.values v = s.values v

/-- The abstract state admits the snapshot. -/
def Admits (R : ProgramVariables V) (d : TypeToNumDomain V) (s : Snapshot V) : Prop :=
  ∃ m : Snapshot V, d.types.Models m.types ∧ d.values.Models m.values ∧ AgreesWith R m s

variable {R : ProgramVariables V} {d d' : TypeToNumDomain V} {x y : AddBottom V} {τ : V → TypeEncoding}
  {σ σ' : V → ℤ} {m s s' : Snapshot V} {f : Frame} {r : Reg} {kind : DataKind} {v : V}
  {l dst src : Location}

/-! ### Copies of locations -/

/-- A location other than `r10` and the cells of the stack. -/
def Location.Plain (l : Location) : Prop := l ≠ .reg 10 ∧ ∀ o n, l ≠ .cell o n

/-- What is known about one type is kept. -/
structure KeepsType (v : V) (t t' : TypeDomain V) : Prop where
  wf : t'.inv.WF
  keeps : Keeps (fun y => y = none ∨ y = some v) t.inv t'.inv

namespace KeepsType

variable {t t' t'' : TypeDomain V} {u : V}

theorem refl (ht : t.inv.WF) : KeepsType v t t := ⟨ht, .refl⟩

theorem trans (h : KeepsType v t t') (h' : t'.inv.WF → KeepsType v t' t'') : KeepsType v t t'' :=
  ⟨(h' h.wf).wf, h.keeps.trans (h' h.wf).keeps⟩

omit [LinearOrder V] in
theorem other (h : v ≠ u) (y : Option V) (hy : y = none ∨ y = some v) : y ≠ some u := by
  rcases hy with rfl | rfl
  · exact (Option.some_ne_none u).symm
  · exact fun heq => h (Option.some.inj heq)

theorem havoc (ht : t.inv.WF) (h : v ≠ u) : KeepsType v t (t.havocType u) :=
  ⟨ht.havoc u, keeps_havoc ht (other h)⟩

theorem assign (ht : t.inv.WF) (h : v ≠ u) (e : LinearExpression V) : KeepsType v t (t.assignType u e) :=
  ⟨ht.assign u e, keeps_assign ht e (other h)⟩

theorem mem_evalInterval (h : KeepsType v t t') {k : ℤ} (hk : k ∈ t'.inv.evalInterval (.var v)) :
    k ∈ t.inv.evalInterval (.var v) := h.keeps.mem_evalInterval (Or.inr rfl) (Or.inl rfl) hk

theorem mayHaveType (h : KeepsType v t t') {type : TypeEncoding} (hmay : t.mayHaveType v type = false) :
    t'.mayHaveType v type = false := by
  rw [← Bool.not_eq_true] at hmay ⊢
  exact fun hmem => hmay (Interval.contains_iff.mpr (h.mem_evalInterval (Interval.contains_iff.mp hmem)))

theorem of_mayHaveType (h : KeepsType v t t') {type : TypeEncoding} (hmay : t'.mayHaveType v type = true) :
    t.mayHaveType v type = true :=
  Interval.contains_iff.mpr (h.mem_evalInterval (Interval.contains_iff.mp hmay))

end KeepsType

namespace Interval

variable {i j : Interval} {lb ub l u n : ℤ}

/-- An interval without ends is only in one without ends. -/
theorem isTop_of_subset (hi : i.isTop = true) (hn : n ∈ i) (h : ∀ k, k ∈ i → k ∈ j) : j.isTop = true := by
  obtain ⟨ilb, iub⟩ := i
  obtain ⟨jlb, jub⟩ := j
  obtain ⟨hl, hu⟩ := Bool.and_eq_true_iff.mp hi
  have hall : ∀ k, k ∈ (⟨jlb, jub⟩ : Interval) := by
    intro k
    refine h k ⟨?_, ?_⟩
    · cases ilb with
      | negInf => exact Bound.negInf_le _
      | fin n => cases hl
      | posInf => exact absurd hn.1 (Bound.not_posInf_le_fin n)
    · cases iub with
      | negInf => exact absurd hn.2 (Bound.not_fin_le_negInf n)
      | fin n => cases hu
      | posInf => exact Bound.le_posInf _
  refine Bool.and_eq_true_iff.mpr ⟨?_, ?_⟩
  · cases jlb with
    | fin k =>
      have hle := Bound.fin_le_fin.mp (hall (k - 1)).1
      omega
    | negInf => rfl
    | posInf => rfl
  · cases jub with
    | fin k =>
      have hle := Bound.fin_le_fin.mp (hall (k + 1)).2
      omega
    | negInf => rfl
    | posInf => rfl

end Interval

/-! ## Saving and restoring -/

namespace EbpfTransformer

/-- Nothing is left in the saved registers of the frame where a call does not overwrite it: in the type when the
register may not be initialized, and in the kinds of its types when it may not be or when nothing is known of
their values. -/
def Fresh (R : ProgramVariables V) (f : Frame) (d : TypeToNumDomain V) : Prop :=
  ∀ r ∈ calleeSaved,
    (d.types.mayHaveType (R.regType r) .uninit = true → d.types.inv.Free (R.stackFrameVar .types r f)) ∧
      ∀ kind type, d.types.mayHaveType (R.regType r) type = true → kind.BelongsTo type →
        d.types.mayHaveType (R.regType r) .uninit = true ∨
            (d.values.evalInterval (.var (R.reg kind r))).isTop = true →
          d.values.Free (R.stackFrameVar kind r f)

/-- The values of the saved registers that a call does not overwrite are those of the registers. -/
def Ready (R : ProgramVariables V) (f : Frame) (d : TypeToNumDomain V) (τ : V → TypeEncoding) (σ : V → ℤ)
    (r : Reg) : Prop :=
  (d.types.mayHaveType (R.regType r) .uninit = true → τ (R.stackFrameVar .types r f) = τ (R.regType r)) ∧
    ∀ kind type, d.types.mayHaveType (R.regType r) type = true → kind.BelongsTo type →
      d.types.mayHaveType (R.regType r) .uninit = true ∨
          (d.values.evalInterval (.var (R.reg kind r))).isTop = true →
        σ (R.stackFrameVar kind r f) = σ (R.reg kind r)

/-- What is known about the values of the registers is kept. -/
structure KeepsRegs (R : ProgramVariables V) (x y : AddBottom V) : Prop where
  wf : y.WF
  keeps : Keeps (fun v => v = none ∨ ∃ kind r, v = some (R.reg kind r)) x y

theorem KeepsRegs.refl (hx : x.WF) : KeepsRegs R x x := ⟨hx, .refl⟩

theorem KeepsRegs.trans {z : AddBottom V} (h : KeepsRegs R x y) (h' : KeepsRegs R y z) : KeepsRegs R x z :=
  ⟨h'.wf, h.keeps.trans h'.keeps⟩

omit [LinearOrder V] in
theorem reg_ne_stackFrameVar (kind kind' : DataKind) (r r' : Reg) :
    R.reg kind r ≠ R.stackFrameVar kind' r' f := by
  intro heq
  rw [R.reg_eq] at heq
  exact Location.noConfusion (R.kindVar_eq heq).2

theorem KeepsRegs.assign (hx : x.WF) (e : LinearExpression V) :
    KeepsRegs R x (x.assign (R.stackFrameVar kind r f) e) := by
  refine ⟨hx.assign _ _, keeps_assign hx e ?_⟩
  rintro v (rfl | ⟨kind', r', rfl⟩)
  · exact (Option.some_ne_none _).symm
  · exact fun heq => reg_ne_stackFrameVar _ _ _ _ (Option.some.inj heq)

/-- A register of which nothing is known after some steps is one of which nothing was known before. -/
theorem KeepsRegs.isTop (h : KeepsRegs R x y) (hσ : y.Models σ)
    (htop : (y.evalInterval (.var (R.reg kind r))).isTop = true) :
    (x.evalInterval (.var (R.reg kind r))).isTop = true := by
  have hmem := mem_evalInterval hσ (.var (R.reg kind r))
  exact Interval.isTop_of_subset htop hmem fun _ hn =>
    h.keeps.mem_evalInterval (Or.inr ⟨kind, r, rfl⟩) (Or.inl rfl) hn

theorem Ready.of_keeps {e : TypeToNumDomain V} (h : Ready R f d τ σ r)
    (htypes : KeepsType (R.regType r) d.types e.types) (hvalues : KeepsRegs R d.values e.values)
    (hσ : e.values.Models σ) : Ready R f e τ σ r :=
  ⟨fun hmay => h.1 (htypes.of_mayHaveType hmay), fun kind type hmay hkind hfree =>
    h.2 kind type (htypes.of_mayHaveType hmay) hkind
      (hfree.imp htypes.of_mayHaveType fun htop => hvalues.isTop hσ htop)⟩

open Snapshot

/-- What the saved registers of the frame are after a call. -/
structure Copied (R : ProgramVariables V) (f : Frame) (τ τ' : V → TypeEncoding) (σ σ' : V → ℤ) (r : Reg) : Prop where
  type : τ' (R.stackFrameVar .types r f) = τ (R.regType r)
  value : ∀ kind, kind.BelongsTo (τ (R.regType r)) → σ' (R.stackFrameVar kind r f) = σ (R.reg kind r)

end EbpfTransformer

/-! ## Moving `r10` -/

namespace FiniteDomain

variable {isUnsigned : V → Bool} {z : SplitDbm V} {svalue uvalue : V} {k : ℤ}

end FiniteDomain

namespace EbpfTransformer

open FiniteDomain Snapshot

/-- `r10` is known to point to the stack. -/
def KnowsPointer (R : ProgramVariables V) (d : TypeToNumDomain V) : Prop :=
  d.types.Knows (R.regType 10) .stack

/-- `r10` holds a word and points to the stack. -/
structure HoldsPointer (R : ProgramVariables V) (s : Snapshot V) : Prop where
  type : s.types (R.regType 10) = .stack
  word : ∃ x, ReadsWord s.values (R.reg .svalues 10) (R.reg .uvalues 10) x

theorem KnowsPointer.getTypeOffsetVariable (h : KnowsPointer R d) (hτ : d.types.Models τ) :
    d.getTypeOffsetVariable R 10 = some (some (R.reg .stackOffsets 10)) := by
  unfold TypeToNumDomain.getTypeOffsetVariable
  rw [TypeDomain.Knows.getType h hτ]
  rfl

end EbpfTransformer

/-! ## The stack of a frame -/

namespace ArrayDomain

open StateT

variable {bigEndian : Bool} {a : ArrayDomain} {t : TypeDomain V} {idx elemSize : Interval}

end ArrayDomain

namespace EbpfTransformer

open StateT

variable {opts : VerifierOptions} {d : EbpfDomain V}

open Snapshot

variable {isUnsigned : V → Bool} {d' d₁ d₂ : EbpfDomain V} {arrays arrays' arrays₁ arrays₂ : ArrayMap}

theorem not_isBottom (hs : Admits R d.rcp s) : d.isBottom = false := by
  obtain ⟨m, -, hσ, -⟩ := hs
  exact hσ.isBottom

/-- `r10` is not a register that is saved. -/
theorem HoldsPointer.copyRegs {dst src : Reg → Location} {regs : List Reg} (h : HoldsPointer R s)
    (hdst : ∀ r ∈ regs, regLocation 10 ≠ dst r) : HoldsPointer R (s.copyRegs R dst src regs) := by
  have hsame : Same R (regLocation 10) s (s.copyRegs R dst src regs) := same_copyRegs hdst
  refine ⟨?_, ?_⟩
  · rw [← typeVar_regLocation, hsame.type, typeVar_regLocation]
    exact h.type
  · obtain ⟨x, hs, hu⟩ := h.word
    have hsv := hsame.value .svalues (by decide)
    have huv := hsame.value .uvalues (by decide)
    rw [kindVar_regLocation] at hsv huv
    exact ⟨x, hsv.trans hs, huv.trans hu⟩

end EbpfTransformer

end Prevail
