import Prevail.Crab.Inclusion
import Prevail.Crab.NormalHavoc

/-!
# Zones with a bottom

`AddBottom` is a `SplitDbm` or nothing, for the empty state; `NumAbsDomain` is another name for it.
`FiniteDomain` passes the operations below on to its `SplitDBM` unchanged and is left out here.

`WF` and `NormalForm` ask for nothing of the empty state. Each operation keeps the former, and has
one lemma that says which valuations its result admits.
-/

namespace Prevail

open DiffSys

/-- A zone, or `none` for the empty state. -/
abbrev AddBottom (V : Type*) [LinearOrder V] := Option (SplitDbm V)

namespace AddBottom

variable {V : Type*} [LinearOrder V]

def top : AddBottom V := some SplitDbm.top

def isBottom (x : AddBottom V) : Bool := x.isNone

/-- `operator<=`. -/
def le : AddBottom V → AddBottom V → Bool
  | none, _ => true
  | some _, none => false
  | some a, some b => SplitDbm.le a b

/-- `operator|=`. -/
def join : AddBottom V → AddBottom V → AddBottom V
  | x, none => x
  | none, y => y
  | some a, some b => some (SplitDbm.join a b)

def widen : AddBottom V → AddBottom V → AddBottom V
  | none, y => y
  | x, none => x
  | some a, some b => some (SplitDbm.widen a b)

/-- `operator&`. -/
def meet : AddBottom V → AddBottom V → AddBottom V
  | some a, some b => SplitDbm.meet a b
  | _, _ => none

def narrow : AddBottom V → AddBottom V → AddBottom V
  | some a, some b => some (SplitDbm.narrow a b)
  | _, _ => none

def havoc (x : AddBottom V) (v : V) : AddBottom V := x.map (SplitDbm.havoc · v)

def set (x : AddBottom V) (v : V) (i : Interval) : AddBottom V :=
  if i.isBottom then none else x.map (SplitDbm.set · v i)

def addConstraint (x : AddBottom V) (c : LinearConstraint V) : AddBottom V :=
  x.bind (SplitDbm.addConstraint · c)

def evalInterval (x : AddBottom V) (e : LinearExpression V) : Interval :=
  match x with
  | some d => SplitDbm.evalInterval d e
  | none => .bottom

def assign (x : AddBottom V) (v : V) (e : LinearExpression V) : AddBottom V :=
  x.map (SplitDbm.assign · v e)

/-- `assign` of an optional expression. -/
def assignOpt (x : AddBottom V) (v : V) (e : Option (LinearExpression V)) : AddBottom V :=
  x.map (SplitDbm.assignOpt · v e)

/-- `assign` of a machine number, which sets the variable. -/
def assignInt (x : AddBottom V) (v : V) (n : ℤ) : AddBottom V := x.map (SplitDbm.set · v (.const n))

/-- Whether the state meets the constraint. -/
def intersect (x : AddBottom V) (c : LinearConstraint V) : Bool :=
  match x with
  | some d => SplitDbm.intersect d c
  | none => false

def entail (x : AddBottom V) (c : LinearConstraint V) : Bool :=
  match x with
  | some d => SplitDbm.entail d c
  | none => true

/-- The valuations that the state admits; the empty state admits none. -/
def Models (x : AddBottom V) (σ : V → ℤ) : Prop := ∃ d ∈ x, SplitDbm.Models d σ

def WF (x : AddBottom V) : Prop := ∀ d ∈ x, SplitDbm.WF d

def NormalForm (x : AddBottom V) : Prop := ∀ d ∈ x, SplitDbm.NormalForm d

variable {x y : AddBottom V} {a : SplitDbm V} {σ : V → ℤ} {v : V} {i : Interval}

@[simp] theorem models_some : Models (some a) σ ↔ a.Models σ := by simp [Models]

@[simp] theorem not_models_none : ¬ Models (none : AddBottom V) σ := by simp [Models]

@[simp] theorem wf_some : WF (some a) ↔ a.WF := by simp [WF]

@[simp] theorem wf_none : WF (none : AddBottom V) := by simp [WF]

theorem isBottom_iff : x.isBottom = true ↔ x = none := Option.isNone_iff_eq_none

/-- Only a state that is not bottom has models. -/
theorem Models.isBottom (h : x.Models σ) : x.isBottom = false := by
  obtain ⟨d, rfl, -⟩ := h
  rfl

/-! ## What the operations admit -/

theorem models_of_le (hx : x.WF) (hy : y.WF) (h : x.le y = true) (hσ : x.Models σ) :
    y.Models σ := by
  obtain ⟨a, rfl, ha⟩ := hσ
  cases y with
  | none => cases h
  | some b =>
    rw [models_some]
    exact SplitDbm.models_of_le (wf_some.mp hx) (wf_some.mp hy) h ha

theorem models_join (hx : x.WF) (hy : y.WF) (h : x.Models σ ∨ y.Models σ) :
    (x.join y).Models σ := by
  cases x with
  | none =>
    have hy' := h.resolve_left not_models_none
    cases y <;> exact hy'
  | some a =>
    cases y with
    | none => exact h.resolve_right not_models_none
    | some b =>
      rw [models_some, models_some] at h
      exact models_some.mpr
        (SplitDbm.models_join (wf_some.mp hx) (wf_some.mp hy) h)

theorem models_widen (hx : x.WF) (hy : y.WF) (h : x.Models σ ∨ y.Models σ) :
    (x.widen y).Models σ := by
  cases x with
  | none => exact h.resolve_left not_models_none
  | some a =>
    cases y with
    | none => exact h.resolve_right not_models_none
    | some b =>
      rw [models_some, models_some] at h
      exact models_some.mpr
        (SplitDbm.models_widen_of_models (wf_some.mp hx) (wf_some.mp hy) h)

theorem models_narrow (h : (x.Models σ)) (h' : y.Models σ) : (x.narrow y).Models σ := by
  obtain ⟨a, rfl, ha⟩ := h
  obtain ⟨b, rfl, hb⟩ := h'
  refine models_some.mpr ?_
  unfold SplitDbm.narrow
  split_ifs
  · exact hb
  · exact ha

theorem mem_evalInterval (h : x.Models σ) (e : LinearExpression V) :
    e.eval σ ∈ x.evalInterval e := by
  obtain ⟨a, rfl, ha⟩ := h
  exact SplitDbm.mem_evalInterval ha e

theorem models_havoc (hx : x.WF) (h : x.Models σ) (n : ℤ) :
    (x.havoc v).Models (Function.update σ v n) := by
  obtain ⟨a, rfl, ha⟩ := h
  exact models_some.mpr (SplitDbm.models_havoc (wf_some.mp hx) v ha n)

theorem models_set (hx : x.WF) (h : x.Models σ) {n : ℤ} (hn : n ∈ i) :
    (x.set v i).Models (Function.update σ v n) := by
  obtain ⟨a, rfl, ha⟩ := h
  unfold set
  rw [Interval.isBottom_eq_false_of_mem hn]
  exact models_some.mpr (SplitDbm.models_set (wf_some.mp hx) ha hn)

theorem models_assign (hx : x.WF) (h : x.Models σ) (e : LinearExpression V) :
    (x.assign v e).Models (Function.update σ v (e.eval σ)) := by
  obtain ⟨a, rfl, ha⟩ := h
  exact models_some.mpr (SplitDbm.models_assign (wf_some.mp hx) v e ha)

theorem models_assignInt (hx : x.WF) (h : x.Models σ) (n : ℤ) :
    (x.assignInt v n).Models (Function.update σ v n) := by
  obtain ⟨a, rfl, ha⟩ := h
  exact models_some.mpr (SplitDbm.models_set (wf_some.mp hx) ha (Interval.mem_const.mpr rfl))

theorem sat_of_entail (hx : x.WF) {c : LinearConstraint V} (h : x.entail c = true)
    (hσ : x.Models σ) : c.Sat σ := by
  obtain ⟨a, rfl, ha⟩ := hσ
  exact SplitDbm.sat_of_entail (wf_some.mp hx) h ha

theorem models_addConstraint (hx : x.WF) (h : x.Models σ) {c : LinearConstraint V}
    (hc : SplitDbm.UnitDisequation c) (hsat : c.Sat σ) : (x.addConstraint c).Models σ := by
  obtain ⟨a, rfl, ha⟩ := h
  have hadd := SplitDbm.narrows_addConstraint (wf_some.mp hx) c
  show Models (a.addConstraint c) σ
  cases hd : a.addConstraint c with
  | none => exact absurd ⟨hc, hsat⟩ (hadd.empty hd σ ha)
  | some d => exact models_some.mpr (hadd.models d hd σ ha ⟨hc, hsat⟩)

/-! ## Well-formed states -/

theorem wf_top : (top : AddBottom V).WF := by
  rintro _ ⟨⟩
  exact SplitDbm.wf_top

theorem WF.join (hx : x.WF) (hy : y.WF) : (x.join y).WF := by
  cases x <;> cases y <;> first
    | exact hx
    | exact hy
    | exact wf_some.mpr (SplitDbm.join_spec (wf_some.mp hx) (wf_some.mp hy)).1

theorem WF.widen (hx : x.WF) (hy : y.WF) : (x.widen y).WF := by
  cases x <;> cases y <;> first
    | exact hx
    | exact hy
    | exact wf_some.mpr (SplitDbm.widen_spec (wf_some.mp hx) _).1

theorem WF.addConstraint (hx : x.WF) (c : LinearConstraint V) : (x.addConstraint c).WF := by
  cases x with
  | none => exact wf_none
  | some a =>
    exact fun d hd => (SplitDbm.narrows_addConstraint (wf_some.mp hx) c).wf d hd

theorem WF.havoc (hx : x.WF) (v : V) : (x.havoc v).WF := by
  cases x with
  | none => exact wf_none
  | some a => exact wf_some.mpr (SplitDbm.wf_havoc (wf_some.mp hx) v)

theorem WF.assign (hx : x.WF) (v : V) (e : LinearExpression V) : (x.assign v e).WF := by
  cases x with
  | none => exact wf_none
  | some a => exact wf_some.mpr (SplitDbm.wf_assign (wf_some.mp hx) v e)

theorem WF.assignInt (hx : x.WF) (v : V) (n : ℤ) : (x.assignInt v n).WF := by
  cases x with
  | none => exact wf_none
  | some a => exact wf_some.mpr (SplitDbm.wf_set (wf_some.mp hx) v _)

theorem WF.set (hx : x.WF) (v : V) (i : Interval) : (x.set v i).WF := by
  unfold AddBottom.set
  split_ifs
  · exact wf_none
  · cases x with
    | none => exact wf_none
    | some a => exact wf_some.mpr (SplitDbm.wf_set (wf_some.mp hx) v i)

end AddBottom

end Prevail
