import Prevail.Crab.StackCells
import Prevail.Lib.Ensures

/-!
# What operations on the stack leave alone

`Untouched K x y` says that the models of `x` are models of `y`, up to the values of the variables in
`K`. Work on the cells only touches the variables of cells, whatever the maps of cells are.
-/

namespace Prevail

open StateT

namespace AddBottom

variable {V : Type*} [LinearOrder V] {x y z : AddBottom V} {K L : V → Prop} {σ : V → ℤ} {v : V}

/-- What leads from `x` to `y` only touches the variables in `K`. -/
structure Untouched (K : V → Prop) (x y : AddBottom V) : Prop where
  wf : y.WF
  models : ∀ σ, x.Models σ → ∃ σ', y.Models σ' ∧ ∀ v, ¬ K v → σ' v = σ v

namespace Untouched

theorem refl (hx : x.WF) : Untouched K x x := ⟨hx, fun σ hσ => ⟨σ, hσ, fun _ _ => rfl⟩⟩

theorem trans (h : Untouched K x y) (h' : Untouched K y z) : Untouched K x z := by
  refine ⟨h'.wf, fun σ hσ => ?_⟩
  obtain ⟨σ₁, hσ₁, heq₁⟩ := h.models σ hσ
  obtain ⟨σ₂, hσ₂, heq₂⟩ := h'.models σ₁ hσ₁
  exact ⟨σ₂, hσ₂, fun v hv => (heq₂ v hv).trans (heq₁ v hv)⟩

theorem mono (h : Untouched K x y) (hKL : ∀ v, K v → L v) : Untouched L x y := by
  refine ⟨h.wf, fun σ hσ => ?_⟩
  obtain ⟨σ', hσ', heq⟩ := h.models σ hσ
  exact ⟨σ', hσ', fun v hv => heq v fun hK => hv (hKL v hK)⟩

/-- One variable has a new value. -/
theorem of_update (hwf : y.WF) (hv : K v)
    (h : ∀ σ, x.Models σ → ∃ n, y.Models (Function.update σ v n)) : Untouched K x y := by
  refine ⟨hwf, fun σ hσ => ?_⟩
  obtain ⟨n, hn⟩ := h σ hσ
  refine ⟨_, hn, fun u hu => Function.update_of_ne ?_ _ _⟩
  rintro rfl
  exact hu hv

theorem havoc (h : Untouched K x y) (hv : K v) : Untouched K x (y.havoc v) :=
  h.trans (of_update (h.wf.havoc v) hv fun σ hσ => ⟨σ v, models_havoc h.wf hσ _⟩)

theorem assign (h : Untouched K x y) (hv : K v) (e : LinearExpression V) :
    Untouched K x (y.assign v e) :=
  h.trans (of_update (h.wf.assign v e) hv fun _ hσ => ⟨_, models_assign h.wf hσ e⟩)

theorem assignOpt (h : Untouched K x y) (hv : K v) (e : Option (LinearExpression V)) :
    Untouched K x (y.assignOpt v e) := by
  cases e with
  | some e => exact h.assign hv e
  | none => exact h.havoc hv

theorem foldl {α : Type*} {l : List α} {f : AddBottom V → α → AddBottom V} (h : Untouched K x y)
    (hf : ∀ a ∈ l, ∀ z, Untouched K x z → Untouched K x (f z a)) : Untouched K x (l.foldl f y) :=
  List.foldlRecOn (motive := Untouched K x) l f h fun z hz a ha => hf a ha z hz

end Untouched

end AddBottom

open AddBottom

/-- The variables of the cells. -/
def ProgramVariables.Cells {V : Type*} (R : ProgramVariables V) (v : V) : Prop :=
  ∃ kind offset size, v = R.cellVar kind offset size

namespace ArrayDomain

variable {V : Type} [LinearOrder V] {R : ProgramVariables V} {bigEndian : Bool} {a : ArrayDomain}
  {inv x : AddBottom V} {kind : DataKind} {idx elemSize : Interval}

omit [LinearOrder V] in
theorem getScalar_cells (kind : DataKind) (c : Cell) : R.Cells (getScalar R kind c) :=
  ⟨kind, _, _, rfl⟩

theorem splitCell_untouched (h : Untouched R.Cells x inv) (start len : ℕ) :
    Ensures (splitCell R bigEndian inv kind start len) (Untouched R.Cells x) := by
  unfold splitCell
  refine Ensures.bind' fun svalue => Ensures.bind' fun uvalue => Ensures.bind' fun c => Ensures.pure ?_
  exact (h.assignOpt (getScalar_cells _ c) svalue).assignOpt (getScalar_cells _ c) uvalue

theorem splitOverlap_untouched (h : Untouched R.Cells x inv) (o size : ℕ) (c : Cell) :
    Ensures (splitOverlap R bigEndian a kind o size inv c) (Untouched R.Cells x) := by
  unfold splitOverlap
  refine Ensures.bind' fun i => Ensures.bind' fun lb => Ensures.bind' fun start => ?_
  refine Ensures.bind' fun ub => Ensures.bind' fun last => ?_
  split_ifs
  · exact Ensures.pure h
  · exact Ensures.pure h
  · exact (splitCell_untouched h _ _).bind fun inv' h' => splitCell_untouched h' _ _
  · exact (Ensures.pure h).bind fun inv' h' => splitCell_untouched h' _ _
  · exact (splitCell_untouched h _ _).bind fun inv' h' => Ensures.pure h'
  · exact (Ensures.pure h).bind fun inv' h' => Ensures.pure h'

theorem splitNumberVar_untouched (h : Untouched R.Cells x inv) :
    Ensures (splitNumberVar R bigEndian a inv kind idx elemSize) (Untouched R.Cells x) := by
  unfold splitNumberVar
  split
  · refine Ensures.bind' fun size => Ensures.bind' fun o => Ensures.bind' fun cells => ?_
    exact Ensures.foldlM h fun c _ inv' h' => splitOverlap_untouched h' _ _ c
  · exact Ensures.pure h

theorem havocCell_untouched (h : Untouched R.Cells x inv) (c : Cell) :
    Untouched R.Cells x (havocCell R kind inv c) := by
  have h' := h.havoc (getScalar_cells (R := R) kind c)
  unfold havocCell
  simp only
  split_ifs
  · exact h'.havoc (getScalar_cells _ c)
  · exact h'.havoc (getScalar_cells _ c)
  · exact h'

theorem killAndFindVar_untouched (h : Untouched R.Cells x inv) :
    Ensures (killAndFindVar R inv kind idx elemSize) fun r => Untouched R.Cells x r.2 := by
  unfold killAndFindVar
  refine Ensures.bind' fun res => Ensures.bind' fun _ => Ensures.pure ?_
  exact h.foldl fun c _ y hy => havocCell_untouched hy c

theorem splitAndFindVar_untouched (h : Untouched R.Cells x inv) :
    Ensures (splitAndFindVar R bigEndian a inv kind idx elemSize) fun r => Untouched R.Cells x r.2 := by
  unfold splitAndFindVar
  split_ifs
  · exact (splitNumberVar_untouched h).bind fun inv' h' => killAndFindVar_untouched h'
  · exact (Ensures.pure h).bind fun inv' h' => killAndFindVar_untouched h'

theorem havoc_untouched (h : Untouched R.Cells x inv) :
    Ensures (havoc R bigEndian a inv kind idx elemSize) (Untouched R.Cells x) := by
  unfold havoc
  exact (splitAndFindVar_untouched h).bind fun r hr => Ensures.pure hr

theorem havocKinds_untouched (h : Untouched R.Cells x inv) :
    Ensures (havocKinds R bigEndian a inv idx elemSize) (Untouched R.Cells x) :=
  Ensures.foldlM h fun _ _ _ h' => havoc_untouched h'

end ArrayDomain

end Prevail
