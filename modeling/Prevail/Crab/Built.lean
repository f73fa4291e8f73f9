import Prevail.Crab.ContextLoad
import Prevail.Crab.Reachable
import Prevail.Crab.TransformAlu
import Prevail.Crab.TransformAssume

/-!
# States that the zone domain built

A state is `Built` when the operations of the zone domain built its types and its values from the top state.
Every invariant of the reachable zones then holds of it. The operations of the product domain, of the finite
domain and of the registers keep this up, as they only reach the zones through the operations of the zone
domain.
-/

namespace Prevail

open Option StateT

variable {V : Type} [LinearOrder V] {meets : SplitDbm V → SplitDbm V → Prop}

/-! ## Zones -/

namespace AddBottom

variable {x y : AddBottom V} {d : SplitDbm V}

/-- The zone, if there is one, is reachable. -/
def Built (meets : SplitDbm V → SplitDbm V → Prop) (x : AddBottom V) : Prop :=
  x.Returns (SplitDbm.Reachable meets)

/-- A zone that is there is built when it is reachable: the value of the option is the zone itself. -/
theorem built_some : Built meets (some d) ↔ SplitDbm.Reachable meets d := ⟨fun h => h d rfl, .some⟩

theorem built_none : Built meets (none : AddBottom V) := .none

theorem built_top : Built meets (top : AddBottom V) := .some .top

/-- With one operand without states the join is the other operand, so only two zones are joined. -/
theorem Built.join (hx : Built meets x) (hy : Built meets y) : Built meets (x.join y) := by
  cases x with
  | none => cases y <;> exact hy
  | some a =>
    cases y with
    | none => exact hx
    | some b => exact .some (.join (built_some.mp hx) (built_some.mp hy))

theorem Built.widen (hx : Built meets x) (hy : Built meets y) : Built meets (x.widen y) := by
  cases x with
  | none => cases y <;> exact hy
  | some a =>
    cases y with
    | none => exact hx
    | some b => exact .some (.widen (built_some.mp hx) (built_some.mp hy))

/-- The zones are ones that may be met. -/
def Meets (meets : SplitDbm V → SplitDbm V → Prop) (x y : AddBottom V) : Prop :=
  ∀ a b, x = some a → y = some b → meets a b

/-- A meet may find that there are no states. Else both operands had to be zones that may be met. -/
theorem Built.meet (hx : Built meets x) (hy : Built meets y) (h : Meets meets x y) :
    Built meets (x.meet y) := by
  cases x with
  | none => exact built_none
  | some a =>
    cases y with
    | none => exact built_none
    | some b => exact fun d hd => .meet (built_some.mp hx) (built_some.mp hy) (h a b rfl rfl) hd

theorem Built.narrow (hx : Built meets x) (hy : Built meets y) : Built meets (x.narrow y) := by
  cases x with
  | none => exact built_none
  | some a =>
    cases y with
    | none => exact built_none
    | some b => exact .some (.narrow (built_some.mp hx) (built_some.mp hy))

theorem Built.havoc (hx : Built meets x) (v : V) : Built meets (x.havoc v) :=
  Returns.map hx fun _ h => .havoc h v

/-- An empty interval leaves no state, and no zone is set to one. -/
theorem Built.set (hx : Built meets x) (v : V) (i : Interval) : Built meets (x.set v i) := by
  unfold AddBottom.set
  split
  · exact built_none
  · next hi => exact Returns.map hx fun _ h => .set h v i (Bool.not_eq_true _ ▸ hi)

/-- A constraint that cannot hold leaves no state; else the zone has one constraint more. -/
theorem Built.addConstraint (hx : Built meets x) (c : LinearConstraint V) :
    Built meets (x.addConstraint c) := by
  refine Returns.bind hx fun d h d' hd' => ?_
  exact .addConstraint h c hd'

theorem Built.assign (hx : Built meets x) (v : V) (e : LinearExpression V) : Built meets (x.assign v e) :=
  Returns.map hx fun _ h => .assign h v e

/-- A value that is not known is forgotten. -/
theorem Built.assignOpt (hx : Built meets x) (v : V) (e : Option (LinearExpression V)) :
    Built meets (x.assignOpt v e) := by
  cases e with
  | none => exact hx.havoc v
  | some e => exact hx.assign v e

theorem Built.assignInt (hx : Built meets x) (v : V) (n : ℤ) : Built meets (x.assignInt v n) :=
  Returns.map hx fun _ h => .set h v _ (Interval.isBottom_eq_false_of_mem (Interval.mem_const.mpr rfl))

/-- A loop over a list keeps the zone built when its body does. -/
theorem Built.foldl {α : Type*} {l : List α} {f : AddBottom V → α → AddBottom V} (hx : Built meets x)
    (hf : ∀ x a, Built meets x → Built meets (f x a)) : Built meets (l.foldl f x) :=
  List.foldlRecOn l f hx fun x hx a _ => hf x a hx

end AddBottom

/-! ## The product domain -/

namespace TypeToNumDomain

open AddBottom

variable {R : ProgramVariables V} {d o rcp : TypeToNumDomain V} {r dst src : Reg}

/-- The types and the values are. -/
structure Built (meets : SplitDbm V → SplitDbm V → Prop) (d : TypeToNumDomain V) : Prop where
  types : d.types.inv.Built meets
  values : d.values.Built meets

theorem built_top : Built meets (top : TypeToNumDomain V) := ⟨AddBottom.built_top, AddBottom.built_top⟩

theorem built_bottom : Built meets (bottom : TypeToNumDomain V) := ⟨AddBottom.built_top, built_none⟩

/-- The join and the widening write the kinds that one operand lacks back into the result. -/
theorem built_setAll {x : AddBottom V} (hx : x.Built meets) (extra : List (V × Interval)) :
    (setAll x extra).Built meets := hx.foldl fun _ e hx => hx.set e.1 e.2

/-- The values of both operands are joined; the types are those of the left one. -/
theorem Built.joinSelective {R : VariableRegistry V} (hd : d.Built meets) (ho : o.Built meets) :
    (d.joinSelective R o).Built meets := by
  unfold TypeToNumDomain.joinSelective
  split_ifs
  · exact ho
  · exact hd
  · exact ⟨hd.types, built_setAll (hd.values.join ho.values) _⟩

theorem Built.join {R : VariableRegistry V} (hd : d.Built meets) (ho : o.Built meets) :
    (d.join R o).Built meets := by
  have hleft : (if d.isBottom then o else d).Built meets := by
    split_ifs
    · exact ho
    · exact hd
  unfold TypeToNumDomain.join
  revert hleft
  generalize (if d.isBottom then o else d) = e
  intro hleft
  simp only
  split_ifs
  · exact hleft
  · exact ⟨(hleft.joinSelective ho).types.join ho.types, (hleft.joinSelective ho).values⟩

theorem Built.widen {R : VariableRegistry V} (hd : d.Built meets) (ho : o.Built meets) :
    (d.widen R o).Built meets :=
  ⟨hd.types.widen ho.types, built_setAll (hd.values.widen ho.values) _⟩

theorem Built.meet (hd : d.Built meets) (ho : o.Built meets) (ht : Meets meets d.types.inv o.types.inv)
    (hv : Meets meets d.values o.values) : (d.meet o).Built meets := by
  unfold TypeToNumDomain.meet TypeDomain.meet
  simp only
  split_ifs
  · exact built_bottom
  · exact ⟨hd.types.meet ho.types ht, hd.values.meet ho.values hv⟩

theorem Built.narrow (hd : d.Built meets) (ho : o.Built meets) : (d.narrow o).Built meets :=
  ⟨hd.types.narrow ho.types, hd.values.narrow ho.values⟩

/-! ## Registers -/

theorem built_havocKindsOf {x : AddBottom V} (hx : x.Built meets) (v : V) (kinds : List DataKind) :
    (havocKindsOf R x v kinds).Built meets := hx.foldl fun _ _ hx => hx.havoc _

theorem Built.assignType (hd : d.Built meets) (v : V) (e : LinearExpression V) :
    (d.assignType v e).Built meets := ⟨hd.types.assign v e, hd.values⟩

theorem Built.havocOffsets (hd : d.Built meets) (r : Reg) : (havocOffsets R d r).Built meets :=
  ⟨hd.types, built_havocKindsOf hd.values _ _⟩

theorem Built.havocRegisterExceptType (hd : d.Built meets) (r : Reg) :
    (havocRegisterExceptType R d r).Built meets := ⟨hd.types, built_havocKindsOf hd.values _ _⟩

/-- To forget a register forgets its type and each of its kinds. -/
theorem Built.havocRegister (hd : d.Built meets) (r : Reg) : (havocRegister R d r).Built meets :=
  ⟨hd.types.havoc _, built_havocKindsOf hd.values _ _⟩

/-- A transition runs on the state where the register has the type and the kinds of other types are gone. -/
theorem Built.withType (hd : d.Built meets) (valid : List (TypeEncoding × List DataKind))
    (type : TypeEncoding) : (d.withType R r valid type).Built meets :=
  ⟨hd.types.addConstraint _, hd.values.foldl fun _ e hx => built_havocKindsOf hx _ e.2⟩

/-- The join over the types joins what the transition makes of the states of each type, from no state on. -/
theorem Built.joinOverTypes {S : Type}
    {transition : TypeToNumDomain V → TypeEncoding → StateT S Option (TypeToNumDomain V)}
    (hd : d.Built meets)
    (htrans : ∀ d type, d.Built meets → Ensures (transition d type) (Built meets)) :
    Ensures (joinOverTypes R d r transition) (Built meets) := by
  unfold TypeToNumDomain.joinOverTypes
  split_ifs
  · exact htrans d _ hd
  · refine Ensures.bind' fun types => Ensures.bind' fun valid => ?_
    refine Ensures.foldlM built_bottom fun type _ res hres => ?_
    exact (htrans _ _ (hd.withType valid type)).bind fun tmp htmp => Ensures.pure (hres.join htmp)

/-- The registers and cells that may have the type lose it with its kinds. -/
theorem Built.havocAllLocationsHavingType (hd : d.Built meets) (type : TypeEncoding) :
    (havocAllLocationsHavingType R d type).Returns (Built meets) := by
  refine Returns.foldlM hd fun v _ d hd => ?_
  split_ifs
  · exact Returns.bind' fun kinds => .some ⟨hd.types.havoc _, built_havocKindsOf hd.values _ _⟩
  · exact .some hd

/-- A copy between registers assigns the kinds that the types of the source have. -/
theorem Built.assign (hd : d.Built meets) (lhs rhs : Reg) : (assign R d lhs rhs).Returns (Built meets) := by
  unfold TypeToNumDomain.assign
  split_ifs
  · exact .some hd
  · refine Returns.bind' fun types => Returns.bind (Q := AddBottom.Built meets) ?_ fun x hx => ?_
    · exact Returns.foldlM ((hd.values.assign _ _).assign _ _) fun type _ x hx =>
        Returns.bind' fun kinds => .some (built_havocKindsOf hx _ _)
    refine Returns.bind' fun types' => Returns.bind (Q := AddBottom.Built meets) ?_ fun y hy => ?_
    · exact Returns.foldlM hx fun type _ x hx =>
        Returns.bind' fun kinds => .some (hx.foldl fun _ _ hx => hx.assign _ _)
    exact .some ⟨hd.types.assign _ _, hy⟩

end TypeToNumDomain

/-! ## The finite domain -/

namespace FiniteDomain

open SplitDbm (Reachable)

variable {isUnsigned : V → Bool} {d : SplitDbm V} {x y v svalue uvalue : V} {z : V ⊕ ℤ} {w : ℕ}

theorem reachable_set (hd : Reachable meets d) (x : V) (i : Interval) :
    (set d x i).Returns (Reachable meets) := by
  unfold set
  split
  · exact .none
  · next hi => exact .some (.set hd x i (Bool.not_eq_true _ ▸ hi))

/-- The bound of a word is an interval that the zone is set to, never an empty one. -/
theorem reachable_overflowBound (hd : Reachable meets d) (v : V) (w : ℕ) (isSigned : Bool) :
    (overflowBound d v w isSigned).Returns (Reachable meets) := by
  unfold overflowBound
  simp only
  split
  · exact .some (.havoc hd v)
  · split
    · exact .some (.havoc hd v)
    · refine Returns.bind' fun lb => Returns.bind' fun ub => ?_
      split
      · exact .some (.havoc hd v)
      · next hle =>
        refine .some ?_
        split
        · exact .set hd v _ (by rw [Interval.isBottom_ofInts, decide_eq_false hle])
        · exact hd

theorem reachable_overflowBounds (hd : Reachable meets d) (svalue uvalue : V) (w : ℕ) :
    (overflowBounds d svalue uvalue w).Returns (Reachable meets) :=
  (reachable_overflowBound hd svalue w true).bind fun _ hd => reachable_overflowBound hd uvalue w false

/-- Sums and differences are assigned to the variable; what the other operators give is set as an interval. -/
theorem reachable_apply (op : BinOp) (hd : Reachable meets d) :
    (apply isUnsigned d op x y z w).Returns (Reachable meets) := by
  cases op with
  | arith op =>
    cases op with
    | add => exact .some (.assign hd _ _)
    | sub => exact .some (.assign hd _ _)
    | mul => exact Returns.bind' fun _ => Returns.bind' fun _ => reachable_set hd _ _
  | signedArith op =>
    refine Returns.bind' fun left => ?_
    cases op with
    | srem => exact Returns.bind' fun _ => reachable_set hd _ _
    | sdiv => exact Returns.bind' fun _ => Returns.bind' fun _ => reachable_set hd _ _
    | udiv => exact Returns.bind' fun _ => Returns.bind' fun _ => reachable_set hd _ _
    | urem => exact Returns.bind' fun _ => Returns.bind' fun _ => reachable_set hd _ _
  | bitwise op =>
    -- the two kinds of operands each go on with the case of the operator
    cases z with
    | inl z =>
      refine Returns.bind' fun _ => ?_
      cases op <;> exact Returns.bind' fun _ => reachable_set hd _ _
    | inr k =>
      refine Returns.bind' fun _ => ?_
      cases op <;> exact Returns.bind' fun _ => reachable_set hd _ _

/-- The operation is done on the signed variable, which the other one then follows. -/
theorem reachable_applySigned (op : BinOp) (hd : Reachable meets d) :
    (applySigned isUnsigned d op svalue uvalue y z w).Returns (Reachable meets) := by
  refine (reachable_apply op hd).bind fun d hd => ?_
  split_ifs
  · exact reachable_overflowBounds (.assign hd _ _) _ _ _
  · exact .some hd

theorem reachable_applyUnsigned (op : BinOp) (hd : Reachable meets d) :
    (applyUnsigned isUnsigned d op svalue uvalue y z w).Returns (Reachable meets) := by
  refine (reachable_apply op hd).bind fun d hd => ?_
  split_ifs
  · exact reachable_overflowBounds (.assign hd _ _) _ _ _
  · exact .some hd

/-- A variable is set, the other one of the word is assigned to, and both wrap around. -/
theorem reachable_setWord (hd : Reachable meets d) (v v' svalue uvalue : V) (i : Interval) (w : ℕ) :
    (do overflowBounds ((← set d v i).assign v' (.var v)) svalue uvalue w : Option (SplitDbm V)).Returns
      (Reachable meets) :=
  (reachable_set hd v i).bind fun _ hd => reachable_overflowBounds (.assign hd _ _) _ _ _

/-- A value without finite bounds is multiplied; else the interval of the shifted ends is set. -/
theorem reachable_shl (hd : Reachable meets d) (imm : ℤ) (w : ℕ) :
    (shl d svalue uvalue imm w).Returns (Reachable meets) := by
  unfold shl
  simp only
  split
  · exact reachable_applyUnsigned _ hd
  · refine Returns.bind' fun _ => Returns.bind' fun _ => Returns.bind' fun _ => Returns.bind' fun _ => ?_
    exact Returns.bind' fun i => reachable_setWord hd _ _ _ _ i w

theorem reachable_lshr (hd : Reachable meets d) (imm : ℤ) (w : ℕ) :
    (lshr d svalue uvalue imm w).Returns (Reachable meets) :=
  Returns.bind' fun i => reachable_setWord hd _ _ _ _ i w

/-- Without a known count both variables are forgotten. -/
theorem reachable_ashr (hd : Reachable meets d) (right : LinearExpression V) (w : ℕ) :
    (ashr d svalue uvalue right w).Returns (Reachable meets) := by
  unfold ashr
  simp only
  split
  · exact .some (.havoc (.havoc hd _) _)
  · exact Returns.bind' fun _ => Returns.bind' fun i => reachable_setWord hd _ _ _ _ i w

theorem reachable_signExtend (hd : Reachable meets d) (right : LinearExpression V) (w source : ℕ) :
    (signExtend d svalue uvalue right w source).Returns (Reachable meets) := by
  unfold signExtend
  simp only
  split
  · exact .none
  · exact reachable_setWord hd _ _ _ _ _ w

end FiniteDomain

end Prevail
