import Prevail.Crab.Assigned
import Prevail.Crab.Inclusion

/-!
# Assignment is exact when the old variable may go

`assign` closes the new vertex before it drops the old one, so no valuation is lost, also when the
variable occurs in the expression (`models_assign`). What the state says about the other variables is kept
as far as their own edges say it (`keeps_assign`). In split normal form these say everything
(`NormalForm.keptWithout`). Widening may leave two variables that are only related through a third, since
the normalisation of its result takes the vertices that lost an edge for the stable ones; an assignment to
the third then loses the relation.
-/

namespace Prevail

open DiffSys GraphOps

namespace SplitDbm

variable {V : Type*} [LinearOrder V] {d : SplitDbm V} {x : V}

/-- A state that keeps the constraints on the other variables satisfies them. -/
theorem Keeps.sat_without {d' : SplitDbm V} (h : Keeps (Other x) d d') (hd' : d'.WF) {τ : V → ℤ}
    (hτ : d'.Models τ) : Sat (d.csts.without (some x)) (ext τ) := by
  rintro s t w ⟨hw, hs, ht⟩
  obtain ⟨w', hle, hw'⟩ := h s t w hs ht hw
  exact ((models_iff hd').mp hτ s t w' hw').trans (Int.add_le_add_left hle _)

/-- The state after an assignment has the valuations of the old one with the new value, and excludes
those of the other variables that the old one excluded. -/
def AssignExact (d : SplitDbm V) (x : V) (e : LinearExpression V) : Prop :=
  (∀ σ, d.Models σ → (d.assign x e).Models (Function.update σ x (e.eval σ))) ∧
    ∀ τ, (d.assign x e).Models τ → ∃ k, d.Models (Function.update τ x k)

theorem assign_exact (hd : Reachable (fun _ _ => True) d) (hx : d.KeptWithout x)
    (e : LinearExpression V) : d.AssignExact x e := by
  refine ⟨fun σ hσ => models_assign hd.wf x e hσ, fun τ hτ => ?_⟩
  exact hx.models hd.wf ((keeps_assign hd.wf x e).sat_without (wf_assign hd.wf x e) hτ)

/-! ## A triangle of differences -/

/-- `x - y <= k`. -/
def diffLe (x y : ℕ) (k : ℤ) : LinearConstraint ℕ :=
  ⟨((LinearExpression.var x).subtract (.var y)).plusConst (-k), .lessThanOrEqualsZero⟩

/-- `x2 - x1 <= 1`. -/
def linked : SplitDbm ℕ := ((top : SplitDbm ℕ).addConstraint (diffLe 2 1 1)).get (by decide)

/-- And `x3 - x2 <= 1`. -/
def chained : SplitDbm ℕ := (linked.addConstraint (diffLe 3 2 1)).get (by decide)

/-- And `x3 - x1 <= 1`. -/
def triangle : SplitDbm ℕ := (chained.addConstraint (diffLe 3 1 1)).get (by decide)

theorem reachable_chained : Reachable (fun _ _ => True) chained :=
  .addConstraint (.addConstraint .top _ (Option.some_get _).symm) _ (Option.some_get _).symm

theorem reachable_triangle : Reachable (fun _ _ => True) triangle :=
  .addConstraint reachable_chained _ (Option.some_get _).symm

/-- The middle variable of the triangle is increased. -/
theorem assign_exact_triangle : triangle.AssignExact 2 ((LinearExpression.var 2).plusConst 1) :=
  assign_exact reachable_triangle
    ((normalForm_of_entries (by decide) (by decide)).keptWithout reachable_triangle.wf 2) _

/-- The relation between the ends of the triangle is widened, and is lost with the middle. -/
theorem not_assignExact_widened :
    Reachable (fun _ _ => True) (triangle.widen chained) ∧
      ¬ (triangle.widen chained).AssignExact 2 (.const 0) := by
  have hreach : Reachable (fun _ _ => True) (triangle.widen chained) :=
    .widen reachable_triangle reachable_chained
  refine ⟨hreach, fun h => ?_⟩
  have hmodels : ((triangle.widen chained).assign 2 (.const 0)).Models fun v => if v = 3 then 100 else 0 := by
    have hverts : ∀ c ∈ ((triangle.widen chained).assign 2 (.const 0)).vertMap.entries, c.1 = c.2 := by
      decide
    have hedges : ∀ c ∈ ((triangle.widen chained).assign 2 (.const 0)).g.edges.entries,
        (if (ofLex c.1).2 = 3 then 100 else 0) ≤ (if (ofLex c.1).1 = 3 then 100 else 0) + c.2 := by
      decide
    refine ⟨fun n => if n = 3 then 100 else 0, rfl, fun v n hn => ?_, fun m n w hw => ?_⟩
    · obtain rfl : v = n := hverts (v, n) (OrdMap.mem_entries.mpr hn)
      rfl
    · exact hedges (toLex (m, n), w) (OrdMap.mem_entries.mpr hw)
  obtain ⟨k, hk⟩ := h.2 _ hmodels
  have hsat := (models_iff hreach.wf).mp hk
  have hedge : (triangle.widen chained).g.lookup 1 2 = some 1 ∧
      (triangle.widen chained).g.lookup 2 3 = some 1 := by decide
  have h12 := hsat (some 1) (some 2) 1 ⟨1, 2, by decide, by decide, hedge.1⟩
  have h23 := hsat (some 2) (some 3) 1 ⟨2, 3, by decide, by decide, hedge.2⟩
  simp [ext] at h12 h23
  omega

end SplitDbm

end Prevail
