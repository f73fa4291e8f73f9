import Mathlib.Data.Set.Finite.Lemmas
import Prevail.Crab.AssignExact
import Prevail.Crab.ToSet

/-!
# When the printed lines mean the state

Every variable is printed as equal to the first of its class, and that one perhaps to a further one, so that
the equalities lead from each variable to one that is first itself. The bounds and the differences of these
are printed. What is lost or added comes from the edges of weight zero (`ZeroEdgesKept`).
-/

namespace Prevail

open DiffSys GraphOps

namespace SplitDbm

variable {V : Type*} [LinearOrder V] {N : V ↪ List Char} {d : SplitDbm V} {x y r s : V} {σ : V → ℤ} {w : ℤ}

/-! ## The representative of a variable -/

theorem mem_keys_iff : x ∈ d.vertMap.keys ↔ d.Mapped x := OrdMap.mem_keys

theorem ZeroEdge.mapped (h : d.ZeroEdge x y) : d.Mapped y := (vertOf_of_csts h).2

theorem exists_first (N : V ↪ List Char) (d : SplitDbm V) (x : V) : ∃ y, First N d x y := by
  have hfin : {y | y = x ∨ d.ZeroEdge x y}.Finite := by
    refine (insert x d.vertMap.keys.toFinset).finite_toSet.subset ?_
    rintro y (rfl | hy)
    · simp
    · simpa [mem_keys_iff] using Or.inr hy.mapped
  obtain ⟨y, hy, hleast⟩ := Set.exists_min_image _ N hfin ⟨x, Or.inl rfl⟩
  exact ⟨y, hy, fun z hz => not_lt.mpr (hleast z hz)⟩

/-- The equalities lead from `x` to `r`, which is first itself. -/
def Represents (N : V ↪ List Char) (d : SplitDbm V) (r x : V) : Prop :=
  Relation.ReflTransGen (First N d) x r ∧ First N d r r

theorem exists_represents (N : V ↪ List Char) (d : SplitDbm V) (x : V) : ∃ r, Represents N d r x := by
  -- the induction is on the variables with an earlier name
  induction hk : (d.vertMap.keys.toFinset.filter fun z => N z < N x).card
    using Nat.strong_induction_on generalizing x with
  | _ k ih =>
    obtain ⟨y, hy⟩ := exists_first N d x
    by_cases hxy : x = y
    · exact ⟨x, .refl, hxy ▸ hy⟩
    · have hlt : N y < N x := hy.lt hxy
      have hcard : (d.vertMap.keys.toFinset.filter fun z => N z < N y).card < k := by
        refine hk ▸ Finset.card_lt_card ((Finset.ssubset_iff_of_subset fun z hz => ?_).mpr ⟨y, ?_, by simp⟩)
        · simp only [Finset.mem_filter] at hz ⊢
          exact ⟨hz.1, hz.2.trans hlt⟩
        · simpa [mem_keys_iff] using ⟨(hy.zeroEdge hxy).mapped, hlt⟩
      obtain ⟨r, hr⟩ := ih _ hcard y rfl
      exact ⟨r, .head hy hr.1, hr.2⟩

theorem First.eq_of_reflTransGen (h : First N d r r) (hs : Relation.ReflTransGen (First N d) r s) : s = r := by
  induction hs with
  | refl => rfl
  | tail _ hlast ih =>
    subst ih
    exact hlast.unique h

theorem Represents.unique (hr : Represents N d r x) (hs : Represents N d s x) : r = s := by
  rcases hr.1.total_of_right_unique (fun _ _ _ h h' => h.unique h') hs.1 with h | h
  · exact (hr.2.eq_of_reflTransGen h).symm
  · exact hs.2.eq_of_reflTransGen h

theorem Equalities.eq_of_represents (h : Equalities N d σ) (hr : Represents N d r x) : σ x = σ r := by
  obtain ⟨hchain, -⟩ := hr
  induction hchain with
  | refl => rfl
  | tail _ hlast ih => exact ih.trans (h _ _ hlast)

/-- The variables that are first themselves may have any values. -/
theorem exists_equalities (N : V ↪ List Char) (d : SplitDbm V) (σ : V → ℤ) :
    ∃ τ, Equalities N d τ ∧ ∀ x, First N d x x → τ x = σ x := by
  choose rep hrep using exists_represents N d
  refine ⟨fun x => σ (rep x), fun x y hxy => ?_, fun x hx => ?_⟩
  · have hy : Represents N d (rep y) x := ⟨.head hxy (hrep y).1, (hrep y).2⟩
    exact congrArg σ ((hrep x).unique hy)
  · exact congrArg σ ((hrep x).unique ⟨.refl, hx⟩)

/-! ## The edges of weight zero -/

/-- An equality is printed where the state has one, and an edge of weight zero between two variables that
are first themselves is a path of the edges that are printed. -/
structure ZeroEdgesKept (N : V ↪ List Char) (d : SplitDbm V) : Prop where
  back : ∀ x y, First N d x y → x ≠ y → d.csts.Short none (some y) (some x) 0
  again : ∀ x y, d.ZeroEdge x y → First N d x x → First N d y y →
    (d.printedCsts N).Derives (some x) (some y) 0

theorem finite_printedCsts (hd : d.WF) :
    {c : Option V × Option V × ℤ | d.printedCsts N c.1 c.2.1 c.2.2}.Finite :=
  (finite_csts hd).subset fun _ hc => hc.1

theorem equalities_of_models (hd : d.WF)
    (hback : ∀ x y, First N d x y → x ≠ y → d.csts.Short none (some y) (some x) 0)
    (hσ : d.Models σ) : Equalities N d σ := by
  intro x y hf
  by_cases hxy : x = y
  · rw [hxy]
  · have hsat := (models_iff hd).mp hσ
    have hle : σ y ≤ σ x + 0 := hsat (some x) (some y) 0 (hf.zeroEdge hxy)
    have hge : σ x ≤ σ y + 0 := (hback x y hf hxy).derives.implies _ hsat
    omega

theorem sat_printedCsts_of_models (hd : d.WF) (hσ : d.Models σ) : (d.printedCsts N).Sat (ext σ) :=
  fun u v w hw => (models_iff hd).mp hσ u v w hw.1

/-- The printed lines say enough. -/
theorem ZeroEdgesKept.models (hz : ZeroEdgesKept N d) (hd : d.WF) (hnf : d.NormalForm)
    (heq : Equalities N d σ) (hsat : (d.printedCsts N).Sat (ext σ)) : d.Models σ := by
  choose rep hrep using exists_represents N d
  have hrepEq : ∀ (τ : V → ℤ), Equalities N d τ → ∀ u : Option V, ext τ (u.map rep) = ext τ u := by
    intro τ hτ u
    cases u with
    | none => rfl
    | some x => exact (hτ.eq_of_represents (hrep x)).symm
  have hfirst : ∀ u : Option V, ∀ x ∈ u.map rep, First N d x x := by
    intro u x hx
    obtain ⟨z, -, rfl⟩ := Option.mem_map.mp hx
    exact (hrep z).2
  refine (models_iff hd).mpr fun u v w hw => ?_
  rw [← hrepEq σ heq u, ← hrepEq σ heq v]
  -- the constraint holds between the representatives in every valuation of the state
  have himp : d.csts.Implies (u.map rep) (v.map rep) w := (implies_csts_iff hd).mpr fun τ hτ => by
    have hτeq := equalities_of_models hd hz.back hτ
    rw [hrepEq τ hτeq, hrepEq τ hτeq]
    exact (models_iff hd).mp hτ u v w hw
  by_cases huv : u.map rep = v.map rep
  · obtain ⟨μ, hμ⟩ := hnf.models
    have hle := himp _ ((models_iff hd).mp hμ)
    rw [huv] at hle ⊢
    omega
  · rcases hnf.short hd huv himp with ⟨w', hle, hw'⟩ | ⟨hu, hv, a, b, ha, hb, hab⟩
    · have hprinted : (d.printedCsts N).Implies (u.map rep) (v.map rep) w' := by
        by_cases hdiff : u.map rep = none ∨ v.map rep = none ∨ w' ≠ 0
        · exact .of_edge ⟨hw', hdiff, hfirst u, hfirst v⟩
        · simp only [not_or, not_not] at hdiff
          obtain ⟨x, hx⟩ := Option.ne_none_iff_exists'.mp hdiff.1
          obtain ⟨y, hy⟩ := Option.ne_none_iff_exists'.mp hdiff.2.1
          rw [hx, hy, hdiff.2.2] at hw' ⊢
          exact (hz.again x y hw' (hfirst u x hx) (hfirst v y hy)).implies
      have := hprinted _ hsat
      omega
    · have hua := hsat _ _ _ ⟨ha, Or.inr (Or.inl rfl), hfirst u, by simp⟩
      have hvb := hsat _ _ _ ⟨hb, Or.inl rfl, by simp, hfirst v⟩
      omega

/-- The printed lines mean the state exactly when its edges of weight zero are kept. -/
theorem toSet_means_iff (hd : d.WF) (hi : d.Inverse) (hnf : d.NormalForm) (ht : d.NoTypes N) :
    ∃ printed, d.toSet N = some printed ∧
      ((∀ σ, d.Models σ ↔ ∀ c ∈ printed, c.Holds σ) ↔ ZeroEdgesKept N d) := by
  obtain ⟨printed, hprinted, hall⟩ := toSet_spec hd hi hnf ht
  refine ⟨printed, hprinted, fun hmeans => ⟨fun x y hf hxy => ?_, fun x y hw hx hy => ?_⟩, fun hz σ => ?_⟩
  · -- the printed equality holds in every valuation of the state
    refine hnf.short hd (fun h => hxy (Option.some.inj h).symm) ((implies_csts_iff hd).mpr fun σ hσ => ?_)
    have heq : σ x = σ y := ((hall σ).mp ((hmeans σ).mp hσ)).1 x y hf
    show σ x ≤ σ y + 0
    omega
  · obtain ⟨μ, hμ⟩ := hnf.models
    refine derives_of_implies (finite_printedCsts hd) (sat_printedCsts_of_models hd hμ)
      (implies_iff_ext.mpr fun σ hσ => ?_)
    obtain ⟨τ, hτeq, hτ⟩ := exists_equalities N d σ
    have hτsat : (d.printedCsts N).Sat (ext τ) := by
      have hext : ∀ u : Option V, (∀ x ∈ u, First N d x x) → ext τ u = ext σ u := by
        intro u hu
        cases u with
        | none => rfl
        | some x => exact hτ x (hu x rfl)
      intro u v w hw
      rw [hext u hw.2.2.1, hext v hw.2.2.2]
      exact hσ u v w hw
    have hle : τ y ≤ τ x + 0 :=
      (models_iff hd).mp ((hmeans τ).mpr ((hall τ).mpr ⟨hτeq, hτsat⟩)) (some x) (some y) 0 hw
    rwa [hτ x hx, hτ y hy] at hle
  · rw [show (∀ c ∈ printed, c.Holds σ) ↔ _ from hall σ]
    exact ⟨fun hσ => ⟨equalities_of_models hd hz.back hσ, sat_printedCsts_of_models hd hσ⟩,
      fun h => hz.models hd hnf h.1 h.2⟩

/-! ## Two registers -/

/-- The values of the registers. -/
def registerNames : ℕ ↪ List Char where
  toFun i := VarRegistry.regName .svalues i
  inj' i j h := by
    have hname : (VarRegistry.Entity.var .svalues (.reg i)).name =
        (VarRegistry.Entity.var .svalues (.reg j)).name := h
    cases VarRegistry.Entity.name_injective hname
    rfl

/-- `r1 <= r2`. -/
def atMost : SplitDbm ℕ := ((top : SplitDbm ℕ).addConstraint (diffLe 1 2 0)).get (by decide)

/-- `r2 <= r1`. -/
def atLeast : SplitDbm ℕ := ((top : SplitDbm ℕ).addConstraint (diffLe 2 1 0)).get (by decide)

/-- Both, and `r3 <= r1 + 5`. -/
def bothWays : SplitDbm ℕ :=
  (((atMost.addConstraint (diffLe 2 1 0)).get (by decide)).addConstraint (diffLe 3 1 5)).get
    (by decide)

theorem reachable_atMost : Reachable (fun _ _ => True) atMost := .addConstraint .top _ (Option.some_get _).symm

theorem reachable_atLeast : Reachable (fun _ _ => True) atLeast := .addConstraint .top _ (Option.some_get _).symm

theorem reachable_bothWays : Reachable (fun _ _ => True) bothWays :=
  .addConstraint (.addConstraint reachable_atMost _ (Option.some_get _).symm) _ (Option.some_get _).symm

theorem toSet_means_iff_bothWays : ∃ printed, bothWays.toSet registerNames = some printed ∧
    ((∀ σ, bothWays.Models σ ↔ ∀ c ∈ printed, c.Holds σ) ↔ ZeroEdgesKept registerNames bothWays) :=
  toSet_means_iff reachable_bothWays.wf reachable_bothWays.inverse
    (normalForm_of_entries (by decide) (by decide))
    fun x hx => (by decide : ∀ x ∈ bothWays.vertMap.keys, isTypeName registerNames x = false) x
      (mem_keys_iff.mpr hx)

/-- `r1 <= r2` is printed as an equality, and `r2 <= r1` is not printed. -/
theorem exists_inequality_printed_as_equality :
    (atMost.NormalForm ∧ atMost.toSet registerNames = some {.eq 2 1} ∧
      ¬ ∀ σ, atMost.Models σ ↔ ∀ c ∈ ({.eq 2 1} : Finset (Printed ℕ)), c.Holds σ) ∧
    atLeast.NormalForm ∧ atLeast.toSet registerNames = some ∅ ∧
      ¬ ∀ σ, atLeast.Models σ ↔ ∀ c ∈ (∅ : Finset (Printed ℕ)), c.Holds σ := by
  refine ⟨⟨normalForm_of_entries (by decide) (by decide), by decide, fun h => ?_⟩,
    normalForm_of_entries (by decide) (by decide), by decide, fun h => ?_⟩
  · have hmodels : atMost.Models fun i => i := by
      refine (narrows_addConstraint wf_top (diffLe 1 2 0)).models atMost (Option.some_get _).symm _
        (models_top _) ⟨unitDisequation_of_ne (by decide), ?_⟩
      decide
    have heq : ((2 : ℕ) : ℤ) = (1 : ℕ) := (h _).mp hmodels (.eq 2 1) (by simp)
    omega
  · have hmodels : atLeast.Models fun i => i := (h _).mpr (by simp)
    have hedge : atLeast.g.lookup 1 2 = some 0 := by decide
    have hle := (models_iff reachable_atLeast.wf).mp hmodels (some 1) (some 2) 0
      ⟨1, 2, by decide, by decide, hedge⟩
    simp [ext] at hle

end SplitDbm

end Prevail
