import Mathlib.Data.Finite.Prod
import Mathlib.Data.Set.Card
import Prevail.Crab.BoundClosure
import Prevail.Crab.WidenKept

/-!
# When widening stabilises

A run of the widening grows the set of models. A step is steady when each constraint of the left
operand is implied by those that are kept, or when these no longer connect its two ends. A step
that is not steady drops a constraint that the normalisation of the result derives again with a
larger weight, and such steps can go on forever (`widen_diverges`).

Steady steps from some point on are what it takes to stabilise (`widen_stabilises_iff`): a step
either keeps the models or takes away a pair of connected variables, and there are finitely many
pairs (`connected`).
-/

namespace Prevail

open GraphOps DiffSys

namespace SplitDbm

variable {V : Type*} [LinearOrder V] {a b d : SplitDbm V} {x y : Option V} {w : ℤ} {σ : V → ℤ}

/-- What the step from `a` by `b` drops is implied by what it keeps, or is not connected by it. -/
def Steady (a b : SplitDbm V) : Prop :=
  ∀ x y w, a.csts x y w → (kept a b).Implies x y w ∨ ¬ (kept a b).Reach x y

/-- The pairs that the constraints of a state connect. -/
def connected (d : SplitDbm V) : Set (Option V × Option V) :=
  {p | p.1 ≠ p.2 ∧ d.csts.Reach p.1 p.2}

theorem finite_vertOf (d : SplitDbm V) : {x : Option V | ∃ n, d.vertOf x = some n}.Finite := by
  refine (List.finite_toSet (none :: d.vertMap.keys.map some)).subset ?_
  rintro (_ | v) ⟨n, hn⟩
  · exact List.mem_cons_self
  · exact List.mem_cons_of_mem _ (List.mem_map_of_mem (OrdMap.mem_keys.mpr ⟨n, hn⟩))

theorem finite_connected (d : SplitDbm V) : d.connected.Finite := by
  refine ((finite_vertOf d).prod (finite_vertOf d)).subset ?_
  rintro ⟨x, y⟩ ⟨hne, hreach⟩
  have hends : x = y ∨ (∃ n, d.vertOf x = some n) ∧ ∃ n, d.vertOf y = some n := by
    clear hne
    simp only at hreach
    induction hreach with
    | refl => exact Or.inl rfl
    | tail _ he ih =>
      obtain ⟨_, hc⟩ := he
      obtain ⟨hs, ht⟩ := vertOf_of_csts hc
      rcases ih with rfl | ⟨hx, -⟩
      · exact Or.inr ⟨hs, ht⟩
      · exact Or.inr ⟨hx, ht⟩
  exact hends.resolve_left hne

/-- The constraints of the result are derived from the kept ones. -/
theorem derives_kept_of_csts_widen (ha : a.WF) (hb : b.WF) (hsat : ∃ σ, a.Models σ)
    (h : (a.widen b).csts x y w) : (kept a b).Derives x y w := by
  obtain ⟨σ, hσ⟩ := hsat
  have hfin : {c : Option V × Option V × ℤ | kept a b c.1 c.2.1 c.2.2}.Finite :=
    (finite_csts ha).subset fun c hc => hc.1
  have hkept := (models_widen ha hb).mp (models_widen_of_models ha hb (Or.inl hσ))
  refine derives_of_implies hfin hkept (implies_iff_ext.mpr fun τ hτ => ?_)
  exact (models_iff (widen_spec ha b).1).mp ((models_widen ha hb).mpr hτ) x y w h

/-- A step connects no new variables. -/
theorem reach_kept_of_reach_widen (ha : a.WF) (hb : b.WF) (hsat : ∃ σ, a.Models σ)
    (h : (a.widen b).csts.Reach x y) : (kept a b).Reach x y :=
  Reach.of_derives h fun _ _ _ hc => derives_kept_of_csts_widen ha hb hsat hc

theorem connected_widen_subset (ha : a.WF) (hb : b.WF) (hsat : ∃ σ, a.Models σ) :
    (a.widen b).connected ⊆ a.connected := by
  rintro ⟨x, y⟩ ⟨hne, hreach⟩
  refine ⟨hne, Reach.of_derives (reach_kept_of_reach_widen ha hb hsat hreach) fun _ _ _ hc => ?_⟩
  exact .of_edge hc.1

/-- A steady step that disconnects nothing keeps the models. -/
theorem models_of_models_widen (ha : a.WF) (hb : b.WF) (hsat : ∃ σ, a.Models σ)
    (hsteady : Steady a b) (hconn : a.connected ⊆ (a.widen b).connected)
    (hσ : (a.widen b).Models σ) : a.Models σ := by
  rw [models_iff ha]
  intro x y w hw
  have hreach : (kept a b).Reach x y := by
    by_cases hxy : x = y
    · subst hxy
      exact .refl
    · have hmem : (x, y) ∈ a.connected := ⟨hxy, .single ⟨w, hw⟩⟩
      exact reach_kept_of_reach_widen ha hb hsat (hconn hmem).2
  have himp := (hsteady x y w hw).resolve_right fun h => h hreach
  exact himp _ ((models_widen ha hb).mp hσ)

/-- A step that keeps the models is steady. -/
theorem steady_of_models (ha : a.WF) (hb : b.WF) (h : ∀ σ, (a.widen b).Models σ → a.Models σ) :
    Steady a b := fun x y w hw => Or.inl <| implies_iff_ext.mpr fun σ hσ =>
  (models_iff ha).mp (h σ ((models_widen ha hb).mpr hσ)) x y w hw

/-! ## Runs -/

/-- A run of the widening. -/
structure WidenRun (x y : ℕ → SplitDbm V) : Prop where
  init : (x 0).WF
  args : ∀ n, (y n).WF
  step : ∀ n, x (n + 1) = (x n).widen (y n)

variable {r s : ℕ → SplitDbm V}

theorem WidenRun.wf (h : WidenRun r s) (n : ℕ) : (r n).WF := by
  induction n with
  | zero => exact h.init
  | succ n ih =>
    rw [h.step]
    exact (widen_spec ih _).1

theorem WidenRun.models_mono (h : WidenRun r s) {m n : ℕ} (hmn : m ≤ n) (hσ : (r m).Models σ) :
    (r n).Models σ := by
  induction n, hmn using Nat.le_induction with
  | base => exact hσ
  | succ n _ ih =>
    rw [h.step]
    exact models_widen_of_models (h.wf n) (h.args n) (Or.inl ih)

/-- From the first state with a model on, the connected pairs settle. -/
theorem WidenRun.exists_settled (h : WidenRun r s) {n₀ : ℕ} (hsat : ∃ σ, (r n₀).Models σ) :
    ∃ M ≥ n₀, ∀ n ≥ M, (r n).connected = (r M).connected := by
  have hanti : ∀ m ≥ n₀, ∀ n ≥ m, (r n).connected ⊆ (r m).connected := by
    intro m hm n hmn
    induction n, hmn using Nat.le_induction with
    | base => exact subset_rfl
    | succ n hmn ih =>
      obtain ⟨σ, hσ⟩ := hsat
      rw [h.step]
      exact (connected_widen_subset (h.wf n) (h.args n)
        ⟨σ, h.models_mono (hm.trans hmn) hσ⟩).trans ih
  -- take a state with the fewest connected pairs
  have hne : ({n | n₀ ≤ n} : Set ℕ).Nonempty := ⟨n₀, le_refl n₀⟩
  obtain ⟨M, hM, hmin⟩ :=
    (InvImage.wf (fun n => (r n).connected.ncard) Nat.lt_wfRel.wf).has_min _ hne
  refine ⟨M, hM, fun n hn => ?_⟩
  have hle : (r M).connected.ncard ≤ (r n).connected.ncard := not_lt.mp (hmin n (hM.trans hn))
  exact Set.eq_of_subset_of_ncard_le (hanti M hM n hn) hle (finite_connected _)

/-- A run stabilises when its steps are steady from some point on, and only then. -/
theorem widen_stabilises_iff (h : WidenRun r s) :
    (∃ N, ∀ n ≥ N, ∀ σ, (r n).Models σ ↔ (r N).Models σ) ↔ ∃ N, ∀ n ≥ N, Steady (r n) (s n) := by
  constructor
  · rintro ⟨N, hN⟩
    refine ⟨N, fun n hn => steady_of_models (h.wf n) (h.args n) fun σ hσ => ?_⟩
    rw [← h.step] at hσ
    exact (hN n hn σ).mpr ((hN (n + 1) (hn.trans (Nat.le_succ n)) σ).mp hσ)
  · rintro ⟨N, hN⟩
    by_cases hsat : ∃ n ≥ N, ∃ σ, (r n).Models σ
    · obtain ⟨n₀, hn₀, hsat⟩ := hsat
      obtain ⟨M, hM, hsettled⟩ := h.exists_settled hsat
      refine ⟨M, fun n hn σ => ⟨fun hσ => ?_, h.models_mono hn⟩⟩
      induction n, hn using Nat.le_induction with
      | base => exact hσ
      | succ n hn ih =>
        refine ih (models_of_models_widen (h.wf n) (h.args n) ?_ (hN n ?_) ?_ ?_)
        · obtain ⟨τ, hτ⟩ := hsat
          exact ⟨τ, h.models_mono (hM.trans hn) hτ⟩
        · exact hn₀.trans (hM.trans hn)
        · rw [← h.step, hsettled n hn, hsettled (n + 1) (hn.trans (Nat.le_succ n))]
        · rw [← h.step]
          exact hσ
    · refine ⟨N, fun n hn σ => ⟨fun hσ => ?_, fun hσ => ?_⟩⟩
      · exact absurd ⟨n, hn, σ, hσ⟩ hsat
      · exact absurd ⟨N, le_rfl, σ, hσ⟩ hsat

/-! ## A run that does not stabilise -/

/-- `u ≤ s` and `v ≤ t`, with `u` and `v` at most one apart. -/
def Fence (u v : V) (s t : ℤ) : DiffSys (Option V) := fun x y w =>
  x = none ∧ y = some u ∧ w = s ∨ x = none ∧ y = some v ∧ w = t ∨
    x = some u ∧ y = some v ∧ w = 1 ∨ x = some v ∧ y = some u ∧ w = 1

theorem fence_symm {u v : V} {s t : ℤ} : Fence u v s t x y w ↔ Fence v u t s x y w := by
  unfold Fence
  tauto

/-- A step that loses a constraint leaves a vertex to be normalised. -/
theorem unstable_widenRaw (ha : a.WF) (hb : b.WF) (hx : ∃ n, b.vertOf x = some n)
    (hy : ∃ n, b.vertOf y = some n) (hw : a.csts x y w) (hno : ∀ w', ¬ kept a b x y w') :
    (widenRaw a b).unstable.isEmpty = false := by
  obtain ⟨hax, hay⟩ := vertOf_of_csts hw
  obtain ⟨i, hi⟩ := exists_slot_commonNames hax hx
  obtain ⟨j, hj⟩ := exists_slot_commonNames hay hy
  have hn := nodup_commonNames a b
  have hlost : Loses (a.aligned (commonNames a b)) (b.aligned (commonNames a b)) i := by
    refine ⟨j, w, (mem_eSuccs_iff_alignedSys ha hn).mpr ⟨x, y, hi, hj, hw⟩, fun w' hr => ?_⟩
    exact hno w' ((keptSys_iff hi hj).mp ((respected_iff hb hn).mp hr))
  have hmem : i ∈ (widenGraph a b).2 := ((widenGraph_spec ha hb).2 i).mpr (Or.inr hlost)
  exact List.isEmpty_eq_false_iff_exists_mem.mpr ⟨i, hmem⟩

section Fence

variable {u v : V} {s t : ℤ}

/-- What is kept of a fence when the bound of `u` is dropped. -/
theorem kept_fence (hst : s ≤ t) (hfa : ∀ x y w, Fence u v s t x y w → a.csts x y w)
    (hfb : ∀ x y w, b.csts x y w ↔ Fence u v (t + 1) t x y w) : kept a b x y w ↔
      x = none ∧ y = some v ∧ w = t ∨ x = some u ∧ y = some v ∧ w = 1 ∨
        x = some v ∧ y = some u ∧ w = 1 := by
  have hu : a.csts none (some u) s := hfa _ _ _ (by simp [Fence])
  have hv : a.csts none (some v) t := hfa _ _ _ (by simp [Fence])
  have huv : a.csts (some u) (some v) 1 := hfa _ _ _ (by simp [Fence])
  have hvu : a.csts (some v) (some u) 1 := hfa _ _ _ (by simp [Fence])
  constructor
  · rintro ⟨haw, w', hle, hbw⟩
    rcases (hfb x y w').mp hbw with
      ⟨rfl, rfl, rfl⟩ | ⟨rfl, rfl, -⟩ | ⟨rfl, rfl, -⟩ | ⟨rfl, rfl, -⟩
    · have := csts_unique haw hu
      omega
    · exact Or.inl ⟨rfl, rfl, csts_unique haw hv⟩
    · exact Or.inr (Or.inl ⟨rfl, rfl, csts_unique haw huv⟩)
    · exact Or.inr (Or.inr ⟨rfl, rfl, csts_unique haw hvu⟩)
  · rintro (⟨rfl, rfl, rfl⟩ | ⟨rfl, rfl, rfl⟩ | ⟨rfl, rfl, rfl⟩)
    · exact ⟨hv, w, le_rfl, (hfb _ _ _).mpr (by simp [Fence])⟩
    · exact ⟨huv, 1, le_rfl, (hfb _ _ _).mpr (by simp [Fence])⟩
    · exact ⟨hvu, 1, le_rfl, (hfb _ _ _).mpr (by simp [Fence])⟩

/-- The state `a` has the fence `u ≤ s`, `v ≤ t`, and `b` is the fence `u ≤ t + 1`, `v ≤ t`. The
bound of `u` is dropped, and derived again from that of `v`. -/
theorem widen_fence (huv : u ≠ v) (hst : s ≤ t) (ha : a.WF) (hb : b.WF)
    (hfa : ∀ x y w, Fence u v s t x y w → a.csts x y w)
    (hfb : ∀ x y w, b.csts x y w ↔ Fence u v (t + 1) t x y w) :
    (∀ x y w, Fence u v (t + 1) t x y w → (a.widen b).csts x y w) ∧
      ∃ σ, (a.widen b).Models σ ∧ ¬ a.Models σ := by
  have hkept := fun x y w => kept_fence (x := x) (y := y) (w := w) hst hfa hfb
  have hfau : a.csts none (some u) s := hfa _ _ _ (by simp [Fence])
  -- two models, one with `u` at its largest and one with `v` furthest above `u`
  let far : V → ℤ := fun z => if z = u then t + 1 else t
  let near : V → ℤ := fun z => if z = u then t - 1 else t
  have hfar : (a.widen b).Models far := by
    rw [models_widen ha hb]
    intro x y w hw
    rcases (hkept x y w).mp hw with ⟨rfl, rfl, rfl⟩ | ⟨rfl, rfl, rfl⟩ | ⟨rfl, rfl, rfl⟩ <;>
      simp [ext, far, huv.symm]
    omega
  have hnear : (a.widen b).Models near := by
    rw [models_widen ha hb]
    intro x y w hw
    rcases (hkept x y w).mp hw with ⟨rfl, rfl, rfl⟩ | ⟨rfl, rfl, rfl⟩ | ⟨rfl, rfl, rfl⟩ <;>
      simp [ext, near, huv.symm]
    omega
  have hj := (widen_spec ha b).1
  have hge : ∀ {x y : Option V} {w : ℤ}, (a.widen b).csts x y w →
      ext far y ≤ ext far x + w ∧ ext near y ≤ ext near x + w := fun hw =>
    ⟨(models_iff hj).mp hfar _ _ _ hw, (models_iff hj).mp hnear _ _ _ hw⟩
  -- the bound of `u` by two edges
  have hraw := fun x y w => (csts_widenRaw (x := x) (y := y) (w := w) ha hb).trans (hkept x y w)
  have hrv : (widenRaw a b).csts none (some v) t := (hraw _ _ _).mpr (by simp)
  have hrvu : (widenRaw a b).csts (some v) (some u) 1 := (hraw _ _ _).mpr (by simp)
  obtain ⟨-, m, hm⟩ := vertOf_of_csts hrv
  obtain ⟨-, n, hn⟩ := vertOf_of_csts hrvu
  have hzero : (widenRaw a b).vertOf none = some 0 := rfl
  have hn0 : n ≠ 0 := by
    rintro rfl
    have hsame := vertOf_inj (wf_widenRaw ha b) hn hzero
    cases hsame
  have hunstable : (widenRaw a b).unstable.isEmpty = false := by
    have hbu : b.csts none (some u) (t + 1) := (hfb _ _ _).mpr (by simp [Fence])
    obtain ⟨h0, hu⟩ := vertOf_of_csts hbu
    refine unstable_widenRaw ha hb h0 hu hfau fun w' hw' => ?_
    have := (hkept _ _ _).mp hw'
    simp [huv] at this
  have hu : ∃ w' ≤ t + 1, (a.widen b).csts none (some u) w' := by
    rw [widen_eq_normalize]
    exact exists_csts_of_atMost rfl (vertOf_normalize.trans hn)
      (atMost_normalize_bound hunstable (atMost_of_csts hzero hm hrv) (atMost_of_csts hm hn hrvu) hn0)
  refine ⟨fun x y w hw => ?_, far, hfar, fun hafar => ?_⟩
  · have hexact : ∀ {x y : Option V} {w : ℤ}, (∃ w' ≤ w, (a.widen b).csts x y w') →
        (∀ w', (a.widen b).csts x y w' → w ≤ w') → (a.widen b).csts x y w := by
      rintro x y w ⟨w', hle, hw'⟩ hmin
      rwa [le_antisymm (hmin w' hw') hle]
    have hof := fun x y w hw => exists_csts_widen_of_kept (x := x) (y := y) (w := w) ha hb
      ((hkept x y w).mpr hw)
    rcases hw with ⟨rfl, rfl, rfl⟩ | ⟨rfl, rfl, rfl⟩ | ⟨rfl, rfl, rfl⟩ | ⟨rfl, rfl, rfl⟩
    · exact hexact hu fun w' hw' => by
        have := (hge hw').1
        simpa [ext, far] using this
    · exact hexact (hof _ _ _ (by simp)) fun w' hw' => by
        have := (hge hw').1
        simpa [ext, far, huv.symm] using this
    · exact hexact (hof _ _ _ (by simp)) fun w' hw' => by
        have := (hge hw').2
        simp [ext, near, huv.symm] at this
        omega
    · exact hexact (hof _ _ _ (by simp)) fun w' hw' => by
        have := (hge hw').1
        simp [ext, far, huv.symm] at this
        omega
  · have hle := (models_iff ha).mp hafar _ _ _ hfau
    simp [ext, far] at hle
    omega

end Fence

/-- `x0 ≤ s`, `x1 ≤ t`, at most one apart. -/
def fenceState (s t : ℤ) : SplitDbm ℕ :=
  numbered [0, 1] ((((AdaptGraph.grow 3).setEdge 0 s 1).setEdge 0 t 2).setEdge 1 1 2 |>.setEdge 2 1 1)
    [0, min s t, min s t] []

theorem edge_fenceState {s t : ℤ} {i j : ℕ} {w : ℤ} : (fenceState s t).g.Edge i j w ↔
    i = 2 ∧ j = 1 ∧ w = 1 ∨ i = 1 ∧ j = 2 ∧ w = 1 ∨ i = 0 ∧ j = 2 ∧ w = t ∨
      i = 0 ∧ j = 1 ∧ w = s := by
  unfold AdaptGraph.Edge fenceState numbered
  simp only [AdaptGraph.lookup_setEdge, AdaptGraph.lookup_grow]
  split_ifs with h1 h2 h3 h4
  · obtain ⟨rfl, rfl⟩ := h1
    simp [eq_comm]
  · obtain ⟨rfl, rfl⟩ := h2
    simp [eq_comm]
  · obtain ⟨rfl, rfl⟩ := h3
    simp [eq_comm]
  · obtain ⟨rfl, rfl⟩ := h4
    simp [eq_comm]
  · simp only [false_iff]
    tauto

theorem wf_fenceState (s t : ℤ) : (fenceState s t).WF := by
  refine wf_numbered (by decide) ⟨rfl, rfl, fun i j w hw => ?_⟩ rfl []
  have hw' : (fenceState s t).g.Edge i j w := hw
  rcases edge_fenceState.mp hw' with ⟨rfl, rfl, -⟩ | ⟨rfl, rfl, -⟩ | ⟨rfl, rfl, -⟩ | ⟨rfl, rfl, -⟩ <;>
    simp [Slot]

theorem csts_fenceState {s t : ℤ} {x y : Option ℕ} {w : ℤ} :
    (fenceState s t).csts x y w ↔ Fence 0 1 s t x y w := by
  have hvert : ∀ {z : Option ℕ} {n : ℕ},
      (fenceState s t).vertOf z = some n ↔ (slots [0, 1])[n]? = some z :=
    vertOf_alignVerts (by decide) rfl
  unfold csts
  simp only [hvert, edge_fenceState]
  unfold Fence
  constructor
  · rintro ⟨i, j, hi, hj, ⟨rfl, rfl, rfl⟩ | ⟨rfl, rfl, rfl⟩ | ⟨rfl, rfl, rfl⟩ | ⟨rfl, rfl, rfl⟩⟩ <;>
      simp [slots] at hi hj <;> subst hi hj <;> simp
  · rintro (⟨rfl, rfl, rfl⟩ | ⟨rfl, rfl, rfl⟩ | ⟨rfl, rfl, rfl⟩ | ⟨rfl, rfl, rfl⟩)
    · exact ⟨0, 1, rfl, rfl, by simp⟩
    · exact ⟨0, 2, rfl, rfl, by simp⟩
    · exact ⟨1, 2, rfl, rfl, by simp⟩
    · exact ⟨2, 1, rfl, rfl, by simp⟩

theorem normalForm_fenceState {s t : ℤ} (hst : s ≤ t + 1) (hts : t ≤ s + 1) :
    (fenceState s t).NormalForm := by
  have hsat : (fenceState s t).g.Edge.Sat (pot [0, min s t, min s t]) := by
    intro i j w hw
    rcases edge_fenceState.mp hw with ⟨rfl, rfl, rfl⟩ | ⟨rfl, rfl, rfl⟩ | ⟨rfl, rfl, rfl⟩ |
      ⟨rfl, rfl, rfl⟩ <;> simp [pot]
  refine ⟨⟨_, hsat⟩, splitClosed_of_triangle hsat fun i m j w w' hw hw' hij => ?_⟩
  -- the only paths of two edges between different vertices lead from zero to a variable
  have hdirect : ∀ {c : ℤ}, c ≤ w + w' → (fenceState s t).g.Edge i j c →
      (fenceState s t).g.Edge.Short 0 i j (w + w') := fun hc he => Or.inl ⟨_, hc, he⟩
  rcases edge_fenceState.mp hw with ⟨rfl, rfl, rfl⟩ | ⟨rfl, rfl, rfl⟩ | ⟨rfl, rfl, rfl⟩ |
    ⟨rfl, rfl, rfl⟩
  · rcases edge_fenceState.mp hw' with ⟨h, -⟩ | ⟨-, rfl, -⟩ | ⟨h, -⟩ | ⟨h, -⟩
    · exact absurd h (by decide)
    · exact absurd rfl hij
    · exact absurd h (by decide)
    · exact absurd h (by decide)
  · rcases edge_fenceState.mp hw' with ⟨-, rfl, -⟩ | ⟨h, -⟩ | ⟨h, -⟩ | ⟨h, -⟩
    · exact absurd rfl hij
    · exact absurd h (by decide)
    · exact absurd h (by decide)
    · exact absurd h (by decide)
  · rcases edge_fenceState.mp hw' with ⟨-, rfl, rfl⟩ | ⟨h, -⟩ | ⟨h, -⟩ | ⟨h, -⟩
    · exact hdirect hst (edge_fenceState.mpr (by simp))
    · exact absurd h (by decide)
    · exact absurd h (by decide)
    · exact absurd h (by decide)
  · rcases edge_fenceState.mp hw' with ⟨h, -⟩ | ⟨-, rfl, rfl⟩ | ⟨h, -⟩ | ⟨h, -⟩
    · exact absurd h (by decide)
    · exact hdirect hts (edge_fenceState.mpr (by simp))
    · exact absurd h (by decide)
    · exact absurd h (by decide)

/-- The bounds of the two variables, raised in turn. -/
def zigzag (n : ℕ) : SplitDbm ℕ :=
  if n % 2 = 0 then fenceState n (n + 1) else fenceState (n + 1) n

theorem csts_zigzag {n : ℕ} {x y : Option ℕ} {w : ℤ} :
    (zigzag n).csts x y w ↔ Fence (n % 2) ((n + 1) % 2) n (n + 1) x y w := by
  unfold zigzag
  rcases Nat.mod_two_eq_zero_or_one n with h | h
  · rw [if_pos h, csts_fenceState, h, Nat.succ_mod_two_eq_one_iff.mpr h]
  · rw [if_neg (by omega), csts_fenceState, h, Nat.succ_mod_two_eq_zero_iff.mpr h]
    exact fence_symm

theorem wf_zigzag (n : ℕ) : (zigzag n).WF := by
  unfold zigzag
  split_ifs
  · exact wf_fenceState _ _
  · exact wf_fenceState _ _

theorem normalForm_zigzag (n : ℕ) : (zigzag n).NormalForm := by
  unfold zigzag
  split_ifs
  · exact normalForm_fenceState (by omega) (by omega)
  · exact normalForm_fenceState (by omega) (by omega)

/-- The run that starts with the first state and is widened by the next ones. -/
def zigzagRun : ℕ → SplitDbm ℕ
  | 0 => zigzag 0
  | n + 1 => (zigzagRun n).widen (zigzag (n + 1))

theorem widenRun_zigzag : WidenRun zigzagRun fun n => zigzag (n + 1) where
  init := wf_zigzag 0
  args n := wf_zigzag (n + 1)
  step _ := rfl

theorem zigzagRun_step {n : ℕ} (h : ∀ x y w, (zigzag n).csts x y w → (zigzagRun n).csts x y w) :
    (∀ x y w, (zigzag (n + 1)).csts x y w → (zigzagRun (n + 1)).csts x y w) ∧
      ∃ σ, (zigzagRun (n + 1)).Models σ ∧ ¬ (zigzagRun n).Models σ := by
  have hnext : ∀ x y w, (zigzag (n + 1)).csts x y w ↔
      Fence (n % 2) ((n + 1) % 2) ((n : ℤ) + 1 + 1) (n + 1) x y w := by
    intro x y w
    rw [csts_zigzag, fence_symm, Nat.add_mod_right n 2]
    push_cast
    exact Iff.rfl
  have hstep := widen_fence (u := n % 2) (v := (n + 1) % 2) (by omega) (by omega)
    (widenRun_zigzag.wf n) (wf_zigzag (n + 1)) (fun x y w hw => h x y w (csts_zigzag.mpr hw)) hnext
  exact ⟨fun x y w hw => hstep.1 x y w ((hnext x y w).mp hw), hstep.2⟩

theorem csts_zigzagRun (n : ℕ) :
    ∀ x y w, (zigzag n).csts x y w → (zigzagRun n).csts x y w := by
  induction n with
  | zero => exact fun _ _ _ h => h
  | succ n ih => exact (zigzagRun_step ih).1

theorem not_stable_zigzagRun :
    ¬ ∃ N, ∀ n ≥ N, ∀ σ, (zigzagRun n).Models σ ↔ (zigzagRun N).Models σ := by
  rintro ⟨N, hN⟩
  obtain ⟨σ, hσ, hnot⟩ := (zigzagRun_step (csts_zigzagRun N)).2
  exact hnot ((hN (N + 1) (Nat.le_succ N) σ).mp hσ)

theorem widen_stabilises_iff_zigzag :
    ¬ ∃ N, ∀ n ≥ N, Steady (zigzagRun n) (zigzag (n + 1)) := fun h =>
  not_stable_zigzagRun ((widen_stabilises_iff widenRun_zigzag).mpr h)

/-- The bounds of two variables that stay at most one apart are raised in turn. Each time the bound
that is dropped is derived again from the other one, and no two states have the same models. -/
theorem widen_diverges : ∃ r s : ℕ → SplitDbm ℕ, WidenRun r s ∧ (r 0).NormalForm ∧
    (∀ n, (s n).NormalForm) ∧ ¬ ∃ N, ∀ n ≥ N, ∀ σ, (r n).Models σ ↔ (r N).Models σ :=
  ⟨zigzagRun, fun n => zigzag (n + 1), widenRun_zigzag, normalForm_zigzag 0,
    fun n => normalForm_zigzag (n + 1), not_stable_zigzagRun⟩

end SplitDbm

end Prevail
