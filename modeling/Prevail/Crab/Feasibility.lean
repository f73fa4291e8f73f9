import Prevail.Crab.RepairPotential
import Prevail.Crab.SettledPotentials
import Prevail.Crab.SplitNormal

/-!
# Feasibility of a graph

A graph is feasible when it has no negative cycle. `repair_potential` decides it after one edge was
added to a graph with a known potential. `select_potentials` decides it from any initial vector as
long as the potentials that the components settle at keep the edges between the components
(`Settles`). Otherwise a component lowers vertices of components that are done, without the rounds
that those would need, and with their marks left over from before.
-/

namespace Prevail

open DiffSys

namespace GraphOps

variable {g : GraphView} {p pi : List ℤ} {ii jj n m : ℕ} {w₀ : ℤ}

theorem Closed.mono (h : Closed g n) (hnm : n ≤ m) : Closed g m :=
  ⟨h.source, h.target, fun v hv => (h.lt v hv).trans_le hnm⟩

theorem Closed.finite_edge (h : Closed g n) : {c : ℕ × ℕ × ℤ | g.Edge c.1 c.2.1 c.2.2}.Finite := by
  refine (List.finite_toSet (g.verts.flatMap fun s => (g.eSuccs s).map fun e => (s, e.1, e.2))).subset ?_
  rintro ⟨s, d, w⟩ he
  exact List.mem_flatMap.mpr ⟨s, h.source s (d, w) he, List.mem_map.mpr ⟨(d, w), he, rfl⟩⟩

/-! ## Repair of the potential -/

/-- `repair_potential` with the potential that it leaves. -/
def repairPotentialInPlace (g : GraphView) (p : List ℤ) (ii jj : ℕ) : Bool × List ℤ :=
  let d := p.getD ii 0 + g.edgeVal ii jj - p.getD jj 0
  if 0 ≤ d then (true, p)
  else
    let dists := (∅ : OrdMap ℕ ℤ).insert jj d
    let st := repairLoop g p g.size ⟨dists, p, [jj]⟩
    if (st.dists.find? ii).getD 0 < 0 then (false, p)
    else (true, g.verts.foldl (fun p v => p.set v (st.distsAlt.getD v 0)) p)

theorem getD_copyVerts {l : List ℕ} {q : List ℤ} (a : ℕ → ℤ) (hl : ∀ v ∈ l, v < q.length) (u : ℕ) :
    (l.foldl (fun q v => q.set v (a v)) q).getD u 0 = if u ∈ l then a u else q.getD u 0 := by
  induction l generalizing q with
  | nil => rfl
  | cons v l ih =>
    have hv := hl v List.mem_cons_self
    rw [List.foldl_cons, ih fun x hx => by simpa using hl x (List.mem_cons_of_mem _ hx), getD_set hv]
    by_cases hu : u ∈ l
    · rw [if_pos hu, if_pos (List.mem_cons_of_mem _ hu)]
    · rw [if_neg hu]
      by_cases huv : u = v
      · rw [if_pos huv, if_pos (huv ▸ List.mem_cons_self), huv]
      · rw [if_neg huv, if_neg fun hmem => (List.mem_cons.mp hmem).elim huv hu]

/-- A failed repair leaves the potential alone, and a successful one leaves that of `repairPotential`. -/
theorem repairPotentialInPlace_cases (hg : Closed g p.length) (ii jj : ℕ) :
    (repairPotential g p ii jj = none ∧ repairPotentialInPlace g p ii jj = (false, p)) ∨
      ∃ p' pi, repairPotential g p ii jj = some p' ∧ repairPotentialInPlace g p ii jj = (true, pi) ∧
        ∀ v ∈ g.verts, pi.getD v 0 = p'.getD v 0 := by
  unfold repairPotential repairPotentialInPlace
  simp only
  split_ifs
  · exact Or.inr ⟨p, p, rfl, rfl, fun _ _ => rfl⟩
  · exact Or.inl ⟨rfl, rfl⟩
  · refine Or.inr ⟨_, _, rfl, rfl, fun v hv => ?_⟩
    exact (getD_copyVerts _ hg.lt v).trans (if_pos hv)

/-- When the repair gives up, the added edge closes a negative cycle. -/
theorem exists_cycle_of_repairPotential (hg : Closed g p.length) (hlaw : g.Lawful)
    (hadded : g.lookup ii jj = some w₀)
    (hvalid : ∀ s t w, g.Edge s t w → ¬ (s = ii ∧ t = jj) → p.getD t 0 ≤ p.getD s 0 + w)
    (h : repairPotential g p ii jj = none) : ∃ c, g.Edge.Path jj ii c ∧ c + w₀ < 0 := by
  by_contra hno
  let E : DiffSys ℕ := fun s t w => g.Edge s t w ∧ ¬ (s = ii ∧ t = jj)
  have hE : ∀ s t w, E s t w → g.Edge s t w := fun _ _ _ hw => hw.1
  obtain ⟨τ, hτ, hnew⟩ := exists_sat_insert (E := E) (s := ii) (d := jj) (w := w₀)
    (σ := fun v => p.getD v 0) (hg.finite_edge.subset fun c hc => hE _ _ _ hc)
    (fun s t w hw => hvalid s t w hw.1 hw.2) fun c hc => not_lt.mp fun hlt => hno ⟨c, hc.mono hE, hlt⟩
  have hval : g.edgeVal ii jj = w₀ := congrArg (Option.getD · 0) hadded
  refine not_sat_of_repairPotential_eq_none (σ := τ) (fun s d w he => hg.lt d (hg.target s (d, w) he))
    ?_ h fun s t w he => ?_
  · rw [hval]
    exact (hlaw.mem_eSuccs ii jj w₀).mpr hadded
  · by_cases hst : s = ii ∧ t = jj
    · obtain ⟨rfl, rfl⟩ := hst
      obtain rfl := Option.some.inj (((hlaw.mem_eSuccs s t w).mp he).symm.trans hadded)
      exact hnew
    · exact hτ s t w ⟨he, hst⟩

/-- The repair decides whether the added edge closes a negative cycle. It leaves a potential for all edges,
or the one from before. -/
theorem repairPotentialInPlace_correct (hg : Closed g g.size) (hlaw : g.Lawful)
    (hlen : g.size ≤ p.length) (hadded : g.lookup ii jj = some w₀)
    (hvalid : ∀ s t w, g.Edge s t w → ¬ (s = ii ∧ t = jj) → 0 ≤ p.getD s 0 + w - p.getD t 0) :
    ((repairPotentialInPlace g p ii jj).1 = false ↔ ∃ c, g.Edge.Path jj ii c ∧ c + w₀ < 0) ∧
      ((repairPotentialInPlace g p ii jj).1 = true → ∀ s t w, g.Edge s t w →
        0 ≤ (repairPotentialInPlace g p ii jj).2.getD s 0 + w -
          (repairPotentialInPlace g p ii jj).2.getD t 0) ∧
      ((repairPotentialInPlace g p ii jj).1 = false → (repairPotentialInPlace g p ii jj).2 = p) := by
  have hg' := hg.mono hlen
  have hvalid' : ∀ s t w, g.Edge s t w → ¬ (s = ii ∧ t = jj) → p.getD t 0 ≤ p.getD s 0 + w := by
    intro s t w he hst
    have := hvalid s t w he hst
    omega
  have hedge : g.Edge ii jj w₀ := (hlaw.mem_eSuccs ii jj w₀).mpr hadded
  rcases repairPotentialInPlace_cases hg' ii jj with ⟨hnone, heq⟩ | ⟨p', pi, hsome, heq, hpi⟩
  · rw [heq]
    exact ⟨⟨fun _ => exists_cycle_of_repairPotential hg' hlaw hadded hvalid' hnone, fun _ => rfl⟩,
      nofun, fun _ => rfl⟩
  · have hsat := (sat_of_repairPotential hvalid' (fun s t w he => hg.lt t (hg.target s (t, w) he)) hlen
      (hg.lt jj (hg.target ii (jj, w₀) hedge)) (fun w hw => ?_) hsome).2
    · rw [heq]
      refine ⟨⟨nofun, ?_⟩, fun _ s t w he => ?_, nofun⟩
      · rintro ⟨c, hc, hneg⟩
        exact absurd hsat (not_sat_of_implies_neg (hc.implies.snoc hedge) hneg)
      · have hle : p'.getD t 0 ≤ p'.getD s 0 + w := hsat s t w he
        rw [hpi s (hg.source s (t, w) he), hpi t (hg.target s (t, w) he)]
        omega
    · exact (congrArg (Option.getD · 0) ((hlaw.mem_eSuccs ii jj w).mp hw)).symm

/-- The graph with the edges `0 → 1` of weight -5 and `1 → 2` of weight -1. -/
def chain : GraphView := (((AdaptGraph.grow 3).setEdge 0 (-5) 1).setEdge 1 (-1) 2).view

theorem edge_chain {s t : ℕ} {w : ℤ} (h : chain.Edge s t w) :
    (s, t, w) = (0, 1, -5) ∨ (s, t, w) = (1, 2, -1) := by
  have hlook := edge_view.mp h
  unfold AdaptGraph.Edge at hlook
  rw [AdaptGraph.lookup_setEdge, AdaptGraph.lookup_setEdge] at hlook
  split_ifs at hlook with h12 h01
  · exact Or.inr (by rw [h12.1, h12.2, ← Option.some.inj hlook])
  · exact Or.inl (by rw [h01.1, h01.2, ← Option.some.inj hlook])
  · cases hlook

theorem closed_chain : Closed chain chain.size := by
  refine ⟨fun s e he => ?_, fun s e he => ?_, by decide⟩ <;> obtain ⟨t, w⟩ := e <;>
    rcases edge_chain he with h | h <;> cases h <;> decide

/-- The edge `1 → 2` is added to a potential that is valid for `0 → 1`. -/
theorem repairPotentialInPlace_chain :
    ((repairPotentialInPlace chain [0, -5, 0] 1 2).1 = false ↔ ∃ c, chain.Edge.Path 2 1 c ∧ c + -1 < 0) ∧
      ((repairPotentialInPlace chain [0, -5, 0] 1 2).1 = true → ∀ s t w, chain.Edge s t w →
        0 ≤ (repairPotentialInPlace chain [0, -5, 0] 1 2).2.getD s 0 + w -
          (repairPotentialInPlace chain [0, -5, 0] 1 2).2.getD t 0) ∧
      ((repairPotentialInPlace chain [0, -5, 0] 1 2).1 = false →
        (repairPotentialInPlace chain [0, -5, 0] 1 2).2 = [0, -5, 0]) := by
  refine repairPotentialInPlace_correct closed_chain (GraphView.lawful_view _) (by decide) (by decide)
    fun s t w he hst => ?_
  rcases edge_chain he with h | h <;> cases h
  · decide
  · exact absurd ⟨rfl, rfl⟩ hst

/-! ## The choice of a potential -/

/-- The graph has a negative cycle, or the greatest potentials below the initial ones that keep the edges
inside the components keep those between them too. -/
def Settles (g : GraphView) (p : List ℤ) : Prop :=
  g.Edge.NegativeCycle ∨
    ∃ ρ, IsGreatest (g.Edge.within.Below fun v => p.getD v 0) ρ ∧ g.Edge.Sat ρ

theorem tightIn_of_isGreatest_within {ρ π : ℕ → ℤ} (hg : Closed g n)
    (hρ : IsGreatest (g.Edge.within.Below π) ρ) {C : List ℕ} (hC : C ∈ computeSccs g) :
    TightIn g π ρ C := by
  obtain ⟨hem, -⟩ := hg.emitted
  have hstep : ∀ {u v w}, g.Edge u v w → v ∈ (g.eSuccs u).map Prod.fst := fun he =>
    List.mem_map.mpr ⟨_, he, rfl⟩
  have hreach : ∀ {u v}, g.Edge.Reach u v →
      Tarjan.Reach (fun v => (g.eSuccs v).map Prod.fst) u v := by
    intro u v huv
    induction huv with
    | refl => exact .refl
    | tail _ he ih => exact ih.tail (hstep he.choose_spec)
  intro T hTC hT hlt
  obtain ⟨t, ht⟩ := List.exists_mem_of_ne_nil T hT
  obtain ⟨s, d, w, hs, hd, ⟨he, hback⟩, heq⟩ := exists_tight_of_isGreatest hρ (T := {v | v ∈ T}) ⟨t, ht⟩ hlt
  exact ⟨s, hem.mem_of_reach hC (hTC hd) (hreach hback) (.single (hstep he)), hs, (d, w), he, hd, heq⟩

/-- Where the components settle, the choice of a potential decides feasibility, and the potential is
valid. -/
theorem selectPotentials_of_settles (hg : Closed g g.size) (hlen : g.size ≤ p.length)
    (h : Settles g p) :
    ((selectPotentials g p).isSome ↔ ¬ g.Edge.NegativeCycle) ∧
      ∀ pi, selectPotentials g p = some pi →
        ∀ s t w, g.Edge s t w → 0 ≤ pi.getD s 0 + w - pi.getD t 0 := by
  have hg' := hg.mono hlen
  have hfeasible : (selectPotentials g p).isSome → ¬ g.Edge.NegativeCycle := fun hsome =>
    (exists_sat_iff hg.finite_edge).mp (feasible_of_selectPotentials hg' hsome)
  rcases h with hneg | ⟨ρ, hρ, hsat⟩
  · have hnone : selectPotentials g p = none :=
      Option.not_isSome_iff_eq_none.mp fun hsome => hfeasible hsome hneg
    rw [hnone]
    exact ⟨⟨nofun, fun h => absurd hneg h⟩, nofun⟩
  · obtain ⟨pi, hpi, hval⟩ := selectPotentials_settles hg' hsat (fun v _ => hρ.1.2 v)
      fun C hC => tightIn_of_isGreatest_within hg' hρ hC
    rw [hpi]
    refine ⟨⟨fun _ => not_negativeCycle_of_sat hsat, fun _ => rfl⟩, fun pi' hpi' s t w he => ?_⟩
    obtain rfl := Option.some.inj hpi'
    have hle := hsat s t w he
    rw [hval s (hg.source s (t, w) he), hval t (hg.target s (t, w) he)]
    omega

/-- A vector that is a potential already. -/
theorem selectPotentials_chain :
    ((selectPotentials chain [0, -5, -6]).isSome ↔ ¬ chain.Edge.NegativeCycle) ∧
      ∀ pi, selectPotentials chain [0, -5, -6] = some pi →
        ∀ s t w, chain.Edge s t w → 0 ≤ pi.getD s 0 + w - pi.getD t 0 := by
  have hsat : chain.Edge.Sat fun v => [0, -5, -6].getD v 0 := by
    intro s t w he
    rcases edge_chain he with h | h <;> cases h <;> decide
  refine selectPotentials_of_settles closed_chain (by decide) (Or.inr ⟨_, ⟨⟨?_, fun _ => le_rfl⟩, ?_⟩, hsat⟩)
  · exact fun s t w he => hsat s t w he.1
  · exact fun φ hφ v => hφ.2 v

/-- The vertex 3 behind an edge that the vertex 2 keeps after it was lowered to -1, but not to -9. -/
def fork : GraphView :=
  ((((AdaptGraph.grow 4).setEdge 0 (-1) 2).setEdge 1 (-9) 2).setEdge 2 5 3).view

/-- From zero no potential is found for the chain, although it has no cycle; and the vector that is found for
the fork is no potential. -/
theorem selectPotentials_unsettled :
    (selectPotentials chain [0, 0, 0] = none ∧ ¬ chain.Edge.NegativeCycle) ∧
      ∃ pi, selectPotentials fork [0, 0, 0, 0] = some pi ∧ fork.Edge 2 3 5 ∧
        ¬ 0 ≤ pi.getD 2 0 + 5 - pi.getD 3 0 := by
  refine ⟨⟨by decide, not_negativeCycle_of_sat (σ := fun v => [0, -5, -6].getD v 0) ?_⟩,
    [0, 0, -9, 0], by decide,
    edge_view.mpr (show AdaptGraph.lookup _ 2 3 = some 5 by decide), by decide⟩
  intro s t w he
  rcases edge_chain he with h | h <;> cases h <;> decide

end GraphOps

end Prevail
