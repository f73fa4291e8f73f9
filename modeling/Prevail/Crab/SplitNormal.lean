import Prevail.Crab.SplitDbmMeet
import Prevail.Lib.DiffPath

/-!
# Split normal form

A state is in split normal form when its graph is split closed at the zero vertex: the shortest
path between two other vertices is an edge or goes through the zero vertex by two bounds, and the
shortest path from or to the zero vertex is an edge. There are shortest paths since the edges have
a solution.

The edges between the vertices are the constraints between the variables (`csts`), so what a state
in normal form says about two variables is read off an edge or two bounds (`NormalForm.short`).
-/

namespace Prevail

open DiffSys

namespace AdaptGraph

variable {g : AdaptGraph}

theorem finite_edge (g : AdaptGraph) : {c : ℕ × ℕ × ℤ | g.Edge c.1 c.2.1 c.2.2}.Finite := by
  refine (List.finite_toSet (g.edges.entries.map fun e =>
    ((ofLex e.1).1, (ofLex e.1).2, e.2))).subset ?_
  rintro ⟨s, d, w⟩ hw
  exact List.mem_map.mpr ⟨_, OrdMap.mem_entries.mpr hw, rfl⟩

end AdaptGraph

namespace SplitDbm

variable {V : Type*} [LinearOrder V] {a b d : SplitDbm V} {σ : V → ℤ} {x y : Option V} {w : ℤ}

/-- Split normal form. -/
structure NormalForm (d : SplitDbm V) : Prop where
  sat : ∃ ν, d.g.Edge.Sat ν
  closed : SplitClosed 0 d.g.Edge

/-! ## The constraints of a state in normal form -/

theorem finite_csts (hd : d.WF) :
    {c : Option V × Option V × ℤ | d.csts c.1 c.2.1 c.2.2}.Finite := by
  refine Set.Finite.of_finite_image (f := fun c => ((d.vertOf c.1).getD 0, (d.vertOf c.2.1).getD 0, c.2.2))
    ((AdaptGraph.finite_edge d.g).subset ?_) ?_
  · rintro _ ⟨⟨x, y, w⟩, ⟨m, n, hm, hn, hw⟩, rfl⟩
    simp only [hm, hn, Option.getD_some]
    exact hw
  · rintro ⟨x, y, w⟩ ⟨m, n, hm, hn, -⟩ ⟨x', y', w'⟩ ⟨m', n', hm', hn', -⟩ heq
    simp only at hm hn hm' hn'
    simp only [hm, hn, hm', hn', Option.getD_some, Prod.mk.injEq] at heq
    obtain ⟨rfl, rfl, rfl⟩ := heq
    rw [vertOf_inj hd hm hm', vertOf_inj hd hn hn']

theorem vertOf_of_csts (h : d.csts x y w) :
    (∃ m, d.vertOf x = some m) ∧ ∃ n, d.vertOf y = some n :=
  let ⟨m, n, hm, hn, _⟩ := h
  ⟨⟨m, hm⟩, n, hn⟩

theorem path_edge_of_path_csts (h : d.csts.Path x y w) {m : ℕ} (hm : d.vertOf x = some m) :
    ∃ n, d.vertOf y = some n ∧ d.g.Edge.Path m n w := by
  induction h with
  | nil => exact ⟨m, hm, .nil⟩
  | snoc _ he ih =>
    obtain ⟨n, hn, hp⟩ := ih
    obtain ⟨n', k, hn', hk, hw⟩ := he
    obtain rfl := Option.some.inj (hn.symm.trans hn')
    exact ⟨k, hk, hp.snoc hw⟩

theorem path_csts_of_path_edge (hd : d.WF) {m n : ℕ} (h : d.g.Edge.Path m n w)
    (hm : d.vertOf x = some m) (hn : d.vertOf y = some n) : d.csts.Path x y w := by
  induction h generalizing y with
  | nil =>
    rw [vertOf_inj hd hm hn]
    exact .nil
  | snoc _ he ih =>
    obtain ⟨z, hz⟩ := exists_vertOf (hd.ends _ _ _ he).1
    exact (ih hz).snoc ⟨_, _, hz, hn, he⟩

theorem csts_iff_edge {m n : ℕ} (hm : d.vertOf x = some m) (hn : d.vertOf y = some n) :
    d.csts x y w ↔ d.g.Edge m n w := by
  constructor
  · rintro ⟨m', n', hm', hn', hw⟩
    obtain rfl := Option.some.inj (hm.symm.trans hm')
    obtain rfl := Option.some.inj (hn.symm.trans hn')
    exact hw
  · exact fun hw => ⟨m, n, hm, hn, hw⟩

theorem short_csts_iff (hd : d.WF) {m n : ℕ} (hm : d.vertOf x = some m)
    (hn : d.vertOf y = some n) : d.csts.Short none x y w ↔ d.g.Edge.Short 0 m n w := by
  have hnone : d.vertOf none = some 0 := rfl
  have hzero : ∀ {u : Option V} {k : ℕ}, d.vertOf u = some k → (u = none ↔ k = 0) := by
    intro u k hk
    constructor
    · rintro rfl
      exact (Option.some.inj hk).symm
    · rintro rfl
      exact vertOf_inj hd hk hnone
  unfold Short
  simp only [csts_iff_edge hm hn, csts_iff_edge hm hnone, csts_iff_edge hnone hn, ne_eq,
    hzero hm, hzero hn]

theorem vertOf_of_path (h : d.csts.Path x y w) : x = y ∨ ∃ m, d.vertOf x = some m := by
  induction h with
  | nil => exact Or.inl rfl
  | snoc _ he ih =>
    rcases ih with rfl | hx
    · exact Or.inr (vertOf_of_csts he).1
    · exact Or.inr hx

theorem NormalForm.splitClosed_csts (h : d.NormalForm) (hd : d.WF) :
    SplitClosed none d.csts := by
  intro x y w hxy hp
  obtain ⟨m, hm⟩ := (vertOf_of_path hp).resolve_left hxy
  obtain ⟨n, hn, hpath⟩ := path_edge_of_path_csts hp hm
  rw [short_csts_iff hd hm hn]
  refine h.closed m n w ?_ hpath
  rintro rfl
  exact hxy (vertOf_inj hd hm hn)

/-- A state is in normal form when its constraints are. -/
theorem normalForm_of_csts (hd : d.WF) (hsat : ∃ σ, d.Models σ) (h : SplitClosed none d.csts) :
    d.NormalForm := by
  obtain ⟨σ, ν, hν⟩ := hsat
  refine ⟨⟨ν, hν.sat⟩, fun m n w hmn hp => ?_⟩
  have hends : ∀ {m n : ℕ} {w : ℤ}, d.g.Edge.Path m n w → m ≠ n →
      d.Live (fun _ => False) m ∧ d.Live (fun _ => False) n := by
    intro m n w hp
    induction hp with
    | nil => exact fun hne => absurd rfl hne
    | @snoc n k w c hp he ih =>
      intro _
      obtain ⟨hn, hk⟩ := hd.ends n k c he
      by_cases hmn : m = n
      · exact ⟨hmn ▸ hn, hk⟩
      · exact ⟨(ih hmn).1, hk⟩
  obtain ⟨hlm, hln⟩ := hends hp hmn
  obtain ⟨x, hx⟩ := exists_vertOf hlm
  obtain ⟨y, hy⟩ := exists_vertOf hln
  rw [← short_csts_iff hd hx hy]
  refine h x y w ?_ (path_csts_of_path_edge hd hp hx hy)
  rintro rfl
  exact hmn (Option.some.inj (hx.symm.trans hy))

theorem NormalForm.models (h : d.NormalForm) : ∃ σ, d.Models σ := by
  obtain ⟨ν, hν⟩ := h.sat
  refine ⟨fun v => ν ((d.vertMap.find? v).getD 0) - ν 0, fun n => ν n - ν 0, sub_self _,
    fun v n hv => ?_, hν.sub_const _⟩
  simp only [hv, Option.getD_some]

omit [LinearOrder V] in
/-- To be implied between variables and zero is to hold in the solutions with zero at its value. -/
theorem implies_iff_ext {E : DiffSys (Option V)} :
    E.Implies x y w ↔ ∀ σ : V → ℤ, E.Sat (ext σ) → ext σ y ≤ ext σ x + w := by
  constructor
  · exact fun h σ hσ => h _ hσ
  · intro h φ hφ
    have hext : ext (fun v => φ (some v) - φ none) = fun u => φ u - φ none := by
      funext u
      cases u with
      | none => exact (sub_self _).symm
      | some v => rfl
    have hle := h (fun v => φ (some v) - φ none) (by rw [hext]; exact hφ.sub_const _)
    simp only [hext] at hle
    omega

/-- What all valuations of a state satisfy is what its constraints imply. -/
theorem implies_csts_iff (hd : d.WF) :
    d.csts.Implies x y w ↔ ∀ σ, d.Models σ → ext σ y ≤ ext σ x + w := by
  rw [implies_iff_ext]
  exact forall_congr' fun σ => imp_congr (models_iff hd).symm Iff.rfl

/-- A state in normal form shows what it implies by an edge or two bounds. -/
theorem NormalForm.short (h : d.NormalForm) (hd : d.WF) (hxy : x ≠ y)
    (hw : d.csts.Implies x y w) : d.csts.Short none x y w := by
  obtain ⟨σ, hσ⟩ := h.models
  exact (h.splitClosed_csts hd).short_of_implies (finite_csts hd) ((models_iff hd).mp hσ) hxy hw

/-! ## Checking the normal form -/

theorem edgeHolds_iff {m n : ℕ} : d.edgeHolds m n w = true ↔
    (∃ w' ≤ w, d.g.Edge m n w') ∨ ∃ ws wd, d.g.Edge m 0 ws ∧ d.g.Edge 0 n wd ∧ ws + wd ≤ w := by
  unfold edgeHolds AdaptGraph.Edge
  rw [Bool.or_eq_true]
  refine or_congr ?_ ?_
  · cases d.g.lookup m n with
    | none => simp
    | some w' => simp
  · cases d.g.lookup m 0 with
    | none => simp
    | some ws => cases d.g.lookup 0 n <;> simp

theorem short_of_edgeHolds {ν : ℕ → ℤ} (hν : d.g.Edge.Sat ν) {m n : ℕ}
    (h : d.edgeHolds m n w = true) : d.g.Edge.Short 0 m n w := by
  rcases edgeHolds_iff.mp h with hdirect | ⟨ws, wd, hs, hd, hle⟩
  · exact Or.inl hdirect
  · by_cases hm : m = 0
    · subst hm
      have h0 := hν 0 0 ws hs
      exact Or.inl ⟨wd, by omega, hd⟩
    · by_cases hn : n = 0
      · subst hn
        have h0 := hν 0 0 wd hd
        exact Or.inl ⟨ws, by omega, hs⟩
      · exact Or.inr ⟨hm, hn, ws, wd, hs, hd, hle⟩

/-- With a valid potential it is enough to look at every two consecutive edges. -/
theorem normalForm_of_entries
    (hpot : ∀ e ∈ d.g.edges.entries,
      pot d.potential (ofLex e.1).2 ≤ pot d.potential (ofLex e.1).1 + e.2)
    (h : ∀ e ∈ d.g.edges.entries, ∀ f ∈ d.g.edges.entries, (ofLex e.1).2 = (ofLex f.1).1 →
      (ofLex e.1).1 ≠ (ofLex f.1).2 →
        d.edgeHolds (ofLex e.1).1 (ofLex f.1).2 (e.2 + f.2) = true) : d.NormalForm := by
  have hsat : d.g.Edge.Sat (pot d.potential) := fun s t w hw =>
    hpot (toLex (s, t), w) (OrdMap.mem_entries.mpr hw)
  refine ⟨⟨_, hsat⟩, splitClosed_of_triangle hsat fun s m t w w' hw hw' hst => ?_⟩
  exact short_of_edgeHolds hsat (h (toLex (s, m), w) (OrdMap.mem_entries.mpr hw)
    (toLex (m, t), w') (OrdMap.mem_entries.mpr hw') rfl hst)

end SplitDbm

end Prevail
