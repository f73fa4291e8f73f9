import Prevail.Crab.Reachable
import Prevail.Crab.SplitNormal

/-!
# The inclusion test

`operator<=` looks for each edge of the right operand at the same two variables of the left one:
an edge, or two bounds, that keep its weight (`Matched`). An answer `true` is right for every two
states, since what is matched is implied.

When the left operand is in split normal form, all that it implies between two variables is
matched. Two things can still make the test fail for an included state. It gives up when the right
operand has more variables, although variables without edges are passed over afterwards; and an
edge from a vertex to itself, which `close_over_edge` leaves behind on a triangle of relations, is
looked for like the others (`Comparable`, `le_exact_iff`).
-/

namespace Prevail

open DiffSys

namespace SplitDbm

variable {V : Type*} [LinearOrder V] {a b d : SplitDbm V} {σ : V → ℤ} {x y : Option V} {w : ℤ}

/-- An edge of `o` is kept by this state at the same variables. -/
def Matched (a o : SplitDbm V) (s d : ℕ) (w : ℤ) : Prop :=
  ∃ m n, a.vertRenaming o s = some m ∧ a.vertRenaming o d = some n ∧ a.edgeHolds m n w = true

/-- The right operand has no edge, or no more variables than the left one and its edges from a
vertex to itself are matched. -/
def Comparable (a o : SplitDbm V) : Prop :=
  o.isTop = true ∨ o.vertMap.entries.length ≤ a.vertMap.entries.length ∧
    ∀ n w, o.g.Edge n n w → a.Matched o n n w

theorem vertRenaming_iff (hb : b.WF) {n m : ℕ} :
    a.vertRenaming b n = some m ↔ ∃ x, b.vertOf x = some n ∧ a.vertOf x = some m := by
  unfold vertRenaming
  split_ifs with hn
  · subst hn
    constructor
    · intro h
      exact ⟨none, rfl, h⟩
    · rintro ⟨x, hx, hm⟩
      rw [vertOf_inj hb hx (y := none) rfl] at hm
      exact hm
  · constructor
    · intro h
      obtain ⟨⟨v, n'⟩, he, hv⟩ := Option.bind_eq_some_iff.mp h
      have hn' : n' = n := by simpa using List.find?_some he
      subst hn'
      exact ⟨some v, OrdMap.mem_entries.mp (List.mem_of_find?_eq_some he), hv⟩
    · rintro ⟨x, hx, hm⟩
      cases x with
      | none => exact absurd (Option.some.inj hx).symm hn
      | some v =>
        cases hfind : b.vertMap.entries.find? (·.2 = n) with
        | none =>
          have hnone := List.find?_eq_none.mp hfind (v, n) (OrdMap.mem_entries.mpr hx)
          simp at hnone
        | some e =>
          have hen : e.2 = n := by simpa using List.find?_some hfind
          have hev : b.vertMap.find? e.1 = some n :=
            OrdMap.mem_entries.mp (hen ▸ List.mem_of_find?_eq_some hfind)
          rw [Option.bind_some, hb.inj e.1 v n hev hx]
          exact hm

theorem not_matched_of_isTop (ha : a.isTop = true) {s t : ℕ} : ¬ a.Matched b s t w := by
  rintro ⟨m, n, -, -, h⟩
  have hnone := AdaptGraph.isEmpty_iff.mp ha
  rcases edgeHolds_iff.mp h with ⟨w', -, he⟩ | ⟨ws, wd, he, -⟩
  · exact absurd ((hnone m n).symm.trans he) (by simp)
  · exact absurd ((hnone m 0).symm.trans he) (by simp)

theorem exists_edge_of_not_isTop (hb : b.isTop = false) : ∃ s t w, b.g.Edge s t w := by
  by_contra hno
  have htop : b.isTop = true := AdaptGraph.isEmpty_iff.mpr fun s t => by
    rw [Option.eq_none_iff_forall_ne_some]
    exact fun w hw => hno ⟨s, t, w, hw⟩
  rw [htop] at hb
  cases hb

/-- A variable with an edge that is matched is there. -/
theorem contains_of_matched (hb : b.WF) (h : ∀ s t w, b.g.Edge s t w → a.Matched b s t w)
    {v : V} {n : ℕ} (hv : b.vertMap.find? v = some n)
    (hn : (b.g.eSuccs n).isEmpty = false ∨ (b.g.ePreds n).isEmpty = false) :
    a.vertMap.contains v = true := by
  have hrenamed : ∃ m, a.vertRenaming b n = some m := by
    rcases hn with hn | hn
    · obtain ⟨⟨t, w⟩, he⟩ := List.isEmpty_eq_false_iff_exists_mem.mp hn
      obtain ⟨m, -, hm, -⟩ := h n t w (AdaptGraph.mem_eSuccs.mp he)
      exact ⟨m, hm⟩
    · obtain ⟨⟨s, w⟩, he⟩ := List.isEmpty_eq_false_iff_exists_mem.mp hn
      obtain ⟨-, m, -, hm, -⟩ := h s n w (AdaptGraph.mem_ePreds.mp he)
      exact ⟨m, hm⟩
  obtain ⟨m, hm⟩ := hrenamed
  obtain ⟨x, hx, hxm⟩ := (vertRenaming_iff hb).mp hm
  rw [vertOf_inj hb hx (y := some v) hv] at hxm
  exact Option.isSome_iff_exists.mpr ⟨m, hxm⟩

theorem mem_verts_of_live (hd : d.WF) {n : ℕ} (hn : d.Live (fun _ => False) n) :
    n ∈ d.g.verts :=
  List.mem_filter.mpr ⟨List.mem_range.mpr (hd.live_lt hn), by simpa using hd.live_not_free hn⟩

/-- The main loop of the test. -/
theorem forall_matched_iff (hb : b.WF) :
    (b.g.verts.all fun ox => (b.g.eSuccs ox).all fun e =>
      match a.vertRenaming b ox, a.vertRenaming b e.1 with
      | some s, some d => a.edgeHolds s d e.2
      | _, _ => false) = true ↔ ∀ s t w, b.g.Edge s t w → a.Matched b s t w := by
  simp only [List.all_eq_true]
  constructor
  · intro h s t w hw
    have hst := h s (mem_verts_of_live hb (hb.ends s t w hw).1) (t, w) (AdaptGraph.mem_eSuccs.mpr hw)
    split at hst
    · next m n hm hn => exact ⟨m, n, hm, hn, hst⟩
    · cases hst
  · rintro h s - ⟨t, w⟩ he
    obtain ⟨m, n, hm, hn, hmn⟩ := h s t w (AdaptGraph.mem_eSuccs.mp he)
    simp only [hm, hn]
    exact hmn

/-- The loops of the test in one condition. -/
theorem le_iff (hb : b.WF) : a.le b = true ↔ b.isTop = true ∨
    b.vertMap.entries.length ≤ a.vertMap.entries.length ∧
      ∀ s t w, b.g.Edge s t w → a.Matched b s t w := by
  unfold le
  cases htb : b.isTop with
  | true => simp
  | false =>
    simp only [Bool.false_eq_true, if_false, false_or]
    constructor
    · intro h
      split_ifs at h with hta hsize hmiss
      exact ⟨not_lt.mp hsize, (forall_matched_iff hb).mp h⟩
    · rintro ⟨hsize, hmatched⟩
      have hta : ¬ a.isTop = true := fun hta => by
        obtain ⟨s, t, w, hw⟩ := exists_edge_of_not_isTop htb
        exact not_matched_of_isTop hta (hmatched s t w hw)
      have hmiss : ¬ (b.vertMap.entries.any fun e =>
          !((b.g.eSuccs e.2).isEmpty && (b.g.ePreds e.2).isEmpty) &&
            !a.vertMap.contains e.1) = true := by
        intro hany
        obtain ⟨⟨v, n⟩, he, hcond⟩ := List.any_eq_true.mp hany
        simp only [Bool.and_eq_true, Bool.not_eq_true', Bool.and_eq_false_iff] at hcond
        have hcontains := contains_of_matched hb hmatched (OrdMap.mem_entries.mp he) hcond.1
        rw [hcontains] at hcond
        exact absurd hcond.2 (by simp)
      rw [if_neg hta, if_neg (not_lt.mpr hsize), if_neg hmiss]
      exact (forall_matched_iff hb).mpr hmatched

/-- What is matched is implied. -/
theorem implies_of_matched (hb : b.WF) {m n : ℕ} (hm : b.vertOf x = some m)
    (hn : b.vertOf y = some n) (h : a.Matched b m n w) : a.csts.Implies x y w := by
  obtain ⟨m', n', hm', hn', hmn⟩ := h
  have hsame : ∀ {u : Option V} {k k' : ℕ}, b.vertOf u = some k → a.vertRenaming b k = some k' →
      a.vertOf u = some k' := by
    intro u k k' hu hk
    obtain ⟨u', hu', hk'⟩ := (vertRenaming_iff hb).mp hk
    rwa [vertOf_inj hb hu hu']
  have hx := hsame hm hm'
  have hy := hsame hn hn'
  rcases edgeHolds_iff.mp hmn with ⟨w', hle, he⟩ | ⟨ws, wd, hs, hd, hle⟩
  · exact (Implies.of_edge ((csts_iff_edge hx hy).mpr he)).weaken hle
  · have hzero : a.vertOf none = some 0 := rfl
    exact ((Implies.of_edge ((csts_iff_edge hx hzero).mpr hs)).snoc
      ((csts_iff_edge hzero hy).mpr hd)).weaken hle

theorem models_of_matched (ha : a.WF) (hb : b.WF)
    (h : ∀ s t w, b.g.Edge s t w → a.Matched b s t w) (hσ : a.Models σ) : b.Models σ := by
  rw [models_iff hb]
  rintro x y w ⟨m, n, hm, hn, hw⟩
  exact implies_of_matched hb hm hn (h m n w hw) _ ((models_iff ha).mp hσ)

/-- Inclusion is sound for every two states. -/
theorem models_of_le (ha : a.WF) (hb : b.WF) (h : a.le b = true) (hσ : a.Models σ) :
    b.Models σ := by
  rcases (le_iff hb).mp h with htop | ⟨-, hmatched⟩
  · exact models_of_isTop htop hb σ
  · exact models_of_matched ha hb hmatched hσ

/-- What a state in normal form implies between two variables is matched. -/
theorem matched_of_implies (ha : a.WF) (hna : a.NormalForm) (hb : b.WF) {m n : ℕ}
    (hm : b.vertOf x = some m) (hn : b.vertOf y = some n) (hxy : x ≠ y)
    (h : a.csts.Implies x y w) : a.Matched b m n w := by
  have hrename : ∀ {u : Option V} {k k' : ℕ}, b.vertOf u = some k → a.vertOf u = some k' →
      a.vertRenaming b k = some k' := fun hu hk => (vertRenaming_iff hb).mpr ⟨_, hu, hk⟩
  have hzero : a.vertOf none = some 0 := rfl
  rcases hna.short ha hxy h with ⟨w', hle, m', n', hm', hn', hw'⟩ |
    ⟨-, -, ws, wd, ⟨m', z, hm', hz, hs⟩, ⟨z', n', hz', hn', hd⟩, hle⟩
  · exact ⟨m', n', hrename hm hm', hrename hn hn', edgeHolds_iff.mpr (Or.inl ⟨w', hle, hw'⟩)⟩
  · obtain rfl := Option.some.inj (hz.symm.trans hzero)
    obtain rfl := Option.some.inj (hz'.symm.trans hzero)
    exact ⟨m', n', hrename hm hm', hrename hn hn',
      edgeHolds_iff.mpr (Or.inr ⟨ws, wd, hs, hd, hle⟩)⟩

/-- On included states the test only asks whether they are comparable. -/
theorem le_iff_comparable (ha : a.WF) (hb : b.WF) (hna : a.NormalForm)
    (hincl : ∀ σ, a.Models σ → b.Models σ) : a.le b = true ↔ Comparable a b := by
  rw [le_iff hb]
  refine or_congr Iff.rfl (and_congr Iff.rfl ⟨fun h n w => h n n w, fun hloops s t w hw => ?_⟩)
  by_cases hst : s = t
  · subst hst
    exact hloops s w hw
  · obtain ⟨hs, ht⟩ := hb.ends s t w hw
    obtain ⟨x, hx⟩ := exists_vertOf hs
    obtain ⟨y, hy⟩ := exists_vertOf ht
    refine matched_of_implies ha hna hb hx hy ?_ ?_
    · rintro rfl
      exact hst (Option.some.inj (hx.symm.trans hy))
    · exact (implies_csts_iff ha).mpr fun σ hσ =>
        (models_iff hb).mp (hincl σ hσ) x y w ⟨s, t, hx, hy, hw⟩

/-- The test answers `true` on included states exactly when they are comparable. -/
theorem le_exact_iff (ha : a.WF) (hb : b.WF) (hna : a.NormalForm) :
    (a.le b = true ↔ ∀ σ, a.Models σ → b.Models σ) ↔
      ((∀ σ, a.Models σ → b.Models σ) → Comparable a b) := by
  have hsound : a.le b = true → ∀ σ, a.Models σ → b.Models σ := fun h σ => models_of_le ha hb h
  constructor
  · intro h hincl
    exact (le_iff_comparable ha hb hna hincl).mp (h.mpr hincl)
  · intro h
    exact ⟨hsound, fun hincl => (le_iff_comparable ha hb hna hincl).mpr (h hincl)⟩

theorem le_exact_iff_intervals :
    (top.set 0 (.ofInts 0 5)).le (top.set (0 : ℕ) (.ofInts 0 10)) = true ↔
      ∀ σ : ℕ → ℤ, (top.set 0 (.ofInts 0 5)).Models σ → (top.set 0 (.ofInts 0 10)).Models σ :=
  (le_exact_iff (wf_set wf_top 0 _) (wf_set wf_top 0 _)
    (normalForm_of_entries (by decide) (by decide))).mpr fun _ => by
      refine Or.inr ⟨by decide, fun n w hw => ?_⟩
      have hloop : ∀ e ∈ (top.set (0 : ℕ) (.ofInts 0 10)).g.edges.entries,
          (ofLex e.1).1 ≠ (ofLex e.1).2 := by decide
      exact absurd rfl (hloop _ (OrdMap.mem_entries.mpr hw))

/-- `x0 ∈ [0, 5]` against `x0 ∈ [0, 10]` with a vertex for `x1`, of which nothing is known. -/
theorem le_misses_inclusion :
    ∃ a b : SplitDbm ℕ, Reachable (fun _ _ => True) a ∧ Reachable (fun _ _ => True) b ∧
      a.NormalForm ∧ b.NormalForm ∧ (∀ σ, a.Models σ → b.Models σ) ∧ a.le b = false := by
  let a : SplitDbm ℕ := top.set 0 (.ofInts 0 5)
  let c : SplitDbm ℕ := top.set 0 (.ofInts 0 10)
  let b := (c.addConstraint ⟨.var 1, .notZero⟩).get (by decide)
  have ha : Reachable (fun _ _ => True) a := .set .top 0 _ (by decide)
  have hb : Reachable (fun _ _ => True) b :=
    .addConstraint (.set .top 0 _ (by decide)) _ (Option.some_get _).symm
  refine ⟨a, b, ha, hb, normalForm_of_entries (by decide) (by decide),
    normalForm_of_entries (by decide) (by decide), fun σ => ?_, by decide⟩
  exact models_of_matched ha.wf hb.wf ((forall_matched_iff hb.wf).mp (by decide))

end SplitDbm

end Prevail
