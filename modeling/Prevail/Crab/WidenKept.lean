import Prevail.Crab.BoundClosure
import Prevail.Crab.JoinExact

/-!
# What widening keeps

The widening keeps the edges of the left operand that the right operand respects (`kept`), and
records the vertices that lost an edge. The constructor of the result normalises it, which adds
implied edges only: the models of the result are the solutions of the kept constraints
(`models_widen`), so that the result is above both operands (`models_widen_of_models`).
-/

namespace Prevail

open GraphOps DiffSys

namespace GraphOps

variable {l r : GraphView} {h : AdaptGraph} {s d : ℕ} {w : ℤ}

/-- The edge of `l` from `s` to `d` has weight `w`, and `r` has an edge that is no weaker. -/
def Respected (l r : GraphView) (s d : ℕ) (w : ℤ) : Prop :=
  l.lookup s d = some w ∧ ∃ w' ≤ w, (d, w') ∈ r.eSuccs s

/-- The edges of `h` are respected ones. -/
def RespectedIn (l r : GraphView) (h : AdaptGraph) : Prop :=
  ∀ s d w, h.Edge s d w → Respected l r s d w

/-- The step of the widening for one edge of the right operand. -/
def widenEdge (l : GraphView) (s : ℕ) (h : AdaptGraph) (e : ℕ × ℤ) : AdaptGraph :=
  match l.lookup s e.1 with
  | some wl => if e.2 ≤ wl then h.addEdge s wl e.1 else h
  | none => h

theorem widenVert_eq (l r : GraphView) (h : AdaptGraph) (s : ℕ) :
    widenVert l r h s = (r.eSuccs s).foldl (widenEdge l s) h := rfl

theorem RespectedIn.widenEdge (hh : RespectedIn l r h) {e : ℕ × ℤ} (he : e ∈ r.eSuccs s) :
    RespectedIn l r (widenEdge l s h e) := by
  unfold GraphOps.widenEdge
  split
  · next wl hwl =>
    split_ifs with hle
    · exact forall_edge_setEdge hh ⟨hwl, e.2, hle, he⟩
    · exact hh
  · exact hh

/-- An edge that is there stays there. -/
theorem edge_widenEdge_of_edge {a : ℕ} {e : ℕ × ℤ} (hl : l.lookup s d = some w)
    (hh : h.Edge s d w) : (widenEdge l a h e).Edge s d w := by
  unfold GraphOps.widenEdge
  split
  · next wl hwl =>
    split_ifs with hle
    · show (h.addEdge a wl e.1).lookup s d = some w
      rw [AdaptGraph.lookup_addEdge]
      split_ifs with hab
      · rw [← hwl, ← hab.1, ← hab.2]
        exact hl
      · exact hh
    · exact hh
  · exact hh

theorem edge_widenVert_of_edge {a : ℕ} (hl : l.lookup s d = some w) (hh : h.Edge s d w) :
    (widenVert l r h a).Edge s d w := by
  rw [widenVert_eq]
  exact List.foldlRecOn (motive := fun h : AdaptGraph => h.Edge s d w) _ _ hh
    fun h hh e _ => edge_widenEdge_of_edge hl hh

theorem RespectedIn.widenVert (hh : RespectedIn l r h) (s : ℕ) :
    RespectedIn l r (widenVert l r h s) := by
  rw [widenVert_eq]
  exact List.foldlRecOn _ _ hh fun h hh e he => hh.widenEdge he

theorem edge_widenVert (hr : Respected l r s d w) : (widenVert l r h s).Edge s d w := by
  obtain ⟨hl, w', hle, he⟩ := hr
  rw [widenVert_eq]
  refine foldl_reaches (P := fun h : AdaptGraph => h.Edge s d w) he (fun h => ?_)
    (fun h e _ hh => edge_widenEdge_of_edge hl hh) h
  show (GraphOps.widenEdge l s h (d, w')).lookup s d = some w
  simp only [GraphOps.widenEdge, hl, if_pos hle, AdaptGraph.lookup_addEdge, and_self, if_true]

/-- The edges of a vertex that was visited are its respected ones. -/
theorem elem_widenVert (hh : RespectedIn l r h) :
    (widenVert l r h s).elem s d = true ↔ ∃ w, Respected l r s d w := by
  unfold AdaptGraph.elem
  rw [Option.isSome_iff_exists]
  constructor
  · rintro ⟨w, hw⟩
    exact ⟨w, hh.widenVert s s d w hw⟩
  · rintro ⟨w, hw⟩
    exact ⟨w, edge_widenVert hw⟩

/-- The visit of one vertex. -/
def widenStep (l r : GraphView) (acc : AdaptGraph × List ℕ) (s : ℕ) : AdaptGraph × List ℕ :=
  let h := widenVert l r acc.1 s
  if (l.eSuccs s).any (fun e => !h.elem s e.1) then (h, acc.2.insert s) else (h, acc.2)

theorem widen_eq (l r : GraphView) (unstable : List ℕ) :
    GraphOps.widen l r unstable = r.verts.foldl (widenStep l r) (.grow l.size, unstable) := rfl

theorem widenStep_fst (acc : AdaptGraph × List ℕ) (s : ℕ) :
    (widenStep l r acc s).1 = widenVert l r acc.1 s := by
  unfold widenStep
  simp only
  split_ifs <;> rfl

/-- The vertex `s` has an edge in `l` that `r` does not respect. -/
def Loses (l r : GraphView) (s : ℕ) : Prop :=
  ∃ d w, (d, w) ∈ l.eSuccs s ∧ ∀ w', ¬ Respected l r s d w'

theorem mem_widenStep_snd {acc : AdaptGraph × List ℕ} (hh : RespectedIn l r acc.1) {v : ℕ} :
    v ∈ (widenStep l r acc s).2 ↔ v ∈ acc.2 ∨ v = s ∧ Loses l r s := by
  have hloses : (l.eSuccs s).any (fun e => !(widenVert l r acc.1 s).elem s e.1) = true ↔
      Loses l r s := by
    simp only [List.any_eq_true, Bool.not_eq_true', ← Bool.not_eq_true, elem_widenVert hh,
      Loses, Prod.exists, not_exists]
  unfold widenStep
  simp only
  split_ifs with hany
  · simp only [List.mem_insert_iff, hloses.mp hany, and_true]
    exact or_comm
  · simp only [mt hloses.mpr hany, and_false, or_false]

/-- The graph of a widening has the respected edges, and the vertices that lost one are added to
the unstable ones. -/
theorem widen_spec (hv : ∀ s d w, (d, w) ∈ l.eSuccs s → s ∈ r.verts)
    (hl : ∀ s d w, l.lookup s d = some w → (d, w) ∈ l.eSuccs s) (unstable : List ℕ) :
    (∀ s d w, (GraphOps.widen l r unstable).1.Edge s d w ↔ Respected l r s d w) ∧
      ∀ v, v ∈ (GraphOps.widen l r unstable).2 ↔ v ∈ unstable ∨ Loses l r v := by
  have hrun : ∀ (verts : List ℕ) (acc : AdaptGraph × List ℕ), RespectedIn l r acc.1 →
      RespectedIn l r (verts.foldl (widenStep l r) acc).1 ∧
      (∀ s d w, acc.1.Edge s d w → (verts.foldl (widenStep l r) acc).1.Edge s d w) ∧
      (∀ s d w, s ∈ verts → Respected l r s d w →
        (verts.foldl (widenStep l r) acc).1.Edge s d w) ∧
      ∀ v, v ∈ (verts.foldl (widenStep l r) acc).2 ↔ v ∈ acc.2 ∨ v ∈ verts ∧ Loses l r v := by
    intro verts
    induction verts with
    | nil => exact fun acc hacc => ⟨hacc, fun _ _ _ h => h, by simp, by simp⟩
    | cons a verts ih =>
      intro acc hacc
      have hstep : RespectedIn l r (widenStep l r acc a).1 := by
        rw [widenStep_fst]
        exact hacc.widenVert a
      obtain ⟨h1, h2, h3, h4⟩ := ih (widenStep l r acc a) hstep
      refine ⟨h1, fun s d w hw => h2 s d w ?_, fun s d w hs hw => ?_, fun v => ?_⟩
      · rw [widenStep_fst]
        exact edge_widenVert_of_edge (hacc s d w hw).1 hw
      · rcases List.mem_cons.mp hs with rfl | hs
        · refine h2 s d w ?_
          rw [widenStep_fst]
          exact edge_widenVert hw
        · exact h3 s d w hs hw
      · rw [List.foldl_cons, h4 v, mem_widenStep_snd hacc, List.mem_cons]
        constructor
        · rintro ((h | ⟨rfl, h⟩) | ⟨hv, h⟩)
          · exact Or.inl h
          · exact Or.inr ⟨Or.inl rfl, h⟩
          · exact Or.inr ⟨Or.inr hv, h⟩
        · rintro (h | ⟨rfl | hv, h⟩)
          · exact Or.inl (Or.inl h)
          · exact Or.inl (Or.inr ⟨rfl, h⟩)
          · exact Or.inr ⟨hv, h⟩
  obtain ⟨h1, -, h3, h4⟩ := hrun r.verts (.grow l.size, unstable)
    (fun s d w hw => by simp [AdaptGraph.Edge] at hw)
  rw [widen_eq]
  refine ⟨fun s d w => ⟨h1 s d w, fun hw => h3 s d w (hv s d w (hl s d w hw.1)) hw⟩, fun v => ?_⟩
  rw [h4 v]
  refine or_congr Iff.rfl ⟨fun h => h.2, fun h => ⟨?_, h⟩⟩
  obtain ⟨d, w, hw, -⟩ := h
  exact hv v d w hw

end GraphOps

namespace SplitDbm

variable {V : Type*} [LinearOrder V] {a b d : SplitDbm V} {names : List V} {x y : Option V}
  {i j : ℕ} {w : ℤ} {σ : V → ℤ}

/-- The constraints of `a` that `b` respects. -/
def kept (a b : SplitDbm V) : DiffSys (Option V) := fun x y w =>
  a.csts x y w ∧ ∃ w' ≤ w, b.csts x y w'

/-- The same between the common vertices. -/
def keptSys (a b : SplitDbm V) (names : List V) : DiffSys ℕ := fun i j w =>
  a.alignedSys names i j w ∧ ∃ w' ≤ w, b.alignedSys names i j w'

theorem respected_iff (hb : b.WF) (hn : names.Nodup) :
    Respected (a.aligned names) (b.aligned names) i j w ↔ keptSys a b names i j w := by
  unfold Respected keptSys
  simp only [lookup_aligned, mem_eSuccs_iff_alignedSys hb hn]

theorem keptSys_iff (hx : (slots names)[i]? = some x)
    (hy : (slots names)[j]? = some y) : keptSys a b names i j w ↔ kept a b x y w := by
  have hiff : ∀ (d : SplitDbm V) (c : ℤ), d.alignedSys names i j c ↔ d.csts x y c := by
    intro d c
    constructor
    · rintro ⟨x', y', hx', hy', hc⟩
      obtain rfl := Option.some.inj (hx.symm.trans hx')
      obtain rfl := Option.some.inj (hy.symm.trans hy')
      exact hc
    · exact fun hc => ⟨x, y, hx, hy, hc⟩
  unfold keptSys kept
  simp only [hiff]

/-- The graph that the widening builds, with the unstable vertices. -/
def widenGraph (a b : SplitDbm V) : AdaptGraph × List ℕ :=
  GraphOps.widen (a.aligned (commonNames a b)) (b.aligned (commonNames a b)) a.unstable

/-- The result of the widening before its constructor normalises it. -/
def widenRaw (a b : SplitDbm V) : SplitDbm V :=
  numbered (commonNames a b) (widenGraph a b).1 (0 :: (commonNames a b).map a.relPot)
    (widenGraph a b).2

theorem widen_eq_normalize (a b : SplitDbm V) : a.widen b = (widenRaw a b).normalize := rfl

theorem widenGraph_spec (ha : a.WF) (hb : b.WF) :
    (∀ i j w, (widenGraph a b).1.Edge i j w ↔ keptSys a b (commonNames a b) i j w) ∧
      ∀ i, i ∈ (widenGraph a b).2 ↔ i ∈ a.unstable ∨
        Loses (a.aligned (commonNames a b)) (b.aligned (commonNames a b)) i := by
  have hn := nodup_commonNames a b
  obtain ⟨hedge, hunstable⟩ := GraphOps.widen_spec (l := a.aligned (commonNames a b))
    (r := b.aligned (commonNames a b))
    (fun s d w hw => mem_verts_aligned.mpr
      (slots_of_alignedSys ((mem_eSuccs_iff_alignedSys ha hn).mp hw)).1)
    (fun s d w hw => (mem_eSuccs_iff_alignedSys ha hn).mpr (lookup_aligned.mp hw)) a.unstable
  exact ⟨fun i j w => (hedge i j w).trans (respected_iff hb hn), hunstable⟩

theorem wf_widenRaw (ha : a.WF) (b : SplitDbm V) : (widenRaw a b).WF := by
  have hn := nodup_commonNames a b
  have hedges : EdgesIn (a.alignedSys (commonNames a b)) (Slot (commonNames a b))
      (widenGraph a b).1 := edgesIn_widen (viewIn_aligned ha hn)
    (fun s t w hw => (mem_eSuccs_aligned ha hn).mpr (lookup_aligned.mp hw)) _
  obtain ⟨hsize, hfree⟩ := shape_widen (a.aligned (commonNames a b)) (b.aligned (commonNames a b))
    a.unstable
  exact wf_numbered hn ⟨hsize.trans (size_aligned _ _), hfree, hedges.ends⟩ (by simp) _

/-- The kept constraints are those between common variables. -/
theorem exists_slots_of_kept (h : kept a b x y w) :
    ∃ i j : ℕ, (slots (commonNames a b))[i]? = some x ∧ (slots (commonNames a b))[j]? = some y := by
  obtain ⟨ha, _, -, hb⟩ := h
  obtain ⟨hax, hay⟩ := vertOf_of_csts ha
  obtain ⟨hbx, hby⟩ := vertOf_of_csts hb
  obtain ⟨i, hi⟩ := exists_slot_commonNames hax hbx
  obtain ⟨j, hj⟩ := exists_slot_commonNames hay hby
  exact ⟨i, j, hi, hj⟩

theorem csts_widenRaw (ha : a.WF) (hb : b.WF) : (widenRaw a b).csts x y w ↔ kept a b x y w := by
  unfold widenRaw
  rw [csts_numbered (nodup_commonNames a b)]
  constructor
  · rintro ⟨i, j, hi, hj, he⟩
    exact (keptSys_iff hi hj).mp (((widenGraph_spec ha hb).1 i j w).mp he)
  · intro h
    obtain ⟨i, j, hi, hj⟩ := exists_slots_of_kept h
    exact ⟨i, j, hi, hj, ((widenGraph_spec ha hb).1 i j w).mpr ((keptSys_iff hi hj).mpr h)⟩

/-! ## The models of the result -/

/-- The graph between the two closure steps of the normalisation. -/
def recovered (d : SplitDbm V) : AdaptGraph :=
  applyDelta d.g (closeAfterWiden (d.g.view.subGraph 0) (pot d.potential) (d.unstable.contains ·))

theorem sharper_recovered (d : SplitDbm V) : ∀ e ∈ closeAfterWiden (d.g.view.subGraph 0)
    (pot d.potential) (d.unstable.contains ·), Sharper d.g e :=
  sharper_closeAfterWiden _ 0

theorem graph_normalize_of_stable (h : d.unstable.isEmpty = true) : d.normalize.g = d.g := by
  unfold normalize
  rw [if_pos h]

theorem graph_normalize (h : d.unstable.isEmpty = false) : d.normalize.g =
    applyDelta d.recovered (closeAfterAssign d.recovered.view (pot d.potential) 0) := by
  unfold normalize
  rw [if_neg (by simp [h])]
  rfl

theorem sat_normalize {ν : ℕ → ℤ} : d.normalize.g.Edge.Sat ν ↔ d.g.Edge.Sat ν := by
  cases h : d.unstable.isEmpty with
  | true => rw [graph_normalize_of_stable h]
  | false =>
    rw [graph_normalize h]
    exact (sat_applyDelta (sharper_closeAfterAssign 0)).trans (sat_applyDelta (sharper_recovered d))

theorem vertMap_normalize (d : SplitDbm V) : d.normalize.vertMap = d.vertMap := by
  unfold normalize
  split_ifs <;> rfl

/-- Normalisation keeps the models. -/
theorem models_normalize : d.normalize.Models σ ↔ d.Models σ := by
  constructor
  · rintro ⟨ν, hν⟩
    exact ⟨ν, hν.zero, fun v n hv => hν.agree v n (vertMap_normalize d ▸ hv), sat_normalize.mp hν.sat⟩
  · rintro ⟨ν, hν⟩
    exact ⟨ν, hν.zero, fun v n hv => hν.agree v n (vertMap_normalize d ▸ hv), sat_normalize.mpr hν.sat⟩

/-- The models of a widening are the solutions of the kept constraints. -/
theorem models_widen (ha : a.WF) (hb : b.WF) :
    (a.widen b).Models σ ↔ (kept a b).Sat (ext σ) := by
  rw [widen_eq_normalize, models_normalize, models_iff (wf_widenRaw ha b)]
  have heq : (widenRaw a b).csts = kept a b := by
    funext x y w
    exact propext (csts_widenRaw ha hb)
  rw [heq]

/-- The widening is above both operands. -/
theorem models_widen_of_models (ha : a.WF) (hb : b.WF) (h : a.Models σ ∨ b.Models σ) :
    (a.widen b).Models σ := by
  rw [models_widen ha hb]
  rintro x y w ⟨haw, w', hle, hbw⟩
  rcases h with hσ | hσ
  · exact (models_iff ha).mp hσ x y w haw
  · exact ((models_iff hb).mp hσ x y w' hbw).trans (by omega)

/-! ## The constraints of the result -/

theorem vertOf_normalize : d.normalize.vertOf x = d.vertOf x := by
  cases x with
  | none => rfl
  | some v =>
    show d.normalize.vertMap.find? v = d.vertMap.find? v
    rw [vertMap_normalize]

/-- Normalisation only sharpens edges. -/
theorem atMost_normalize {m n : ℕ} (h : AtMost m n w d.g) : AtMost m n w d.normalize.g := by
  cases hd : d.unstable.isEmpty with
  | true => rwa [graph_normalize_of_stable hd]
  | false =>
    have hrec : AtMost m n w d.recovered := h.applyDelta (sharper_recovered d)
    rw [graph_normalize hd]
    exact hrec.applyDelta (sharper_closeAfterAssign 0)

/-- Normalisation follows two edges from zero. -/
theorem atMost_normalize_bound {m n : ℕ} {w' : ℤ} (hd : d.unstable.isEmpty = false)
    (h0 : AtMost 0 m w' d.g) (hm : AtMost m n w d.g) (hn : n ≠ 0) :
    AtMost 0 n (w' + w) d.normalize.g := by
  have hrec : AtMost m n w d.recovered := hm.applyDelta (sharper_recovered d)
  have hrec0 : AtMost 0 m w' d.recovered := h0.applyDelta (sharper_recovered d)
  obtain ⟨c, hc, hlook⟩ := hrec
  obtain ⟨c', hc', hlook'⟩ := hrec0
  rw [graph_normalize hd]
  exact (atMost_closeAfterAssign hlook' hlook hn).weaken (add_le_add hc' hc)

theorem exists_csts_of_atMost {m n : ℕ} (hx : d.vertOf x = some m) (hy : d.vertOf y = some n)
    (h : AtMost m n w d.g) : ∃ w' ≤ w, d.csts x y w' :=
  let ⟨c, hc, he⟩ := h
  ⟨c, hc, m, n, hx, hy, he⟩

theorem atMost_of_csts {m n : ℕ} (hx : d.vertOf x = some m) (hy : d.vertOf y = some n)
    (h : d.csts x y w) : AtMost m n w d.g :=
  ⟨w, le_rfl, (csts_iff_edge hx hy).mp h⟩

/-- A kept constraint is a constraint of the result, perhaps a sharper one. -/
theorem exists_csts_widen_of_kept (ha : a.WF) (hb : b.WF) (h : kept a b x y w) :
    ∃ w' ≤ w, (a.widen b).csts x y w' := by
  have hraw := (csts_widenRaw ha hb).mpr h
  obtain ⟨⟨m, hm⟩, n, hn⟩ := vertOf_of_csts hraw
  rw [widen_eq_normalize]
  exact exists_csts_of_atMost (vertOf_normalize.trans hm) (vertOf_normalize.trans hn)
    (atMost_normalize (atMost_of_csts hm hn hraw))

end SplitDbm

end Prevail
