import Prevail.Crab.Potential
import Prevail.Crab.SettledPotentials
import Prevail.Crab.SplitDbmMeet

/-!
# The reachable states

Join, widening and meet build their result under a common numbering of the variables. Its edges
are implied by the edges of the left operand (join and widening) or of both (meet), seen under
that numbering (`EdgesIn` for `alignedSys`), so the result is well formed, and it has a valid
potential when it takes over that of the left operand.

`Reachable` collects the states that the operations build from the top state. All of them are well
formed. The potential may become invalid in a meet, and only there: `potent_of_reachable`.
-/

namespace Prevail

open GraphOps DiffSys

/-! ## Edges implied by a system -/

namespace GraphOps

variable {E : DiffSys ℕ} {P : ℕ → Prop} {g h : AdaptGraph} {l r : GraphView}

/-- The edges a view lists are implied by `E` and run between vertices in `P`. -/
def ViewIn (E : DiffSys ℕ) (P : ℕ → Prop) (l : GraphView) : Prop :=
  ∀ s d w, (d, w) ∈ l.eSuccs s → E.Implies s d w ∧ P s ∧ P d

theorem EdgesIn.viewIn (hg : EdgesIn E P g) : ViewIn E P g.view := fun s t w hw =>
  have he := AdaptGraph.mem_eSuccs.mp hw
  ⟨hg.implied s t w he, hg.ends s t w he⟩

theorem edgesIn_grow (n : ℕ) : EdgesIn E P (.grow n) :=
  ⟨fun s t w hw => by simp [AdaptGraph.Edge] at hw, fun s t w hw => by simp [AdaptGraph.Edge] at hw⟩

theorem EdgesIn.applyDelta {delta : EdgeVector} (hg : EdgesIn E P g)
    (hdelta : ∀ e ∈ delta, Sharper g e) : EdgesIn E P (GraphOps.applyDelta g delta) := by
  refine ⟨fun s t w hw => ?_, ends_applyDelta hdelta hg.ends⟩
  rcases lookup_applyDelta hw with he | he
  · exact hg.implied s t w he
  · intro σ hσ
    exact (hdelta _ he).implied σ (hσ.of_implies hg.implied)

theorem edgesIn_meet (hl : ViewIn E P l) (hr : ViewIn E P r) : EdgesIn E P (meet l r) := by
  have hedge : ∀ s d w, (meet l r).Edge s d w → E.Implies s d w ∧ P s ∧ P d := by
    intro s d w hw
    rcases edge_of_meet s d w hw with ⟨-, he⟩ | ⟨-, he⟩
    · exact hl s d w he
    · exact hr s d w he
  exact ⟨fun s d w hw => (hedge s d w hw).1, fun s d w hw => (hedge s d w hw).2⟩

/-- The join weakens the edges of its left operand. -/
theorem edgesIn_join (hl : ViewIn E P l) : EdgesIn E P (join l r) := by
  unfold join
  refine foldl_nested (EdgesIn E P) (edgesIn_grow _) fun h hh s _ e he => ?_
  obtain ⟨himp, hs, hd⟩ := hl s e.1 e.2 he
  split
  · exact hh.setEdge (himp.weaken (le_max_left _ _)) hs hd
  · exact hh

/-- The widening keeps some edges of its left operand. -/
theorem edgesIn_widen (hl : ViewIn E P l) (hlaw : ∀ s d w, l.lookup s d = some w → (d, w) ∈ l.eSuccs s)
    (unstable : List ℕ) : EdgesIn E P (widen l r unstable).1 := by
  unfold widen
  refine List.foldlRecOn (motive := fun acc : AdaptGraph × List ℕ => EdgesIn E P acc.1) _ _
    (edgesIn_grow _) fun acc hacc s _ => ?_
  have hvert : EdgesIn E P (widenVert l r acc.1 s) := by
    unfold widenVert
    refine List.foldlRecOn _ _ hacc fun h hh e _ => ?_
    split
    · next wl hwl =>
      obtain ⟨himp, hs, hd⟩ := hl s e.1 wl (hlaw s e.1 wl hwl)
      split_ifs
      · exact hh.setEdge himp hs hd
      · exact hh
    · exact hh
  simp only
  split_ifs <;> exact hvert

theorem size_view (g : AdaptGraph) : g.view.size = g.size := rfl

theorem shape_join (l r : GraphView) : (join l r).size = l.size ∧ (join l r).freeId = [] := by
  refine foldl_nested (fun h : AdaptGraph => h.size = l.size ∧ h.freeId = []) ⟨rfl, rfl⟩
    fun h hh s _ e _ => ?_
  split <;> exact hh

theorem shape_widen (l r : GraphView) (unstable : List ℕ) :
    (widen l r unstable).1.size = l.size ∧ (widen l r unstable).1.freeId = [] := by
  refine List.foldlRecOn (motive := fun acc : AdaptGraph × List ℕ =>
    acc.1.size = l.size ∧ acc.1.freeId = []) _ _ ⟨rfl, rfl⟩ fun acc hacc s _ => ?_
  have hvert : (widenVert l r acc.1 s).size = l.size ∧ (widenVert l r acc.1 s).freeId = [] := by
    refine List.foldlRecOn (motive := fun h : AdaptGraph => h.size = l.size ∧ h.freeId = []) _ _
      hacc fun h hh e _ => ?_
    split
    · split_ifs <;> exact hh
    · exact hh
  simp only
  split_ifs <;> exact hvert

end GraphOps

namespace SplitDbm

variable {V : Type*} [LinearOrder V] {a b d d' : SplitDbm V} {names : List V} {g h : AdaptGraph}
  {E : DiffSys ℕ} {P : ℕ → Prop}

/-! ## The common numbering -/

/-- The constraints of a state under the common numbering. -/
def alignedSys (d : SplitDbm V) (names : List V) : DiffSys ℕ := fun i j w =>
  ∃ x y, (slots names)[i]? = some x ∧ (slots names)[j]? = some y ∧ d.csts x y w

/-- The vertices of the common numbering. -/
def Slot (names : List V) (i : ℕ) : Prop := i < names.length + 1

omit [LinearOrder V] in
theorem slot_iff {i : ℕ} : Slot names i ↔ ∃ x, (slots names)[i]? = some x := by
  simp [← Option.isSome_iff_exists, Slot, slots]

omit [LinearOrder V] in
theorem slot_zero : Slot names 0 := Nat.succ_pos _

/-- A state with the common numbering, from its graph and its potential. -/
def numbered (names : List V) (g : AdaptGraph) (p : List ℤ) (u : List ℕ) : SplitDbm V :=
  ⟨alignVerts names, none :: names.map some, g, p, u⟩

/-- What is to be known of the graph of such a state. -/
structure NumberedGraph (names : List V) (g : AdaptGraph) : Prop where
  size : g.size = names.length + 1
  freeId : g.freeId = []
  ends : ∀ s t w, g.Edge s t w → Slot names s ∧ Slot names t

theorem live_numbered (hn : names.Nodup) {p : List ℤ} {u : List ℕ} {i : ℕ} :
    (numbered names g p u).Live (fun _ => False) i ↔ Slot names i := by
  rw [slot_iff]
  constructor
  · rintro (rfl | ⟨v, hv⟩ | hF)
    · exact ⟨none, rfl⟩
    · exact ⟨some v, (find?_alignVerts hn).mp hv⟩
    · exact hF.elim
  · rintro ⟨x, hx⟩
    cases x with
    | none => exact Or.inl (slot_inj hn hx rfl)
    | some v => exact Or.inr (Or.inl ⟨v, (find?_alignVerts hn).mpr hx⟩)

theorem wf_numbered (hn : names.Nodup) (hg : NumberedGraph names g) {p : List ℤ}
    (hp : p.length = names.length + 1) (u : List ℕ) : (numbered names g p u).WF where
  inj v v' n hv hv' := by
    have h := ((find?_alignVerts hn).mp hv).symm.trans ((find?_alignVerts hn).mp hv')
    exact Option.some.inj (Option.some.inj h)
  vert v n hv := by
    have hslot := (find?_alignVerts hn).mp hv
    refine ⟨Nat.pos_of_ne_zero ?_, ?_, ?_⟩
    · rintro rfl
      cases hslot
    · show n < g.size
      rw [hg.size]
      exact slot_iff.mpr ⟨_, hslot⟩
    · show n ∉ g.freeId
      rw [hg.freeId]
      exact List.not_mem_nil
  extra n hF := hF.elim
  extraFresh v n hF := hF.elim
  freeNodup := by
    show g.freeId.Nodup
    rw [hg.freeId]
    exact List.nodup_nil
  free n hmem := by
    rw [show (numbered names g p u).g.freeId = [] from hg.freeId] at hmem
    cases hmem
  ends s t w hw := by
    rw [live_numbered hn, live_numbered hn]
    exact hg.ends s t w hw
  sizePos := by
    show 0 < g.size
    rw [hg.size]
    exact Nat.succ_pos _
  revLen := by
    show (none :: names.map some : List (Option V)).length = g.size
    rw [hg.size, List.length_cons, List.length_map]
  potLen := hp.trans hg.size.symm

/-- The potential that join and widening take over from the left operand solves its constraints. -/
theorem sat_alignedSys (hd : d.WF) (hp : d.Potent) :
    (d.alignedSys names).Sat (pot (0 :: names.map d.relPot)) := by
  have hcsts := (models_iff hd).mp (hp.models hd)
  have hpot : ∀ i x, (slots names)[i]? = some x →
      pot (0 :: names.map d.relPot) i = ext d.relPot x := by
    intro i x hx
    have hlist : (0 :: names.map d.relPot : List ℤ) = (slots names).map (ext d.relPot) := by
      simp [slots, ext, Function.comp_def]
    rw [hlist]
    exact getD_slots _ hx
  rintro i j w ⟨x, y, hx, hy, hw⟩
  rw [hpot i x hx, hpot j y hy]
  exact hcsts x y w hw

theorem potent_numbered (hd : d.WF) (hp : d.Potent)
    (hg : EdgesIn (d.alignedSys names) (Slot names) g) (u : List ℕ) :
    (numbered names g (0 :: names.map d.relPot) u).Potent :=
  (sat_alignedSys hd hp).of_implies hg.implied

/-! ## The operands -/

theorem lookup_aligned_eq {i j : ℕ} : (d.aligned names).lookup i j =
    match GraphView.permAt (d.permOf names) i, GraphView.permAt (d.permOf names) j with
    | some m, some n => d.g.lookup m n
    | _, _ => none := rfl

theorem lookup_aligned {i j : ℕ} {w : ℤ} :
    (d.aligned names).lookup i j = some w ↔ d.alignedSys names i j w := by
  rw [lookup_aligned_eq]
  constructor
  · intro hw
    split at hw
    · next m n hm hn =>
      obtain ⟨x, hx, hxm⟩ := permAt_permOf.mp hm
      obtain ⟨y, hy, hyn⟩ := permAt_permOf.mp hn
      exact ⟨x, y, hx, hy, m, n, hxm, hyn, hw⟩
    · cases hw
  · rintro ⟨x, y, hx, hy, m, n, hxm, hyn, hw⟩
    rw [permAt_permOf.mpr ⟨x, hx, hxm⟩, permAt_permOf.mpr ⟨y, hy, hyn⟩]
    exact hw

theorem slots_of_alignedSys {i j : ℕ} {w : ℤ} (hw : d.alignedSys names i j w) :
    Slot names i ∧ Slot names j := by
  obtain ⟨x, y, hx, hy, -⟩ := hw
  exact ⟨slot_iff.mpr ⟨x, hx⟩, slot_iff.mpr ⟨y, hy⟩⟩

theorem viewIn_aligned (hd : d.WF) (hn : names.Nodup) :
    ViewIn (d.alignedSys names) (Slot names) (d.aligned names) := by
  intro s t w hw
  have hsys : d.alignedSys names s t w := (mem_eSuccs_aligned hd hn).mp hw
  exact ⟨.of_edge hsys, slots_of_alignedSys hsys⟩

theorem size_aligned (d : SplitDbm V) (names : List V) :
    (d.aligned names).size = names.length + 1 := by
  simp [aligned, GraphView.graphPerm, permOf]

/-! ## Join -/

theorem edgesIn_deferred :
    EdgesIn (a.alignedSys names) (Slot names) (deferred (a.aligned names) (b.aligned names)) := by
  unfold deferred
  refine foldl_nested (EdgesIn (a.alignedSys names) (Slot names)) (edgesIn_grow _)
    fun h hh s _ e _ => ?_
  split
  · next ws wd hs hd =>
    have hs' := lookup_aligned.mp hs
    have hd' := lookup_aligned.mp hd
    exact hh.setEdge ((Implies.of_edge hs').snoc hd') (slots_of_alignedSys hs').1
      (slots_of_alignedSys hd').2
  · exact hh

theorem edgesIn_withDeferred (ha : a.WF) (b : SplitDbm V) (hn : names.Nodup) (p : List ℤ) :
    EdgesIn (a.alignedSys names) (Slot names)
      (withDeferred (a.aligned names) (b.aligned names) p) := by
  unfold withDeferred
  exact (edgesIn_meet (viewIn_aligned ha hn)
    edgesIn_deferred.viewIn).applyDelta sharper_closeAfterMeet

theorem shape_withDeferred (p : List ℤ) :
    (withDeferred (a.aligned names) (b.aligned names) p).size = names.length + 1 := by
  unfold withDeferred
  rw [size_applyDelta, (shape_meet _ _).1, size_aligned]

/-- The vertices collected for the independent relations have the bound that they are collected
for. -/
theorem edge_of_mem_boundLt {bound : GraphView → ℕ → Option ℤ} {gx gy : GraphView} {v : ℕ}
    (h : v ∈ boundLt bound gx gy) : (∃ w, bound gx v = some w) ∧ ∃ w, bound gy v = some w := by
  have hcond := (List.mem_filter.mp h).2
  split at hcond
  · next wx wy hx hy => exact ⟨⟨wx, hx⟩, wy, hy⟩
  · cases hcond

theorem edgesIn_independent {ss ds : List ℕ} {gy : GraphView}
    (hss : ∀ s ∈ ss, ∃ w, (a.aligned names).lookup s 0 = some w)
    (hds : ∀ d ∈ ds, ∃ w, (a.aligned names).lookup 0 d = some w)
    (hh : EdgesIn (a.alignedSys names) (Slot names) h) :
    EdgesIn (a.alignedSys names) (Slot names) (independent (a.aligned names) gy ss ds h) := by
  unfold independent
  refine List.foldlRecOn _ _ hh fun h hh s hs => List.foldlRecOn _ _ hh fun h hh t ht => ?_
  split_ifs
  · exact hh
  · obtain ⟨ws, hws⟩ := hss s hs
    obtain ⟨wt, hwt⟩ := hds t ht
    have hs' := lookup_aligned.mp hws
    have ht' := lookup_aligned.mp hwt
    have himp := (Implies.of_edge hs').snoc ht'
    have hvals : (a.aligned names).edgeVal s 0 + (a.aligned names).edgeVal 0 t = ws + wt := by
      unfold GraphView.edgeVal
      rw [hws, hwt]
      rfl
    rw [hvals]
    exact hh.updateEdge (himp.weaken (le_max_left _ _)) (slots_of_alignedSys hs').1
      (slots_of_alignedSys ht').2

theorem shape_independent (gx gy : GraphView) (ss ds : List ℕ) (h : AdaptGraph) :
    (independent gx gy ss ds h).size = h.size ∧ (independent gx gy ss ds h).freeId = h.freeId := by
  refine List.foldlRecOn (motive := fun h' : AdaptGraph => h'.size = h.size ∧ h'.freeId = h.freeId)
    _ _ ⟨rfl, rfl⟩ fun h₁ hh₁ s _ => ?_
  refine List.foldlRecOn (motive := fun h' : AdaptGraph => h'.size = h.size ∧ h'.freeId = h.freeId)
    _ _ hh₁ fun h₂ hh₂ t _ => ?_
  split_ifs
  · exact hh₂
  · rw [AdaptGraph.size_updateEdge, AdaptGraph.freeId_updateEdge]
    exact hh₂

/-- The graph of a join before unused vertices are dropped. -/
def joinGraph (left right : SplitDbm V) : AdaptGraph :=
  let names := commonNames left right
  let gx := left.aligned names
  let gy := right.aligned names
  let g := GraphOps.join (withDeferred gx gy (0 :: names.map left.relPot)).view
    (withDeferred gy gx (0 :: names.map right.relPot)).view
  let ub := fun (h : GraphView) v => h.lookup 0 v
  let lb := fun (h : GraphView) v => h.lookup v 0
  let g := independent gx gy (boundLt lb gy gx) (boundLt ub gx gy) g
  independent gx gy (boundLt lb gx gy) (boundLt ub gy gx) g

theorem join_eq (ha : a.isTop = false) (hb : b.isTop = false) :
    a.join b = (joinGraph a b).verts.foldl collect
      (numbered (commonNames a b) (joinGraph a b) (0 :: (commonNames a b).map a.relPot) []) := by
  unfold join
  rw [if_neg (by simp [hb]), if_neg (by simp [ha])]
  rfl

theorem nodup_commonNames (a b : SplitDbm V) : (commonNames a b).Nodup :=
  a.vertMap.nodup_keys.filter _

theorem joinGraph_spec (ha : a.WF) (b : SplitDbm V) :
    EdgesIn (a.alignedSys (commonNames a b)) (Slot (commonNames a b)) (joinGraph a b) ∧
      NumberedGraph (commonNames a b) (joinGraph a b) := by
  have hn := nodup_commonNames a b
  have hjoin := edgesIn_join (r := (withDeferred (b.aligned (commonNames a b))
    (a.aligned (commonNames a b)) (0 :: (commonNames a b).map b.relPot)).view)
    (edgesIn_withDeferred ha b hn (0 :: (commonNames a b).map a.relPot)).viewIn
  have hedges : EdgesIn (a.alignedSys (commonNames a b)) (Slot (commonNames a b))
      (joinGraph a b) := by
    refine edgesIn_independent (fun s hs => ?_) (fun t ht => ?_)
      (edgesIn_independent (fun s hs => ?_) (fun t ht => ?_) hjoin)
    · exact (edge_of_mem_boundLt hs).1
    · exact (edge_of_mem_boundLt ht).2
    · exact (edge_of_mem_boundLt hs).2
    · exact (edge_of_mem_boundLt ht).1
  refine ⟨hedges, ?_, ?_, hedges.ends⟩
  · unfold joinGraph
    simp only
    rw [(shape_independent _ _ _ _ _).1, (shape_independent _ _ _ _ _).1, (shape_join _ _).1,
      size_view, shape_withDeferred]
  · unfold joinGraph
    rw [(shape_independent _ _ _ _ _).2, (shape_independent _ _ _ _ _).2, (shape_join _ _).2]

/-- A vertex that no edge touches. -/
def Unused (d : SplitDbm V) (v : ℕ) : Prop := ∀ s t w, d.g.Edge s t w → s ≠ v ∧ t ≠ v

theorem unused_iff {v : ℕ} :
    ((d.g.eSuccs v).isEmpty && (d.g.ePreds v).isEmpty) = true ↔ d.Unused v := by
  rw [Bool.and_eq_true, List.isEmpty_iff, List.isEmpty_iff]
  constructor
  · rintro ⟨hsucc, hpred⟩ s t w hw
    constructor
    · rintro rfl
      exact List.not_mem_nil (hsucc ▸ AdaptGraph.mem_eSuccs.mpr hw)
    · rintro rfl
      exact List.not_mem_nil (hpred ▸ AdaptGraph.mem_ePreds.mpr hw)
  · intro h
    constructor
    · exact List.eq_nil_iff_forall_not_mem.mpr fun e he =>
        (h v e.1 e.2 (AdaptGraph.mem_eSuccs.mp he)).1 rfl
    · exact List.eq_nil_iff_forall_not_mem.mpr fun e he =>
        (h e.1 v e.2 (AdaptGraph.mem_ePreds.mp he)).2 rfl

/-- Dropping the unused ones of the vertices `l`, all of which have variables, keeps what dropping
one unused vertex keeps. -/
theorem foldl_collect_induct {P : SplitDbm V → Prop}
    (hdrop : ∀ (d : SplitDbm V) (x : V) (v : ℕ), d.WF → d.vertMap.find? x = some v → d.Unused v →
      P d → P (d.dropVert x v))
    {l : List ℕ} (hl : l.Nodup) (hd : d.WF)
    (hrev : ∀ v ∈ l, v ≠ 0 → ∃ x, d.revMap.getD v none = some x ∧ d.vertMap.find? x = some v)
    (h : P d) : P (l.foldl collect d) := by
  induction l generalizing d with
  | nil => exact h
  | cons v l ih =>
    obtain ⟨hv, hl⟩ := List.nodup_cons.mp hl
    have hrest : ∀ u ∈ l, u ≠ 0 →
        ∃ x, d.revMap.getD u none = some x ∧ d.vertMap.find? x = some u := fun u hu =>
      hrev u (List.mem_cons_of_mem _ hu)
    rw [List.foldl_cons]
    by_cases hunused : v ≠ 0 ∧ ((d.g.eSuccs v).isEmpty && (d.g.ePreds v).isEmpty)
    · obtain ⟨x, hx, hxv⟩ := hrev v List.mem_cons_self hunused.1
      have hcollect : d.collect v = d.dropVert x v := by
        unfold collect
        rw [if_neg hunused.1, if_pos hunused.2, hx]
        rfl
      rw [hcollect]
      refine ih hl (wf_dropVert hd hxv) (fun u hu hu0 => ?_)
        (hdrop d x v hd hxv (unused_iff.mp hunused.2) h)
      obtain ⟨y, hy, hyu⟩ := hrest u hu hu0
      have huv : u ≠ v := fun heq => hv (heq ▸ hu)
      refine ⟨y, ?_, ?_⟩
      · show (d.revMap.set v none).getD u none = some y
        rw [List.getD_eq_getElem?_getD, List.getElem?_set_ne huv.symm,
          ← List.getD_eq_getElem?_getD]
        exact hy
      · show (d.vertMap.erase x).find? y = some u
        rw [OrdMap.find?_erase, if_neg, hyu]
        rintro rfl
        exact huv (Option.some.inj (hyu.symm.trans hxv))
    · have hcollect : d.collect v = d := by
        unfold collect
        split_ifs with h0 hcond
        · rfl
        · exact absurd ⟨h0, hcond⟩ hunused
        · rfl
      rw [hcollect]
      exact ih hl hd hrest h

theorem collect_spec {l : List ℕ} (hl : l.Nodup) (hd : d.WF)
    (hrev : ∀ v ∈ l, v ≠ 0 → ∃ x, d.revMap.getD v none = some x ∧ d.vertMap.find? x = some v) :
    (l.foldl collect d).WF ∧ (d.Potent → (l.foldl collect d).Potent) := by
  constructor
  · exact foldl_collect_induct (fun _ _ _ _ hxv _ hwf => wf_dropVert hwf hxv) hl hd hrev hd
  · exact fun hp => foldl_collect_induct
      (fun _ _ _ hwf hxv _ hp s t w hw => hp s t w (edge_dropVert hwf hxv hw).1) hl hd hrev hp

/-- Before the unused vertices are dropped, every vertex but zero has a variable. -/
theorem revMap_joinGraph (hgraph : NumberedGraph (commonNames a b) (joinGraph a b)) :
    ∀ v ∈ (joinGraph a b).verts, v ≠ 0 → ∃ x, (slots (commonNames a b)).getD v none = some x ∧
      (alignVerts (commonNames a b)).find? x = some v := by
  intro v hv hv0
  have hn := nodup_commonNames a b
  have hlt : v < (joinGraph a b).size := List.mem_range.mp (List.mem_filter.mp hv).1
  rw [hgraph.size] at hlt
  obtain ⟨x, hx⟩ := slot_iff.mp hlt
  cases x with
  | none => exact absurd (slot_inj hn hx rfl) hv0
  | some x =>
    refine ⟨x, ?_, (find?_alignVerts hn).mpr hx⟩
    rw [List.getD_eq_getElem?_getD, hx]
    rfl

theorem join_spec (ha : a.WF) (hb : b.WF) :
    (a.join b).WF ∧ (a.Potent → b.Potent → (a.join b).Potent) := by
  cases htb : b.isTop with
  | true =>
    have heq : a.join b = b := by
      unfold join
      rw [if_pos htb]
    rw [heq]
    exact ⟨hb, fun _ h => h⟩
  | false =>
    cases hta : a.isTop with
    | true =>
      have heq : a.join b = a := by
        unfold join
        rw [if_neg (by simp [htb]), if_pos hta]
      rw [heq]
      exact ⟨ha, fun h _ => h⟩
    | false =>
      have hn := nodup_commonNames a b
      obtain ⟨hedges, hgraph⟩ := joinGraph_spec ha b
      have hwf := wf_numbered hn hgraph
        (p := 0 :: (commonNames a b).map a.relPot) (by simp) []
      obtain ⟨hwf', hpot⟩ := collect_spec (List.nodup_range.filter _) hwf (revMap_joinGraph hgraph)
      rw [join_eq hta htb]
      exact ⟨hwf', fun hp _ => hpot (potent_numbered ha hp hedges [])⟩

/-! ## Widening and narrowing -/

theorem widen_spec (ha : a.WF) (b : SplitDbm V) :
    (a.widen b).WF ∧ (a.Potent → (a.widen b).Potent) := by
  have hn := nodup_commonNames a b
  have hedges : EdgesIn (a.alignedSys (commonNames a b)) (Slot (commonNames a b))
      (GraphOps.widen (a.aligned (commonNames a b)) (b.aligned (commonNames a b)) a.unstable).1 :=
    edgesIn_widen (viewIn_aligned ha hn)
      (fun s t w hw => (mem_eSuccs_aligned ha hn).mpr (lookup_aligned.mp hw)) _
  obtain ⟨hsize, hfree⟩ := shape_widen (a.aligned (commonNames a b)) (b.aligned (commonNames a b))
    a.unstable
  have hgraph : NumberedGraph (commonNames a b) _ :=
    ⟨hsize.trans (size_aligned _ _), hfree, hedges.ends⟩
  exact normalize_spec (wf_numbered hn hgraph (by simp) _) fun hp =>
    potent_numbered ha hp hedges _

theorem narrow_spec (ha : a.WF) (hb : b.WF) :
    (a.narrow b).WF ∧ (a.Potent → b.Potent → (a.narrow b).Potent) := by
  unfold narrow
  split_ifs
  · exact ⟨hb, fun _ h => h⟩
  · exact ⟨ha, fun h _ => h⟩

/-! ## Meet -/

/-- The potentials that the meet selects are not lowered behind its back. -/
def UndisturbedMeet (a b : SplitDbm V) : Prop :=
  a.isTop = false → b.isTop = false →
    Undisturbed (meetGraph a b).view (0 :: (allNames a b).map (warmStart a b))

theorem numbered_meetState (a b : SplitDbm V) (pi : List ℤ) :
    numbered (allNames a b) (meetState a b pi).g pi [] = meetState a b pi := by
  simp only [numbered, meetState]

theorem shape_meetState (a b : SplitDbm V) (pi : List ℤ) :
    (meetState a b pi).g.size = (meetGraph a b).size ∧
      (meetState a b pi).g.freeId = (meetGraph a b).freeId := by
  unfold meetState
  simp only
  rw [size_applyDelta, size_applyDelta, freeId_applyDelta, freeId_applyDelta]
  exact ⟨rfl, rfl⟩

theorem ends_meetState (pi : List ℤ)
    (h : ∀ s t w, (meetGraph a b).Edge s t w → P s ∧ P t) :
    ∀ s t w, (meetState a b pi).g.Edge s t w → P s ∧ P t := by
  unfold meetState
  simp only
  have hsharp : ∀ e ∈ closeAfterMeet ((meetGraph a b).view.subGraph 0) (pot pi)
      (a.aligned (allNames a b)) (b.aligned (allNames a b)), Sharper (meetGraph a b) e :=
    sharper_closeAfterMeet
  exact ends_applyDelta (sharper_closeAfterAssign 0) (ends_applyDelta hsharp h)

theorem meet_spec (ha : a.WF) (hb : b.WF) (h : a.meet b = some d) :
    d.WF ∧ (UndisturbedMeet a b ∨ Settled a b → a.Potent → b.Potent → d.Potent) := by
  cases hta : a.isTop with
  | true =>
    unfold meet at h
    rw [if_pos hta] at h
    exact Option.some.inj h ▸ ⟨hb, fun _ _ hp => hp⟩
  | false =>
    cases htb : b.isTop with
    | true =>
      unfold meet at h
      rw [if_neg (by simp [hta]), if_pos htb] at h
      exact Option.some.inj h ▸ ⟨ha, fun _ hp _ => hp⟩
    | false =>
      have hn := nodup_allNames a b
      have hclosed := closed_meetGraph ha hb (ext (warmStart a b))
      have hstart : (slots (allNames a b)).map (ext (warmStart a b)) =
          0 :: (allNames a b).map (warmStart a b) := by
        simp [slots, ext, Function.comp_def]
      rw [meet_of_not_top hta htb] at h
      obtain ⟨pi, hpi, rfl⟩ := Option.map_eq_some_iff.mp h
      have hlen := length_selectPotentials hpi
      have hends : ∀ s t w, (meetGraph a b).Edge s t w →
          Slot (allNames a b) s ∧ Slot (allNames a b) t := by
        intro s t w hw
        obtain ⟨x, y, hx, hy, -⟩ := edge_meetGraph ha hb hw
        exact ⟨slot_iff.mpr ⟨x, hx⟩, slot_iff.mpr ⟨y, hy⟩⟩
      obtain ⟨hsize, hfree⟩ := shape_meet (a.aligned (allNames a b)) (b.aligned (allNames a b))
      have hgraph : NumberedGraph (allNames a b) (meetState a b pi).g := by
        obtain ⟨hsize', hfree'⟩ := shape_meetState a b pi
        exact ⟨hsize'.trans (hsize.trans (size_aligned _ _)), hfree'.trans hfree,
          ends_meetState pi hends⟩
      have hwf := wf_numbered hn hgraph (hlen.trans (by simp [slots])) []
      rw [numbered_meetState] at hwf
      refine ⟨hwf, fun hu _ _ => ?_⟩
      rcases hu with hu | hu
      · have hsat := sat_of_selectPotentials hclosed (hstart ▸ hu hta htb) hpi
        exact sat_meetState.mpr fun s t w hw => hsat s t w (edge_view.mpr hw)
      · exact sat_meetState.mpr (sat_of_settled ha hb hu hta htb hpi)

/-! ## Reachable states -/

/-- The states that the operations build, with the condition `meets` on the operands of each
meet. -/
inductive Reachable (meets : SplitDbm V → SplitDbm V → Prop) : SplitDbm V → Prop
  | top : Reachable meets SplitDbm.top
  | assign {d : SplitDbm V} (hd : Reachable meets d) (x : V) (e : LinearExpression V) :
    Reachable meets (d.assign x e)
  | set {d : SplitDbm V} (hd : Reachable meets d) (x : V) (i : Interval)
    (hi : i.isBottom = false) : Reachable meets (d.set x i)
  | applyVar {d : SplitDbm V} (hd : Reachable meets d) (op : ArithBinOp) (x y z : V) :
    Reachable meets (d.applyVar op x y z)
  | applyNum {d : SplitDbm V} (hd : Reachable meets d) (op : ArithBinOp) (x y : V) (k : ℤ) :
    Reachable meets (d.applyNum op x y k)
  | havoc {d : SplitDbm V} (hd : Reachable meets d) (x : V) : Reachable meets (d.havoc x)
  | forget {d : SplitDbm V} (hd : Reachable meets d) (vars : List V) :
    Reachable meets (d.forget vars)
  | addConstraint {d d' : SplitDbm V} (hd : Reachable meets d) (c : LinearConstraint V)
    (h : d.addConstraint c = some d') : Reachable meets d'
  | join {a b : SplitDbm V} (ha : Reachable meets a) (hb : Reachable meets b) :
    Reachable meets (a.join b)
  | widen {a b : SplitDbm V} (ha : Reachable meets a) (hb : Reachable meets b) :
    Reachable meets (a.widen b)
  | meet {a b d : SplitDbm V} (ha : Reachable meets a) (hb : Reachable meets b)
    (hm : meets a b) (h : a.meet b = some d) : Reachable meets d
  | narrow {a b : SplitDbm V} (ha : Reachable meets a) (hb : Reachable meets b) :
    Reachable meets (a.narrow b)

variable {meets : SplitDbm V → SplitDbm V → Prop}

theorem Reachable.wf (h : Reachable meets d) : d.WF := by
  induction h with
  | top => exact wf_top
  | assign _ x e ih => exact wf_assign ih x e
  | set _ x i _ ih => exact wf_set ih x i
  | applyVar _ op x y z ih => exact (applyVar_spec op ih x y z).1
  | applyNum _ op x y k ih => exact (applyNum_spec op ih x y k).1
  | havoc _ x ih => exact wf_havoc ih x
  | forget _ vars ih => exact (forget_spec ih vars).1
  | addConstraint _ c h ih => exact (narrows_addConstraint ih c).wf _ h
  | join _ _ iha ihb => exact (join_spec iha ihb).1
  | widen _ _ iha _ => exact (widen_spec iha _).1
  | meet _ _ _ h iha ihb => exact (meet_spec iha ihb h).1
  | narrow _ _ iha ihb => exact (narrow_spec iha ihb).1

/-! ## Adding a constraint to a reachable state -/

/-- Adding a constraint, and the two queries that do it on a copy. -/
theorem addConstraint_sound (hd : Reachable (fun _ _ => True) d) (c : LinearConstraint V) :
    (UnitDisequation c → (∀ d', d.addConstraint c = some d' →
        ∀ σ, d.Models σ → c.Sat σ → d'.Models σ) ∧
      (d.addConstraint c = none → ∀ σ, d.Models σ → ¬ c.Sat σ) ∧
      (d.intersect c = false → ∀ σ, d.Models σ → ¬ c.Sat σ)) ∧
    (d.entail c = true → ∀ σ, d.Models σ → c.Sat σ) := by
  have hwf := hd.wf
  have hadd := narrows_addConstraint hwf c
  refine ⟨fun hc => ⟨fun d' hd' σ hσ hsat => ?_, fun hnone σ hσ hsat => ?_, fun hint σ hσ => ?_⟩,
    fun hent σ hσ => ?_⟩
  · exact hadd.models d' hd' σ hσ ⟨hc, hsat⟩
  · exact hadd.empty hnone σ hσ ⟨hc, hsat⟩
  · exact not_sat_of_intersect hwf hc hint hσ
  · exact sat_of_entail hwf hent hσ

/-- The bounds `x0 ∈ [0, 5]` entail `2 * x0 <= 10`. -/
theorem addConstraint_sound_bounds :
    (top.set 0 (.ofInts 0 5)).entail ((LinearExpression.term 2 (0 : ℕ)).le (.const 10)) = true ∧
      ∀ σ : ℕ → ℤ, (top.set 0 (.ofInts 0 5)).Models σ →
        ((LinearExpression.term 2 0).le (.const 10)).Sat σ := by
  have hentail : (top.set 0 (.ofInts 0 5)).entail
      ((LinearExpression.term 2 (0 : ℕ)).le (.const 10)) = true := by decide
  exact ⟨hentail, (addConstraint_sound (.set .top 0 (.ofInts 0 5) (by decide)) _).2 hentail⟩

/-! ## The potential of a reachable state -/

theorem Reachable.potent (h : Reachable meets d)
    (hmeets : ∀ a b, meets a b → UndisturbedMeet a b ∨ Settled a b) : d.Potent := by
  induction h with
  | top => exact potent_top
  | assign hd x e ih => exact potent_assign hd.wf ih x e
  | set hd x i hi ih => exact potent_set hd.wf ih x hi
  | applyVar hd op x y z ih => exact (applyVar_spec op hd.wf x y z).2 ih
  | applyNum hd op x y k ih => exact (applyNum_spec op hd.wf x y k).2 ih
  | havoc hd x ih => exact potent_havoc hd.wf x ih
  | forget hd vars ih => exact (forget_spec hd.wf vars).2 ih
  | addConstraint hd c h ih => exact (narrows_addConstraint hd.wf c).potent _ h ih
  | join ha hb iha ihb => exact (join_spec ha.wf hb.wf).2 iha ihb
  | widen ha _ iha _ => exact (widen_spec ha.wf _).2 iha
  | meet ha hb hm h iha ihb => exact (meet_spec ha.wf hb.wf h).2 (hmeets _ _ hm) iha ihb
  | narrow ha hb iha ihb => exact (narrow_spec ha.wf hb.wf).2 iha ihb

/-- In a run whose meets settle the potential is valid and covers all vertices. -/
theorem potential_valid (h : Reachable Settled d) :
    d.potential.length = d.g.size ∧
      ∀ s t w, d.g.Edge s t w → 0 ≤ pot d.potential s + w - pot d.potential t := by
  refine ⟨h.wf.potLen, fun s t w hw => ?_⟩
  have hle : pot d.potential t ≤ pot d.potential s + w := h.potent (fun _ _ => Or.inr) s t w hw
  omega

theorem potential_valid_assign :
    let d := (top.set 0 (.ofInts 0 5)).assign 1 ((LinearExpression.var (0 : ℕ)).plusConst 1)
    d.potential.length = d.g.size ∧
      ∀ s t w, d.g.Edge s t w → 0 ≤ pot d.potential s + w - pot d.potential t :=
  potential_valid (.assign (.set .top 0 (.ofInts 0 5) (by decide)) 1 _)

/-- `x1 - x0 <= 5`, met with `x0 - x2 <= -3` and `x0 - x3 <= -10`: the vertex of `x0` is left in
the queue of `x2`, and lowering it once more for `x3` leaves the edge to `x1` behind. -/
theorem meet_breaks_potential :
    ∃ d : SplitDbm ℕ, Reachable (fun _ _ => True) d ∧
      ∃ s t w, d.g.Edge s t w ∧ pot d.potential s + w - pot d.potential t < 0 := by
  let diff (x y : ℕ) (k : ℤ) : LinearConstraint ℕ :=
    ((LinearExpression.var x).subtract (.var y)).le (.const k)
  let a := (addConstraint top (diff 1 0 5)).get (by decide)
  let b₁ := (addConstraint top (diff 0 2 (-3))).get (by decide)
  let b := (b₁.addConstraint (diff 0 3 (-10))).get (by decide)
  have ha : Reachable (fun _ _ => True) a := .addConstraint .top (diff 1 0 5) (Option.some_get _).symm
  have hb₁ : Reachable (fun _ _ => True) b₁ :=
    .addConstraint .top (diff 0 2 (-3)) (Option.some_get _).symm
  have hb : Reachable (fun _ _ => True) b :=
    .addConstraint hb₁ (diff 0 3 (-10)) (Option.some_get _).symm
  refine ⟨(a.meet b).get (by decide), .meet ha hb trivial (Option.some_get _).symm, 1, 2, 5, ?_, ?_⟩
  · show AdaptGraph.lookup _ 1 2 = some 5
    decide
  · decide

end SplitDbm

end Prevail
