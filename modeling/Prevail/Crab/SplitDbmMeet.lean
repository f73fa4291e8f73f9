import Prevail.Crab.SplitDbmLattice
import Prevail.Crab.SplitDbmSound

/-!
# The meet of two states

The constraints of a state are a system of differences over its variables and zero (`csts`), and
the models of the state are the solutions of this system (`models_iff`). A meet that returns a
state returns exactly the solutions of both systems (`models_meet`).

A meet of two states without a common model returns none. With a common model it still returns
none when `select_potentials` runs out of rounds; `meet_exact` is the case in which the potentials
settle inside the strongly connected components.
-/

namespace Prevail

open GraphOps

/-! ## Syntactic meet -/

theorem foldl_reaches {α β : Type*} {P : β → Prop} {f : β → α → β} {l : List α} {x : α}
    (hx : x ∈ l) (hstep : ∀ b, P (f b x)) (hkeep : ∀ b, ∀ y ∈ l, P b → P (f b y)) (b : β) :
    P (l.foldl f b) := by
  induction l generalizing b with
  | nil => cases hx
  | cons y l ih =>
    rw [List.foldl_cons]
    by_cases hmem : x ∈ l
    · exact ih hmem (fun b z hz => hkeep b z (List.mem_cons_of_mem _ hz)) _
    · obtain rfl := (List.mem_cons.mp hx).resolve_right hmem
      exact List.foldlRecOn l f (hstep b) fun b hb z hz => hkeep b z (List.mem_cons_of_mem _ hz) hb

/-- An invariant of two nested loops. -/
theorem foldl_nested {α β γ : Type*} (P : β → Prop) {f : α → β → γ → β} {l : List α}
    {m : α → List γ} {b : β} (h0 : P b) (hstep : ∀ b, P b → ∀ x ∈ l, ∀ y ∈ m x, P (f x b y)) :
    P (l.foldl (fun b x => (m x).foldl (f x) b) b) :=
  List.foldlRecOn _ _ h0 fun _ hb x hx =>
    List.foldlRecOn (motive := P) _ _ hb fun b hb y hy => hstep b hb x hx y hy

namespace GraphOps

variable {l r : GraphView} {h : AdaptGraph} {s d : ℕ} {w : ℤ}

/-- Some edge from `s` to `d` is at least as strong as `w`. -/
def AtMost (s d : ℕ) (w : ℤ) (h : AdaptGraph) : Prop := ∃ w' ≤ w, h.lookup s d = some w'

theorem AtMost.addEdge {a b : ℕ} {c : ℤ} (hh : AtMost s d w h)
    (hc : a = s → b = d → c ≤ w) : AtMost s d w (h.addEdge a c b) := by
  unfold AtMost
  rw [AdaptGraph.lookup_addEdge]
  split_ifs with hab
  · exact ⟨c, hc hab.1.symm hab.2.symm, rfl⟩
  · exact hh

/-- One step of the syntactic meet. -/
def meetEdge (s : ℕ) (h : AdaptGraph) (e : ℕ × ℤ) : AdaptGraph :=
  match h.lookup s e.1 with
  | some w => if e.2 < w then h.setEdge s e.2 e.1 else h
  | none => h.addEdge s e.2 e.1

theorem meet_eq (l r : GraphView) :
    GraphOps.meet l r = r.verts.foldl (fun h s => (r.eSuccs s).foldl (meetEdge s) h) (copy l) := rfl

theorem atMost_meetEdge (s : ℕ) (e : ℕ × ℤ) (h : AdaptGraph) : AtMost s e.1 e.2 (meetEdge s h e) := by
  unfold AtMost meetEdge
  split
  · next w hw =>
    split_ifs with hlt
    · exact ⟨e.2, le_rfl, by simp [AdaptGraph.lookup_setEdge]⟩
    · exact ⟨w, not_lt.mp hlt, hw⟩
  · exact ⟨e.2, le_rfl, by simp [AdaptGraph.lookup_addEdge]⟩

theorem AtMost.meetEdge {a : ℕ} {e : ℕ × ℤ} (hh : AtMost s d w h) :
    AtMost s d w (meetEdge a h e) := by
  obtain ⟨w', hle, hw'⟩ := hh
  unfold GraphOps.meetEdge
  split
  · next c hc =>
    split_ifs with hlt
    · unfold AtMost
      rw [AdaptGraph.lookup_setEdge]
      split_ifs with hab
      · obtain ⟨rfl, rfl⟩ := hab
        obtain rfl := Option.some.inj (hc.symm.trans hw')
        exact ⟨e.2, by omega, rfl⟩
      · exact ⟨w', hle, hw'⟩
    · exact ⟨w', hle, hw'⟩
  · next hn =>
    refine AtMost.addEdge ⟨w', hle, hw'⟩ fun has hbd => ?_
    subst has hbd
    cases hn.symm.trans hw'

/-- The edges of the two operands are in the meet, perhaps with a smaller weight. -/
theorem atMost_meet_right (hs : s ∈ r.verts) (he : (d, w) ∈ r.eSuccs s) :
    AtMost s d w (GraphOps.meet l r) := by
  rw [meet_eq]
  refine foldl_reaches (P := AtMost s d w) hs (fun h => ?_) (fun h a _ hh => ?_) _
  · exact foldl_reaches (P := AtMost s d w) he (fun h => atMost_meetEdge s (d, w) h)
      (fun h e _ hh => hh.meetEdge) h
  · exact List.foldlRecOn _ _ hh fun h hh e _ => hh.meetEdge

theorem atMost_meet_left (hl : ∀ w', (d, w') ∈ l.eSuccs s → w' ≤ w) (hs : s ∈ l.verts)
    (he : (d, w) ∈ l.eSuccs s) : AtMost s d w (GraphOps.meet l r) := by
  rw [meet_eq]
  refine foldl_nested (AtMost s d w) ?_ fun h hh a _ e _ => hh.meetEdge
  unfold copy
  refine foldl_reaches (P := AtMost s d w) hs (fun h => ?_) (fun h a _ hh => ?_) _
  · refine foldl_reaches (P := AtMost s d w) he
      (fun h => ⟨w, le_rfl, by simp [AdaptGraph.lookup_addEdge]⟩) (fun h e he hh => ?_) h
    refine hh.addEdge fun _ hd => hl _ ?_
    rw [← hd]
    exact he
  · refine List.foldlRecOn _ _ hh fun h hh e he => hh.addEdge fun ha hd => hl _ ?_
    rw [← ha, ← hd]
    exact he

/-- Setting an edge with a property keeps the property of all edges. -/
theorem forall_edge_setEdge {P : ℕ → ℕ → ℤ → Prop} {a b : ℕ} {c : ℤ}
    (hh : ∀ s d w, h.Edge s d w → P s d w) (hP : P a b c) :
    ∀ s d w, (h.setEdge a c b).Edge s d w → P s d w := by
  intro s d w hw
  unfold AdaptGraph.Edge at hw
  rw [AdaptGraph.lookup_setEdge] at hw
  split_ifs at hw with hab
  · obtain ⟨rfl, rfl⟩ := hab
    obtain rfl := Option.some.inj hw
    exact hP
  · exact hh s d w hw

theorem edge_of_copy :
    ∀ s d w, (copy l).Edge s d w → s ∈ l.verts ∧ (d, w) ∈ l.eSuccs s :=
  foldl_nested (fun h : AdaptGraph => ∀ s d w, h.Edge s d w → s ∈ l.verts ∧ (d, w) ∈ l.eSuccs s)
    (fun s d w hw => by simp [AdaptGraph.Edge] at hw)
    fun h hh a ha e he => forall_edge_setEdge hh ⟨ha, he⟩

/-- The meet has no other edges. -/
theorem edge_of_meet :
    ∀ s d w, (GraphOps.meet l r).Edge s d w →
      (s ∈ l.verts ∧ (d, w) ∈ l.eSuccs s) ∨ (s ∈ r.verts ∧ (d, w) ∈ r.eSuccs s) := by
  rw [meet_eq]
  refine foldl_nested (fun h : AdaptGraph => ∀ s d w, h.Edge s d w →
    (s ∈ l.verts ∧ (d, w) ∈ l.eSuccs s) ∨ (s ∈ r.verts ∧ (d, w) ∈ r.eSuccs s))
    (fun s d w hw => Or.inl (edge_of_copy s d w hw)) fun h hh a ha e he => ?_
  unfold meetEdge
  split
  · split_ifs
    · exact forall_edge_setEdge hh (Or.inr ⟨ha, he⟩)
    · exact hh
  · exact forall_edge_setEdge hh (Or.inr ⟨ha, he⟩)

theorem shape_meet (l r : GraphView) :
    (GraphOps.meet l r).size = l.size ∧ (GraphOps.meet l r).freeId = [] := by
  have hcopy : (copy l).size = l.size ∧ (copy l).freeId = [] :=
    foldl_nested (fun h : AdaptGraph => h.size = l.size ∧ h.freeId = []) ⟨rfl, rfl⟩ fun h hh a _ e _ => hh
  rw [meet_eq]
  refine foldl_nested (fun h : AdaptGraph => h.size = l.size ∧ h.freeId = []) hcopy fun h hh a _ e _ => ?_
  unfold meetEdge
  split
  · split_ifs <;> exact hh
  · exact hh

end GraphOps

namespace SplitDbm

open DiffSys

variable {V : Type*} [LinearOrder V] {a b d : SplitDbm V} {σ : V → ℤ} {names : List V}

/-! ## The constraints of a state -/

/-- The vertex of a variable, or of zero. -/
def vertOf (d : SplitDbm V) : Option V → Option ℕ
  | none => some 0
  | some v => d.vertMap.find? v

/-- The constraints between variables and zero. -/
def csts (d : SplitDbm V) : DiffSys (Option V) := fun x y w =>
  ∃ m n, d.vertOf x = some m ∧ d.vertOf y = some n ∧ d.g.Edge m n w

/-- A valuation with zero at its value. -/
def ext (σ : V → ℤ) : Option V → ℤ
  | none => 0
  | some v => σ v

theorem vertOf_inj (hd : d.WF) {x y : Option V} {n : ℕ} (hx : d.vertOf x = some n)
    (hy : d.vertOf y = some n) : x = y := by
  cases x with
  | none =>
    cases y with
    | none => rfl
    | some v =>
      obtain rfl := Option.some.inj hx
      exact absurd (hd.vert v 0 hy).1 (lt_irrefl 0)
  | some u =>
    cases y with
    | none =>
      obtain rfl := Option.some.inj hy
      exact absurd (hd.vert u 0 hx).1 (lt_irrefl 0)
    | some v => rw [hd.inj u v n hx hy]

theorem exists_vertOf {n : ℕ} (h : d.Live (fun _ => False) n) : ∃ x, d.vertOf x = some n := by
  rcases h with rfl | ⟨v, hv⟩ | hF
  · exact ⟨none, rfl⟩
  · exact ⟨some v, hv⟩
  · exact hF.elim

theorem Val.vertOf {ν : ℕ → ℤ} (h : d.Val σ ν) {x : Option V} {n : ℕ}
    (hx : d.vertOf x = some n) : ν n = ext σ x := by
  cases x with
  | none =>
    obtain rfl := Option.some.inj hx
    exact h.zero
  | some v => exact h.agree v n hx

/-- A vertex valuation for a valuation of the variables. -/
noncomputable def vertVal (d : SplitDbm V) (σ : V → ℤ) (n : ℕ) : ℤ :=
  open Classical in if h : ∃ x, d.vertOf x = some n then ext σ h.choose else 0

theorem vertVal_of_vertOf (hd : d.WF) {x : Option V} {n : ℕ} (hx : d.vertOf x = some n) :
    d.vertVal σ n = ext σ x := by
  have h : ∃ x, d.vertOf x = some n := ⟨x, hx⟩
  rw [vertVal, dif_pos h, vertOf_inj hd h.choose_spec hx]

/-- The models of a state are the solutions of its constraints. -/
theorem models_iff (hd : d.WF) : d.Models σ ↔ d.csts.Sat (ext σ) := by
  constructor
  · rintro ⟨ν, hν⟩ x y w ⟨m, n, hm, hn, hw⟩
    rw [← hν.vertOf hm, ← hν.vertOf hn]
    exact hν.sat m n w hw
  · intro h
    refine ⟨d.vertVal σ, vertVal_of_vertOf hd (x := none) rfl,
      fun v n hv => vertVal_of_vertOf hd (x := some v) hv, fun m n w hw => ?_⟩
    obtain ⟨hm, hn⟩ := hd.ends m n w hw
    obtain ⟨x, hx⟩ := exists_vertOf hm
    obtain ⟨y, hy⟩ := exists_vertOf hn
    rw [vertVal_of_vertOf hd hx, vertVal_of_vertOf hd hy]
    exact h x y w ⟨m, n, hx, hy, hw⟩

/-! ## The common numbering -/

/-- What the new vertices stand for: zero, then the variables. -/
def slots (names : List V) : List (Option V) := none :: names.map some

theorem permOf_eq (d : SplitDbm V) (names : List V) : d.permOf names = (slots names).map d.vertOf := by
  simp [permOf, slots, vertOf, Function.comp_def]

omit [LinearOrder V] in
theorem nodup_slots (hn : names.Nodup) : (slots names).Nodup := by
  refine List.nodup_cons.mpr ⟨by simp, ?_⟩
  exact hn.map (Option.some_injective V)

theorem permAt_permOf {i m : ℕ} :
    GraphView.permAt (d.permOf names) i = some m ↔
      ∃ x, (slots names)[i]? = some x ∧ d.vertOf x = some m := by
  rw [GraphView.permAt, permOf_eq, List.getElem?_map, Option.join_eq_some_iff]
  simp [Option.map_eq_some_iff]

omit [LinearOrder V] in
theorem getD_slots {i : ℕ} {x : Option V} (f : Option V → ℤ)
    (hi : (slots names)[i]? = some x) : ((slots names).map f).getD i 0 = f x := by
  rw [List.getD_eq_getElem?_getD, List.getElem?_map, hi]
  rfl

omit [LinearOrder V] in
/-- The position of a slot is unique. -/
theorem slot_inj (hn : names.Nodup) {x : Option V} {i j : ℕ} (hi : (slots names)[i]? = some x)
    (hj : (slots names)[j]? = some x) : i = j :=
  (List.getElem?_inj (List.getElem?_eq_some_iff.mp hi).1 (nodup_slots hn)).mp (hi.trans hj.symm)

theorem permInv_permOf (hd : d.WF) (hn : names.Nodup) {j n : ℕ} :
    GraphView.permInv (d.permOf names) n = some j ↔
      ∃ y, (slots names)[j]? = some y ∧ d.vertOf y = some n := by
  rw [GraphView.permInv, List.findIdx?_eq_some_iff_getElem]
  have hget : ∀ {i} (h : i < (d.permOf names).length), (d.permOf names)[i] = some n ↔
      ∃ y, (slots names)[i]? = some y ∧ d.vertOf y = some n := by
    intro i h
    rw [← permAt_permOf, GraphView.permAt, List.getElem?_eq_getElem h, Option.join_some]
  constructor
  · rintro ⟨h, hj, -⟩
    exact (hget h).mp (by simpa using hj)
  · rintro ⟨y, hy, hyn⟩
    have hlt : j < (d.permOf names).length := by
      rw [permOf_eq, List.length_map]
      exact (List.getElem?_eq_some_iff.mp hy).1
    refine ⟨hlt, by simpa using (hget hlt).mpr ⟨y, hy, hyn⟩, fun i hi hc => ?_⟩
    obtain ⟨x, hx, hxn⟩ := (hget (hi.trans hlt)).mp (by simpa using hc)
    rw [vertOf_inj hd hxn hyn] at hx
    exact absurd (slot_inj hn hx hy) hi.ne

/-- The edges of an operand under the common numbering are its constraints on the slots. -/
theorem eSuccs_aligned_eq {i : ℕ} :
    (d.aligned names).eSuccs i = match GraphView.permAt (d.permOf names) i with
      | none => []
      | some n => (d.g.eSuccs n).filterMap fun e =>
          (GraphView.permInv (d.permOf names) e.1).map (·, e.2) := rfl

theorem mem_eSuccs_aligned (hd : d.WF) (hn : names.Nodup) {i j : ℕ} {w : ℤ} :
    (j, w) ∈ (d.aligned names).eSuccs i ↔
      ∃ x y, (slots names)[i]? = some x ∧ (slots names)[j]? = some y ∧ d.csts x y w := by
  rw [eSuccs_aligned_eq]
  constructor
  · intro h
    split at h
    · simp at h
    · next m hm =>
      obtain ⟨⟨n, w'⟩, he, hmap⟩ := List.mem_filterMap.mp h
      obtain ⟨j', hj, heq⟩ := Option.map_eq_some_iff.mp hmap
      obtain ⟨rfl, rfl⟩ := Prod.mk.inj heq
      obtain ⟨x, hx, hxm⟩ := permAt_permOf.mp hm
      obtain ⟨y, hy, hyn⟩ := (permInv_permOf hd hn).mp hj
      exact ⟨x, y, hx, hy, m, n, hxm, hyn, AdaptGraph.mem_eSuccs.mp he⟩
  · rintro ⟨x, y, hx, hy, m, n, hxm, hyn, hw⟩
    rw [permAt_permOf.mpr ⟨x, hx, hxm⟩]
    refine List.mem_filterMap.mpr ⟨(n, w), AdaptGraph.mem_eSuccs.mpr hw, ?_⟩
    rw [(permInv_permOf hd hn).mpr ⟨y, hy, hyn⟩, Option.map_some]

theorem find?_foldl_emplace {l : List (V × ℕ)} (hl : (l.map Prod.fst).Nodup) (m : OrdMap V ℕ)
    (hm : ∀ e ∈ l, m.find? e.1 = none) {v : V} {i : ℕ} :
    (l.foldl (fun m e => m.emplace e.1 e.2) m).find? v = some i ↔
      (v, i) ∈ l ∨ m.find? v = some i := by
  induction l generalizing m with
  | nil => simp
  | cons e l ih =>
    obtain ⟨he, hl⟩ := List.nodup_cons.mp hl
    have hne : m.find? e.1 = none := hm e List.mem_cons_self
    rw [List.foldl_cons, ih hl, OrdMap.find?_emplace, hne]
    · by_cases hv : v = e.1
      · subst hv
        have hnot : (e.1, i) ∉ l := fun h => he (List.mem_map.mpr ⟨_, h, rfl⟩)
        simp [hnot, hne, Prod.ext_iff, eq_comm]
      · simp [hv, Prod.ext_iff]
    · intro f hf
      rw [OrdMap.find?_emplace, if_neg, hm f (List.mem_cons_of_mem _ hf)]
      rintro heq
      exact he (List.mem_map.mpr ⟨f, hf, heq⟩)

theorem find?_alignVerts (hn : names.Nodup) {v : V} {i : ℕ} :
    (alignVerts names).find? v = some i ↔ (slots names)[i]? = some (some v) := by
  unfold alignVerts
  rw [find?_foldl_emplace (by simpa using hn) ∅ (by simp)]
  cases i with
  | zero => simp [slots, List.mem_zipIdx_iff_le_and_getElem?_sub]
  | succ i => simp [slots, List.mem_zipIdx_iff_le_and_getElem?_sub]

/-- The vertex of a slot in a state with the common numbering. -/
theorem vertOf_alignVerts (hn : names.Nodup) (hd : d.vertMap = alignVerts names) {x : Option V}
    {i : ℕ} : d.vertOf x = some i ↔ (slots names)[i]? = some x := by
  cases x with
  | none =>
    have h0 : (slots names)[0]? = some none := rfl
    constructor
    · rintro h
      obtain rfl := Option.some.inj h
      exact h0
    · intro h
      rw [slot_inj hn h h0]
      rfl
  | some v => rw [vertOf, hd, find?_alignVerts hn]

/-! ## The meet graph -/

/-- The constraints of both states. -/
def both (a b : SplitDbm V) : DiffSys (Option V) := fun x y w => a.csts x y w ∨ b.csts x y w

theorem sat_both {φ : Option V → ℤ} : (both a b).Sat φ ↔ a.csts.Sat φ ∧ b.csts.Sat φ := by
  constructor
  · intro h
    exact ⟨fun x y w hw => h x y w (Or.inl hw), fun x y w hw => h x y w (Or.inr hw)⟩
  · rintro ⟨ha, hb⟩ x y w (hw | hw)
    · exact ha x y w hw
    · exact hb x y w hw

theorem nodup_allNames (a b : SplitDbm V) : (allNames a b).Nodup := by
  refine List.Nodup.append a.vertMap.nodup_keys (b.vertMap.nodup_keys.filter _) ?_
  intro v hv hv'
  obtain ⟨n, hn⟩ := OrdMap.mem_keys.mp hv
  simp [OrdMap.contains, hn] at hv'

theorem exists_slot {x : Option V} (h : (∃ m, a.vertOf x = some m) ∨ ∃ m, b.vertOf x = some m) :
    ∃ i : ℕ, (slots (allNames a b))[i]? = some x := by
  refine List.mem_iff_getElem?.mp ?_
  cases x with
  | none => exact List.mem_cons_self
  | some v =>
    refine List.mem_cons_of_mem _ (List.mem_map_of_mem ?_)
    by_cases hv : ∃ m, a.vertMap.find? v = some m
    · exact List.mem_append_left _ (OrdMap.mem_keys.mpr hv)
    · refine List.mem_append_right _ (List.mem_filter.mpr ⟨OrdMap.mem_keys.mpr (h.resolve_left hv), ?_⟩)
      have : a.vertMap.find? v = none := Option.eq_none_iff_forall_ne_some.mpr (not_exists.mp hv)
      simp [OrdMap.contains, this]

theorem exists_slots_of_both {x y : Option V} {w : ℤ} (h : both a b x y w) :
    ∃ i j : ℕ, (slots (allNames a b))[i]? = some x ∧ (slots (allNames a b))[j]? = some y := by
  obtain ⟨m, n, hm, hn, -⟩ | ⟨m, n, hm, hn, -⟩ := h
  · obtain ⟨i, hi⟩ := exists_slot (b := b) (Or.inl ⟨m, hm⟩)
    obtain ⟨j, hj⟩ := exists_slot (b := b) (Or.inl ⟨n, hn⟩)
    exact ⟨i, j, hi, hj⟩
  · obtain ⟨i, hi⟩ := exists_slot (a := a) (Or.inr ⟨m, hm⟩)
    obtain ⟨j, hj⟩ := exists_slot (a := a) (Or.inr ⟨n, hn⟩)
    exact ⟨i, j, hi, hj⟩

theorem csts_unique {x y : Option V} {w w' : ℤ} (h : d.csts x y w) (h' : d.csts x y w') :
    w = w' := by
  obtain ⟨m, n, hm, hn, hw⟩ := h
  obtain ⟨m', n', hm', hn', hw'⟩ := h'
  obtain rfl := Option.some.inj (hm.symm.trans hm')
  obtain rfl := Option.some.inj (hn.symm.trans hn')
  exact Option.some.inj (hw.symm.trans hw')

theorem edge_meetGraph (ha : a.WF) (hb : b.WF) {i j : ℕ} {w : ℤ}
    (h : (meetGraph a b).Edge i j w) :
    ∃ x y, (slots (allNames a b))[i]? = some x ∧ (slots (allNames a b))[j]? = some y ∧
      both a b x y w := by
  have hn := nodup_allNames a b
  rcases edge_of_meet i j w h with ⟨-, he⟩ | ⟨-, he⟩
  · obtain ⟨x, y, hx, hy, hw⟩ := (mem_eSuccs_aligned ha hn).mp he
    exact ⟨x, y, hx, hy, Or.inl hw⟩
  · obtain ⟨x, y, hx, hy, hw⟩ := (mem_eSuccs_aligned hb hn).mp he
    exact ⟨x, y, hx, hy, Or.inr hw⟩

theorem atMost_meetGraph (ha : a.WF) (hb : b.WF) {i j : ℕ} {x y : Option V} {w : ℤ}
    (hi : (slots (allNames a b))[i]? = some x) (hj : (slots (allNames a b))[j]? = some y)
    (h : both a b x y w) : AtMost i j w (meetGraph a b) := by
  have hn := nodup_allNames a b
  have hverts : ∀ d : SplitDbm V, i ∈ (d.aligned (allNames a b)).verts := by
    intro d
    have hlt := (List.getElem?_eq_some_iff.mp hi).1
    simpa [aligned, GraphView.graphPerm, permOf_eq] using hlt
  rcases h with h | h
  · refine atMost_meet_left (fun w' hw' => ?_) (hverts a)
      ((mem_eSuccs_aligned ha hn).mpr ⟨x, y, hi, hj, h⟩)
    obtain ⟨x', y', hx', hy', hw'⟩ := (mem_eSuccs_aligned ha hn).mp hw'
    obtain rfl := Option.some.inj (hi.symm.trans hx')
    obtain rfl := Option.some.inj (hj.symm.trans hy')
    exact (csts_unique hw' h).le
  · exact atMost_meet_right (hverts b) ((mem_eSuccs_aligned hb hn).mpr ⟨x, y, hi, hj, h⟩)

/-- The meet graph has the constraints of both states. -/
theorem sat_meetGraph (ha : a.WF) (hb : b.WF) {ν : ℕ → ℤ} {φ : Option V → ℤ}
    (hν : ∀ i x, (slots (allNames a b))[i]? = some x → ν i = φ x) :
    (meetGraph a b).Edge.Sat ν ↔ (both a b).Sat φ := by
  constructor
  · intro h x y w hw
    obtain ⟨i, j, hi, hj⟩ := exists_slots_of_both hw
    obtain ⟨w', hle, hw'⟩ := atMost_meetGraph ha hb hi hj hw
    have := h i j w' hw'
    rw [hν i x hi, hν j y hj] at this
    omega
  · intro h i j w hw
    obtain ⟨x, y, hi, hj, hw⟩ := edge_meetGraph ha hb hw
    rw [hν i x hi, hν j y hj]
    exact h x y w hw

/-! ## The result of a meet -/

/-- The state that the meet builds with the selected potentials. -/
def meetState (a b : SplitDbm V) (pi : List ℤ) : SplitDbm V :=
  let names := allNames a b
  let g := applyDelta (meetGraph a b) (closeAfterMeet ((meetGraph a b).view.subGraph 0) (pot pi)
    (a.aligned names) (b.aligned names))
  ⟨alignVerts names, none :: names.map some,
    applyDelta g (closeAfterAssign g.view (pot pi) 0), pi, []⟩

theorem meet_of_not_top (ha : a.isTop = false) (hb : b.isTop = false) :
    a.meet b = (selectPotentials (meetGraph a b).view
      ((slots (allNames a b)).map (ext (warmStart a b)))).map (meetState a b) := by
  have hp : (slots (allNames a b)).map (ext (warmStart a b)) =
      0 :: (allNames a b).map (warmStart a b) := by
    simp [slots, ext, Function.comp_def]
  unfold meet
  rw [if_neg (by simp [ha]), if_neg (by simp [hb]), hp]
  rfl

theorem sat_meetState {pi : List ℤ} {ν : ℕ → ℤ} :
    (meetState a b pi).g.Edge.Sat ν ↔ (meetGraph a b).Edge.Sat ν := by
  unfold meetState
  simp only
  rw [sat_applyDelta (sharper_closeAfterAssign 0), sat_applyDelta sharper_closeAfterMeet]

theorem models_meetState (ha : a.WF) (hb : b.WF) (pi : List ℤ) :
    (meetState a b pi).Models σ ↔ a.Models σ ∧ b.Models σ := by
  have hn := nodup_allNames a b
  rw [models_iff ha, models_iff hb, ← sat_both]
  constructor
  · rintro ⟨ν, hν⟩
    exact (sat_meetGraph ha hb fun i x hx => hν.vertOf ((vertOf_alignVerts hn rfl).mpr hx)).mp
      (sat_meetState.mp hν.sat)
  · intro h
    refine ⟨fun i => ((slots (allNames a b))[i]?).elim 0 (ext σ), rfl, fun v i hv => ?_,
      sat_meetState.mpr ((sat_meetGraph ha hb fun i x hx => by simp [hx]).mpr h)⟩
    simp only [(find?_alignVerts hn).mp hv]
    rfl

/-- A state without edges has no constraint. -/
theorem not_csts_of_isTop (h : a.isTop = true) {x y : Option V} {w : ℤ} : ¬ a.csts x y w := by
  rintro ⟨m, n, -, -, hw⟩
  cases (AdaptGraph.isEmpty_iff.mp h m n).symm.trans hw

theorem models_of_isTop (h : a.isTop = true) (hwf : a.WF) (σ : V → ℤ) : a.Models σ := by
  rw [models_iff hwf]
  exact fun x y w hw => absurd hw (not_csts_of_isTop h)

/-- A meet that returns a state returns the models of both. -/
theorem models_meet (ha : a.WF) (hb : b.WF) (h : a.meet b = some d) :
    d.Models σ ↔ a.Models σ ∧ b.Models σ := by
  cases hta : a.isTop with
  | true =>
    unfold meet at h
    rw [if_pos hta] at h
    obtain rfl := Option.some.inj h
    exact (and_iff_right (models_of_isTop hta ha σ)).symm
  | false =>
    cases htb : b.isTop with
    | true =>
      unfold meet at h
      rw [if_neg (by simp [hta]), if_pos htb] at h
      obtain rfl := Option.some.inj h
      exact (and_iff_left (models_of_isTop htb hb σ)).symm
    | false =>
      rw [meet_of_not_top hta htb] at h
      obtain ⟨pi, -, rfl⟩ := Option.map_eq_some_iff.mp h
      exact models_meetState ha hb pi

/-! ## Feasibility -/

theorem verts_meetGraph (a b : SplitDbm V) {i : ℕ} :
    i ∈ (meetGraph a b).view.verts ↔ i < (slots (allNames a b)).length := by
  obtain ⟨hsize, hfree⟩ := shape_meet (a.aligned (allNames a b)) (b.aligned (allNames a b))
  have hlen : (meetGraph a b).size = (slots (allNames a b)).length := by
    rw [meetGraph, hsize]
    simp [aligned, GraphView.graphPerm, permOf_eq]
  have hfree' : (meetGraph a b).freeId = [] := hfree
  simp [AdaptGraph.view, AdaptGraph.verts, hlen, hfree']

theorem closed_meetGraph (ha : a.WF) (hb : b.WF) (f : Option V → ℤ) :
    Closed (meetGraph a b).view ((slots (allNames a b)).map f).length := by
  have hends : ∀ s e, e ∈ (meetGraph a b).view.eSuccs s →
      s ∈ (meetGraph a b).view.verts ∧ e.1 ∈ (meetGraph a b).view.verts := by
    intro s e he
    obtain ⟨x, y, hx, hy, -⟩ := edge_meetGraph ha hb (AdaptGraph.mem_eSuccs.mp he)
    rw [verts_meetGraph, verts_meetGraph]
    exact ⟨(List.getElem?_eq_some_iff.mp hx).1, (List.getElem?_eq_some_iff.mp hy).1⟩
  refine ⟨fun s e he => (hends s e he).1, fun s e he => (hends s e he).2, fun v hv => ?_⟩
  rw [List.length_map]
  exact (verts_meetGraph a b).mp hv

/-- Solutions of the meet graph are common models, after a shift. -/
theorem exists_models_of_sat (ha : a.WF) (hb : b.WF) {φ : ℕ → ℤ}
    (h : (meetGraph a b).Edge.Sat φ) : ∃ σ, a.Models σ ∧ b.Models σ := by
  have hn := nodup_allNames a b
  have hφ : ∀ i x, (slots (allNames a b))[i]? = some x →
      φ i - φ 0 = ext (fun v => φ (((alignVerts (allNames a b)).find? v).getD 0) - φ 0) x := by
    intro i x hx
    cases x with
    | none =>
      rw [slot_inj hn hx (j := 0) rfl]
      exact sub_self _
    | some v => simp [ext, (find?_alignVerts hn).mpr hx]
  refine ⟨fun v => φ (((alignVerts (allNames a b)).find? v).getD 0) - φ 0, ?_⟩
  rw [models_iff ha, models_iff hb, ← sat_both]
  exact (sat_meetGraph ha hb hφ).mp (h.sub_const (φ 0))

/-- The potentials settle inside the strongly connected components: the greatest potentials below
the warm start that keep the constraints inside the components keep those between them too. -/
def NoSpill (a b : SplitDbm V) : Prop :=
  ∃ ρ, IsGreatest ((both a b).within.Below (ext (warmStart a b))) ρ ∧ (both a b).Sat ρ

/-- A path between variables is a path between their vertices. -/
theorem reach_meetGraph (ha : a.WF) (hb : b.WF) {x y : Option V} {i j : ℕ}
    (hi : (slots (allNames a b))[i]? = some x) (hj : (slots (allNames a b))[j]? = some y)
    (h : (both a b).Reach x y) :
    Tarjan.Reach (fun v => ((meetGraph a b).view.eSuccs v).map Prod.fst) i j := by
  induction h generalizing j with
  | refl => rw [slot_inj (nodup_allNames a b) hi hj]
  | @tail z y _ hstep ih =>
    obtain ⟨w, hw⟩ := hstep
    obtain ⟨k, _, hk, -⟩ := exists_slots_of_both hw
    obtain ⟨w', -, hw'⟩ := atMost_meetGraph ha hb hk hj hw
    exact (ih hk).tail (List.mem_map.mpr ⟨(j, w'), AdaptGraph.mem_eSuccs.mpr hw', rfl⟩)

theorem tightIn_of_isGreatest (ha : a.WF) (hb : b.WF) {π ρ : Option V → ℤ}
    (hρ : IsGreatest ((both a b).within.Below π) ρ) (hsat : (both a b).Sat ρ) {C : List ℕ}
    (hC : C ∈ computeSccs (meetGraph a b).view) :
    TightIn (meetGraph a b).view (((slots (allNames a b)).map π).getD · 0)
      (((slots (allNames a b)).map ρ).getD · 0) C := by
  obtain ⟨hem, hcover⟩ := (closed_meetGraph ha hb π).emitted
  have hval : ∀ (f : Option V → ℤ) i x, (slots (allNames a b))[i]? = some x →
      ((slots (allNames a b)).map f).getD i 0 = f x := fun f _ _ => getD_slots f
  have hslot : ∀ i ∈ C, ∃ x, (slots (allNames a b))[i]? = some x := by
    intro i hi
    have hlt := (verts_meetGraph a b).mp ((hcover i).mpr ⟨C, hC, hi⟩)
    exact ⟨_, List.getElem?_eq_getElem hlt⟩
  intro T hTC hT hlt
  obtain ⟨t, ht⟩ := List.exists_mem_of_ne_nil T hT
  obtain ⟨z, hz⟩ := hslot t (hTC ht)
  obtain ⟨x, y, w, hx, ⟨j, hjT, hj⟩, ⟨hw, hback⟩, heq⟩ := exists_tight_of_isGreatest hρ
    (T := {x | ∃ i ∈ T, (slots (allNames a b))[i]? = some x}) ⟨z, t, ht, hz⟩ (by
      rintro x ⟨i, hi, hix⟩
      rw [← hval ρ i x hix, ← hval π i x hix]
      exact hlt i hi)
  obtain ⟨i, _, hi, -⟩ := exists_slots_of_both hw
  -- the edge of the graph is as strong as the tight constraint, and `ρ` allows nothing stronger
  obtain ⟨w', hle, hw'⟩ := atMost_meetGraph ha hb hi hj hw
  have hedge := (sat_meetGraph ha hb (hval ρ)).mpr hsat i j w' hw'
  simp only [hval ρ i x hi, hval ρ j y hj] at hedge
  have hmem : (j, w') ∈ (meetGraph a b).view.eSuccs i := AdaptGraph.mem_eSuccs.mpr hw'
  have hiC : i ∈ C := hem.mem_of_reach hC (hTC hjT) (reach_meetGraph ha hb hj hi hback)
    (.single (List.mem_map.mpr ⟨_, hmem, rfl⟩))
  refine ⟨i, hiC, fun hiT => hx ⟨i, hiT, hi⟩, (j, w'), hmem, hjT, ?_⟩
  simp only [hval ρ i x hi, hval ρ j y hj]
  omega

/-- Where the components settle, the potential that is selected satisfies the constraints. -/
theorem exists_of_noSpill (ha : a.WF) (hb : b.WF) (h : NoSpill a b) :
    ∃ pi, selectPotentials (meetGraph a b).view ((slots (allNames a b)).map (ext (warmStart a b))) = some pi ∧
      (meetGraph a b).Edge.Sat fun v => pi.getD v 0 := by
  obtain ⟨ρ, hρ, hsat⟩ := h
  have hgraph := (sat_meetGraph ha hb fun i x hx => getD_slots ρ hx).mpr hsat
  have hle : ∀ i ∈ (meetGraph a b).view.verts, ((slots (allNames a b)).map ρ).getD i 0 ≤
      ((slots (allNames a b)).map (ext (warmStart a b))).getD i 0 := fun i hi => ?_
  · have hclosed := closed_meetGraph ha hb (ext (warmStart a b))
    obtain ⟨pi, hpi, hval⟩ := selectPotentials_settles hclosed
      (fun s t w hw => hgraph s t w (edge_view.mp hw)) hle
      fun C hC => tightIn_of_isGreatest ha hb hρ hsat hC
    refine ⟨pi, hpi, fun s t w hw => ?_⟩
    have hmem : (t, w) ∈ (meetGraph a b).view.eSuccs s := edge_view.mpr hw
    simp only [hval s (hclosed.source s _ hmem), hval t (hclosed.target s _ hmem)]
    exact hgraph s t w hw
  obtain ⟨x, hx⟩ : ∃ x, (slots (allNames a b))[i]? = some x :=
    ⟨_, List.getElem?_eq_getElem ((verts_meetGraph a b).mp hi)⟩
  simp only [getD_slots _ hx]
  exact hρ.1.2 x

/-! ## The meet is exact -/

theorem meet_eq_none_of_disjoint (ha : a.WF) (hb : b.WF) (hfa : ∃ σ, a.Models σ)
    (hfb : ∃ σ, b.Models σ) (h : ¬ ∃ σ, a.Models σ ∧ b.Models σ) : a.meet b = none := by
  cases hta : a.isTop with
  | true =>
    obtain ⟨σ, hσ⟩ := hfb
    exact absurd ⟨σ, models_of_isTop hta ha σ, hσ⟩ h
  | false =>
    cases htb : b.isTop with
    | true =>
      obtain ⟨σ, hσ⟩ := hfa
      exact absurd ⟨σ, hσ, models_of_isTop htb hb σ⟩ h
    | false =>
      rw [meet_of_not_top hta htb, Option.map_eq_none_iff]
      cases hsel : selectPotentials (meetGraph a b).view
        ((slots (allNames a b)).map (ext (warmStart a b))) with
      | none => rfl
      | some pi =>
        obtain ⟨φ, hφ⟩ := feasible_of_selectPotentials (closed_meetGraph ha hb _)
          (Option.isSome_iff_exists.mpr ⟨pi, hsel⟩)
        exact absurd (exists_models_of_sat ha hb fun s t w hw => hφ s t w (edge_view.mpr hw)) h

/-- An operand has no edge, so that the meet is the other one, or the potentials of operands with a common
model settle. -/
def Settled (a b : SplitDbm V) : Prop :=
  a.isTop = true ∨ b.isTop = true ∨ ((∃ σ, a.Models σ ∧ b.Models σ) → NoSpill a b)

theorem isSome_meet_of_settled (ha : a.WF) (hb : b.WF) (h : Settled a b)
    (hex : ∃ σ, a.Models σ ∧ b.Models σ) : (a.meet b).isSome := by
  cases hta : a.isTop with
  | true => simp [meet, hta]
  | false =>
    cases htb : b.isTop with
    | true => simp [meet, hta, htb]
    | false =>
      rcases h with h | h | h
      · exact absurd (hta.symm.trans h) Bool.false_ne_true
      · exact absurd (htb.symm.trans h) Bool.false_ne_true
      · obtain ⟨pi, hpi, -⟩ := exists_of_noSpill ha hb (h hex)
        rw [meet_of_not_top hta htb, Option.isSome_map, hpi]
        rfl

/-- The potential that a settled meet selects satisfies the constraints of both operands. -/
theorem sat_of_settled (ha : a.WF) (hb : b.WF) (h : Settled a b) (hta : a.isTop = false)
    (htb : b.isTop = false) {pi : List ℤ}
    (hpi : selectPotentials (meetGraph a b).view ((slots (allNames a b)).map (ext (warmStart a b))) = some pi) :
    (meetGraph a b).Edge.Sat fun v => pi.getD v 0 := by
  rcases h with h | h | h
  · exact absurd (hta.symm.trans h) Bool.false_ne_true
  · exact absurd (htb.symm.trans h) Bool.false_ne_true
  · obtain ⟨φ, hφ⟩ := feasible_of_selectPotentials (closed_meetGraph ha hb _)
      (Option.isSome_iff_exists.mpr ⟨pi, hpi⟩)
    have hex := exists_models_of_sat ha hb fun s t w hw => hφ s t w (edge_view.mpr hw)
    obtain ⟨pi', hpi', hsat⟩ := exists_of_noSpill ha hb (h hex)
    obtain rfl := Option.some.inj (hpi'.symm.trans hpi)
    exact hsat

/-- The warm start is a common model. -/
theorem noSpill_of_models (ha : a.WF) (hb : b.WF) (h : a.Models (warmStart a b))
    (h' : b.Models (warmStart a b)) : NoSpill a b := by
  have hsat : (both a b).Sat (ext (warmStart a b)) :=
    sat_both.mpr ⟨(models_iff ha).mp h, (models_iff hb).mp h'⟩
  refine ⟨_, ⟨⟨fun x y w hw => hsat x y w hw.1, fun _ => le_rfl⟩, fun φ hφ => hφ.2⟩, hsat⟩

theorem meet_exact (ha : a.WF) (hb : b.WF) (hfa : ∃ σ, a.Models σ) (hfb : ∃ σ, b.Models σ)
    (h : Settled a b) :
    (∀ d, a.meet b = some d → ∀ σ, d.Models σ ↔ a.Models σ ∧ b.Models σ) ∧
      (a.meet b = none ↔ ¬ ∃ σ, a.Models σ ∧ b.Models σ) := by
  refine ⟨fun d hd σ => models_meet ha hb hd, fun hnone hex => ?_, fun hno => ?_⟩
  · have hsome := isSome_meet_of_settled ha hb h hex
    rw [hnone] at hsome
    cases hsome
  · exact meet_eq_none_of_disjoint ha hb hfa hfb hno

/-- Two overlapping intervals. -/
theorem meet_exact_intervals :
    (∀ d, (top.set 0 (.ofInts 0 5)).meet (top.set 0 (.ofInts (-1) 3)) = some d → ∀ σ : ℕ → ℤ,
      d.Models σ ↔ (top.set 0 (.ofInts 0 5)).Models σ ∧ (top.set 0 (.ofInts (-1) 3)).Models σ) ∧
    ((top.set 0 (.ofInts 0 5)).meet (top.set 0 (.ofInts (-1) 3)) = none ↔ ¬ ∃ σ : ℕ → ℤ,
      (top.set 0 (.ofInts 0 5)).Models σ ∧ (top.set 0 (.ofInts (-1) 3)).Models σ) := by
  have hset : ∀ (i : Interval) (σ : ℕ → ℤ), σ 0 ∈ i → (top.set 0 i).Models σ := by
    intro i σ h
    have hm := models_set wf_top (x := 0) (models_top σ) h
    rwa [Function.update_eq_self] at hm
  have hwarm : warmStart (top.set 0 (.ofInts 0 5)) (top.set 0 (.ofInts (-1) 3)) 0 = 0 := by decide
  refine meet_exact (wf_set wf_top _ _) (wf_set wf_top _ _) ⟨fun _ => 0, hset _ _ (by simp)⟩
    ⟨fun _ => 0, hset _ _ (by simp)⟩ (Or.inr (Or.inr fun _ => ?_))
  exact noSpill_of_models (wf_set wf_top _ _) (wf_set wf_top _ _)
    (hset _ _ (by simp [hwarm])) (hset _ _ (by simp [hwarm]))

/-- `x0 = x1 + 1` is not met with `x0 <= -1`: the bound lowers the potential of `x0` when the
component of `x0` and `x1` is done. -/
theorem meet_loses_model :
    ∃ a b : SplitDbm ℕ, a = top.assign 1 ((LinearExpression.var 0).plusConst (-1)) ∧
      b = top.set 0 (.ofBounds .negInf (.fin (-1))) ∧ a.WF ∧ b.WF ∧
      (∃ σ, a.Models σ ∧ b.Models σ) ∧ a.meet b = none := by
  refine ⟨_, _, rfl, rfl, wf_assign wf_top _ _, wf_set wf_top _ _, ⟨fun v => -1 - v, ?_, ?_⟩, ?_⟩
  · have h := models_assign wf_top 1 ((LinearExpression.var 0).plusConst (-1))
      (models_top fun v : ℕ => -1 - (v : ℤ))
    rwa [Function.update_eq_self_iff.mpr (by simp)] at h
  · have h := models_set wf_top (x := 0) (models_top fun v : ℕ => -1 - (v : ℤ))
      (by simp [Interval.mem_ofBounds] : (-1 : ℤ) ∈ Interval.ofBounds .negInf (.fin (-1)))
    rwa [Function.update_eq_self_iff.mpr (by simp)] at h
  · exact Option.isNone_iff_eq_none.mp (by decide)

end SplitDbm

end Prevail
