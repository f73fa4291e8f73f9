import Prevail.Crab.GraphClosure
import Prevail.Crab.SplitDbm

/-!
# Soundness of the difference-bound operations

A valuation `σ` of the variables is a model of a state when some valuation of the vertices agrees
with it and satisfies all edges. `WF` is the invariant of the representation: distinct variables
have distinct vertices, free vertices are not in use, and edges only join vertices in use.

The transfer functions keep `WF` and do not lose models. While an assignment is under way one
vertex is in use that belongs to no variable yet; `WFWith` allows for such vertices.
-/

namespace Prevail

open GraphOps DiffSys

namespace SplitDbm

variable {V : Type*} [LinearOrder V]

/-! ## Models and well-formedness -/

/-- The vertex valuation `ν` agrees with `σ` and satisfies all edges. -/
structure Val (d : SplitDbm V) (σ : V → ℤ) (ν : ℕ → ℤ) : Prop where
  zero : ν 0 = 0
  agree : ∀ v n, d.vertMap.find? v = some n → ν n = σ v
  sat : d.g.Edge.Sat ν

/-- The valuations a state describes. -/
def Models (d : SplitDbm V) (σ : V → ℤ) : Prop := ∃ ν, d.Val σ ν

/-- A vertex that edges may touch: zero, the vertex of a variable, or one of the vertices in `P`
that belong to no variable. -/
def Live (d : SplitDbm V) (P : ℕ → Prop) (n : ℕ) : Prop :=
  n = 0 ∨ (∃ v, d.vertMap.find? v = some n) ∨ P n

/-- The representation invariant, with the vertices in `P` in use beside those of variables. -/
structure WFWith (P : ℕ → Prop) (d : SplitDbm V) : Prop where
  inj : ∀ v v' n, d.vertMap.find? v = some n → d.vertMap.find? v' = some n → v = v'
  vert : ∀ v n, d.vertMap.find? v = some n → 0 < n ∧ n < d.g.size ∧ n ∉ d.g.freeId
  extra : ∀ n, P n → 0 < n ∧ n < d.g.size ∧ n ∉ d.g.freeId
  extraFresh : ∀ v n, P n → d.vertMap.find? v ≠ some n
  freeNodup : d.g.freeId.Nodup
  free : ∀ n ∈ d.g.freeId, 0 < n ∧ n < d.g.size
  ends : ∀ s t w, d.g.Edge s t w → d.Live P s ∧ d.Live P t
  sizePos : 0 < d.g.size
  revLen : d.revMap.length = d.g.size
  potLen : d.potential.length = d.g.size

/-- The representation invariant. -/
abbrev WF (d : SplitDbm V) : Prop := d.WFWith fun _ => False

variable {d : SplitDbm V} {P : ℕ → Prop} {σ : V → ℤ} {ν : ℕ → ℤ}

theorem wf_top : (top : SplitDbm V).WF where
  inj := by simp [top]
  vert := by simp [top]
  extra := by simp
  extraFresh := by simp
  freeNodup := by simp [top, AdaptGraph.grow]
  free := by simp [top, AdaptGraph.grow]
  ends := by simp [top, AdaptGraph.Edge]
  sizePos := by simp [top, AdaptGraph.grow]
  revLen := rfl
  potLen := rfl

theorem models_top (σ : V → ℤ) : (top : SplitDbm V).Models σ :=
  ⟨fun _ => 0, rfl, by simp [top], by simp [top, Sat, AdaptGraph.Edge]⟩

theorem WFWith.live_lt (h : d.WFWith P) {n : ℕ} (hn : d.Live P n) : n < d.g.size := by
  rcases hn with rfl | ⟨v, hv⟩ | hP
  · exact h.sizePos
  · exact (h.vert v n hv).2.1
  · exact (h.extra n hP).2.1

theorem WFWith.live_not_free (h : d.WFWith P) {n : ℕ} (hn : d.Live P n) : n ∉ d.g.freeId := by
  rcases hn with rfl | ⟨v, hv⟩ | hP
  · exact fun h0 => absurd (h.free 0 h0).1 (lt_irrefl 0)
  · exact (h.vert v n hv).2.2
  · exact (h.extra n hP).2.2

/-! ## Changing only the edges -/

/-- `d'` has the same vertices as `d`, and edges that `d` implies. -/
structure Entails (P : ℕ → Prop) (d d' : SplitDbm V) : Prop where
  vertMap : d'.vertMap = d.vertMap
  revMap : d'.revMap.length = d.revMap.length
  size : d'.g.size = d.g.size
  freeId : d'.g.freeId = d.g.freeId
  potLen : d'.potential.length = d.potential.length
  edges : EdgesIn d.g.Edge (d.Live P) d'.g

theorem Entails.refl (h : d.WFWith P) : Entails P d d :=
  ⟨rfl, rfl, rfl, rfl, rfl, fun _ _ _ hw => .of_edge hw, h.ends⟩

theorem Entails.live {d' : SplitDbm V} (h : Entails P d d') {n : ℕ} :
    d'.Live P n ↔ d.Live P n := by
  unfold Live
  rw [h.vertMap]

theorem Entails.wf {d' : SplitDbm V} (h : Entails P d d') (hd : d.WFWith P) : d'.WFWith P where
  inj := h.vertMap ▸ hd.inj
  vert v n hv := by
    rw [h.vertMap] at hv
    rw [h.size, h.freeId]
    exact hd.vert v n hv
  extra n hP := by
    rw [h.size, h.freeId]
    exact hd.extra n hP
  extraFresh := h.vertMap ▸ hd.extraFresh
  freeNodup := h.freeId ▸ hd.freeNodup
  free n hn := by
    rw [h.freeId] at hn
    rw [h.size]
    exact hd.free n hn
  ends s t w hw := by
    rw [h.live, h.live]
    exact h.edges.ends s t w hw
  sizePos := h.size ▸ hd.sizePos
  revLen := by rw [h.revMap, h.size, hd.revLen]
  potLen := by rw [h.potLen, h.size, hd.potLen]

theorem Entails.val {d' : SplitDbm V} (h : Entails P d d') (hv : d.Val σ ν) : d'.Val σ ν where
  zero := hv.zero
  agree v n hn := hv.agree v n (h.vertMap ▸ hn)
  sat := hv.sat.of_implies h.edges.implied

theorem entails_of_sharper {delta : EdgeVector} (hd : d.WFWith P)
    (h : ∀ e ∈ delta, Sharper d.g e) (u : List ℕ) :
    Entails P d { d with g := applyDelta d.g delta, unstable := u } where
  vertMap := rfl
  revMap := rfl
  size := size_applyDelta
  freeId := freeId_applyDelta
  potLen := rfl
  edges := ⟨fun _ _ _ hw =>
      (lookup_applyDelta hw).elim (fun he => .of_edge (E := d.g.Edge) he) fun hm => (h _ hm).implied,
    ends_applyDelta h hd.ends⟩

theorem Entails.trans {d₁ d₂ : SplitDbm V} (h₁ : Entails P d d₁) (h₂ : Entails P d₁ d₂) :
    Entails P d d₂ where
  vertMap := h₂.vertMap.trans h₁.vertMap
  revMap := h₂.revMap.trans h₁.revMap
  size := h₂.size.trans h₁.size
  freeId := h₂.freeId.trans h₁.freeId
  potLen := h₂.potLen.trans h₁.potLen
  edges := by
    refine ⟨fun s t w hw σ hσ => ?_, fun s t w hw => ?_⟩
    · exact h₂.edges.implied s t w hw σ (hσ.of_implies h₁.edges.implied)
    · rw [← h₁.live, ← h₁.live]
      exact h₂.edges.ends s t w hw

theorem entails_normalize (hd : d.WFWith P) : Entails P d d.normalize := by
  unfold normalize
  split_ifs
  · exact .refl hd
  · have h₁ := entails_of_sharper hd (sharper_closeAfterWiden (g := d.g)
      (p := pot d.potential) (d.unstable.contains ·) 0) d.unstable
    exact h₁.trans (entails_of_sharper (h₁.wf hd) (sharper_closeAfterAssign 0) [])

theorem entails_closeAssign (hd : d.WFWith P) (p : ℕ → ℤ) (v : ℕ) :
    Entails P d { d with g := applyDelta d.g (closeAfterAssign d.g.view p v) } :=
  entails_of_sharper hd (sharper_closeAfterAssign v) d.unstable

/-! ## Dropping a vertex -/

/-- The state after the vertex `y` of `v` is dropped, before normalisation. -/
def dropVert (d : SplitDbm V) (v : V) (y : ℕ) : SplitDbm V :=
  { d with g := d.g.forget y, revMap := d.revMap.set y none, vertMap := d.vertMap.erase v }

theorem find?_dropVert {v u : V} {y n : ℕ} (h : (d.dropVert v y).vertMap.find? u = some n) :
    u ≠ v ∧ d.vertMap.find? u = some n := by
  simp only [dropVert, OrdMap.find?_erase] at h
  split_ifs at h with huv
  exact ⟨huv, h⟩

theorem edge_dropVert (hd : d.WFWith P) {v : V} {y s t : ℕ} {w : ℤ}
    (hy : d.vertMap.find? v = some y) (h : (d.dropVert v y).g.Edge s t w) :
    d.g.Edge s t w ∧ s ≠ y ∧ t ≠ y := by
  unfold AdaptGraph.Edge dropVert at h
  simp only at h
  rw [AdaptGraph.lookup_forget_of_not_free (hd.vert v y hy).2.2] at h
  split_ifs at h with hst
  exact ⟨h, hst⟩

theorem wf_dropVert (hd : d.WFWith P) {v : V} {y : ℕ} (hy : d.vertMap.find? v = some y) :
    (d.dropVert v y).WFWith P := by
  obtain ⟨hy0, hylt, hyfree⟩ := hd.vert v y hy
  have hfree : (d.dropVert v y).g.freeId = y :: d.g.freeId := by
    simp [dropVert, AdaptGraph.forget, hyfree]
  have hsize : (d.dropVert v y).g.size = d.g.size := by
    simp [dropVert, AdaptGraph.forget, hyfree]
  have hne : ∀ u n, (d.dropVert v y).vertMap.find? u = some n → n ≠ y := by
    rintro u n hu rfl
    obtain ⟨huv, hu⟩ := find?_dropVert hu
    exact huv (hd.inj u v n hu hy)
  have hlive : ∀ n, n ≠ y → d.Live P n → (d.dropVert v y).Live P n := by
    rintro n hny (h0 | ⟨u, hu⟩ | hP)
    · exact Or.inl h0
    · refine Or.inr (Or.inl ⟨u, ?_⟩)
      simp only [dropVert, OrdMap.find?_erase]
      rw [if_neg, hu]
      rintro rfl
      exact hny (Option.some.inj (hu.symm.trans hy))
    · exact Or.inr (Or.inr hP)
  refine ⟨fun u u' n hu hu' => ?_, fun u n hu => ?_, fun n hP => ?_, fun u n hP hu => ?_, ?_,
    fun n hn => ?_, fun s t w hw => ?_, hsize ▸ hd.sizePos, ?_, hsize ▸ hd.potLen⟩
  · exact hd.inj u u' n (find?_dropVert hu).2 (find?_dropVert hu').2
  · have h := hd.vert u n (find?_dropVert hu).2
    rw [hsize, hfree, List.mem_cons, not_or]
    exact ⟨h.1, h.2.1, hne u n hu, h.2.2⟩
  · have h := hd.extra n hP
    rw [hsize, hfree, List.mem_cons, not_or]
    refine ⟨h.1, h.2.1, ?_, h.2.2⟩
    rintro rfl
    exact hd.extraFresh v n hP hy
  · exact hd.extraFresh u n hP (find?_dropVert hu).2
  · rw [hfree]
    exact List.nodup_cons.mpr ⟨hyfree, hd.freeNodup⟩
  · rw [hsize]
    rw [hfree, List.mem_cons] at hn
    rcases hn with rfl | hn
    · exact ⟨hy0, hylt⟩
    · exact hd.free n hn
  · obtain ⟨hw, hs, ht⟩ := edge_dropVert hd hy hw
    obtain ⟨hls, hlt⟩ := hd.ends s t w hw
    exact ⟨hlive s hs hls, hlive t ht hlt⟩
  · rw [hsize, ← hd.revLen]
    exact List.length_set

theorem val_dropVert (hd : d.WFWith P) {v : V} {y : ℕ} (hy : d.vertMap.find? v = some y)
    (h : d.Val σ ν) (x : ℤ) : (d.dropVert v y).Val (Function.update σ v x) ν where
  zero := h.zero
  agree u n hu := by
    obtain ⟨huv, hu⟩ := find?_dropVert hu
    rw [Function.update_of_ne huv]
    exact h.agree u n hu
  sat s t w hw := h.sat s t w (edge_dropVert hd hy hw).1

theorem havoc_of_some {v : V} {y : ℕ} (hy : d.vertMap.find? v = some y) :
    d.havoc v = (d.dropVert v y).normalize := by
  unfold havoc dropVert
  rw [hy]

theorem havoc_of_none {v : V} (hv : d.vertMap.find? v = none) : d.havoc v = d := by
  unfold havoc
  rw [hv]

theorem wf_havoc (hd : d.WFWith P) (v : V) : (d.havoc v).WFWith P := by
  cases hy : d.vertMap.find? v with
  | none => rwa [havoc_of_none hy]
  | some y =>
    rw [havoc_of_some hy]
    have h := wf_dropVert hd hy
    exact (entails_normalize h).wf h

theorem val_havoc (hd : d.WFWith P) (v : V) (h : d.Val σ ν) (x : ℤ) :
    (d.havoc v).Val (Function.update σ v x) ν := by
  cases hy : d.vertMap.find? v with
  | none =>
    rw [havoc_of_none hy]
    refine ⟨h.zero, fun u n hu => ?_, h.sat⟩
    rw [Function.update_of_ne]
    · exact h.agree u n hu
    · rintro rfl
      simp [hy] at hu
  | some y =>
    rw [havoc_of_some hy]
    exact (entails_normalize (wf_dropVert hd hy)).val (val_dropVert hd hy h x)

theorem find?_havoc (hd : d.WFWith P) (v u : V) :
    (d.havoc v).vertMap.find? u = if u = v then none else d.vertMap.find? u := by
  cases hy : d.vertMap.find? v with
  | none =>
    rw [havoc_of_none hy]
    split_ifs with huv
    · rw [huv, hy]
    · rfl
  | some y =>
    rw [havoc_of_some hy, (entails_normalize (wf_dropVert hd hy)).vertMap]
    exact OrdMap.find?_erase _ _ _

/-- Forgetting a variable admits every value for it. -/
theorem models_havoc (hd : d.WF) (v : V) (h : d.Models σ) (x : ℤ) :
    (d.havoc v).Models (Function.update σ v x) :=
  let ⟨ν, hν⟩ := h
  ⟨ν, val_havoc hd v hν x⟩

/-! ## New vertices -/

/-- The vertex `n` was not in use, and `g` is the graph of `d` with it allocated. -/
structure Fresh (P : ℕ → Prop) (d : SplitDbm V) (n : ℕ) (g : AdaptGraph) : Prop where
  pos : 0 < n
  size : g.size = d.g.size ∧ n < d.g.size ∨ g.size = d.g.size + 1 ∧ n = d.g.size
  notFree : n ∉ g.freeId
  notLive : ¬ d.Live P n
  edges : g.edges = d.g.edges
  nodup : g.freeId.Nodup
  free : ∀ m ∈ g.freeId, m ∈ d.g.freeId

theorem fresh_newVertex (hd : d.WFWith P) : Fresh P d d.g.newVertex.1 d.g.newVertex.2 := by
  unfold AdaptGraph.newVertex
  split
  · next v free hfree =>
    have hmem : v ∈ d.g.freeId := hfree ▸ List.mem_cons_self
    have hnd := hd.freeNodup
    rw [hfree, List.nodup_cons] at hnd
    have hv := hd.free v hmem
    exact ⟨hv.1, Or.inl ⟨rfl, hv.2⟩, hnd.1, fun hl => hd.live_not_free hl hmem, rfl, hnd.2,
      fun m hm => hfree ▸ List.mem_cons_of_mem _ hm⟩
  · next hfree =>
    exact ⟨hd.sizePos, Or.inr ⟨rfl, rfl⟩, by simp [hfree],
      fun hl => absurd (hd.live_lt hl) (lt_irrefl _), rfl, by simp [hfree], fun m hm => hm⟩

namespace Fresh

variable {n : ℕ} {g : AdaptGraph}

theorem lt (h : Fresh P d n g) : n < g.size := by
  rcases h.size with h | h <;> omega

theorem size_le (h : Fresh P d n g) : d.g.size ≤ g.size := by
  rcases h.size with h | h <;> omega

theorem ne_of_live (h : Fresh P d n g) {m : ℕ} (hm : d.Live P m) : m ≠ n := by
  rintro rfl
  exact h.notLive hm

/-- The two vectors that follow the vertices keep their length. -/
theorem length_setVert (h : Fresh P d n g) (hd : d.WFWith P) (m : OrdMap V ℕ) (v : V) (p : ℤ) :
    (setVert { d with g := g, vertMap := m } n v p).revMap.length = g.size ∧
      (setVert { d with g := g, vertMap := m } n v p).potential.length = g.size := by
  have hr := hd.revLen
  have hp := hd.potLen
  unfold setVert
  simp only
  rcases h.size with hs | hs
  · rw [if_pos (by omega)]
    simp only [List.length_set]
    omega
  · rw [if_neg (by omega)]
    simp only [List.length_append, List.length_singleton]
    omega

@[simp] theorem setVert_g (d : SplitDbm V) (n : ℕ) (v : V) (p : ℤ) :
    (d.setVert n v p).g = d.g := by
  unfold setVert
  split_ifs <;> rfl

@[simp] theorem setVert_vertMap (d : SplitDbm V) (n : ℕ) (v : V) (p : ℤ) :
    (d.setVert n v p).vertMap = d.vertMap := by
  unfold setVert
  split_ifs <;> rfl

theorem edge_iff (h : Fresh P d n g) {s t : ℕ} {w : ℤ} : g.Edge s t w ↔ d.g.Edge s t w := by
  unfold AdaptGraph.Edge AdaptGraph.lookup
  rw [h.edges]

/-- The new vertex given to the variable `v`, which had none. -/
theorem wf_emplace (h : Fresh P d n g) (hd : d.WFWith P) {v : V}
    (hv : d.vertMap.find? v = none) (p : ℤ) :
    (setVert { d with g := g, vertMap := d.vertMap.emplace v n } n v p).WFWith P := by
  have hfind : ∀ u m, (d.vertMap.emplace v n).find? u = some m →
      u = v ∧ m = n ∨ d.vertMap.find? u = some m := by
    intro u m hu
    rw [OrdMap.find?_emplace, hv] at hu
    split_ifs at hu with huv
    · exact Or.inl ⟨huv, (Option.some.inj hu).symm⟩
    · exact Or.inr hu
  have hlive : ∀ m, d.Live P m →
      (setVert { d with g := g, vertMap := d.vertMap.emplace v n } n v p).Live P m := by
    rintro m (h0 | ⟨u, hu⟩ | hP)
    · exact Or.inl h0
    · refine Or.inr (Or.inl ⟨u, ?_⟩)
      rw [setVert_vertMap, OrdMap.find?_emplace, if_neg, hu]
      rintro rfl
      simp [hv] at hu
    · exact Or.inr (Or.inr hP)
  obtain ⟨hrev, hpot⟩ := h.length_setVert hd (d.vertMap.emplace v n) v p
  refine ⟨?_, ?_, ?_, ?_, ?_, ?_, ?_, ?_, ?_, ?_⟩ <;> simp only [setVert_g, setVert_vertMap]
  · intro u u' m hu hu'
    rcases hfind u m hu with ⟨huv, hmn⟩ | hu <;> rcases hfind u' m hu' with ⟨huv', hmn'⟩ | hu'
    · exact huv.trans huv'.symm
    · exact absurd hmn (h.ne_of_live (Or.inr (Or.inl ⟨u', hu'⟩)))
    · exact absurd hmn' (h.ne_of_live (Or.inr (Or.inl ⟨u, hu⟩)))
    · exact hd.inj u u' m hu hu'
  · intro u m hu
    rcases hfind u m hu with ⟨rfl, rfl⟩ | hu
    · exact ⟨h.pos, h.lt, h.notFree⟩
    · obtain ⟨h1, h2, h3⟩ := hd.vert u m hu
      exact ⟨h1, h2.trans_le h.size_le, fun hm => h3 (h.free m hm)⟩
  · intro m hP
    obtain ⟨h1, h2, h3⟩ := hd.extra m hP
    exact ⟨h1, h2.trans_le h.size_le, fun hm => h3 (h.free m hm)⟩
  · intro u m hP hu
    rcases hfind u m hu with ⟨-, rfl⟩ | hu
    · exact h.notLive (Or.inr (Or.inr hP))
    · exact hd.extraFresh u m hP hu
  · exact h.nodup
  · exact fun m hm => ⟨(hd.free m (h.free m hm)).1,
      (hd.free m (h.free m hm)).2.trans_le h.size_le⟩
  · intro s t w hw
    obtain ⟨hs, ht⟩ := hd.ends s t w (h.edge_iff.mp hw)
    exact ⟨hlive s hs, hlive t ht⟩
  · exact hd.sizePos.trans_le h.size_le
  · exact hrev
  · exact hpot

/-- The new vertex in use without a variable. -/
theorem wf_extra (h : Fresh P d n g) (hd : d.WFWith P) (v : V) (p : ℤ) :
    (setVert { d with g := g } n v p).WFWith fun m => P m ∨ m = n := by
  have hlive : ∀ m, d.Live P m →
      (setVert { d with g := g } n v p).Live (fun m => P m ∨ m = n) m := by
    rintro m (h0 | ⟨u, hu⟩ | hP)
    · exact Or.inl h0
    · exact Or.inr (Or.inl ⟨u, by rwa [setVert_vertMap]⟩)
    · exact Or.inr (Or.inr (Or.inl hP))
  obtain ⟨hrev, hpot⟩ := h.length_setVert hd d.vertMap v p
  refine ⟨?_, ?_, ?_, ?_, ?_, ?_, ?_, ?_, ?_, ?_⟩ <;> simp only [setVert_g, setVert_vertMap]
  · exact hd.inj
  · intro u m hu
    obtain ⟨h1, h2, h3⟩ := hd.vert u m hu
    exact ⟨h1, h2.trans_le h.size_le, fun hm => h3 (h.free m hm)⟩
  · rintro m (hP | rfl)
    · obtain ⟨h1, h2, h3⟩ := hd.extra m hP
      exact ⟨h1, h2.trans_le h.size_le, fun hm => h3 (h.free m hm)⟩
    · exact ⟨h.pos, h.lt, h.notFree⟩
  · rintro u m (hP | rfl) hu
    · exact hd.extraFresh u m hP hu
    · exact h.notLive (Or.inr (Or.inl ⟨u, hu⟩))
  · exact h.nodup
  · exact fun m hm => ⟨(hd.free m (h.free m hm)).1,
      (hd.free m (h.free m hm)).2.trans_le h.size_le⟩
  · intro s t w hw
    obtain ⟨hs, ht⟩ := hd.ends s t w (h.edge_iff.mp hw)
    exact ⟨hlive s hs, hlive t ht⟩
  · exact hd.sizePos.trans_le h.size_le
  · exact hrev
  · exact hpot

/-- The value of the new vertex is free. -/
theorem sat_update (h : Fresh P d n g) (hd : d.WFWith P) (hν : d.g.Edge.Sat ν) (x : ℤ) :
    g.Edge.Sat (Function.update ν n x) := by
  intro s t w hw
  rw [h.edge_iff] at hw
  obtain ⟨hs, ht⟩ := hd.ends s t w hw
  rw [Function.update_of_ne (h.ne_of_live hs), Function.update_of_ne (h.ne_of_live ht)]
  exact hν s t w hw

end Fresh

/-- What `get_vert` does: nothing when the variable has a vertex; else it gives it a new one. -/
structure GetVert (P : ℕ → Prop) (d : SplitDbm V) (v : V) (n : ℕ) (d' : SplitDbm V) : Prop where
  wf : d'.WFWith P
  find? : ∀ u, d'.vertMap.find? u = if u = v then some n else d.vertMap.find? u
  val : ∀ σ ν, d.Val σ ν → ∃ ν', d'.Val σ ν' ∧ ∀ m, d.Live P m → ν' m = ν m
  edge : ∀ s t w, d'.g.Edge s t w ↔ d.g.Edge s t w
  live : ∀ m, d.Live P m → d'.Live P m

theorem getVert_spec (hd : d.WFWith P) (v : V) :
    GetVert P d v (d.getVert v).1 (d.getVert v).2 := by
  unfold getVert
  cases hv : d.vertMap.find? v with
  | some y =>
    refine ⟨hd, fun u => ?_, fun σ ν hν => ⟨ν, hν, fun _ _ => rfl⟩, fun _ _ _ => Iff.rfl,
      fun _ hm => hm⟩
    split_ifs with huv
    · exact huv ▸ hv
    · rfl
  | none =>
    have hf := fresh_newVertex hd
    refine ⟨hf.wf_emplace hd hv 0, fun u => ?_, fun σ ν hν => ?_, fun s t w => ?_, fun m hm => ?_⟩
    · simp only [Fresh.setVert_vertMap, OrdMap.find?_emplace, hv, Option.getD_none]
    · refine ⟨Function.update ν d.g.newVertex.1 (σ v), ⟨?_, fun u m hu => ?_, ?_⟩, fun m hm => ?_⟩
      · rw [Function.update_of_ne hf.pos.ne]
        exact hν.zero
      · simp only [Fresh.setVert_vertMap, OrdMap.find?_emplace, hv, Option.getD_none] at hu
        split_ifs at hu with huv
        · obtain rfl := Option.some.inj hu
          rw [Function.update_self, huv]
        · rw [Function.update_of_ne (hf.ne_of_live (Or.inr (Or.inl ⟨u, hu⟩)))]
          exact hν.agree u m hu
      · rw [Fresh.setVert_g]
        exact hf.sat_update hd hν.sat _
      · exact Function.update_of_ne (hf.ne_of_live hm) _ _
    · rw [Fresh.setVert_g]
      exact hf.edge_iff
    · rcases hm with h0 | ⟨u, hu⟩ | hP
      · exact Or.inl h0
      · refine Or.inr (Or.inl ⟨u, ?_⟩)
        rw [Fresh.setVert_vertMap, OrdMap.find?_emplace, if_neg, hu]
        rintro rfl
        simp [hv] at hu
      · exact Or.inr (Or.inr hP)

theorem GetVert.self {v : V} {n : ℕ} {d' : SplitDbm V} (h : GetVert P d v n d') :
    d'.vertMap.find? v = some n := by rw [h.find?, if_pos rfl]

/-! ## Intervals -/

theorem mem_getInterval (h : d.Models σ) (x : V) : σ x ∈ d.getInterval x := by
  obtain ⟨ν, hν⟩ := h
  unfold getInterval
  refine Interval.mem_ofBounds.mpr ⟨?_, ?_⟩
  · cases hx : d.vertMap.find? x with
    | none => exact Bound.negInf_le _
    | some n =>
      cases hw : d.g.lookup n 0 with
      | none => simp [getLb, hw]
      | some w =>
        have h1 := hν.sat n 0 w hw
        have h2 := hν.zero
        rw [hν.agree x n hx, h2] at h1
        simp only [getLb, hw, Bound.fin_le_fin]
        omega
  · cases hx : d.vertMap.find? x with
    | none => exact Bound.le_posInf _
    | some n =>
      cases hw : d.g.lookup 0 n with
      | none => simp [getUb, hw]
      | some w =>
        have h1 := hν.sat 0 n w hw
        have h2 := hν.zero
        rw [hν.agree x n hx, h2] at h1
        simp only [getUb, hw, Bound.fin_le_fin]
        omega

theorem mem_evalInterval (h : d.Models σ) (e : LinearExpression V) :
    e.eval σ ∈ d.evalInterval e := by
  have key : ∀ (l : List (V × ℤ)) (r : Interval) (a : ℤ), a ∈ r →
      a + LinearExpression.evalTerms σ l ∈ l.foldl
        (fun r t => r.add ((Interval.const t.2).mul (d.getInterval t.1))) r := by
    intro l
    induction l with
    | nil =>
      intro r a ha
      simpa [LinearExpression.evalTerms] using ha
    | cons t l ih =>
      intro r a ha
      have ht : t.2 * σ t.1 ∈ (Interval.const t.2).mul (d.getInterval t.1) :=
        Interval.mem_mul (Interval.mem_const.mpr rfl) (mem_getInterval h t.1)
      have := ih _ _ (Interval.mem_add ha ht)
      rwa [LinearExpression.evalTerms, ← add_assoc]
  exact key _ _ _ (Interval.mem_const.mpr rfl)

/-! ## Setting edges -/

/-- New edges between vertices in use, and a new potential, keep the invariant. -/
theorem WFWith.withGraph (hd : d.WFWith P) {g : AdaptGraph} {p : List ℤ} (u : List ℕ)
    (hs : g.size = d.g.size) (hf : g.freeId = d.g.freeId)
    (hp : p.length = d.potential.length)
    (he : ∀ s t w, g.Edge s t w → d.Live P s ∧ d.Live P t) :
    WFWith P { d with g := g, potential := p, unstable := u } where
  inj := hd.inj
  vert v n hv := by
    simp only [hs, hf]
    exact hd.vert v n hv
  extra n hn := by
    simp only [hs, hf]
    exact hd.extra n hn
  extraFresh := hd.extraFresh
  freeNodup := by
    simp only [hf]
    exact hd.freeNodup
  free n hn := by
    simp only [hf] at hn
    simp only [hs]
    exact hd.free n hn
  ends := he
  sizePos := by
    simp only [hs]
    exact hd.sizePos
  revLen := by
    simp only [hs]
    exact hd.revLen
  potLen := by
    simp only [hs, hp]
    exact hd.potLen

theorem ends_setEdge (hd : d.WFWith P) {s t : ℕ} (w : ℤ) (hs : d.Live P s) (ht : d.Live P t) :
    ∀ a b c, (d.g.setEdge s w t).Edge a b c → d.Live P a ∧ d.Live P b := by
  intro a b c hc
  unfold AdaptGraph.Edge at hc
  rw [AdaptGraph.lookup_setEdge] at hc
  split_ifs at hc with hab
  · exact hab.1 ▸ hab.2 ▸ ⟨hs, ht⟩
  · exact hd.ends a b c hc

theorem sat_setEdge {g : AdaptGraph} {s t : ℕ} {w : ℤ} (hν : g.Edge.Sat ν)
    (hw : ν t ≤ ν s + w) : (g.setEdge s w t).Edge.Sat ν := by
  intro a b c hc
  unfold AdaptGraph.Edge at hc
  rw [AdaptGraph.lookup_setEdge] at hc
  split_ifs at hc with hab
  · obtain rfl := Option.some.inj hc
    rwa [hab.1, hab.2]
  · exact hν a b c hc

theorem sat_updateEdge {g : AdaptGraph} {s t : ℕ} {w : ℤ} (hν : g.Edge.Sat ν)
    (hw : ν t ≤ ν s + w) : (g.updateEdge s w t).Edge.Sat ν := by
  unfold AdaptGraph.updateEdge
  split
  · next w' hw' =>
    refine sat_setEdge hν ?_
    have h := hν s t w' hw'
    rcases min_choice w' w with hm | hm <;> rw [hm] <;> assumption
  · exact sat_setEdge hν hw

/-- Set an edge and a potential. -/
def withEdge (d : SplitDbm V) (s : ℕ) (w : ℤ) (t : ℕ) (p : List ℤ) : SplitDbm V :=
  { d with potential := p, g := d.g.setEdge s w t }

theorem wf_withEdge (hd : d.WFWith P) {s t : ℕ} (w : ℤ) (hs : d.Live P s) (ht : d.Live P t)
    {p : List ℤ} (hp : p.length = d.potential.length) : (d.withEdge s w t p).WFWith P :=
  hd.withGraph d.unstable rfl rfl hp (ends_setEdge hd w hs ht)

theorem val_withEdge (hν : d.Val σ ν) {s t : ℕ} {w : ℤ} (hw : ν t ≤ ν s + w) (p : List ℤ) :
    (d.withEdge s w t p).Val σ ν :=
  ⟨hν.zero, hν.agree, sat_setEdge hν.sat hw⟩

/-! ## Setting a variable to an interval -/

/-- The upper bound of a variable that `set` writes. -/
def setUb (d : SplitDbm V) (v : ℕ) (ub : Bound) : SplitDbm V :=
  match ub.number with
  | some ub => d.withEdge 0 ub v (d.potential.set v (pot d.potential 0 + ub))
  | none => d

/-- The lower bound of a variable that `set` writes. -/
def setLb (d : SplitDbm V) (v : ℕ) (lb : Bound) : SplitDbm V :=
  match lb.number with
  | some lb => d.withEdge v (-lb) 0 (d.potential.set v (pot d.potential 0 + lb))
  | none => d

theorem set_eq (d : SplitDbm V) (x : V) (intv : Interval) :
    d.set x intv = if intv.isTop then d.havoc x
      else ((((d.havoc x).getVert x).2.setUb ((d.havoc x).getVert x).1 intv.ub).setLb
        ((d.havoc x).getVert x).1 intv.lb).normalize := by
  unfold set setUb setLb
  simp only
  split_ifs
  · rfl
  · cases intv.ub.number <;> cases intv.lb.number <;> rfl

theorem setUb_spec (hd : d.WFWith P) {v : ℕ} (hv : d.Live P v) (ub : Bound) :
    (d.setUb v ub).WFWith P ∧ (d.setUb v ub).vertMap = d.vertMap ∧
      (∀ n, (d.setUb v ub).Live P n ↔ d.Live P n) ∧
      ∀ σ ν, d.Val σ ν → .fin (ν v) ≤ ub → (d.setUb v ub).Val σ ν := by
  unfold setUb
  cases ub with
  | fin u =>
    refine ⟨wf_withEdge hd _ (Or.inl rfl) hv (by simp), rfl, fun _ => Iff.rfl, fun σ ν hν hu => ?_⟩
    refine val_withEdge hν ?_ _
    rw [hν.zero, zero_add]
    exact hu
  | negInf => exact ⟨hd, rfl, fun _ => Iff.rfl, fun _ _ h _ => h⟩
  | posInf => exact ⟨hd, rfl, fun _ => Iff.rfl, fun _ _ h _ => h⟩

theorem setLb_spec (hd : d.WFWith P) {v : ℕ} (hv : d.Live P v) (lb : Bound) :
    (d.setLb v lb).WFWith P ∧ ∀ σ ν, d.Val σ ν → lb ≤ .fin (ν v) → (d.setLb v lb).Val σ ν := by
  unfold setLb
  cases lb with
  | fin l =>
    refine ⟨wf_withEdge hd _ hv (Or.inl rfl) (by simp), fun σ ν hν hl => ?_⟩
    refine val_withEdge hν ?_ _
    rw [hν.zero]
    have hl' : l ≤ ν v := hl
    omega
  | negInf => exact ⟨hd, fun _ _ h _ => h⟩
  | posInf => exact ⟨hd, fun _ _ h _ => h⟩

theorem wf_set (hd : d.WF) (x : V) (intv : Interval) : (d.set x intv).WF := by
  rw [set_eq]
  have hh := wf_havoc hd x
  split_ifs
  · exact hh
  · have hg := getVert_spec hh x
    have hlive : ((d.havoc x).getVert x).2.Live (fun _ => False) ((d.havoc x).getVert x).1 :=
      Or.inr (Or.inl ⟨x, hg.self⟩)
    obtain ⟨hu, -, hl, -⟩ := setUb_spec hg.wf hlive intv.ub
    have hlb := (setLb_spec hu ((hl _).mpr hlive) intv.lb).1
    exact (entails_normalize hlb).wf hlb

/-- Setting a variable to an interval admits the values in the interval. -/
theorem models_set (hd : d.WF) {x : V} {intv : Interval} (h : d.Models σ) {n : ℤ}
    (hn : n ∈ intv) : (d.set x intv).Models (Function.update σ x n) := by
  rw [set_eq]
  have hh := wf_havoc hd x
  obtain ⟨ν, hν⟩ := models_havoc hd x h n
  split_ifs
  · exact ⟨ν, hν⟩
  · have hg := getVert_spec hh x
    have hlive : ((d.havoc x).getVert x).2.Live (fun _ => False) ((d.havoc x).getVert x).1 :=
      Or.inr (Or.inl ⟨x, hg.self⟩)
    obtain ⟨ν', hν', -⟩ := hg.val _ ν hν
    have hx : ν' ((d.havoc x).getVert x).1 = n := by
      rw [hν'.agree x _ hg.self, Function.update_self]
    obtain ⟨hu, -, hl, huv⟩ := setUb_spec hg.wf hlive intv.ub
    have hνu := huv _ ν' hν' (hx.symm ▸ hn.2)
    obtain ⟨hlb, hlv⟩ := setLb_spec hu ((hl _).mpr hlive) intv.lb
    exact ⟨ν', (entails_normalize hlb).val (hlv _ ν' hνu (hx.symm ▸ hn.1))⟩

/-! ## Assignment -/

/-- `1` for upper bounds, `-1` for lower ones. -/
def sgn (upper : Bool) : ℤ := if upper then 1 else -1

/-- `k` bounds `n` on the given side. -/
def Bounds (upper : Bool) (n k : ℤ) : Prop := sgn upper * n ≤ sgn upper * k

/-- What the terms read so far give: a bound on their sum, and the same bound with one term
taken at its value and not at its bound. -/
structure AssignInv (σ : V → ℤ) (upper : Bool) (total : ℤ) (st : AssignTerms V) : Prop where
  sum : Bounds upper total (st.residual + st.unboundedVar.elim 0 σ)
  term : ∀ t ∈ st.terms, Bounds upper total (st.residual + st.unboundedVar.elim 0 σ - t.2 + σ t.1)

theorem le_of_getUb_number {x : V} {k : ℤ} (h : d.Models σ)
    (hk : (d.getUb (d.vertMap.find? x)).number = some k) : σ x ≤ k := by
  have hm := mem_getInterval h x
  unfold getInterval at hm
  have h2 := (Interval.mem_ofBounds.mp hm).2
  cases hb : d.getUb (d.vertMap.find? x) with
  | fin n =>
    rw [hb] at hk h2
    obtain rfl := Option.some.inj hk
    exact h2
  | negInf => simp [hb, Bound.number] at hk
  | posInf => simp [hb, Bound.number] at hk

theorem le_of_getLb_number {x : V} {k : ℤ} (h : d.Models σ)
    (hk : (d.getLb (d.vertMap.find? x)).number = some k) : k ≤ σ x := by
  have hm := mem_getInterval h x
  unfold getInterval at hm
  have h1 := (Interval.mem_ofBounds.mp hm).1
  cases hb : d.getLb (d.vertMap.find? x) with
  | fin n =>
    rw [hb] at hk h1
    obtain rfl := Option.some.inj hk
    exact h1
  | negInf => simp [hb, Bound.number] at hk
  | posInf => simp [hb, Bound.number] at hk

/-- The bound used for a term with a negative coefficient. -/
theorem bounds_far {upper : Bool} {x : V} {k : ℤ} (h : d.Models σ)
    (hk : (if upper then d.getLb (d.vertMap.find? x) else d.getUb (d.vertMap.find? x)).number =
      some k) : sgn upper * k ≤ sgn upper * σ x := by
  cases upper
  · have := le_of_getUb_number h hk
    simp only [sgn, Bool.false_eq_true, if_false]
    omega
  · have := le_of_getLb_number h hk
    simp only [sgn, if_true]
    omega

/-- The bound used for a term with a positive coefficient. -/
theorem bounds_near {upper : Bool} {x : V} {k : ℤ} (h : d.Models σ)
    (hk : (if upper then d.getUb (d.vertMap.find? x) else d.getLb (d.vertMap.find? x)).number =
      some k) : sgn upper * σ x ≤ sgn upper * k := by
  cases upper
  · have := le_of_getLb_number h hk
    simp only [sgn, Bool.false_eq_true, if_false]
    omega
  · have := le_of_getUb_number h hk
    simp only [sgn, if_true]
    omega

theorem AssignInv.step {upper : Bool} {total : ℤ} {st st' : AssignTerms V} {t : V × ℤ}
    (hd : d.Models σ) (ht : t.2 ≠ 0) (h : AssignInv σ upper total st)
    (hs : d.assignTerm upper st t = some st') : AssignInv σ upper (total + t.2 * σ t.1) st' := by
  have hsum : sgn upper * total ≤ sgn upper * (st.residual + st.unboundedVar.elim 0 σ) := h.sum
  unfold assignTerm at hs
  simp only at hs
  by_cases hneg : t.2 < 0
  · rw [if_pos hneg] at hs
    split at hs
    · cases hs
    · next m hm =>
      obtain rfl := Option.some.inj hs
      have hb := bounds_far hd hm
      have hmul : sgn upper * (t.2 * σ t.1) ≤ sgn upper * (m * t.2) := by nlinarith
      refine ⟨?_, fun u hu => ?_⟩
      · unfold Bounds
        simp only
        linarith
      · have hu' : sgn upper * total ≤
            sgn upper * (st.residual + st.unboundedVar.elim 0 σ - u.2 + σ u.1) := h.term u hu
        unfold Bounds
        simp only
        linarith
  · rw [if_neg hneg] at hs
    split at hs
    · by_cases hun : st.unboundedVar.isSome || decide (t.2 ≠ 1)
      · rw [if_pos hun] at hs
        cases hs
      · rw [if_neg hun] at hs
        obtain rfl := Option.some.inj hs
        obtain ⟨hnone, hone⟩ : st.unboundedVar = none ∧ t.2 = 1 := by simpa using hun
        rw [hnone] at hsum
        simp only [Option.elim_none] at hsum
        refine ⟨?_, fun u hu => ?_⟩
        · unfold Bounds
          simp only [Option.elim_some, hone]
          linarith
        · have hu' : sgn upper * total ≤
              sgn upper * (st.residual + st.unboundedVar.elim 0 σ - u.2 + σ u.1) := h.term u hu
          rw [hnone] at hu'
          simp only [Option.elim_none] at hu'
          unfold Bounds
          simp only [Option.elim_some, hone]
          linarith
    · next m hm =>
      obtain rfl := Option.some.inj hs
      have hpos : 1 ≤ t.2 := by omega
      have hb := bounds_near hd hm
      have hmul : sgn upper * (t.2 * σ t.1) ≤ sgn upper * (m * t.2) := by nlinarith
      -- the coefficient is at least one, so a term at its bound leaves at least one unit of slack
      have hmul' : sgn upper * (m - σ t.1) ≤ sgn upper * (m * t.2 - t.2 * σ t.1) := by nlinarith
      refine ⟨?_, fun u hu => ?_⟩
      · unfold Bounds
        simp only
        linarith
      · unfold Bounds
        simp only
        rcases List.mem_append.mp hu with hu | hu
        · have hu' : sgn upper * total ≤
              sgn upper * (st.residual + st.unboundedVar.elim 0 σ - u.2 + σ u.1) := h.term u hu
          linarith
        · obtain rfl := List.mem_singleton.mp hu
          simp only
          linarith

theorem AssignInv.run {upper : Bool} {l : List (V × ℤ)} {total : ℤ} {st st' : AssignTerms V}
    (hd : d.Models σ) (hl : ∀ t ∈ l, t.2 ≠ 0) (h : AssignInv σ upper total st)
    (hs : l.foldlM (d.assignTerm upper) st = some st') :
    AssignInv σ upper (total + LinearExpression.evalTerms σ l) st' := by
  induction l generalizing total st with
  | nil =>
    obtain rfl := Option.some.inj hs
    simpa [LinearExpression.evalTerms] using h
  | cons t l ih =>
    rw [List.foldlM_cons] at hs
    obtain ⟨st₁, hst₁, hs⟩ := Option.bind_eq_some_iff.mp hs
    have := ih (fun u hu => hl u (List.mem_cons_of_mem _ hu))
      (h.step hd (hl t List.mem_cons_self) hst₁) hs
    rwa [LinearExpression.evalTerms, ← add_assoc]

/-- Each constraint of an assignment bounds the assigned value. -/
theorem bounds_of_mem_diffcstsOfAssign {upper : Bool} {e : LinearExpression V} (hd : d.Models σ)
    {t : V × ℤ} (ht : t ∈ d.diffcstsOfAssign e upper) :
    Bounds upper (e.eval σ) (σ t.1 + t.2) := by
  unfold diffcstsOfAssign at ht
  split at ht
  · simp at ht
  · next st hst =>
    have h0 : AssignInv σ upper e.constantTerm ⟨none, e.constantTerm, []⟩ := by
      exact ⟨by simp [Bounds], by simp⟩
    have hinv := h0.run hd e.nonzero hst
    split at ht
    · next y hy =>
      obtain rfl := List.mem_singleton.mp ht
      have := hinv.sum
      rw [hy] at this
      rw [add_comm]
      exact this
    · next hy =>
      obtain ⟨u, hu, rfl⟩ := List.mem_map.mp ht
      have := hinv.term u hu
      rw [hy] at this
      simp only [Option.elim_none, add_zero] at this
      rwa [show σ u.1 + (st.residual - u.2) = st.residual - u.2 + σ u.1 by omega]

/-- The edges gathered for the new vertex join vertices in use. -/
structure DeltaInv (P : ℕ → Prop) (acc : EdgeVector × SplitDbm V) : Prop where
  wf : acc.2.WFWith P
  live : ∀ e ∈ acc.1, acc.2.Live P e.1 ∧ acc.2.Live P e.2.1

/-- The edges gathered for the new vertex hold when it has the value `x`. -/
def DeltaVal (σ : V → ℤ) (vert : ℕ) (x : ℤ) (acc : EdgeVector × SplitDbm V) : Prop :=
  ∃ ν, acc.2.Val σ ν ∧ ν vert = x ∧ ∀ e ∈ acc.1, ν e.2.1 ≤ ν e.1 + e.2.2

/-- One more edge between the new vertex and the vertex of a variable. -/
theorem DeltaInv.step {vert : ℕ} {acc : EdgeVector × SplitDbm V} (hP : P vert)
    (h : DeltaInv P acc) (v : V) (mk : ℕ → ℕ × ℕ × ℤ)
    (hends : ∀ y, (mk y).1 = vert ∧ (mk y).2.1 = y ∨ (mk y).1 = y ∧ (mk y).2.1 = vert) :
    DeltaInv P (acc.1 ++ [mk (acc.2.getVert v).1], (acc.2.getVert v).2) ∧
      ∀ σ x, (∀ (ν : ℕ → ℤ) y, ν vert = x → ν y = σ v →
        ν (mk y).2.1 ≤ ν (mk y).1 + (mk y).2.2) → DeltaVal σ vert x acc →
        DeltaVal σ vert x (acc.1 ++ [mk (acc.2.getVert v).1], (acc.2.getVert v).2) := by
  have hg := getVert_spec h.wf v
  have hy : (acc.2.getVert v).2.Live P (acc.2.getVert v).1 := Or.inr (Or.inl ⟨v, hg.self⟩)
  have hv : ∀ d' : SplitDbm V, d'.Live P vert := fun d' => Or.inr (Or.inr hP)
  refine ⟨⟨hg.wf, fun e he => ?_⟩, fun σ x hval ⟨ν, hν, hx, hdelta⟩ => ?_⟩
  · rcases List.mem_append.mp he with he | he
    · exact ⟨hg.live _ (h.live e he).1, hg.live _ (h.live e he).2⟩
    · obtain rfl := List.mem_singleton.mp he
      rcases hends (acc.2.getVert v).1 with ⟨h1, h2⟩ | ⟨h1, h2⟩ <;> rw [h1, h2]
      · exact ⟨hv _, hy⟩
      · exact ⟨hy, hv _⟩
  · obtain ⟨ν', hν', hagree⟩ := hg.val σ ν hν
    have hx' : ν' vert = x := (hagree vert (hv _)).trans hx
    refine ⟨ν', hν', hx', fun e he => ?_⟩
    rcases List.mem_append.mp he with he | he
    · rw [hagree _ (h.live e he).1, hagree _ (h.live e he).2]
      exact hdelta e he
    · obtain rfl := List.mem_singleton.mp he
      exact hval ν' _ hx' (hν'.agree v _ hg.self)

theorem assignDelta_spec {vert : ℕ} (hP : P vert) (hd : d.WFWith P)
    (diffsLb diffsUb : List (V × ℤ)) :
    DeltaInv P (d.assignDelta vert diffsLb diffsUb) ∧
      ∀ σ ν x, d.Val σ ν → ν vert = x → (∀ t ∈ diffsLb, σ t.1 + t.2 ≤ x) →
        (∀ t ∈ diffsUb, x ≤ σ t.1 + t.2) →
        DeltaVal σ vert x (d.assignDelta vert diffsLb diffsUb) := by
  let Q (acc : EdgeVector × SplitDbm V) : Prop := DeltaInv P acc ∧
    ∀ σ ν x, d.Val σ ν → ν vert = x → (∀ t ∈ diffsLb, σ t.1 + t.2 ≤ x) →
      (∀ t ∈ diffsUb, x ≤ σ t.1 + t.2) → DeltaVal σ vert x acc
  have h0 : Q ([], d) :=
    ⟨⟨hd, by simp⟩, fun σ ν x hν hx _ _ => ⟨ν, hν, hx, by simp⟩⟩
  refine List.foldlRecOn (motive := Q) _ _ (List.foldlRecOn (motive := Q) _ _ h0 ?_) ?_
  · rintro acc ⟨hinv, hval⟩ t ht
    have hstep := hinv.step hP t.1 (fun y => (vert, y, -t.2)) fun y => Or.inl ⟨rfl, rfl⟩
    refine ⟨hstep.1, fun σ ν x hν hx hlb hub => hstep.2 σ x (fun ν y hvert hy => ?_)
      (hval σ ν x hν hx hlb hub)⟩
    have := hlb t ht
    simp only [hvert, hy]
    omega
  · rintro acc ⟨hinv, hval⟩ t ht
    have hstep := hinv.step hP t.1 (fun y => (y, vert, t.2)) fun y => Or.inr ⟨rfl, rfl⟩
    refine ⟨hstep.1, fun σ ν x hν hx hlb hub => hstep.2 σ x (fun ν y hvert hy => ?_)
      (hval σ ν x hν hx hlb hub)⟩
    simp only [hvert, hy]
    exact hub t ht

/-- A vertex in use without a variable becomes the vertex of `v`. -/
theorem wf_adopt {n : ℕ} (hd : d.WFWith fun m => False ∨ m = n) {v : V}
    (hv : d.vertMap.find? v = none) :
    WF { d with vertMap := d.vertMap.emplace v n } := by
  have hfind : ∀ u m, (d.vertMap.emplace v n).find? u = some m →
      u = v ∧ m = n ∨ d.vertMap.find? u = some m := by
    intro u m hu
    rw [OrdMap.find?_emplace, hv] at hu
    split_ifs at hu with huv
    · exact Or.inl ⟨huv, (Option.some.inj hu).symm⟩
    · exact Or.inr hu
  have hlive : ∀ m, d.Live (fun m => False ∨ m = n) m →
      Live { d with vertMap := d.vertMap.emplace v n } (fun _ => False) m := by
    rintro m (h0 | ⟨u, hu⟩ | hP | rfl)
    · exact Or.inl h0
    · refine Or.inr (Or.inl ⟨u, ?_⟩)
      simp only [OrdMap.find?_emplace]
      rw [if_neg, hu]
      rintro rfl
      simp [hv] at hu
    · exact hP.elim
    · refine Or.inr (Or.inl ⟨v, ?_⟩)
      simp only [OrdMap.find?_emplace, hv]
      simp
  have hfresh : ∀ u m, d.vertMap.find? u = some m → m ≠ n := by
    rintro u m hu rfl
    exact hd.extraFresh u m (Or.inr rfl) hu
  refine ⟨fun u u' m hu hu' => ?_, fun u m hu => ?_, fun _ h => h.elim, fun _ _ h => h.elim,
    hd.freeNodup, hd.free, fun s t w hw => ?_, hd.sizePos, hd.revLen, hd.potLen⟩
  · rcases hfind u m hu with ⟨huv, hmn⟩ | hu <;> rcases hfind u' m hu' with ⟨huv', hmn'⟩ | hu'
    · exact huv.trans huv'.symm
    · exact absurd hmn (hfresh u' m hu')
    · exact absurd hmn' (hfresh u m hu)
    · exact hd.inj u u' m hu hu'
  · rcases hfind u m hu with ⟨-, rfl⟩ | hu
    · exact hd.extra m (Or.inr rfl)
    · exact hd.vert u m hu
  · exact ⟨hlive s (hd.ends s t w hw).1, hlive t (hd.ends s t w hw).2⟩

/-- The state in which the new vertex of an assignment has all its edges. -/
def assignGraph (d : SplitDbm V) (lhs : V) (value : Interval) (eVal : ℤ)
    (diffsLb diffsUb : List (V × ℤ)) : SplitDbm V :=
  let vert := d.g.newVertex.1
  let acc := (setVert { d with g := d.g.newVertex.2 } vert lhs
    (pot d.potential 0 + eVal)).assignDelta vert diffsLb diffsUb
  let g := applyDelta acc.2.g acc.1
  let g := applyDelta g (closeAfterAssign (g.view.subGraph 0) (pot acc.2.potential) vert)
  { acc.2 with g := updateUb (updateLb g vert value.lb) vert value.ub }

theorem assignDiffs_eq (d : SplitDbm V) (lhs : V) (value : Interval) (eVal : ℤ)
    (diffsLb diffsUb : List (V × ℤ)) :
    d.assignDiffs lhs value eVal diffsLb diffsUb =
      normalize { (d.assignGraph lhs value eVal diffsLb diffsUb).havoc lhs with
        vertMap := ((d.assignGraph lhs value eVal diffsLb diffsUb).havoc lhs).vertMap.emplace lhs
          d.g.newVertex.1 } := rfl

theorem ends_updateEdge (hd : d.WFWith P) {s t : ℕ} (w : ℤ) (hs : d.Live P s)
    (ht : d.Live P t) : WFWith P { d with g := d.g.updateEdge s w t } := by
  refine hd.withGraph d.unstable (by simp) (by simp) rfl fun a b c hc => ?_
  unfold AdaptGraph.Edge at hc
  rw [AdaptGraph.lookup_updateEdge] at hc
  split_ifs at hc with hab
  · exact hab.1 ▸ hab.2 ▸ ⟨hs, ht⟩
  · exact hd.ends a b c hc

theorem updateLb_spec (hd : d.WFWith P) {v : ℕ} (hv : d.Live P v) (lb : Bound) :
    WFWith P { d with g := updateLb d.g v lb } ∧
      ∀ σ ν, d.Val σ ν → lb ≤ .fin (ν v) → Val { d with g := updateLb d.g v lb } σ ν := by
  unfold updateLb
  cases lb with
  | fin l =>
    refine ⟨ends_updateEdge hd _ hv (Or.inl rfl), fun σ ν hν hl => ⟨hν.zero, hν.agree, ?_⟩⟩
    refine sat_updateEdge hν.sat ?_
    rw [hν.zero]
    have hl' : l ≤ ν v := hl
    omega
  | negInf => exact ⟨hd, fun _ _ h _ => h⟩
  | posInf => exact ⟨hd, fun _ _ h _ => h⟩

theorem updateUb_spec (hd : d.WFWith P) {v : ℕ} (hv : d.Live P v) (ub : Bound) :
    WFWith P { d with g := updateUb d.g v ub } ∧
      ∀ σ ν, d.Val σ ν → .fin (ν v) ≤ ub → Val { d with g := updateUb d.g v ub } σ ν := by
  unfold updateUb
  cases ub with
  | fin u =>
    refine ⟨ends_updateEdge hd _ (Or.inl rfl) hv, fun σ ν hν hu => ⟨hν.zero, hν.agree, ?_⟩⟩
    refine sat_updateEdge hν.sat ?_
    rw [hν.zero, zero_add]
    exact hu
  | negInf => exact ⟨hd, fun _ _ h _ => h⟩
  | posInf => exact ⟨hd, fun _ _ h _ => h⟩

theorem assignGraph_spec (hd : d.WF) (lhs : V) (value : Interval) (eVal : ℤ)
    (diffsLb diffsUb : List (V × ℤ)) :
    (d.assignGraph lhs value eVal diffsLb diffsUb).WFWith
        (fun m => False ∨ m = d.g.newVertex.1) ∧
      ∀ σ x, d.Models σ → x ∈ value → (∀ t ∈ diffsLb, σ t.1 + t.2 ≤ x) →
        (∀ t ∈ diffsUb, x ≤ σ t.1 + t.2) →
        ∃ ν, (d.assignGraph lhs value eVal diffsLb diffsUb).Val σ ν ∧ ν d.g.newVertex.1 = x := by
  have hf := fresh_newVertex hd
  have hwf := hf.wf_extra hd lhs (pot d.potential 0 + eVal)
  obtain ⟨hinv, hval⟩ := assignDelta_spec (Or.inr rfl) hwf diffsLb diffsUb
  unfold assignGraph
  set vert := d.g.newVertex.1 with hvert
  set Q : ℕ → Prop := fun m => False ∨ m = vert with hQ
  set acc := (setVert { d with g := d.g.newVertex.2 } vert lhs
    (pot d.potential 0 + eVal)).assignDelta vert diffsLb diffsUb with hacc
  have hv0 : vert ≠ 0 := hf.pos.ne'
  -- the new edges
  have h1 : WFWith Q { acc.2 with g := applyDelta acc.2.g acc.1 } := by
    refine hinv.wf.withGraph acc.2.unstable size_applyDelta freeId_applyDelta rfl ?_
    intro s t w hw
    rcases lookup_applyDelta hw with hw | hw
    · exact hinv.wf.ends s t w hw
    · exact hinv.live _ hw
  -- their closure
  have h2 := entails_of_sharper h1 (sharper_closeAfterAssign_subGraph (p := pot acc.2.potential)
    hv0) acc.2.unstable
  have h2' := h2.wf h1
  have hlive : ∀ d' : SplitDbm V, d'.Live Q vert := fun d' => Or.inr (Or.inr (Or.inr rfl))
  obtain ⟨h3, hval3⟩ := updateLb_spec h2' (hlive _) value.lb
  obtain ⟨h4, hval4⟩ := updateUb_spec h3 (hlive _) value.ub
  refine ⟨h4, fun σ x hσ hx hlb hub => ?_⟩
  obtain ⟨ν, hν⟩ := hσ
  have hstart : Val (setVert { d with g := d.g.newVertex.2 } vert lhs
      (pot d.potential 0 + eVal)) σ (Function.update ν vert x) := by
    refine ⟨?_, fun u m hu => ?_, ?_⟩
    · rw [Function.update_of_ne hv0.symm]
      exact hν.zero
    · rw [Fresh.setVert_vertMap] at hu
      rw [Function.update_of_ne (hf.ne_of_live (Or.inr (Or.inl ⟨u, hu⟩)))]
      exact hν.agree u m hu
    · rw [Fresh.setVert_g]
      exact hf.sat_update hd hν.sat x
  obtain ⟨ν₁, hν₁, hx₁, hdelta⟩ := hval σ _ x hstart (Function.update_self ..) hlb hub
  have hval1 : Val { acc.2 with g := applyDelta acc.2.g acc.1 } σ ν₁ := by
    refine ⟨hν₁.zero, hν₁.agree, fun s t w hw => ?_⟩
    rcases lookup_applyDelta hw with hw | hw
    · exact hν₁.sat s t w hw
    · exact hdelta _ hw
  have hval2 := h2.val hval1
  exact ⟨ν₁, hval4 σ ν₁ (hval3 σ ν₁ hval2 (hx₁.symm ▸ hx.1)) (hx₁.symm ▸ hx.2), hx₁⟩

theorem assignDiffs_spec (hd : d.WF) (lhs : V) (value : Interval) (eVal : ℤ)
    (diffsLb diffsUb : List (V × ℤ)) :
    (d.assignDiffs lhs value eVal diffsLb diffsUb).WF ∧
      ∀ σ x, d.Models σ → x ∈ value → (∀ t ∈ diffsLb, σ t.1 + t.2 ≤ x) →
        (∀ t ∈ diffsUb, x ≤ σ t.1 + t.2) →
        (d.assignDiffs lhs value eVal diffsLb diffsUb).Models (Function.update σ lhs x) := by
  obtain ⟨hg, hval⟩ := assignGraph_spec hd lhs value eVal diffsLb diffsUb
  have hh := wf_havoc hg lhs
  have hnone : ((d.assignGraph lhs value eVal diffsLb diffsUb).havoc lhs).vertMap.find? lhs =
      none := by
    rw [find?_havoc hg, if_pos rfl]
  have hwf := wf_adopt hh hnone
  rw [assignDiffs_eq]
  refine ⟨(entails_normalize hwf).wf hwf, fun σ x hσ hx hlb hub => ?_⟩
  obtain ⟨ν, hν, hvert⟩ := hval σ x hσ hx hlb hub
  have hν' := val_havoc hg lhs hν x
  refine ⟨ν, (entails_normalize hwf).val ⟨hν'.zero, fun u m hu => ?_, hν'.sat⟩⟩
  simp only [OrdMap.find?_emplace, hnone, Option.getD_none] at hu
  split_ifs at hu with hul
  · rw [hul, Function.update_self, ← Option.some.inj hu]
    exact hvert
  · exact hν'.agree u m hu

theorem wf_assign (hd : d.WF) (lhs : V) (e : LinearExpression V) : (d.assign lhs e).WF := by
  have hset := wf_set hd lhs (d.evalInterval e)
  unfold assign
  simp only
  split_ifs
  · exact (entails_normalize hset).wf hset
  · exact (entails_normalize hset).wf hset
  · exact (assignDiffs_spec hd _ _ _ _ _).1

/-- An assignment admits the valuation with the new value. -/
theorem models_assign (hd : d.WF) (lhs : V) (e : LinearExpression V) (h : d.Models σ) :
    (d.assign lhs e).Models (Function.update σ lhs (e.eval σ)) := by
  have hmem := mem_evalInterval h e
  have hset : ((d.set lhs (d.evalInterval e)).normalize).Models
      (Function.update σ lhs (e.eval σ)) := by
    obtain ⟨ν, hν⟩ := models_set hd (x := lhs) h hmem
    exact ⟨ν, (entails_normalize (wf_set hd lhs _)).val hν⟩
  unfold assign
  simp only
  split_ifs
  · exact hset
  · exact hset
  · refine (assignDiffs_spec hd _ _ _ _ _).2 σ _ h hmem (fun t ht => ?_) fun t ht => ?_
    · have := bounds_of_mem_diffcstsOfAssign h ht
      simp only [Bounds, sgn, Bool.false_eq_true, if_false] at this
      omega
    · have := bounds_of_mem_diffcstsOfAssign h ht
      simp only [Bounds, sgn, if_true] at this
      omega

end SplitDbm

end Prevail
