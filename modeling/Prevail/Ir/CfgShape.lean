import Mathlib.Data.List.Nodup
import Prevail.Ir.CfgBuilder
import Prevail.Lib.Result

/-!
# What the builder operations do to the graph

A builder is seen through its labels (`Has`) and its edges (`Edge`). `Consistent` says that parents
and children describe the same edges, that edges join labels of the graph and that every label has
an instruction. `Adds b b' N E` says that `b'` is `b` with the labels `N` and the edges `E`; the
operations other than `removeChild` are of this kind, and `Adds` composes.
-/

namespace Prevail

namespace CfgBuilder

variable {O C : Type} {b b' b'' : CfgBuilder O C} {x y l : Label}

/-- The label is in the graph. -/
def Has (b : CfgBuilder O C) (x : Label) : Prop := ∃ n, b.cfg.neighbours.find? x = some n

/-- `y` is a child of `x`. -/
def Edge (b : CfgBuilder O C) (x y : Label) : Prop :=
  ∃ n, b.cfg.neighbours.find? x = some n ∧ n.children.contains y

/-- `x` is a parent of `y`. -/
def Parent (b : CfgBuilder O C) (x y : Label) : Prop :=
  ∃ n, b.cfg.neighbours.find? y = some n ∧ n.parents.contains x

/-- Parents and children agree. -/
structure Consistent (b : CfgBuilder O C) : Prop where
  parent : ∀ x y, b.Parent x y ↔ b.Edge x y
  target : ∀ x y, b.Edge x y → b.Has y
  instr : ∀ x, b.Has x ↔ ∃ i, b.instructions.find? x = some i

theorem Edge.source (h : b.Edge x y) : b.Has x :=
  let ⟨n, hn, _⟩ := h
  ⟨n, hn⟩

theorem contains_iff : b.cfg.contains x ↔ b.Has x := by
  rw [Cfg.contains, OrdMap.contains, Option.isSome_iff_exists]
  rfl

theorem mem_labels : x ∈ b.cfg.labels ↔ b.Has x := OrdMap.mem_keys

theorem mem_set {s : LabelSet} : x ∈ s.keys ↔ s.contains x := by
  rw [OrdMap.mem_keys, OrdMap.contains, Option.isSome_iff_exists]

theorem contains_insert {s : LabelSet} : (s.insert y ()).contains x ↔ x = y ∨ s.contains x := by
  rw [OrdMap.contains, OrdMap.find?_insert]
  split_ifs with h
  · simp [h]
  · simp [h, OrdMap.contains]

theorem contains_erase {s : LabelSet} : (s.erase y).contains x ↔ x ≠ y ∧ s.contains x := by
  rw [OrdMap.contains, OrdMap.find?_erase]
  split_ifs with h
  · simp [h]
  · simp [h, OrdMap.contains]

/-- The children of a label. -/
def succs (b : CfgBuilder O C) (x : Label) : List Label :=
  match b.cfg.neighbours.find? x with
  | some n => n.children.keys
  | none => []

theorem mem_succs : y ∈ b.succs x ↔ b.Edge x y := by
  unfold succs Edge
  split
  · next n hn => simp [hn, mem_set]
  · next hn => simp [hn]

instance : Decidable (b.Edge x y) := decidable_of_iff _ mem_succs

theorem getNode_eq_ok {n : Adjacent} :
    b.cfg.getNode x = .ok n ↔ b.cfg.neighbours.find? x = some n := by
  unfold Cfg.getNode
  split
  · next m hm => rw [hm, Except.ok.injEq, Option.some.injEq]
  · next hn =>
    rw [hn]
    constructor
    · intro h
      cases h
    · intro h
      cases h

theorem childrenOf_sorted {ls : List Label} (h : b.cfg.childrenOf x = .ok ls) : ls.Pairwise (· < ·) := by
  obtain ⟨n, -, rfl⟩ := Except.map_eq_ok.mp h
  exact n.children.sorted_keys

theorem childrenOf_eq_ok {ls : List Label} (h : b.cfg.childrenOf x = .ok ls) :
    ∀ y, y ∈ ls ↔ b.Edge x y := by
  obtain ⟨n, hn, rfl⟩ := Except.map_eq_ok.mp h
  intro y
  rw [mem_set]
  constructor
  · intro hy
    exact ⟨n, getNode_eq_ok.mp hn, hy⟩
  · rintro ⟨m, hm, hy⟩
    obtain rfl := Option.some.inj ((getNode_eq_ok.mp hn).symm.trans hm)
    exact hy

theorem parentsOf_eq_ok {ls : List Label} (h : b.cfg.parentsOf x = .ok ls) :
    ∀ y, y ∈ ls ↔ b.Parent y x := by
  obtain ⟨n, hn, rfl⟩ := Except.map_eq_ok.mp h
  intro y
  rw [mem_set]
  constructor
  · intro hy
    exact ⟨n, getNode_eq_ok.mp hn, hy⟩
  · rintro ⟨m, hm, hy⟩
    obtain rfl := Option.some.inj ((getNode_eq_ok.mp hn).symm.trans hm)
    exact hy

theorem getChild_eq_ok (h : b.cfg.getChild x = .ok y) : ∀ z, b.Edge x z ↔ z = y := by
  unfold Cfg.getChild at h
  obtain ⟨ls, hls, h⟩ := Except.bind_eq_ok.mp h
  intro z
  rw [← childrenOf_eq_ok hls]
  split at h
  · obtain rfl := Except.ok.inj h
    exact List.mem_singleton
  · cases h

theorem instructionAt_eq_ok {i : Instruction O C} :
    b.instructionAt x = .ok i ↔ b.instructions.find? x = some i := by
  unfold instructionAt
  split
  · next j hj => rw [hj, Except.ok.injEq, Option.some.injEq]
  · next hn =>
    rw [hn]
    constructor
    · intro h
      cases h
    · intro h
      cases h

/-! ## Growing a graph -/

/-- `b'` is `b` with the labels `N` and the edges `E`. -/
structure Adds (b b' : CfgBuilder O C) (N : Label → Prop) (E : Label → Label → Prop) : Prop where
  has : ∀ x, b'.Has x ↔ b.Has x ∨ N x
  edge : ∀ x y, b'.Edge x y ↔ b.Edge x y ∨ E x y
  consistent : b.Consistent → b'.Consistent
  instr : ∀ x, b.Has x → b'.instructions.find? x = b.instructions.find? x

theorem Adds.refl (b : CfgBuilder O C) : Adds b b (fun _ => False) fun _ _ => False where
  has x := by rw [or_false]
  edge x y := by rw [or_false]
  consistent h := h
  instr _ _ := rfl

theorem Adds.trans {N N' : Label → Prop} {E E' : Label → Label → Prop} (h : Adds b b' N E)
    (h' : Adds b' b'' N' E') : Adds b b'' (fun x => N x ∨ N' x) fun x y => E x y ∨ E' x y where
  has x := by rw [h'.has, h.has, or_assoc]
  edge x y := by rw [h'.edge, h.edge, or_assoc]
  consistent hb := h'.consistent (h.consistent hb)
  instr x hx := (h'.instr x ((h.has x).mpr (Or.inl hx))).trans (h.instr x hx)

theorem Adds.congr {N N' : Label → Prop} {E E' : Label → Label → Prop} (h : Adds b b' N E)
    (hN : ∀ x, N x ↔ N' x) (hE : ∀ x y, E x y ↔ E' x y) : Adds b b' N' E' where
  has x := by rw [h.has, hN]
  edge x y := by rw [h.edge, hE]
  consistent := h.consistent
  instr := h.instr

theorem insert_spec {i : Instruction O C} (h : b.insert l i = .ok b') (hb : b.Consistent) :
    ¬ b.Has l ∧ Adds b b' (· = l) (fun _ _ => False) ∧ b'.instructions.find? l = some i := by
  unfold insert at h
  split_ifs at h with hc
  rw [contains_iff] at hc
  obtain rfl := Except.ok.inj h
  have hnode : b.cfg.neighbours.find? l = none := by
    rw [Option.eq_none_iff_forall_ne_some]
    exact fun n hn => hc ⟨n, hn⟩
  have hins : b.instructions.find? l = none := by
    rw [Option.eq_none_iff_forall_ne_some]
    exact fun i hi => hc ((hb.instr l).mpr ⟨i, hi⟩)
  have hfind : ∀ x, (b.cfg.neighbours.emplace l ⟨∅, ∅⟩).find? x =
      if x = l then some ⟨∅, ∅⟩ else b.cfg.neighbours.find? x := by
    intro x
    rw [OrdMap.find?_emplace, hnode]
    rfl
  have hinst : ∀ x, (b.instructions.emplace l i).find? x =
      if x = l then some i else b.instructions.find? x := by
    intro x
    rw [OrdMap.find?_emplace, hins]
    rfl
  have hhas : ∀ x, (∃ n, (b.cfg.neighbours.emplace l ⟨∅, ∅⟩).find? x = some n) ↔
      b.Has x ∨ x = l := by
    intro x
    rw [hfind]
    split_ifs with hx
    · simp [hx]
    · rw [or_iff_left hx]
      rfl
  have hedge : ∀ x y, (∃ n, (b.cfg.neighbours.emplace l ⟨∅, ∅⟩).find? x = some n ∧
      n.children.contains y) ↔ b.Edge x y ∨ False := by
    intro x y
    rw [hfind, or_false]
    split_ifs with hx
    · subst hx
      constructor
      · rintro ⟨n, hn, hy⟩
        obtain rfl := Option.some.inj hn
        cases hy
      · intro he
        exact absurd he.source hc
    · rfl
  refine ⟨hc, ⟨hhas, hedge, fun _ => ⟨fun x y => ?_, fun x y he => ?_, fun x => ?_⟩, ?_⟩, ?_⟩
  · rw [show (CfgBuilder.mk (b.instructions.emplace l i) ⟨b.cfg.neighbours.emplace l ⟨∅, ∅⟩⟩).Edge x y
      ↔ b.Edge x y by rw [← or_false (b.Edge x y)]; exact hedge x y, ← hb.parent]
    show (∃ n, (b.cfg.neighbours.emplace l ⟨∅, ∅⟩).find? y = some n ∧ n.parents.contains x) ↔ _
    rw [hfind]
    split_ifs with hy
    · subst hy
      constructor
      · rintro ⟨n, hn, hx⟩
        obtain rfl := Option.some.inj hn
        cases hx
      · rintro ⟨n, hn, _⟩
        cases hnode.symm.trans hn
    · rfl
  · exact (hhas y).mpr (Or.inl (hb.target x y (((hedge x y).mp he).resolve_right id)))
  · show (∃ n, _) ↔ ∃ j, (b.instructions.emplace l i).find? x = some j
    rw [hhas, hinst, hb.instr]
    split_ifs with hx <;> simp [hx]
  · intro x hx
    show (b.instructions.emplace l i).find? x = _
    rw [hinst, if_neg]
    rintro rfl
    exact hc hx
  · show (b.instructions.emplace l i).find? l = _
    rw [hinst, if_pos rfl]

/-! ## Changing edges -/

theorem find?_modify {g g' : Cfg} {f : Adjacent → Adjacent} {e : BuildError}
    (h : g.modify l f e = .ok g') (x : Label) :
    g'.neighbours.find? x = (g.neighbours.find? x).map (if x = l then f else id) := by
  unfold Cfg.modify at h
  split at h
  · next n hn =>
    obtain rfl := Except.ok.inj h
    simp only [OrdMap.find?_insert]
    split_ifs with hx
    · rw [hx, hn, Option.map_some]
    · rw [Option.map_id, id]
  · cases h

theorem exists_of_modify {g g' : Cfg} {f : Adjacent → Adjacent} {e : BuildError}
    (h : g.modify l f e = .ok g') : ∃ n, g.neighbours.find? l = some n := by
  unfold Cfg.modify at h
  split at h
  · next n hn => exact ⟨n, hn⟩
  · cases h

/-- Both ends of an edge are changed. -/
structure Relinks (b b' : CfgBuilder O C) (x y : Label) (f f' : LabelSet → LabelSet) : Prop where
  source : b.Has x
  target : b.Has y
  has : ∀ u, b'.Has u ↔ b.Has u
  edge : ∀ u v, b'.Edge u v ↔ ∃ n, b.cfg.neighbours.find? u = some n ∧
    (if u = x then f n.children else n.children).contains v
  parent : ∀ v u, b'.Parent v u ↔ ∃ n, b.cfg.neighbours.find? u = some n ∧
    (if u = y then f' n.parents else n.parents).contains v
  instr : b'.instructions = b.instructions

theorem relinks_of_modify {g₁ g₂ : Cfg} {e₁ e₂ : BuildError} {f f' : LabelSet → LabelSet}
    (h₁ : b.cfg.modify x (fun n => { n with children := f n.children }) e₁ = .ok g₁)
    (h₂ : g₁.modify y (fun n => { n with parents := f' n.parents }) e₂ = .ok g₂) :
    Relinks b { b with cfg := g₂ } x y f f' := by
  have hfind : ∀ u, g₂.neighbours.find? u = (b.cfg.neighbours.find? u).map fun n =>
      ⟨if u = y then f' n.parents else n.parents,
        if u = x then f n.children else n.children⟩ := by
    intro u
    rw [find?_modify h₂, find?_modify h₁, Option.map_map]
    congr 1
    funext n
    show (if u = y then _ else id) ((if u = x then _ else id) n) = _
    split_ifs <;> rfl
  have hy : ∃ n, b.cfg.neighbours.find? y = some n := by
    obtain ⟨n, hn⟩ := exists_of_modify h₂
    rw [find?_modify h₁] at hn
    obtain ⟨m, hm, -⟩ := Option.map_eq_some_iff.mp hn
    exact ⟨m, hm⟩
  refine ⟨exists_of_modify h₁, hy, fun u => ?_, fun u v => ?_, fun v u => ?_, rfl⟩
  · show (∃ n, g₂.neighbours.find? u = some n) ↔ _
    rw [hfind]
    simp [Option.map_eq_some_iff, Has]
  · show (∃ n, g₂.neighbours.find? u = some n ∧ _) ↔ _
    rw [hfind]
    simp [Option.map_eq_some_iff]
  · show (∃ n, g₂.neighbours.find? u = some n ∧ _) ↔ _
    rw [hfind]
    simp [Option.map_eq_some_iff]

theorem addChild_relinks (h : b.addChild x y = .ok b') :
    Relinks b b' x y (·.insert y ()) (·.insert x ()) := by
  unfold addChild at h
  obtain ⟨g₁, h₁, h⟩ := Except.bind_eq_ok.mp h
  obtain ⟨g₂, h₂, h⟩ := Except.bind_eq_ok.mp h
  obtain rfl := Except.ok.inj h
  exact relinks_of_modify h₁ h₂

theorem removeChild_relinks (h : b.removeChild x y = .ok b') :
    Relinks b b' x y (·.erase y) (·.erase x) := by
  unfold removeChild at h
  obtain ⟨g₁, h₁, h⟩ := Except.bind_eq_ok.mp h
  obtain ⟨g₂, h₂, h⟩ := Except.bind_eq_ok.mp h
  obtain rfl := Except.ok.inj h
  exact relinks_of_modify h₁ h₂

theorem addChild_spec (h : b.addChild x y = .ok b') :
    b.Has x ∧ b.Has y ∧ Adds b b' (fun _ => False) fun u v => u = x ∧ v = y := by
  have hr := addChild_relinks h
  have hedge : ∀ u v, b'.Edge u v ↔ b.Edge u v ∨ u = x ∧ v = y := by
    intro u v
    rw [hr.edge]
    obtain ⟨n, hn⟩ := hr.source
    by_cases hu : u = x
    · subst hu
      simp [hn, Edge, contains_insert, or_comm]
    · simp [hu, Edge]
  refine ⟨hr.source, hr.target, fun u => by rw [hr.has, or_false], hedge, fun hb => ?_,
    fun u _ => by rw [hr.instr]⟩
  refine ⟨fun u v => ?_, fun u v he => ?_, fun u => ?_⟩
  · rw [hedge, hr.parent, ← hb.parent]
    obtain ⟨n, hn⟩ := hr.target
    by_cases hv : v = y
    · subst hv
      simp [hn, Parent, contains_insert, or_comm]
    · simp [hv, Parent]
  · rw [hr.has]
    rcases (hedge u v).mp he with he | ⟨-, rfl⟩
    · exact hb.target u v he
    · exact hr.target
  · rw [hr.has, hr.instr, hb.instr]

theorem removeChild_spec (h : b.removeChild x y = .ok b') (hb : b.Consistent) :
    (∀ u, b'.Has u ↔ b.Has u) ∧ (∀ u v, b'.Edge u v ↔ b.Edge u v ∧ ¬ (u = x ∧ v = y)) ∧
      b'.Consistent ∧ b'.instructions = b.instructions := by
  have hr := removeChild_relinks h
  have hedge : ∀ u v, b'.Edge u v ↔ b.Edge u v ∧ ¬ (u = x ∧ v = y) := by
    intro u v
    rw [hr.edge]
    by_cases hu : u = x
    · subst hu
      simp only [if_true, contains_erase, true_and, Edge]
      constructor
      · rintro ⟨n, hn, hv, hc⟩
        exact ⟨⟨n, hn, hc⟩, hv⟩
      · rintro ⟨⟨n, hn, hc⟩, hv⟩
        exact ⟨n, hn, hv, hc⟩
    · simp [hu, Edge]
  refine ⟨hr.has, hedge, ⟨fun u v => ?_, fun u v he => ?_, fun u => ?_⟩, hr.instr⟩
  · rw [hedge, hr.parent, ← hb.parent]
    by_cases hv : v = y
    · subst hv
      simp only [if_true, contains_erase, and_true, Parent]
      constructor
      · rintro ⟨n, hn, hu, hc⟩
        exact ⟨⟨n, hn, hc⟩, hu⟩
      · rintro ⟨⟨n, hn, hc⟩, hu⟩
        exact ⟨n, hn, hu, hc⟩
    · simp [hv, Parent]
  · rw [hr.has]
    exact hb.target u v ((hedge u v).mp he).1
  · rw [hr.has, hr.instr, hb.instr]

/-- Noting the frame of a call changes no label and no edge. -/
theorem setFrame_spec {caller : Label} (h : b.setFrame caller = .ok b') :
    b'.cfg = b.cfg ∧ (∀ x ≠ caller, b'.instructions.find? x = b.instructions.find? x) ∧
      (∃ i, b.instructions.find? caller = some i) ∧
      ∃ i, b'.instructions.find? caller = some i := by
  unfold setFrame at h
  obtain ⟨i, hi, h⟩ := Except.bind_eq_ok.mp h
  have hi := instructionAt_eq_ok.mp hi
  split at h
  · next t f =>
    obtain rfl := Except.ok.inj h
    exact ⟨rfl, fun x hx => OrdMap.find?_insert_of_ne hx _, ⟨_, hi⟩,
      ⟨_, OrdMap.find?_insert_self _ _ _⟩⟩
  · obtain rfl := Except.ok.inj h
    exact ⟨rfl, fun _ _ => rfl, ⟨_, hi⟩, ⟨_, hi⟩⟩

/-- The frame is noted in a call, whose target stays. -/
theorem setFrame_call {caller x t : Label} {f : Frame} (h : b.setFrame caller = .ok b')
    (hx : b'.instructions.find? x = some (.callLocal t f)) :
    ∃ f', b.instructions.find? x = some (.callLocal t f') := by
  by_cases hne : x = caller
  · subst hne
    unfold setFrame at h
    obtain ⟨i, hi, h⟩ := Except.bind_eq_ok.mp h
    rw [instructionAt_eq_ok] at hi
    split at h
    · next t' f' =>
      obtain rfl := Except.ok.inj h
      have hself := (OrdMap.find?_insert_self b.instructions x _).symm.trans hx
      obtain ⟨rfl, -⟩ := Instruction.callLocal.inj (Option.some.inj hself)
      exact ⟨f', hi⟩
    · obtain rfl := Except.ok.inj h
      exact ⟨f, hx⟩
  · rw [(setFrame_spec h).2.1 x hne] at hx
    exact ⟨f, hx⟩

end CfgBuilder

end Prevail
