import Prevail.Ir.CfgShape

/-!
# The walk over a function that is inlined

One step of the walk copies one label (`walkLabel_spec`): it adds the copy, the edges from the
copies of its predecessors that are there already, and the edge to the return label if the label
leads to the exit. It queues the successors that are not seen.
-/

namespace Prevail

namespace CfgBuilder

variable {O C : Type} {b b' : CfgBuilder O C} {f : Frame} {caller exitTo m : Label}
  {st st' : Walk O C}

theorem linkParents_spec (h : b.linkParents f m = .ok b') (hb : b.Consistent) :
    Adds b b' (fun _ => False) fun x y =>
      y = m.inFrame f ∧ ∃ p, b.Edge p m ∧ x = p.inFrame f ∧ b.Has (p.inFrame f) := by
  unfold linkParents at h
  obtain ⟨ls, hls, h⟩ := Except.bind_eq_ok.mp h
  have hmem : ∀ p, p ∈ ls ↔ b.Edge p m := fun p => (parentsOf_eq_ok hls p).trans (hb.parent p m)
  have key := Except.foldlM_induction (fun done b' => Adds b b' (fun _ => False) fun x y =>
      y = m.inFrame f ∧ ∃ p ∈ done, x = p.inFrame f ∧ b.Has (p.inFrame f)) h
    ((Adds.refl b).congr (fun _ => Iff.rfl) (by simp)) ?_
  · refine key.congr (fun _ => Iff.rfl) fun x y => ?_
    simp only [hmem]
  · intro done p b₁ b₂ _ h₁ h₂
    have hhas : b₁.cfg.contains (p.inFrame f) ↔ b.Has (p.inFrame f) := by
      rw [contains_iff, h₁.has, or_false]
    split_ifs at h₂ with hc
    · obtain ⟨-, -, hadd⟩ := addChild_spec h₂
      refine (h₁.trans hadd).congr (by simp) fun x y => ?_
      simp only [List.mem_append, List.mem_singleton]
      constructor
      · rintro (⟨rfl, q, hq, rfl, hb⟩ | ⟨rfl, rfl⟩)
        · exact ⟨rfl, q, Or.inl hq, rfl, hb⟩
        · exact ⟨rfl, p, Or.inr rfl, rfl, hhas.mp hc⟩
      · rintro ⟨rfl, q, hq | rfl, rfl, hb⟩
        · exact Or.inl ⟨rfl, q, hq, rfl, hb⟩
        · exact Or.inr ⟨rfl, rfl⟩
    · obtain rfl := Except.ok.inj h₂
      refine h₁.congr (fun _ => Iff.rfl) fun x y => ?_
      simp only [List.mem_append, List.mem_singleton]
      constructor
      · rintro ⟨rfl, q, hq, rfl, hb⟩
        exact ⟨rfl, q, Or.inl hq, rfl, hb⟩
      · rintro ⟨rfl, q, hq | rfl, rfl, hb⟩
        · exact ⟨rfl, q, hq, rfl, hb⟩
        · exact absurd (hhas.mpr hb) hc

/-- What the successors in `done` have changed. -/
structure WalkChildren (f : Frame) (exitTo m : Label) (st : Walk O C) (done : List Label)
    (st' : Walk O C) : Prop where
  adds : Adds st.builder st'.builder (fun _ => False) fun x y =>
    x = m.inFrame f ∧ y = exitTo ∧ .exit ∈ done
  first : st'.first = st.first
  macroSub : ∀ x, st'.macroLabels.contains x → st.macroLabels.contains x ∨
    x ∈ done ∧ x ≠ .exit ∧ ¬ st.seenLabels.contains x
  macroKeep : ∀ x, st.macroLabels.contains x → st'.macroLabels.contains x
  macroPush : ∀ x ∈ done, x ≠ .exit → ¬ st.seenLabels.contains x → x ≠ m →
    st'.macroLabels.contains x
  seenSub : ∀ x, st'.seenLabels.contains x → st.seenLabels.contains x ∨ x = m
  seenKeep : ∀ x, st.seenLabels.contains x → st'.seenLabels.contains x
  seenAdd : ∀ x ∈ done, x ≠ .exit → ¬ st.seenLabels.contains x → st'.seenLabels.contains m
  seenWhy : st'.seenLabels.contains m → st.seenLabels.contains m ∨
    ∃ x ∈ done, x ≠ .exit ∧ ¬ st.seenLabels.contains x ∧ st'.macroLabels.contains x
  self : m ∈ done → m ≠ .exit → ¬ st.seenLabels.contains m → (st'.macroLabels.contains m ↔
    st.macroLabels.contains m ∨ ∀ y ∈ done, y < m → y ≠ .exit → st.seenLabels.contains y)

/-- A label that is its own successor is queued again, unless a smaller successor has made it seen. -/
theorem WalkChildren.step_self {done : List Label} {st₁ st₂ : Walk O C} {n : Label}
    (h : WalkChildren f exitTo m st done st₁) (hn : walkChild f exitTo m st₁ n = .ok st₂)
    (hlt : ∀ x ∈ done, x < n) (hm : m ∈ done ++ [n]) (hexit : m ≠ .exit)
    (hnew : ¬ st.seenLabels.contains m) : st₂.macroLabels.contains m ↔
      st.macroLabels.contains m ∨ ∀ y ∈ done ++ [n], y < m → y ≠ .exit → st.seenLabels.contains y := by
  have hbefore : m ∈ done → ((∀ y ∈ done ++ [n], y < m → y ≠ .exit → st.seenLabels.contains y) ↔
      ∀ y ∈ done, y < m → y ≠ .exit → st.seenLabels.contains y) := by
    intro hmd
    simp only [List.forall_mem_append, List.forall_mem_singleton, and_iff_left_iff_imp]
    exact fun _ hnm => absurd (hlt m hmd) hnm.not_gt
  have hlast : n = m → m ∉ done := by
    rintro rfl hmd
    exact lt_irrefl _ (hlt n hmd)
  have hmem : n ≠ m → m ∈ done := fun hne => by
    simpa [hne.symm] using hm
  unfold walkChild at hn
  split_ifs at hn with hnexit hseen
  · -- an exit transition
    obtain ⟨b, hb, hn⟩ := Except.bind_eq_ok.mp hn
    obtain rfl := Except.ok.inj hn
    have hmd := hmem fun heq => hexit (heq ▸ hnexit)
    rw [hbefore hmd]
    exact h.self hmd hexit hnew
  · -- an unprocessed successor
    obtain rfl := Except.ok.inj hn
    rw [contains_insert]
    by_cases heq : n = m
    · refine iff_of_true (Or.inl heq.symm) (Or.inr fun y hy hym hye => ?_)
      have hyd : y ∈ done := by simpa [heq, hym.ne] using hy
      by_contra hys
      refine absurd (h.seenAdd y hyd hye hys) ?_
      rw [← heq]
      simpa using hseen
    · rw [or_iff_right (Ne.symm heq), hbefore (hmem heq)]
      exact h.self (hmem heq) hexit hnew
  · -- a successor that is seen
    obtain rfl := Except.ok.inj hn
    by_cases heq : n = m
    · subst heq
      have hnd := hlast rfl
      obtain ⟨y, hyd, hye, hys, -⟩ := (h.seenWhy (by simpa using hseen)).resolve_left hnew
      rw [or_iff_left fun hall => hys (hall y (List.mem_append_left _ hyd) (hlt y hyd) hye)]
      exact ⟨fun hq => (h.macroSub n hq).resolve_right fun hc => hnd hc.1, h.macroKeep n⟩
    · rw [hbefore (hmem heq)]
      exact h.self (hmem heq) hexit hnew

theorem WalkChildren.step {done : List Label} {st₁ st₂ : Walk O C} {n : Label}
    (h : WalkChildren f exitTo m st done st₁) (hn : walkChild f exitTo m st₁ n = .ok st₂)
    (hlt : ∀ x ∈ done, x < n) : WalkChildren f exitTo m st (done ++ [n]) st₂ := by
  have hself := h.step_self hn hlt
  have hmem : ∀ x, x ∈ done ++ [n] ↔ x ∈ done ∨ x = n := by simp
  have hwhy : st₁.seenLabels.contains m → st.seenLabels.contains m ∨ ∃ x ∈ done ++ [n], x ≠ .exit ∧
      ¬ st.seenLabels.contains x ∧ st₁.macroLabels.contains x := by
    refine fun hm => (h.seenWhy hm).imp_right ?_
    rintro ⟨x, hx, hrest⟩
    exact ⟨x, (hmem x).mpr (Or.inl hx), hrest⟩
  unfold walkChild at hn
  split_ifs at hn with hexit hseen
  · -- an exit transition
    obtain ⟨b, hb, hn⟩ := Except.bind_eq_ok.mp hn
    obtain rfl := Except.ok.inj hn
    obtain ⟨-, -, hadd⟩ := addChild_spec hb
    subst hexit
    refine ⟨(h.adds.trans hadd).congr (by simp) fun x y => ?_, h.first, fun x hx => ?_, h.macroKeep,
      fun x hx hne => ?_, h.seenSub, h.seenKeep, fun x hx hne => ?_, hwhy, hself⟩
    · simp only [hmem, or_true, and_true]
      tauto
    · exact (h.macroSub x hx).imp_right fun ⟨hx, hrest⟩ => ⟨(hmem x).mpr (Or.inl hx), hrest⟩
    · exact h.macroPush x (((hmem x).mp hx).resolve_right hne) hne
    · exact h.seenAdd x (((hmem x).mp hx).resolve_right hne) hne
  · -- an unprocessed successor
    obtain rfl := Except.ok.inj hn
    have hns : ¬ st₁.seenLabels.contains n := by simpa using hseen
    refine ⟨h.adds.congr (fun _ => Iff.rfl) fun x y => ?_, h.first, fun x hx => ?_, fun x hx => ?_,
      fun x hx hne hs hxm => ?_, fun x hx => ?_, fun x hx => ?_, fun x hx hne hs => ?_, fun _ => ?_, hself⟩
    · rw [hmem, or_iff_left (Ne.symm hexit)]
    · rcases contains_insert.mp hx with rfl | hx
      · exact Or.inr ⟨(hmem _).mpr (Or.inr rfl), hexit, fun hs => hns (h.seenKeep _ hs)⟩
      · exact (h.macroSub x hx).imp_right fun ⟨hx, hrest⟩ => ⟨(hmem x).mpr (Or.inl hx), hrest⟩
    · exact contains_insert.mpr (Or.inr (h.macroKeep x hx))
    · refine contains_insert.mpr (((hmem x).mp hx).symm.imp_right fun hx => ?_)
      exact h.macroPush x hx hne hs hxm
    · rcases contains_insert.mp hx with rfl | hx
      · exact Or.inr rfl
      · exact h.seenSub x hx
    · exact contains_insert.mpr (Or.inr (h.seenKeep x hx))
    · exact contains_insert.mpr (Or.inl rfl)
    · exact Or.inr ⟨n, (hmem n).mpr (Or.inr rfl), hexit, fun hs => hns (h.seenKeep n hs),
        contains_insert.mpr (Or.inl rfl)⟩
  · -- a successor that is seen
    obtain rfl := Except.ok.inj hn
    have hs₁ : st₁.seenLabels.contains n := by simpa using hseen
    refine ⟨h.adds.congr (fun _ => Iff.rfl) fun x y => ?_, h.first, fun x hx => ?_, h.macroKeep,
      fun x hx hne hs hxm => ?_, h.seenSub, h.seenKeep, fun x hx hne hs => ?_, hwhy, hself⟩
    · rw [hmem, or_iff_left (Ne.symm hexit)]
    · exact (h.macroSub x hx).imp_right fun ⟨hx, hrest⟩ => ⟨(hmem x).mpr (Or.inl hx), hrest⟩
    · rcases (hmem x).mp hx with hx | rfl
      · exact h.macroPush x hx hne hs hxm
      · exact absurd (h.seenSub x hs₁) (not_or.mpr ⟨hs, hxm⟩)
    · rcases (hmem x).mp hx with hx | rfl
      · exact h.seenAdd x hx hne hs
      · exact ((h.seenSub x hs₁).resolve_left hs) ▸ hs₁

theorem walkChildren_spec {ls : List Label} (h : ls.foldlM (walkChild f exitTo m) st = .ok st')
    (hsorted : ls.Pairwise (· < ·)) : WalkChildren f exitTo m st ls st' := by
  refine Except.foldlM_induction (WalkChildren f exitTo m st) h ?_ fun done x st₁ st₂ hpre h₁ h₂ =>
    h₁.step h₂ fun y hy => ?_
  · exact ⟨(Adds.refl _).congr (fun _ => Iff.rfl) (by simp), rfl, fun _ => Or.inl, fun _ => id,
      by simp, fun _ => Or.inl, fun _ => id, by simp, Or.inl, by simp⟩
  · exact (List.pairwise_append.mp (hsorted.sublist hpre.sublist)).2.2 y hy x (by simp)

/-- The edges that come with the copy of `m`. -/
def CopyEdge (caller exitTo : Label) (st : Walk O C) (m x y : Label) : Prop :=
  (st.first ∧ x = caller ∧ y = m.inFrame caller.frame) ∨
  (y = m.inFrame caller.frame ∧ ∃ p, st.builder.Edge p m ∧ x = p.inFrame caller.frame ∧
    (st.builder.Has (p.inFrame caller.frame) ∨ p.inFrame caller.frame = m.inFrame caller.frame)) ∨
  (x = m.inFrame caller.frame ∧ y = exitTo ∧ st.builder.Edge m .exit)

/-- One step of the walk. -/
structure WalkLabel (caller exitTo : Label) (st : Walk O C) (m : Label) (st' : Walk O C) :
    Prop where
  frame : caller.frame ≠ m.stackFramePrefix
  instr : ∃ i, st.builder.instructions.find? m = some i ∧
    st'.builder.instructions.find? (m.inFrame caller.frame) = some (cloneInstruction caller.frame i)
  fresh : ¬ st.builder.Has (m.inFrame caller.frame)
  adds : Adds st.builder st'.builder (· = m.inFrame caller.frame) (CopyEdge caller exitTo st m)
  first : st'.first = false
  macroSub : ∀ x, st'.macroLabels.contains x → st.macroLabels.contains x ∨
    (st.builder.Edge m x ∨ st.first ∧ m = caller ∧ x = m.inFrame caller.frame) ∧ x ≠ .exit ∧
      ¬ st.seenLabels.contains x
  macroKeep : ∀ x, st.macroLabels.contains x → st'.macroLabels.contains x
  macroPush : ∀ x, st.builder.Edge m x → x ≠ .exit → ¬ st.seenLabels.contains x → x ≠ m →
    st'.macroLabels.contains x
  macroFirst : st.first → m = caller → ¬ st.seenLabels.contains (m.inFrame caller.frame) →
    st'.macroLabels.contains (m.inFrame caller.frame)
  macroSelf : m ≠ caller → m ≠ .exit → st.builder.Edge m m → ¬ st.seenLabels.contains m →
    (st'.macroLabels.contains m ↔ st.macroLabels.contains m ∨
      ∀ y, st.builder.Edge m y → y < m → y ≠ .exit → st.seenLabels.contains y)
  seenSub : ∀ x, st'.seenLabels.contains x → st.seenLabels.contains x ∨ x = m
  seenKeep : ∀ x, st.seenLabels.contains x → st'.seenLabels.contains x
  seenAdd : ∀ x, st.builder.Edge m x → x ≠ .exit → ¬ st.seenLabels.contains x →
    st'.seenLabels.contains m
  seenWhy : st'.seenLabels.contains m → st.seenLabels.contains m ∨ m = caller ∨
    ∃ x, st.builder.Edge m x ∧ x ≠ .exit ∧ ¬ st.seenLabels.contains x ∧ st'.macroLabels.contains x

theorem linkCaller_spec {c : Bool} (h : b.linkCaller c caller m = .ok b') :
    Adds b b' (fun _ => False) fun x y => c ∧ x = caller ∧ y = m := by
  unfold linkCaller at h
  split_ifs at h with hc
  · obtain ⟨-, -, hadd⟩ := addChild_spec h
    exact hadd.congr (fun _ => Iff.rfl) fun x y => by simp [hc]
  · obtain rfl := Except.ok.inj h
    exact (Adds.refl b).congr (fun _ => Iff.rfl) fun x y => by simp [hc]

theorem walkLabel_spec (h : walkLabel caller exitTo st m = .ok st') (hb : st.builder.Consistent) :
    WalkLabel caller exitTo st m st' := by
  unfold walkLabel at h
  simp only at h
  by_cases hf : caller.frame = m.stackFramePrefix
  · rw [if_pos hf] at h
    cases h
  rw [if_neg hf] at h
  obtain ⟨i, hi, h⟩ := Except.bind_eq_ok.mp h
  have hi := instructionAt_eq_ok.mp hi
  obtain ⟨b₁, h₁, h⟩ := Except.bind_eq_ok.mp h
  obtain ⟨hfresh, hadd₁, hinstr⟩ := insert_spec h₁ hb
  obtain ⟨b₂, h₂, h⟩ := Except.bind_eq_ok.mp h
  have hadd₂ := linkCaller_spec h₂
  obtain ⟨b₃, h₃, h⟩ := Except.bind_eq_ok.mp h
  have hb₁ := hadd₁.consistent hb
  have hb₂ := hadd₂.consistent hb₁
  have hadd₃ := linkParents_spec h₃ hb₂
  obtain ⟨ls, hls, h⟩ := Except.bind_eq_ok.mp h
  have hchildren := walkChildren_spec h (childrenOf_sorted hls)
  -- `m` is not in the new frame, so that the walk sees its old neighbours
  have hne : ∀ x : Label, m ≠ x.inFrame caller.frame := by
    rintro x hx
    exact hf (by rw [hx, Label.inFrame_stackFramePrefix])
  have hparent : ∀ p, b₂.Edge p m ↔ st.builder.Edge p m := by
    intro p
    rw [hadd₂.edge, hadd₁.edge]
    simp [hne]
  have hhas : ∀ x, b₂.Has x ↔ st.builder.Has x ∨ x = m.inFrame caller.frame := by
    intro x
    rw [hadd₂.has, hadd₁.has, or_false]
  have hchild : ∀ x, x ∈ ls ↔
      st.builder.Edge m x ∨ st.first ∧ m = caller ∧ x = m.inFrame caller.frame := by
    intro x
    rw [childrenOf_eq_ok hls, hadd₃.edge, hadd₂.edge, hadd₁.edge]
    simp [hne]
  have hexit : Label.exit ∈ ls ↔ st.builder.Edge m .exit := by
    rw [hchild, or_iff_left]
    rintro ⟨-, -, hx⟩
    exact m.inFrame_frame_ne_exit caller hx.symm
  have hadds := ((hadd₁.trans hadd₂).trans hadd₃).trans hchildren.adds
  refine ⟨hf, ⟨i, hi, ?_⟩, hfresh, hadds.congr (by simp) fun x y => ?_, hchildren.first,
    fun x hx => ?_, hchildren.macroKeep, fun x hx => ?_, fun hfirst hc => ?_,
    fun hc hexit hself hs => ?_, hchildren.seenSub, hchildren.seenKeep, fun x hx => ?_, fun hm => ?_⟩
  · have hkeep := (hadd₂.trans hadd₃).trans hchildren.adds
    rw [hkeep.instr _ ((hadd₁.has _).mpr (Or.inr rfl)), hinstr]
  · unfold CopyEdge
    simp only [false_or, hparent, hhas, hexit]
    exact or_assoc
  · rw [← hchild]
    exact hchildren.macroSub x hx
  · exact hchildren.macroPush x ((hchild x).mpr (Or.inl hx))
  · exact fun hs => hchildren.macroPush _ ((hchild _).mpr (Or.inr ⟨hfirst, hc, rfl⟩))
      (m.inFrame_frame_ne_exit caller) hs (hne m).symm
  · have hchild' : ∀ x, x ∈ ls ↔ st.builder.Edge m x := fun x => by
      rw [hchild, or_iff_left fun hx => hc hx.2.1]
    simp only [hchildren.self ((hchild' m).mpr hself) hexit hs, hchild']
  · exact hchildren.seenAdd x ((hchild x).mpr (Or.inl hx))
  · refine (hchildren.seenWhy hm).imp_right ?_
    rintro ⟨x, hx, hrest⟩
    rcases (hchild x).mp hx with hx | ⟨-, hc, -⟩
    · exact Or.inr ⟨x, hx, hrest⟩
    · exact Or.inl hc

/-- The labels of a set come smallest first. -/
theorem least_of_keys {s : LabelSet} {rest : List Label} (h : s.keys = m :: rest) :
    s.contains m ∧ ∀ x, s.contains x → m ≤ x := by
  refine ⟨?_, fun x hx => ?_⟩
  · rw [← mem_set, h]
    exact List.mem_cons_self
  · rw [← mem_set, h, List.mem_cons] at hx
    rcases hx with rfl | hx
    · exact le_rfl
    · have hsorted := s.sorted_keys
      rw [h] at hsorted
      exact (List.pairwise_cons.mp hsorted).1 x hx |>.le

/-- What holds at the start and is kept by every step holds after the walk, with nothing left to
do. The step takes the smallest label. -/
theorem walk_induction {fuel : ℕ} (P : List Label → Walk O C → Prop)
    (h : walk caller exitTo fuel st = .ok st') (h0 : P [] st)
    (hc : ∀ done st, P done st → st.builder.Consistent)
    (hstep : ∀ done st st' m, P done st → st.macroLabels.contains m →
      (∀ x, st.macroLabels.contains x → m ≤ x) →
      WalkLabel caller exitTo { st with macroLabels := st.macroLabels.erase m } m st' →
      P (done ++ [m]) st') :
    ∃ done, P done st' ∧ ∀ x, ¬ st'.macroLabels.contains x := by
  suffices key : ∀ fuel done st, P done st → walk caller exitTo fuel st = .ok st' →
      ∃ done, P done st' ∧ ∀ x, ¬ st'.macroLabels.contains x from key fuel [] st h0 h
  clear h h0
  intro fuel
  induction fuel with
  | zero =>
    intro done st _ h
    cases h
  | succ fuel ih =>
    intro done st hP h
    unfold walk at h
    split at h
    · next hnil =>
      obtain rfl := Except.ok.inj h
      refine ⟨done, hP, fun x hx => ?_⟩
      rw [← mem_set, hnil] at hx
      cases hx
    · next l rest hcons =>
      obtain ⟨st₁, h₁, h⟩ := Except.bind_eq_ok.mp h
      obtain ⟨hl, hmin⟩ := least_of_keys hcons
      exact ih (done ++ [l]) st₁ (hstep done st st₁ l hP hl hmin (walkLabel_spec h₁ (hc done st hP))) h

/-! ## The walk changes nothing outside its frame -/

/-- What the walk has done after it copied the labels `done`, whatever the graph looks like. -/
structure Copied (b : CfgBuilder O C) (caller entry exitTo : Label) (done : List Label)
    (st : Walk O C) : Prop where
  consistent : st.builder.Consistent
  nodup : (done.map (·.inFrame caller.frame)).Nodup
  start : done = [] → ∀ x, st.macroLabels.contains x ↔ x = entry
  first : st.first = true ↔ done = []
  entryDone : done ≠ [] → entry ∈ done
  seen : ∀ x, st.seenLabels.contains x → x ∈ done ∨ x = entry
  has : ∀ x, st.builder.Has x ↔ b.Has x ∨ ∃ m ∈ done, x = m.inFrame caller.frame
  edgeOld : ∀ x y, b.Edge x y → st.builder.Edge x y
  edgeNew : ∀ x y, st.builder.Edge x y → b.Edge x y ∨
    (x = caller ∧ y = entry.inFrame caller.frame) ∨
    x.stackFramePrefix = caller.frame ∧ (y.stackFramePrefix = caller.frame ∨ y = exitTo)
  call : done ≠ [] → st.builder.Edge caller (entry.inFrame caller.frame)
  instr : ∀ x, b.Has x → st.builder.instructions.find? x = b.instructions.find? x

theorem Copied.step {entry : Label} {done : List Label}
    (h : Copied b caller entry exitTo done st) (hm : st.macroLabels.contains m)
    (hs : WalkLabel caller exitTo { st with macroLabels := st.macroLabels.erase m } m st') :
    Copied b caller entry exitTo (done ++ [m]) st' := by
  have hhas : ∀ x, st'.builder.Has x ↔ b.Has x ∨ ∃ l ∈ done ++ [m], x = l.inFrame caller.frame := by
    intro x
    rw [hs.adds.has, h.has, or_assoc]
    simp [or_and_right, exists_or]
  have hfirst : st.first = true → m = entry := fun hf => (h.start (h.first.mp hf) m).mp hm
  refine ⟨hs.adds.consistent h.consistent, ?_, by simp, by simp [hs.first], fun _ => ?_,
    fun x hx => ?_, hhas, fun x y hxy => ?_, fun x y hxy => ?_, fun _ => ?_, fun x hx => ?_⟩
  · rw [List.map_append, List.map_singleton, List.nodup_append]
    refine ⟨h.nodup, by simp, ?_⟩
    intro x hx y hy hxy
    obtain ⟨l, hl, rfl⟩ := List.mem_map.mp hx
    rw [List.mem_singleton.mp hy] at hxy
    exact hs.fresh ((h.has _).mpr (Or.inr ⟨l, hl, hxy.symm⟩))
  · by_cases hd : done = []
    · rw [hfirst (h.first.mpr hd)]
      simp
    · exact List.mem_append_left _ (h.entryDone hd)
  · rcases hs.seenSub x hx with hx | rfl
    · exact (h.seen x hx).imp_left (List.mem_append_left _)
    · exact Or.inl (by simp)
  · exact (hs.adds.edge x y).mpr (Or.inl (h.edgeOld x y hxy))
  · rcases (hs.adds.edge x y).mp hxy with hxy | ⟨hf, rfl, rfl⟩ | ⟨rfl, p, -, rfl, -⟩ | ⟨rfl, rfl, -⟩
    · exact h.edgeNew x y hxy
    · exact Or.inr (Or.inl ⟨rfl, by rw [hfirst hf]⟩)
    · exact Or.inr (Or.inr ⟨rfl, Or.inl rfl⟩)
    · exact Or.inr (Or.inr ⟨rfl, Or.inr rfl⟩)
  · rw [hs.adds.edge]
    by_cases hd : done = []
    · have hf := h.first.mpr hd
      exact Or.inr (Or.inl ⟨hf, rfl, by rw [hfirst hf]⟩)
    · exact Or.inl (h.call hd)
  · rw [hs.adds.instr x ((h.has x).mpr (Or.inl hx)), h.instr x hx]

end CfgBuilder

end Prevail
