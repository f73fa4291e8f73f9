import Mathlib.Logic.Relation
import Mathlib.Tactic.Order
import Prevail.Cfg.Wto

/-!
# The invariant of the depth-first search

A label is new (number `0`), on the stack, or done (number `⊤`). The numbers fall along the stack.
A label on the stack with a head is completed: its successors have been seen, its head is at most
the number of each of them that is on the stack (`low`), and below every number above the head there
is an edge that leads below that number (`cross`).

`Inv.of_frame` is the step that takes labels off the stack, `exists_cross` finds the edge by which a
completed part of the stack reaches below itself.
-/

namespace Prevail

namespace Cfg

variable {g : Cfg} {x y : Label}

/-- The children of a label. -/
def succs (g : Cfg) (x : Label) : List Label :=
  match g.neighbours.find? x with
  | some n => n.children.keys
  | none => []

/-- The graph has an entry and its edges lead to labels. -/
structure Closed (g : Cfg) : Prop where
  entry : .entry ∈ g.labels
  succ : ∀ x ∈ g.labels, ∀ y ∈ g.succs x, y ∈ g.labels

/-- The label is reachable from the entry. -/
abbrev Reachable (g : Cfg) (x : Label) : Prop :=
  Relation.ReflTransGen (fun x y => y ∈ g.succs x) .entry x

theorem childrenOf_eq_succs (hx : x ∈ g.labels) : g.childrenOf x = .ok (g.succs x) := by
  obtain ⟨n, hn⟩ := OrdMap.mem_keys.mp hx
  unfold childrenOf getNode succs
  rw [hn]
  rfl

end Cfg

namespace WtoBuilder

variable {g : Cfg} {b b' : WtoBuilder} {v x y z : Label} {c : Option Label}

def dfn (b : WtoBuilder) (v : Label) : WithTop ℕ := (b.data v).dfn

def headDfn (b : WtoBuilder) (v : Label) : WithTop ℕ := (b.data v).headDfn

def Seen (b : WtoBuilder) (v : Label) : Prop := b.dfn v ≠ 0

def Done (b : WtoBuilder) (v : Label) : Prop := b.dfn v = ⊤

theorem Done.seen (h : b.Done v) : b.Seen v := by
  intro h0
  exact WithTop.top_ne_zero (h.symm.trans h0)

theorem data_setData (b : WtoBuilder) (v : Label) (d : WtoVertexData) (x : Label) :
    (b.setData v d).data x = if x = v then d else b.data x := by
  unfold data setData
  rw [OrdMap.find?_insert]
  split_ifs <;> rfl

theorem seen_of_data (h : b'.data v = b.data v) : b'.Seen v ↔ b.Seen v := by
  unfold Seen dfn
  rw [h]

theorem done_of_data (h : b'.data v = b.data v) : b'.Done v ↔ b.Done v := by
  unfold Done dfn
  rw [h]

/-- What holds of a label on the stack once it has a head. -/
structure Completed (g : Cfg) (b : WtoBuilder) (v : Label) : Prop where
  lt : b.headDfn v < b.dfn v
  seen : ∀ y ∈ g.succs v, b.Seen y
  low : ∀ y ∈ g.succs v, y ∈ b.stack → b.headDfn v ≤ b.dfn y
  cross : ∀ d, b.headDfn v < d → d ≤ b.dfn v →
    ∃ x ∈ b.stack, ∃ z ∈ b.stack, z ∈ g.succs x ∧ d ≤ b.dfn x ∧ b.dfn z < d

structure Inv (g : Cfg) (b : WtoBuilder) : Prop where
  label : ∀ v, b.Seen v → v ∈ g.labels
  mem_stack : ∀ v, v ∈ b.stack ↔ b.Seen v ∧ ¬ b.Done v
  sorted : b.stack.Pairwise fun x y => b.dfn y < b.dfn x
  le_num : ∀ v ∈ b.stack, b.dfn v ≤ b.num
  head_new : ∀ v, ¬ b.Seen v → b.headDfn v = 0
  completed : ∀ v ∈ b.stack, b.headDfn v ≠ 0 → Completed g b v
  unplaced : ∀ v, ¬ b.Done v →
    b.wto.containingCycle.find? v = none ∧ b.wto.cycles.find? v = none

theorem Inv.nodup (h : Inv g b) : b.stack.Nodup :=
  h.sorted.imp fun hab heq => by
    subst heq
    exact lt_irrefl _ hab

/-- The numbers decide everything but the open partitions. -/
theorem Inv.congr (h : Inv g b) (hdata : ∀ v, b'.data v = b.data v) (hstack : b'.stack = b.stack)
    (hnum : b'.num = b.num) (hwto : ∀ v, ¬ b.Done v →
      b'.wto.containingCycle.find? v = none ∧ b'.wto.cycles.find? v = none) : Inv g b' := by
  have hdfn : b'.dfn = b.dfn := by
    funext v
    exact congrArg WtoVertexData.dfn (hdata v)
  have hhead : b'.headDfn = b.headDfn := by
    funext v
    exact congrArg WtoVertexData.headDfn (hdata v)
  have hseen : b'.Seen = b.Seen := by
    funext v
    exact propext (seen_of_data (hdata v))
  have hdone : b'.Done = b.Done := by
    funext v
    exact propext (done_of_data (hdata v))
  have hcompleted : ∀ v, Completed g b v → Completed g b' v := fun v hv =>
    ⟨by rw [hdfn, hhead]; exact hv.lt, by rw [hseen]; exact hv.seen,
      by rw [hdfn, hhead, hstack]; exact hv.low, by rw [hdfn, hhead, hstack]; exact hv.cross⟩
  refine ⟨?_, ?_, ?_, ?_, ?_, ?_, ?_⟩
  · rw [hseen]
    exact h.label
  · rw [hseen, hdone, hstack]
    exact h.mem_stack
  · rw [hdfn, hstack]
    exact h.sorted
  · rw [hdfn, hstack, hnum]
    exact h.le_num
  · rw [hseen, hhead]
    exact h.head_new
  · rw [hstack, hhead]
    exact fun v hv hv0 => hcompleted v (h.completed v hv hv0)
  · rw [hdone]
    exact hwto

/-- The stack is what it was, and what was not seen before is done or still new. -/
theorem Inv.of_frame (h : Inv g b) (hlabel : ∀ v, b'.Seen v → v ∈ g.labels)
    (hstack : b'.stack = b.stack) (hdata : ∀ v, b.Seen v → b'.data v = b.data v)
    (hnew : ∀ v, ¬ b.Seen v → b'.Done v ∨ ¬ b'.Seen v ∧ b'.headDfn v = 0) (hnum : b.num ≤ b'.num)
    (hwto : ∀ v, ¬ b'.Done v →
      b'.wto.containingCycle.find? v = none ∧ b'.wto.cycles.find? v = none) : Inv g b' := by
  have hon : ∀ v ∈ b.stack, b.Seen v := fun v hv => ((h.mem_stack v).mp hv).1
  have hdfn : ∀ v ∈ b.stack, b'.dfn v = b.dfn v := fun v hv =>
    congrArg WtoVertexData.dfn (hdata v (hon v hv))
  have hhead : ∀ v ∈ b.stack, b'.headDfn v = b.headDfn v := fun v hv =>
    congrArg WtoVertexData.headDfn (hdata v (hon v hv))
  refine ⟨hlabel, ?_, ?_, ?_, ?_, ?_, hwto⟩
  · intro v
    rw [hstack, h.mem_stack]
    by_cases hv : b.Seen v
    · rw [seen_of_data (hdata v hv), done_of_data (hdata v hv)]
    · constructor
      · exact fun hv' => absurd hv'.1 hv
      · rintro ⟨hs, hd⟩
        rcases hnew v hv with hd' | ⟨hs', -⟩
        · exact absurd hd' hd
        · exact absurd hs hs'
  · rw [hstack]
    refine h.sorted.imp_of_mem fun hx hy hxy => ?_
    rw [hdfn _ hx, hdfn _ hy]
    exact hxy
  · rw [hstack]
    intro v hv
    rw [hdfn v hv]
    exact (h.le_num v hv).trans (WithTop.coe_le_coe.mpr hnum)
  · intro v hv
    have hv' : ¬ b.Seen v := fun hs => hv ((seen_of_data (hdata v hs)).mpr hs)
    rcases hnew v hv' with hd | ⟨-, h0⟩
    · exact absurd hd.seen hv
    · exact h0
  · rw [hstack]
    intro v hv hv0
    rw [hhead v hv] at hv0
    have hc := h.completed v hv hv0
    refine ⟨?_, ?_, ?_, ?_⟩
    · rw [hdfn v hv, hhead v hv]
      exact hc.lt
    · intro y hy
      exact (seen_of_data (hdata y (hc.seen y hy))).mpr (hc.seen y hy)
    · rw [hstack, hhead v hv]
      intro y hy hys
      rw [hdfn y hys]
      exact hc.low y hy hys
    · rw [hstack, hhead v hv, hdfn v hv]
      intro d hd hd'
      obtain ⟨x, hx, z, hz, hxz, hdx, hdz⟩ := hc.cross d hd hd'
      refine ⟨x, hx, z, hz, hxz, ?_, ?_⟩
      · rwa [hdfn x hx]
      · rwa [hdfn z hz]

/-- A completed part of the stack has an edge that leads below it. -/
theorem Inv.exists_cross {A S : List Label} (h : Inv g b) (hstack : b.stack = A ++ S) (hA : A ≠ [])
    (hhead : ∀ a ∈ A, b.headDfn a ≠ 0) : ∃ x ∈ A, ∃ z ∈ S, z ∈ g.succs x := by
  -- the edge crosses the number of the lowest label of the part
  obtain ⟨A', a, rfl⟩ := (List.eq_nil_or_concat' A).resolve_left hA
  have ha : a ∈ b.stack := by
    rw [hstack]
    simp
  have hsort := h.sorted
  rw [hstack, List.append_assoc, List.pairwise_append] at hsort
  obtain ⟨-, haS, hA'⟩ := hsort
  rw [List.singleton_append, List.pairwise_cons] at haS
  have hc := h.completed a ha (hhead a (by simp))
  obtain ⟨x, hx, z, hz, hxz, hdx, hdz⟩ := hc.cross _ hc.lt le_rfl
  rw [hstack, List.mem_append] at hx hz
  refine ⟨x, hx.resolve_right fun hx => ?_, z, hz.resolve_left fun hz => ?_, hxz⟩
  · exact absurd (haS.1 x hx) (not_lt.mpr hdx)
  · rcases List.mem_append.mp hz with hz | hz
    · exact absurd (hA' z hz a (by simp)) (not_lt.mpr hdz.le)
    · rw [List.mem_singleton.mp hz] at hdz
      exact absurd hdz (lt_irrefl _)

/-! ## The head of a vertex -/

theorem minDfn_le (h : Inv g b) (hy : y ∈ b.stack) : b.minDfn y ≤ b.dfn y := by
  unfold minDfn
  split_ifs with h0
  · exact (h.completed y hy h0.1).lt.le
  · exact le_rfl

theorem minDfn_of_completed (h : Inv g b) (hy : y ∈ b.stack) (h0 : b.headDfn y ≠ 0) :
    b.minDfn y = b.headDfn y :=
  if_pos ⟨h0, ((h.mem_stack y).mp hy).2⟩

theorem minDfn_ne_zero (hy : b.Seen y) : b.minDfn y ≠ 0 := by
  unfold minDfn
  split_ifs with h0
  · exact h0.1
  · exact hy

/-- What the loop over the successors computes. -/
structure HeadOf (b : WtoBuilder) (v : Label) (succs : List Label) (head : WithTop ℕ × Bool) :
    Prop where
  le : head.1 ≤ b.dfn v
  le_succ : ∀ y ∈ succs, head.1 ≤ b.minDfn y
  from_succ : head.1 = b.dfn v ∨ ∃ y ∈ succs, head.1 = b.minDfn y
  loop : head.2 = true ↔ ∃ y ∈ succs, b.minDfn y ≤ b.dfn v

theorem headOf_foldl (b : WtoBuilder) (v : Label) (succs : List Label) :
    HeadOf b v succs (succs.foldl b.lowerHead (b.dfn v, false)) := by
  induction succs using List.reverseRecOn with
  | nil => exact ⟨le_rfl, by simp, Or.inl rfl, by simp⟩
  | append_singleton succs y ih =>
    rw [List.foldl_append, List.foldl_cons, List.foldl_nil]
    generalize succs.foldl b.lowerHead (b.dfn v, false) = head at ih
    unfold lowerHead
    split_ifs with hy
    · refine ⟨hy.trans ih.le, ?_, Or.inr ⟨y, by simp, rfl⟩, ?_⟩
      · intro x hx
        rcases List.mem_append.mp hx with hx | hx
        · exact hy.trans (ih.le_succ x hx)
        · rw [List.mem_singleton.mp hx]
      · exact ⟨fun _ => ⟨y, by simp, hy.trans ih.le⟩, fun _ => rfl⟩
    · refine ⟨ih.le, ?_, ?_, ?_⟩
      · intro x hx
        rcases List.mem_append.mp hx with hx | hx
        · exact ih.le_succ x hx
        · rw [List.mem_singleton.mp hx]
          exact (not_le.mp hy).le
      · rcases ih.from_succ with hv | ⟨x, hx, hxh⟩
        · exact Or.inl hv
        · exact Or.inr ⟨x, by simp [hx], hxh⟩
      · rw [ih.loop]
        constructor
        · rintro ⟨x, hx, hxv⟩
          exact ⟨x, by simp [hx], hxv⟩
        · rintro ⟨x, hx, hxv⟩
          rcases List.mem_append.mp hx with hx | hx
          · exact ⟨x, hx, hxv⟩
          · -- the head has been lowered before
            rw [List.mem_singleton.mp hx] at hxv
            rcases ih.from_succ with hv | ⟨x', hx', hxh⟩
            · rw [hv] at hy
              exact absurd hxv hy
            · exact ⟨x', hx', hxh ▸ ih.le⟩

end WtoBuilder

end Prevail
