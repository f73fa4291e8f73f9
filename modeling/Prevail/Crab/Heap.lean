import Mathlib.Data.List.GetD
import Mathlib.Data.List.Infix
import Mathlib.Tactic.Common

/-!
# The binary heap

`Heap` of the graph algorithms: a binary heap of vertices in an array, ordered by a comparison
that the caller may change between operations. The position table of the source is the position
in the list.

What the algorithms rely on here is that the heap only ever holds what was put into it.
-/

namespace Prevail

theorem getD_set {α : Type*} {l : List α} {i : ℕ} (hi : i < l.length) (x d : α) (j : ℕ) :
    (l.set i x).getD j d = if j = i then x else l.getD j d := by
  rw [List.getD_eq_getElem?_getD, List.getD_eq_getElem?_getD, List.getElem?_set]
  split_ifs with h₁ h₂ h₂
  · rfl
  · exact absurd h₁.symm h₂
  · exact absurd h₂.symm h₁
  · rfl

namespace Heap

def left (i : ℕ) : ℕ := i * 2 + 1

def right (i : ℕ) : ℕ := (i + 1) * 2

def parent (i : ℕ) : ℕ := (i - 1) / 2

/-- Move the element `x`, whose place is `i`, towards the root. A heap index is above its parent,
so `i` steps are enough. -/
def percolateUp (lt : ℕ → ℕ → Bool) (x : ℕ) : ℕ → ℕ → List ℕ → List ℕ
  | 0, i, heap => heap.set i x
  | fuel + 1, i, heap =>
    if i ≠ 0 ∧ lt x (heap.getD (parent i) 0) then
      percolateUp lt x fuel (parent i) (heap.set i (heap.getD (parent i) 0))
    else heap.set i x

/-- Move the element `x`, whose place is `i`, towards the leaves. -/
def percolateDown (lt : ℕ → ℕ → Bool) (x : ℕ) : ℕ → ℕ → List ℕ → List ℕ
  | 0, i, heap => heap.set i x
  | fuel + 1, i, heap =>
    if left i < heap.length then
      let child :=
        if right i < heap.length ∧ lt (heap.getD (right i) 0) (heap.getD (left i) 0) then right i
        else left i
      if lt (heap.getD child 0) x then
        percolateDown lt x fuel child (heap.set i (heap.getD child 0))
      else heap.set i x
    else heap.set i x

/-- The key of a vertex in the heap has decreased. -/
def decrease (lt : ℕ → ℕ → Bool) (n : ℕ) (heap : List ℕ) : List ℕ :=
  percolateUp lt n heap.length (heap.idxOf n) heap

def insert (lt : ℕ → ℕ → Bool) (n : ℕ) (heap : List ℕ) : List ℕ :=
  percolateUp lt n heap.length heap.length (heap ++ [n])

/-- Take the root out, when there is one. -/
def removeMin (lt : ℕ → ℕ → Bool) : List ℕ → Option (ℕ × List ℕ)
  | [] => none
  | x :: rest =>
    let heap := ((x :: rest).set 0 ((x :: rest).getLast (by simp))).dropLast
    some (x, if 1 < heap.length then percolateDown lt (heap.getD 0 0) heap.length 0 heap else heap)

variable {lt : ℕ → ℕ → Bool}

theorem mem_set_getD {heap : List ℕ} {i j y : ℕ} (hj : j < heap.length)
    (h : y ∈ heap.set i (heap.getD j 0)) : y ∈ heap := by
  rcases List.mem_or_eq_of_mem_set h with h | h
  · exact h
  · rw [h, List.getD_eq_getElem _ _ hj]
    exact List.getElem_mem hj

theorem mem_percolateUp {x fuel i y : ℕ} {heap : List ℕ} (hi : i < heap.length)
    (h : y ∈ percolateUp lt x fuel i heap) : y = x ∨ y ∈ heap := by
  induction fuel generalizing i heap with
  | zero => exact (List.mem_or_eq_of_mem_set h).symm
  | succ fuel ih =>
    unfold percolateUp at h
    have hp : parent i < heap.length := by unfold parent; omega
    split_ifs at h
    · refine (ih (by simpa using hp) h).imp_right fun hy => ?_
      exact mem_set_getD hp hy
    · exact (List.mem_or_eq_of_mem_set h).symm

theorem mem_percolateDown {x fuel i y : ℕ} {heap : List ℕ}
    (h : y ∈ percolateDown lt x fuel i heap) : y = x ∨ y ∈ heap := by
  induction fuel generalizing i heap with
  | zero => exact (List.mem_or_eq_of_mem_set h).symm
  | succ fuel ih =>
    unfold percolateDown at h
    simp only at h
    split_ifs at h with h1 h2 h3 h3
    · exact (ih h).imp_right (mem_set_getD h2.1)
    · exact (List.mem_or_eq_of_mem_set h).symm
    · exact (ih h).imp_right (mem_set_getD h1)
    · exact (List.mem_or_eq_of_mem_set h).symm
    · exact (List.mem_or_eq_of_mem_set h).symm

theorem mem_insert {n y : ℕ} {heap : List ℕ} (h : y ∈ insert lt n heap) : y = n ∨ y ∈ heap := by
  rcases mem_percolateUp (by simp) h with h | h
  · exact Or.inl h
  · simpa [or_comm] using h

theorem mem_decrease {n y : ℕ} {heap : List ℕ} (hn : n ∈ heap) (h : y ∈ decrease lt n heap) :
    y ∈ heap := by
  rcases mem_percolateUp (List.idxOf_lt_length_of_mem hn) h with h | h
  · exact h ▸ hn
  · exact h

/-- The heap with its last element in the place of the root. -/
theorem mem_of_mem_moved {a y : ℕ} {rest : List ℕ}
    (h : y ∈ ((a :: rest).set 0 ((a :: rest).getLast (by simp))).dropLast) : y ∈ a :: rest := by
  rcases List.mem_or_eq_of_mem_set (List.mem_of_mem_dropLast h) with hy | hy
  · exact hy
  · exact hy ▸ List.getLast_mem _

theorem mem_of_removeMin {x : ℕ} {heap heap' : List ℕ} (h : removeMin lt heap = some (x, heap')) :
    x ∈ heap ∧ ∀ y ∈ heap', y ∈ heap := by
  cases heap with
  | nil => simp [removeMin] at h
  | cons a rest =>
    simp only [removeMin, Option.some.injEq, Prod.mk.injEq] at h
    obtain ⟨rfl, rfl⟩ := h
    refine ⟨List.mem_cons_self, ?_⟩
    intro y hy
    split_ifs at hy with hl
    · rcases mem_percolateDown hy with hy | hy
      · rw [List.getD_eq_getElem _ _ (by omega)] at hy
        exact mem_of_mem_moved (hy ▸ List.getElem_mem _)
      · exact mem_of_mem_moved hy
    · exact mem_of_mem_moved hy

/-! ## Only what is in the heap is compared -/

/-- Two comparisons that agree on the members of a heap. -/
def AgreeOn (lt lt' : ℕ → ℕ → Bool) (heap : List ℕ) : Prop :=
  ∀ a ∈ heap, ∀ b ∈ heap, lt a b = lt' a b

variable {lt' : ℕ → ℕ → Bool} {heap : List ℕ}

theorem AgreeOn.mono {heap' : List ℕ} (h : AgreeOn lt lt' heap) (hsub : ∀ y ∈ heap', y ∈ heap) :
    AgreeOn lt lt' heap' := fun a ha b hb => h a (hsub a ha) b (hsub b hb)

theorem getD_mem {i : ℕ} (hi : i < heap.length) : heap.getD i 0 ∈ heap := by
  rw [List.getD_eq_getElem _ _ hi]
  exact List.getElem_mem hi

theorem percolateUp_congr {x fuel i : ℕ} (h : AgreeOn lt lt' (x :: heap)) (hi : i < heap.length) :
    percolateUp lt x fuel i heap = percolateUp lt' x fuel i heap := by
  induction fuel generalizing i heap with
  | zero => rfl
  | succ fuel ih =>
    have hp : parent i < heap.length := by unfold parent; omega
    have hmem := List.mem_cons_of_mem x (getD_mem hp)
    unfold percolateUp
    rw [h x List.mem_cons_self _ hmem]
    split_ifs
    · refine ih (h.mono fun y hy => ?_) (by simpa using hp)
      exact (List.mem_cons.mp hy).elim (fun he => he ▸ List.mem_cons_self)
        fun hy => List.mem_cons_of_mem _ (mem_set_getD hp hy)
    · rfl

theorem percolateDown_congr {x fuel i : ℕ} (h : AgreeOn lt lt' (x :: heap)) :
    percolateDown lt x fuel i heap = percolateDown lt' x fuel i heap := by
  induction fuel generalizing i heap with
  | zero => rfl
  | succ fuel ih =>
    unfold percolateDown
    by_cases hl : left i < heap.length
    · have hchild : (right i < heap.length ∧ lt (heap.getD (right i) 0) (heap.getD (left i) 0)) ↔
          right i < heap.length ∧ lt' (heap.getD (right i) 0) (heap.getD (left i) 0) :=
        and_congr_right fun hr => by
          rw [h _ (List.mem_cons_of_mem x (getD_mem hr)) _ (List.mem_cons_of_mem x (getD_mem hl))]
      rw [if_pos hl, if_pos hl]
      simp only [hchild]
      generalize hc : (if right i < heap.length ∧
        lt' (heap.getD (right i) 0) (heap.getD (left i) 0) then right i else left i) = child
      have hlen : child < heap.length := by
        split_ifs at hc with hr
        · exact hc ▸ hr.1
        · exact hc ▸ hl
      rw [h _ (List.mem_cons_of_mem x (getD_mem hlen)) x List.mem_cons_self]
      split_ifs
      · refine ih (h.mono fun y hy => ?_)
        exact (List.mem_cons.mp hy).elim (fun he => he ▸ List.mem_cons_self)
          fun hy => List.mem_cons_of_mem _ (mem_set_getD hlen hy)
      · rfl
    · rw [if_neg hl, if_neg hl]

theorem insert_congr {n : ℕ} (h : AgreeOn lt lt' (n :: heap)) :
    insert lt n heap = insert lt' n heap := by
  refine percolateUp_congr (h.mono fun y hy => ?_) (by simp)
  simpa [or_comm] using hy

theorem decrease_congr {n : ℕ} (h : AgreeOn lt lt' heap) (hn : n ∈ heap) :
    decrease lt n heap = decrease lt' n heap := by
  refine percolateUp_congr (h.mono fun y hy => ?_) (List.idxOf_lt_length_of_mem hn)
  exact (List.mem_cons.mp hy).elim (fun he => he ▸ hn) id

theorem removeMin_congr (h : AgreeOn lt lt' heap) : removeMin lt heap = removeMin lt' heap := by
  cases heap with
  | nil => rfl
  | cons a rest =>
    simp only [removeMin]
    split_ifs with hl
    · refine congrArg (fun l => some (a, l)) (percolateDown_congr (h.mono fun y hy => ?_))
      rcases List.mem_cons.mp hy with rfl | hy
      · exact mem_of_mem_moved (getD_mem (Nat.zero_lt_of_lt hl))
      · exact mem_of_mem_moved hy
    · rfl

end Heap

end Prevail
