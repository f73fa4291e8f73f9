import Mathlib.Data.List.Basic
import Mathlib.Logic.Relation
import Mathlib.Order.Lattice

/-!
# Searching a graph, the smallest place first

A search visits its start and then, again and again, the smallest place that is a successor of a
visited place and is not visited itself (`Visits`). When nothing is left, the visited places are
those that the start reaches (`SearchOrder.mem_iff`), and there is only one order in which this can
happen (`SearchOrder.unique`).
-/

variable {α : Type*} [LinearOrder α] {R : α → α → Prop} {e m x y : α} {P Q : List α}

/-- The smallest successor of a visited place that is not visited. -/
structure IsNext (R : α → α → Prop) (P : List α) (m : α) : Prop where
  new : m ∉ P
  succ : ∃ p ∈ P, R p m
  least : ∀ x ∉ P, ∀ p ∈ P, R p x → m ≤ x

theorem IsNext.unique (h : IsNext R P x) (h' : IsNext R P y) : x = y := by
  obtain ⟨p, hp, hpx⟩ := h.succ
  obtain ⟨q, hq, hqy⟩ := h'.succ
  exact le_antisymm (h.least y h'.new q hq hqy) (h'.least x h.new p hp hpx)

/-- `P` is a beginning of the search from `e`. -/
inductive Visits (R : α → α → Prop) (e : α) : List α → Prop
  | start : Visits R e [e]
  | step {P : List α} {m : α} : Visits R e P → IsNext R P m → Visits R e (P ++ [m])

/-- `P` is the whole search from `e`. -/
structure SearchOrder (R : α → α → Prop) (e : α) (P : List α) : Prop where
  visits : Visits R e P
  closed : ∀ p ∈ P, ∀ x, R p x → x ∈ P

namespace Visits

theorem prefix_start (h : Visits R e P) : [e] <+: P := by
  induction h with
  | start => exact List.prefix_rfl
  | step _ _ ih => exact ih.trans (List.prefix_append _ _)

theorem start_mem (h : Visits R e P) : e ∈ P := h.prefix_start.subset (List.mem_singleton_self e)

theorem ne_nil (h : Visits R e P) : P ≠ [] := List.ne_nil_of_mem h.start_mem

theorem reach (h : Visits R e P) : ∀ x ∈ P, Relation.ReflTransGen R e x := by
  induction h with
  | start =>
    intro x hx
    rw [List.mem_singleton.mp hx]
  | step _ hm ih =>
    intro x hx
    rcases List.mem_append.mp hx with hx | hx
    · exact ih x hx
    · obtain ⟨p, hp, hpm⟩ := hm.succ
      rw [List.mem_singleton.mp hx]
      exact (ih p hp).tail hpm

/-- Every place but the first was the next one. -/
theorem isNext_of_prefix (h : Visits R e Q) (hP : P ≠ []) (hpre : P ++ [x] <+: Q) :
    IsNext R P x := by
  induction h with
  | start =>
    have hlen := hpre.length_le
    have hpos := List.length_pos_iff.mpr hP
    rw [List.length_append, List.length_singleton, List.length_singleton] at hlen
    omega
  | @step Q m _ hm ih =>
    rcases List.prefix_concat_iff.mp hpre with heq | hpre
    · obtain ⟨rfl, hx⟩ := List.append_inj' heq rfl
      rwa [List.singleton_inj.mp hx]
    · exact ih hpre

/-- Every beginning is a beginning of the whole search. -/
theorem prefix_searchOrder (h : Visits R e P) (hQ : SearchOrder R e Q) : P <+: Q := by
  induction h with
  | start => exact hQ.visits.prefix_start
  | @step P m hP hm ih =>
    obtain ⟨rest, rfl⟩ := ih
    cases rest with
    | nil =>
      obtain ⟨p, hp, hpm⟩ := hm.succ
      rw [List.append_nil] at hQ
      exact absurd (hQ.closed p hp m hpm) hm.new
    | cons x rest =>
      have hpre : P ++ [x] <+: P ++ x :: rest := ⟨rest, by simp⟩
      rw [hm.unique (hQ.visits.isNext_of_prefix hP.ne_nil hpre)]
      exact hpre

end Visits

namespace SearchOrder

theorem unique (h : SearchOrder R e P) (h' : SearchOrder R e Q) : P = Q :=
  (h.visits.prefix_searchOrder h').eq_of_length_le (h'.visits.prefix_searchOrder h).length_le

theorem mem_iff (h : SearchOrder R e P) : x ∈ P ↔ Relation.ReflTransGen R e x := by
  refine ⟨h.visits.reach x, fun hx => ?_⟩
  induction hx with
  | refl => exact h.visits.start_mem
  | tail _ hxy ih => exact h.closed _ ih _ hxy

/-- Only the steps from places of the search matter. -/
theorem congr {R' : α → α → Prop} (h : SearchOrder R e P) (hR : ∀ p ∈ P, ∀ x, R p x ↔ R' p x) :
    SearchOrder R' e P := by
  refine ⟨?_, fun p hp x hx => h.closed p hp x ((hR p hp x).mpr hx)⟩
  have key : ∀ Q, Visits R e Q → Q ⊆ P → Visits R' e Q := by
    intro Q hQ
    induction hQ with
    | start => exact fun _ => Visits.start
    | @step Q m _ hm ih =>
      intro hsub
      have hsub' : Q ⊆ P := fun x hx => hsub (List.mem_append_left _ hx)
      obtain ⟨p, hp, hpm⟩ := hm.succ
      exact (ih hsub').step ⟨hm.new, ⟨p, hp, (hR p (hsub' hp) m).mp hpm⟩,
        fun x hx q hq hqx => hm.least x hx q hq ((hR q (hsub' hq) x).mpr hqx)⟩
  exact key P h.visits fun _ => id

end SearchOrder

/-! ## Positions in a growing list -/

namespace List

/-- A later place does not change what comes after a place of the list. -/
theorem idxOf_concat_lt_iff (hx : x ∈ P) :
    (P ++ [m]).idxOf x < (P ++ [m]).idxOf y ↔ P.idxOf x < P.idxOf y := by
  rw [idxOf_append_of_mem hx]
  by_cases hy : y ∈ P
  · rw [idxOf_append_of_mem hy]
  · have hlt := idxOf_lt_length_of_mem hx
    rw [idxOf_append_of_notMem hy, idxOf_of_notMem hy]
    omega

/-- A place of the list comes before what is added. -/
theorem idxOf_concat_le_iff (hx : x ∈ P) :
    (P ++ [m]).idxOf x ≤ (P ++ [m]).idxOf y ↔ P.idxOf x ≤ P.idxOf y := by
  rw [idxOf_append_of_mem hx]
  by_cases hy : y ∈ P
  · rw [idxOf_append_of_mem hy]
  · have hlt := idxOf_lt_length_of_mem hx
    rw [idxOf_append_of_notMem hy, idxOf_of_notMem hy]
    omega

theorem idxOf_concat_self (hm : m ∉ P) : (P ++ [m]).idxOf m = P.length := by
  rw [idxOf_append_of_notMem hm, idxOf_cons_self, Nat.add_zero]

/-- The new place comes before what is not in the list. -/
theorem idxOf_concat_self_lt_iff (hm : m ∉ P) :
    (P ++ [m]).idxOf m < (P ++ [m]).idxOf y ↔ y ∉ P ++ [m] := by
  rw [idxOf_concat_self hm]
  by_cases hy : y ∈ P ++ [m]
  · have hlt := idxOf_lt_length_of_mem hy
    rw [length_append, length_singleton] at hlt
    simp only [hy, not_true_eq_false, iff_false]
    omega
  · rw [idxOf_of_notMem hy, length_append, length_singleton]
    simp only [hy, not_false_eq_true, iff_true]
    omega

end List
