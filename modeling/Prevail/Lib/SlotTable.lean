import Mathlib.Data.List.Nodup
import Mathlib.Logic.Function.Basic
import Mathlib.Tactic.Common

/-!
# Slots of a table

Objects keep their values in a table with `n` slots, and a list holds the slots that are free.
The table is valid when every object has a slot of its own, which is not free, and it has no leak
when every slot belongs to an object or is free.
-/

namespace Prevail

namespace SlotTable

variable {K : Type*} {slot : K → Option ℕ} {n : ℕ} {free : List ℕ}

structure Valid (slot : K → Option ℕ) (n : ℕ) (free : List ℕ) : Prop where
  inside : ∀ k i, slot k = some i → i < n
  distinct : ∀ k k' i, slot k = some i → slot k' = some i → k = k'
  disjoint : ∀ k i, slot k = some i → i ∉ free
  free_inside : ∀ i ∈ free, i < n
  free_nodup : free.Nodup

def NoLeak (slot : K → Option ℕ) (n : ℕ) (free : List ℕ) : Prop :=
  ∀ i < n, i ∈ free ∨ ∃ k, slot k = some i

/-- An object is given the slot on top of the free list. -/
theorem Valid.take [DecidableEq K] {i : ℕ} (h : Valid slot n (i :: free)) (k : K) :
    Valid (Function.update slot k (some i)) n free := by
  have hown : ∀ k' j, Function.update slot k (some i) k' = some j →
      k' = k ∧ j = i ∨ k' ≠ k ∧ slot k' = some j ∧ j ≠ i := by
    intro k' j hj
    rw [Function.update_apply] at hj
    split_ifs at hj with hk
    · exact Or.inl ⟨hk, (Option.some.inj hj).symm⟩
    · exact Or.inr ⟨hk, hj, fun heq => h.disjoint k' j hj (heq ▸ List.mem_cons_self)⟩
  obtain ⟨hi, hnodup⟩ := List.nodup_cons.mp h.free_nodup
  refine ⟨fun k' j hj => ?_, fun k₁ k₂ j h₁ h₂ => ?_, fun k' j hj hmem => ?_,
    fun j hj => h.free_inside j (List.mem_cons_of_mem i hj), hnodup⟩
  · rcases hown k' j hj with ⟨-, rfl⟩ | ⟨-, hj, -⟩
    · exact h.free_inside j List.mem_cons_self
    · exact h.inside k' j hj
  · rcases hown k₁ j h₁ with ⟨rfl, hj⟩ | ⟨-, hj₁, hne⟩ <;>
      rcases hown k₂ j h₂ with ⟨rfl, hj'⟩ | ⟨-, hj₂, hne'⟩
    · rfl
    · exact absurd hj hne'
    · exact absurd hj' hne
    · exact h.distinct k₁ k₂ j hj₁ hj₂
  · rcases hown k' j hj with ⟨-, rfl⟩ | ⟨-, hj, -⟩
    · exact hi hmem
    · exact h.disjoint k' j hj (List.mem_cons_of_mem i hmem)

theorem NoLeak.take [DecidableEq K] {i : ℕ} (h : NoLeak slot n (i :: free)) {k : K}
    (hk : slot k = none) : NoLeak (Function.update slot k (some i)) n free := by
  intro j hj
  rcases h j hj with hmem | ⟨k', hk'⟩
  · rcases List.mem_cons.mp hmem with rfl | hmem
    · exact Or.inr ⟨k, Function.update_self ..⟩
    · exact Or.inl hmem
  · have hne : k' ≠ k := by
      rintro rfl
      rw [hk] at hk'
      cases hk'
    exact Or.inr ⟨k', by rw [Function.update_of_ne hne, hk']⟩

/-- The table grows by a slot when none is free: as if the slot had been free. -/
theorem Valid.grow (h : Valid slot n free) : Valid slot (n + 1) (n :: free) := by
  have hnew : n ∉ free := fun hmem => Nat.lt_irrefl n (h.free_inside n hmem)
  refine ⟨fun k i hi => Nat.lt_succ_of_lt (h.inside k i hi), h.distinct, fun k i hi hmem => ?_,
    fun i hi => ?_, List.nodup_cons.mpr ⟨hnew, h.free_nodup⟩⟩
  · rcases List.mem_cons.mp hmem with rfl | hmem
    · exact Nat.lt_irrefl i (h.inside k i hi)
    · exact h.disjoint k i hi hmem
  · rcases List.mem_cons.mp hi with rfl | hi
    · exact Nat.lt_succ_self i
    · exact Nat.lt_succ_of_lt (h.free_inside i hi)

theorem NoLeak.grow (h : NoLeak slot n free) : NoLeak slot (n + 1) (n :: free) := by
  intro i hi
  rcases Nat.lt_succ_iff_lt_or_eq.mp hi with hlt | rfl
  · exact (h i hlt).imp_left (List.mem_cons_of_mem n)
  · exact Or.inl List.mem_cons_self

/-- The objects in `gone` are removed, and the slots in `back`, all theirs, become free. -/
theorem Valid.release {gone : K → Bool} {back : List ℕ} (h : Valid slot n free)
    (hnodup : back.Nodup) (hback : ∀ i ∈ back, ∃ k, gone k ∧ slot k = some i) :
    Valid (fun k => if gone k then none else slot k) n (back ++ free) := by
  have hkept : ∀ k i, (if gone k then none else slot k) = some i →
      gone k = false ∧ slot k = some i := by
    intro k i hi
    split_ifs at hi with hk
    exact ⟨by simpa using hk, hi⟩
  refine ⟨fun k i hi => h.inside k i (hkept k i hi).2,
    fun k k' i hi hi' => h.distinct k k' i (hkept k i hi).2 (hkept k' i hi').2,
    fun k i hi hmem => ?_, fun i hi => ?_, ?_⟩
  · obtain ⟨hk, hi⟩ := hkept k i hi
    rcases List.mem_append.mp hmem with hmem | hmem
    · obtain ⟨k', hk', hi'⟩ := hback i hmem
      rw [h.distinct k k' i hi hi', hk'] at hk
      cases hk
    · exact h.disjoint k i hi hmem
  · rcases List.mem_append.mp hi with hi | hi
    · obtain ⟨k, -, hk⟩ := hback i hi
      exact h.inside k i hk
    · exact h.free_inside i hi
  · refine List.nodup_append.mpr ⟨hnodup, h.free_nodup, fun i hi j hj heq => ?_⟩
    obtain ⟨k, -, hk⟩ := hback i hi
    exact h.disjoint k i hk (heq ▸ hj)

/-- No slot leaks exactly when the slots of all removed objects become free. -/
theorem noLeak_release_iff {gone : K → Bool} {back : List ℕ} (h : Valid slot n free)
    (hleak : NoLeak slot n free) :
    NoLeak (fun k => if gone k then none else slot k) n (back ++ free) ↔
      ∀ k i, gone k → slot k = some i → i ∈ back := by
  constructor
  · intro hno k i hk hi
    rcases hno i (h.inside k i hi) with hmem | ⟨k', hk'⟩
    · exact (List.mem_append.mp hmem).resolve_right (h.disjoint k i hi)
    · simp only at hk'
      split_ifs at hk' with hgone
      rw [h.distinct k' k i hk' hi] at hgone
      exact absurd hk hgone
  · intro hall i hi
    rcases hleak i hi with hmem | ⟨k, hk⟩
    · exact Or.inl (List.mem_append_right back hmem)
    · by_cases hgone : gone k
      · exact Or.inl (List.mem_append_left free (hall k i hgone hk))
      · exact Or.inr ⟨k, (if_neg hgone).trans hk⟩

end SlotTable

end Prevail
