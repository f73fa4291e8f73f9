import Mathlib.Data.Int.Order.Basic
import Prevail.Crab.Heap

/-!
# The order of the heap

When the comparison is that of a key, the operations keep every element at or after its parent, so
that the root is the smallest. While an element moves, the order holds but for the place it moves
through (`UpOrdered`, `DownOrdered`).
-/

namespace Prevail

namespace Heap

variable {lt : ℕ → ℕ → Bool}

/-- No element is below its parent. -/
def Ordered (key : ℕ → ℤ) (heap : List ℕ) : Prop :=
  ∀ i < heap.length, key (heap.getD (parent i) 0) ≤ key (heap.getD i 0)

variable {key : ℕ → ℤ} {heap : List ℕ} {x i : ℕ}

theorem Ordered.root_le (h : Ordered key heap) {y : ℕ} (hy : y ∈ heap) :
    key (heap.getD 0 0) ≤ key y := by
  obtain ⟨i, hi, rfl⟩ := List.getElem_of_mem hy
  rw [← List.getD_eq_getElem heap 0 hi]
  clear hy
  induction i using Nat.strong_induction_on with
  | _ i ih =>
    rcases Nat.eq_zero_or_pos i with rfl | hpos
    · exact le_rfl
    · have hp : parent i < i := by unfold parent; omega
      exact (ih (parent i) hp (by omega)).trans (h i hi)

theorem perm_percolate {j : ℕ} (hi : i < heap.length) (hj : j < heap.length) (hij : j ≠ i) :
    ((heap.set i (heap.getD j 0)).set j x).Perm (heap.set i x) := by
  have hi' : i < (heap.set i x).length := by simpa using hi
  have hj' : j < (heap.set i x).length := by simpa using hj
  have hperm := List.set_set_perm hi' hj'
  rw [List.set_set, List.getElem_set_self, List.getElem_set_ne hij.symm] at hperm
  rwa [List.getD_eq_getElem _ _ hj]

/-- The heap is in order but for the place `i`, where `x` is to go or above. -/
structure UpOrdered (key : ℕ → ℤ) (x i : ℕ) (heap : List ℕ) : Prop where
  rest : ∀ j < heap.length, j ≠ i → parent j ≠ i →
    key (heap.getD (parent j) 0) ≤ key (heap.getD j 0)
  below : ∀ j < heap.length, j ≠ i → parent j = i → key x ≤ key (heap.getD j 0) ∧
    (i ≠ 0 → key (heap.getD (parent i) 0) ≤ key (heap.getD j 0))

theorem UpOrdered.finish (h : UpOrdered key x i heap) (hi : i < heap.length)
    (hx : i = 0 ∨ key (heap.getD (parent i) 0) ≤ key x) : Ordered key (heap.set i x) := by
  intro j hj
  rw [List.length_set] at hj
  rw [getD_set hi, getD_set hi]
  by_cases hji : j = i
  · subst hji
    rw [if_pos rfl]
    split_ifs with hp
    · exact le_rfl
    · exact hx.resolve_left fun h0 => hp (by rw [h0]; rfl)
  · rw [if_neg hji]
    split_ifs with hp
    · exact (h.below j hj hji hp).1
    · exact h.rest j hj hji hp

theorem UpOrdered.move (h : UpOrdered key x i heap) (hi : i < heap.length) (h0 : i ≠ 0)
    (hx : key x < key (heap.getD (parent i) 0)) :
    UpOrdered key x (parent i) (heap.set i (heap.getD (parent i) 0)) := by
  have hlt : parent i < i := by unfold parent; omega
  have hpp : parent (parent i) ≤ parent i := by unfold parent; omega
  have hup : parent i ≠ 0 → key (heap.getD (parent (parent i)) 0) ≤ key (heap.getD (parent i) 0) :=
    fun hp0 => h.rest _ (by omega) hlt.ne (by omega)
  refine ⟨fun j hj hji hp => ?_, fun j hj hji hp => ?_⟩
  · rw [List.length_set] at hj
    rw [getD_set hi, getD_set hi]
    by_cases hj' : j = i
    · exact absurd (hj' ▸ rfl) hp
    · rw [if_neg hj']
      split_ifs with hp'
      · exact (h.below j hj hj' hp').2 h0
      · exact h.rest j hj hj' hp'
  · rw [List.length_set] at hj
    rw [getD_set hi, getD_set hi, if_neg (by omega : parent (parent i) ≠ i)]
    split_ifs with hj'
    · exact ⟨hx.le, hup⟩
    · have hjp := h.rest j hj hj' (hp ▸ hlt.ne)
      rw [hp] at hjp
      exact ⟨hx.le.trans hjp, fun hp0 => (hup hp0).trans hjp⟩

theorem percolateUp_spec {fuel : ℕ} (hlt : ∀ a b, lt a b = decide (key a < key b))
    (h : UpOrdered key x i heap) (hi : i < heap.length) (hfuel : i ≤ fuel) :
    Ordered key (percolateUp lt x fuel i heap) ∧
      (percolateUp lt x fuel i heap).Perm (heap.set i x) := by
  induction fuel generalizing i heap with
  | zero =>
    obtain rfl := Nat.le_zero.mp hfuel
    exact ⟨h.finish hi (Or.inl rfl), .refl _⟩
  | succ fuel ih =>
    unfold percolateUp
    rw [hlt]
    split_ifs with hc
    · obtain ⟨h0, hx⟩ := hc
      have hx := of_decide_eq_true hx
      have hp : parent i < i := by unfold parent; omega
      obtain ⟨hord, hperm⟩ := ih (h.move hi h0 hx) (by rw [List.length_set]; omega) (by omega)
      exact ⟨hord, hperm.trans (perm_percolate hi (by omega) hp.ne)⟩
    · refine ⟨h.finish hi ?_, .refl _⟩
      by_cases h0 : i = 0
      · exact Or.inl h0
      · rw [decide_eq_true_eq, not_and] at hc
        exact Or.inr (not_lt.mp (hc h0))

theorem insert_spec {n : ℕ} (hlt : ∀ a b, lt a b = decide (key a < key b))
    (h : Ordered key heap) :
    Ordered key (insert lt n heap) ∧ (insert lt n heap).Perm (heap ++ [n]) := by
  have hlen : heap.length < (heap ++ [n]).length := by simp
  have hread : ∀ j < heap.length, (heap ++ [n]).getD j 0 = heap.getD j 0 := fun j hj =>
    List.getD_append _ _ _ _ hj
  have hup : UpOrdered key n heap.length (heap ++ [n]) := by
    refine ⟨fun j hj hne _ => ?_, fun j hj hne hp => ?_⟩
    · have hj' : j < heap.length := by simp at hj; omega
      have hp : parent j < heap.length := by unfold parent; omega
      rw [hread j hj', hread _ hp]
      exact h j hj'
    · have hj' : j < heap.length := by simp at hj; omega
      unfold parent at hp
      omega
  obtain ⟨hord, hperm⟩ := percolateUp_spec hlt hup hlen le_rfl
  refine ⟨hord, ?_⟩
  rwa [List.set_append_right _ _ le_rfl, Nat.sub_self, List.set_cons_zero] at hperm

/-- The key of `n` has become smaller. -/
theorem decrease_spec {n : ℕ} {key' : ℕ → ℤ} (hlt : ∀ a b, lt a b = decide (key a < key b))
    (h : Ordered key' heap) (hnodup : heap.Nodup) (hn : n ∈ heap) (hle : key n ≤ key' n)
    (hkey : ∀ m ≠ n, key m = key' m) :
    Ordered key (decrease lt n heap) ∧ (decrease lt n heap).Perm heap := by
  have hi := List.idxOf_lt_length_of_mem hn
  have hself : heap.getD (heap.idxOf n) 0 = n := by
    rw [List.getD_eq_getElem _ _ hi, List.getElem_idxOf]
  have hother : ∀ j < heap.length, j ≠ heap.idxOf n → heap.getD j 0 ≠ n := by
    intro j hj hne heq
    rw [List.getD_eq_getElem _ _ hj] at heq
    exact hne (by rw [← heq, hnodup.idxOf_getElem])
  have hpar : ∀ j, parent j ≤ j := fun j => by unfold parent; omega
  have hup : UpOrdered key n (heap.idxOf n) heap := by
    refine ⟨fun j hj hne hp => ?_, fun j hj hne hp => ⟨?_, fun h0 => ?_⟩⟩
    · rw [hkey _ (hother j hj hne), hkey _ (hother _ ((hpar j).trans_lt hj) hp)]
      exact h j hj
    · have hjp := h j hj
      rw [hp, hself] at hjp
      rw [hkey _ (hother j hj hne)]
      exact hle.trans hjp
    · have hjp := h j hj
      have hip := h _ hi
      have hne' : parent (heap.idxOf n) ≠ heap.idxOf n := by unfold parent; omega
      rw [hp] at hjp
      rw [hkey _ (hother j hj hne), hkey _ (hother _ ((hpar _).trans_lt hi) hne')]
      exact hip.trans hjp
  obtain ⟨hord, hperm⟩ := percolateUp_spec hlt hup hi hi.le
  have hset := List.set_getElem_self hi
  rw [List.getElem_idxOf] at hset
  rw [hset] at hperm
  exact ⟨hord, hperm⟩

/-! ## Taking the root out -/

/-- The heap is in order but for the place `i`, where `x` is to go or below. -/
structure DownOrdered (key : ℕ → ℤ) (x i : ℕ) (heap : List ℕ) : Prop where
  rest : ∀ j < heap.length, j ≠ i → parent j ≠ i →
    key (heap.getD (parent j) 0) ≤ key (heap.getD j 0)
  above : i ≠ 0 → key (heap.getD (parent i) 0) ≤ key x
  below : i ≠ 0 → ∀ j < heap.length, j ≠ i → parent j = i →
    key (heap.getD (parent i) 0) ≤ key (heap.getD j 0)

theorem DownOrdered.finish (h : DownOrdered key x i heap) (hi : i < heap.length)
    (hx : ∀ j < heap.length, j ≠ i → parent j = i → key x ≤ key (heap.getD j 0)) :
    Ordered key (heap.set i x) := by
  intro j hj
  rw [List.length_set] at hj
  rw [getD_set hi, getD_set hi]
  by_cases hji : j = i
  · subst hji
    rw [if_pos rfl]
    split_ifs with hp
    · exact le_rfl
    · exact h.above fun h0 => hp (by rw [h0]; rfl)
  · rw [if_neg hji]
    split_ifs with hp
    · exact hx j hj hji hp
    · exact h.rest j hj hji hp

theorem parent_eq_iff {j : ℕ} (hji : j ≠ i) : parent j = i ↔ j = left i ∨ j = right i := by
  unfold parent left right
  omega

theorem DownOrdered.move {c : ℕ} (h : DownOrdered key x i heap) (hi : i < heap.length)
    (hc : c < heap.length) (hci : c ≠ i) (hp : parent c = i)
    (hmin : ∀ j < heap.length, j ≠ i → parent j = i → key (heap.getD c 0) ≤ key (heap.getD j 0))
    (hx : key (heap.getD c 0) < key x) :
    DownOrdered key x c (heap.set i (heap.getD c 0)) := by
  have hic : i < c := by unfold parent at hp; omega
  refine ⟨fun j hj hjc hpj => ?_, fun _ => ?_, fun _ j hj hjc hpj => ?_⟩
  · rw [List.length_set] at hj
    rw [getD_set hi, getD_set hi]
    by_cases hji : j = i
    · subst hji
      rw [if_pos rfl]
      split_ifs with hpp
      · exact le_rfl
      · exact h.below (fun h0 => hpp (by rw [h0]; rfl)) c hc hci hp
    · rw [if_neg hji]
      split_ifs with hpp
      · exact hmin j hj hji hpp
      · exact h.rest j hj hji hpp
  · rw [hp, getD_set hi, if_pos rfl]
    exact hx.le
  · rw [List.length_set] at hj
    have hji : j ≠ i := by
      rintro rfl
      unfold parent at hpj
      omega
    rw [hp, getD_set hi, getD_set hi, if_pos rfl, if_neg hji]
    have hrest := h.rest j hj hji (by omega)
    rwa [hpj] at hrest

theorem percolateDown_spec {fuel : ℕ} (hlt : ∀ a b, lt a b = decide (key a < key b))
    (h : DownOrdered key x i heap) (hi : i < heap.length) (hfuel : heap.length ≤ i + fuel) :
    Ordered key (percolateDown lt x fuel i heap) ∧
      (percolateDown lt x fuel i heap).Perm (heap.set i x) := by
  induction fuel generalizing i heap with
  | zero => omega
  | succ fuel ih =>
    unfold percolateDown
    simp only
    have hmem : ∀ j, j ≠ i → parent j = i → j = left i ∨ j = right i := fun j hji =>
      (parent_eq_iff hji).mp
    split_ifs with hleft hright hx hx
    · -- the right child is the smaller one
      obtain ⟨hr, hrl⟩ := hright
      rw [hlt, decide_eq_true_eq] at hrl hx
      have hci : right i ≠ i := by unfold right; omega
      have hp : parent (right i) = i := (parent_eq_iff hci).mpr (Or.inr rfl)
      have hmin : ∀ j < heap.length, j ≠ i → parent j = i →
          key (heap.getD (right i) 0) ≤ key (heap.getD j 0) := by
        intro j _ hji hpj
        rcases hmem j hji hpj with rfl | rfl
        · exact hrl.le
        · exact le_rfl
      have hgt : i < right i := by unfold right; omega
      obtain ⟨hord, hperm⟩ := ih (h.move hi hr hci hp hmin hx) (by rwa [List.length_set])
        (by rw [List.length_set]; omega)
      exact ⟨hord, hperm.trans (perm_percolate hi hr hci)⟩
    · obtain ⟨hr, hrl⟩ := hright
      rw [hlt, decide_eq_true_eq] at hrl hx
      refine ⟨h.finish hi fun j _ hji hpj => ?_, .refl _⟩
      rcases hmem j hji hpj with rfl | rfl
      · exact (not_lt.mp hx).trans hrl.le
      · exact not_lt.mp hx
    · -- the left child is the smaller one, or the only one
      rw [hlt, decide_eq_true_eq] at hx
      have hci : left i ≠ i := by unfold left; omega
      have hp : parent (left i) = i := (parent_eq_iff hci).mpr (Or.inl rfl)
      have hmin : ∀ j < heap.length, j ≠ i → parent j = i →
          key (heap.getD (left i) 0) ≤ key (heap.getD j 0) := by
        intro j hj hji hpj
        rcases hmem j hji hpj with rfl | rfl
        · exact le_rfl
        · rw [hlt, decide_eq_true_eq, not_and] at hright
          exact not_lt.mp (hright hj)
      have hgt : i < left i := by unfold left; omega
      obtain ⟨hord, hperm⟩ := ih (h.move hi hleft hci hp hmin hx) (by rwa [List.length_set])
        (by rw [List.length_set]; omega)
      exact ⟨hord, hperm.trans (perm_percolate hi hleft hci)⟩
    · rw [hlt, decide_eq_true_eq] at hx hright
      refine ⟨h.finish hi fun j hj hji hpj => ?_, .refl _⟩
      rcases hmem j hji hpj with rfl | rfl
      · exact not_lt.mp hx
      · rw [not_and] at hright
        exact (not_lt.mp hx).trans (not_lt.mp (hright hj))
    · refine ⟨h.finish hi fun j hj hji hpj => ?_, .refl _⟩
      rcases hmem j hji hpj with rfl | rfl
      · exact absurd hj hleft
      · exact absurd (show left i < heap.length by unfold left; unfold right at hj; omega) hleft

/-- The root comes out, the rest stays. -/
theorem removeMin_spec {heap' : List ℕ} (hlt : ∀ a b, lt a b = decide (key a < key b))
    (h : Ordered key heap) (hrem : removeMin lt heap = some (x, heap')) :
    Ordered key heap' ∧ heap.Perm (x :: heap') ∧ ∀ y ∈ heap, key x ≤ key y := by
  cases heap with
  | nil => cases hrem
  | cons a rest =>
    have hroot : ∀ y ∈ a :: rest, key a ≤ key y := fun y hy => h.root_le hy
    rcases List.eq_nil_or_concat' rest with rfl | ⟨ini, last, rfl⟩
    · obtain ⟨rfl, rfl⟩ := Prod.mk.inj (Option.some.inj hrem)
      exact ⟨fun i hi => absurd hi (Nat.not_lt_zero i), .refl _, hroot⟩
    · have hheap : ((a :: (ini ++ [last])).set 0
          ((a :: (ini ++ [last])).getLast (by simp))).dropLast = last :: ini := by
        rw [List.set_cons_zero, List.getLast_cons (by simp), List.getLast_append_of_ne_nil _ (by simp),
          List.getLast_singleton, ← List.cons_append, List.dropLast_concat]
      simp only [removeMin, hheap, Option.some.injEq, Prod.mk.injEq] at hrem
      obtain ⟨rfl, rfl⟩ := hrem
      have hperm : (a :: (ini ++ [last])).Perm (a :: last :: ini) :=
        .cons a (List.perm_append_singleton last ini)
      split_ifs with hlen
      · have hread : ∀ j < (last :: ini).length, j ≠ 0 →
            (last :: ini).getD j 0 = (a :: (ini ++ [last])).getD j 0 := by
          intro j hj h0
          obtain ⟨j, rfl⟩ := Nat.exists_eq_succ_of_ne_zero h0
          rw [List.getD_cons_succ, List.getD_cons_succ, List.getD_append _ _ _ _ (by simpa using hj)]
        have hdown : DownOrdered key last 0 (last :: ini) := by
          refine ⟨fun j hj h0 hp => ?_, fun h0 => absurd rfl h0, fun h0 => absurd rfl h0⟩
          have hle : parent j ≤ j := by unfold parent; omega
          rw [hread j hj h0, hread _ (by omega) hp]
          exact h j (by simp at hj ⊢; omega)
        have hfuel : (last :: ini).length ≤ 0 + (last :: ini).length := by omega
        obtain ⟨hord, hperm'⟩ := percolateDown_spec hlt hdown (by simp) hfuel
        rw [List.set_cons_zero] at hperm'
        exact ⟨hord, hperm.trans (hperm'.symm.cons a), hroot⟩
      · refine ⟨fun i hi => ?_, hperm, hroot⟩
        obtain rfl : i = 0 := by omega
        exact le_rfl

end Heap

end Prevail
