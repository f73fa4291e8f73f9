import Mathlib.Algebra.Order.BigOperators.Group.Finset
import Mathlib.Data.List.Chain
import Mathlib.Data.List.Perm.Subperm
import Mathlib.Data.List.TakeWhile
import Mathlib.Logic.Relation

/-!
# Walks with few marks

Some vertices of a finite graph are marked, each with a name. A walk that has each name at most `m`
times is short when every cycle has a marked vertex: it can not go far from one mark to the next
(`length_le_of_marks`).
-/

namespace Marks

variable {α β : Type*}

/-- A list is not much longer than the part before its first mark, when its parts without marks have at
most `n` elements. -/
theorem length_le_takeWhile {p : α → Bool} {n : ℕ} {l : List α}
    (h : ∀ s, s <:+: l → (∀ x ∈ s, p x = false) → s.length ≤ n) :
    l.length ≤ l.countP p * (n + 1) + (l.takeWhile fun x => !p x).length := by
  induction l with
  | nil => exact Nat.zero_le _
  | cons a l ih =>
    have htail : l <:+: a :: l := (List.suffix_cons a l).isInfix
    have ih := ih fun s hs => h s (hs.trans htail)
    cases hp : p a with
    | false =>
      rw [List.countP_cons_of_neg (by simp [hp]), List.takeWhile_cons_of_pos (by simp [hp])]
      simp only [List.length_cons]
      omega
    | true =>
      have hfirst : (l.takeWhile fun x => !p x).length ≤ n :=
        h _ ((List.takeWhile_prefix _).isInfix.trans htail) fun x hx => by
          simpa using List.mem_takeWhile_imp hx
      rw [List.countP_cons_of_pos hp, List.takeWhile_cons_of_neg (by simp [hp]), Nat.add_mul]
      simp only [List.length_cons, List.length_nil]
      omega

/-- A list in which each element is related to the next has no duplicates when there is no cycle. -/
theorem nodup_of_isChain {r : α → α → Prop} {l : List α} (hr : ∀ x, ¬ Relation.TransGen r x x)
    (h : l.IsChain r) : l.Nodup := by
  have hchain : l.IsChain (Relation.TransGen r) := h.imp fun _ _ => Relation.TransGen.single
  rw [List.isChain_iff_pairwise] at hchain
  refine hchain.imp fun hxy heq => ?_
  subst heq
  exact hr _ hxy

variable [DecidableEq β] {f : α → Option β} {names : List β} {m : ℕ} {l : List α}

/-- There are at most as many marks as names, each with all its marks. -/
theorem countP_le_of_names (hnames : ∀ x ∈ l, ∀ b, f x = some b → b ∈ names)
    (hcount : ∀ b, l.countP (f · = some b) ≤ m) : l.countP (f · |>.isSome) ≤ names.length * m := by
  have hsum : (l.filterMap f).length ≤ (l.filterMap f).toFinset.card * m := by
    rw [← List.sum_toFinset_count_eq_length]
    refine Finset.sum_le_card_nsmul _ _ _ fun b _ => ?_
    refine le_trans (le_of_eq ?_) (hcount b)
    rw [List.count_filterMap]
    exact List.countP_congr fun x _ => by simp
  rw [← List.length_filterMap_eq_countP]
  refine hsum.trans (Nat.mul_le_mul_right m ?_)
  refine (Finset.card_le_card fun b hb => ?_).trans names.toFinset_card_le
  obtain ⟨x, hx, hb⟩ := List.mem_filterMap.mp (List.mem_toFinset.mp hb)
  exact List.mem_toFinset.mpr (hnames x hx b hb)

variable {edge : α → α → Prop} {vertices : List α}

/-- A walk, whose last vertex comes first, that has each name at most `m` times. -/
theorem length_le_of_marks (hwalk : l.IsChain fun v u => edge u v)
    (hcycle : ∀ x, ¬ Relation.TransGen (fun v u => edge u v ∧ f u = none ∧ f v = none) x x)
    (hvertices : ∀ x ∈ l, x ∈ vertices) (hnames : ∀ x ∈ l, ∀ b, f x = some b → b ∈ names)
    (hcount : ∀ b, l.countP (f · = some b) ≤ m) :
    l.length ≤ names.length * m * (vertices.length + 1) + vertices.length := by
  have hpart : ∀ s, s <:+: l → (∀ x ∈ s, (f x).isSome = false) → s.length ≤ vertices.length := by
    intro s hs hunmarked
    have hnone : ∀ x ∈ s, f x = none := fun x hx => by simpa using hunmarked x hx
    have hchain : s.IsChain fun v u => edge u v ∧ f u = none ∧ f v = none :=
      List.IsChain.imp_of_mem_imp (fun v u hv hu h => ⟨h, hnone u hu, hnone v hv⟩)
        ( List.IsChain.infix hwalk hs)
    have hsub : s ⊆ vertices := fun x hx => hvertices x (hs.subset hx)
    exact (List.Nodup.subperm (nodup_of_isChain hcycle hchain) hsub).length_le
  have hlength := length_le_takeWhile hpart
  have hfirst := hpart _ (List.takeWhile_prefix fun x => !(f x).isSome).isInfix fun x hx => by
    simpa using List.mem_takeWhile_imp hx
  have hmarks := Nat.mul_le_mul_right (vertices.length + 1) (countP_le_of_names hnames hcount)
  exact hlength.trans (Nat.add_le_add hmarks hfirst)

end Marks
