import Mathlib.Data.Int.Basic
import Mathlib.Data.List.Basic

/-!
# Numbering keys

Keys are numbered from one in the order in which they are first asked for. `Numbering.Records` says that
an association list holds the numbers; a new key may be put before the others or behind them.
-/

namespace Numbering

variable {α : Type*} [DecidableEq α] {keys : List α} {k k' : α}

/-- The keys when one more is asked for. -/
def ask (keys : List α) (k : α) : List α := if k ∈ keys then keys else keys ++ [k]

/-- The number of a key. -/
def number (keys : List α) (k : α) : ℤ := keys.idxOf k + 1

theorem ask_of_mem (h : k ∈ keys) : ask keys k = keys := if_pos h

theorem ask_of_not_mem (h : k ∉ keys) : ask keys k = keys ++ [k] := if_neg h

theorem mem_ask : k' ∈ ask keys k ↔ k' ∈ keys ∨ k' = k := by
  by_cases hk : k ∈ keys
  · rw [ask_of_mem hk]
    constructor
    · exact Or.inl
    · rintro (h | rfl)
      · exact h
      · exact hk
  · rw [ask_of_not_mem hk, List.mem_append, List.mem_singleton]

theorem mem_ask_self : k ∈ ask keys k := mem_ask.mpr (Or.inr rfl)

/-- A key keeps its number. -/
theorem number_ask (h : k' ∈ keys) : number (ask keys k) k' = number keys k' := by
  by_cases hk : k ∈ keys
  · rw [ask_of_mem hk]
  · rw [ask_of_not_mem hk, number, List.idxOf_append_of_mem h, number]

theorem number_ask_of_not_mem (h : k ∉ keys) : number (ask keys k) k = keys.length + 1 := by
  rw [ask_of_not_mem h, number, List.idxOf_append_of_notMem h, List.idxOf_cons_self, Nat.add_zero]

theorem number_injective (h : k ∈ keys) (hnumber : number keys k = number keys k') : k = k' := by
  refine (List.idxOf_inj h).mp ?_
  unfold number at hnumber
  omega

theorem number_le_length (h : k ∈ keys) : number keys k ≤ keys.length := by
  have hlt := List.idxOf_lt_length_iff.mpr h
  unfold number
  omega

theorem length_ask_le : (ask keys k).length ≤ keys.length + 1 := by
  unfold ask
  split_ifs
  · omega
  · rw [List.length_append, List.length_singleton]

/-! ## Many keys -/

/-- The keys when all of a list are asked for. -/
def askAll (keys ks : List α) : List α := ks.foldl ask keys

variable {ks : List α}

theorem askAll_append (ks₁ ks₂ : List α) : askAll keys (ks₁ ++ ks₂) = askAll (askAll keys ks₁) ks₂ :=
  List.foldl_append

theorem mem_askAll : k ∈ askAll keys ks ↔ k ∈ keys ∨ k ∈ ks := by
  induction ks generalizing keys with
  | nil => exact (or_iff_left List.not_mem_nil).symm
  | cons k' ks ih =>
    show k ∈ askAll (ask keys k') ks ↔ _
    rw [ih, mem_ask, List.mem_cons, or_assoc]

theorem number_askAll (h : k ∈ keys) : number (askAll keys ks) k = number keys k := by
  induction ks generalizing keys with
  | nil => rfl
  | cons k' ks ih =>
    show number (askAll (ask keys k') ks) k = _
    rw [ih (mem_ask.mpr (Or.inl h)), number_ask h]

theorem length_askAll_le : (askAll keys ks).length ≤ keys.length + ks.length := by
  induction ks generalizing keys with
  | nil => exact le_rfl
  | cons k' ks ih =>
    have hask : (ask keys k').length ≤ keys.length + 1 := length_ask_le
    have htail : (askAll keys (k' :: ks)).length ≤ (ask keys k').length + ks.length := ih
    rw [List.length_cons]
    omega

/-! ## Association lists -/

/-- The list holds the number of every key. -/
structure Records (l : List (α × ℤ)) (keys : List α) : Prop where
  length : l.length = keys.length
  lookup : ∀ k, l.lookup k = if k ∈ keys then some (number keys k) else none

variable {l : List (α × ℤ)}

theorem records_nil : Records ([] : List (α × ℤ)) [] := ⟨rfl, fun _ => rfl⟩

theorem Records.lookup_eq_some {n : ℤ} (h : Records l keys) (hk : l.lookup k = some n) :
    k ∈ keys ∧ n = number keys k := by
  rw [h.lookup] at hk
  split_ifs at hk with hmem
  exact ⟨hmem, (Option.some.inj hk).symm⟩

theorem Records.lookup_eq_none (h : Records l keys) (hk : l.lookup k = none) : k ∉ keys := by
  rw [h.lookup] at hk
  split_ifs at hk with hmem
  exact hmem

/-- The numbers of the keys when one more is asked for. -/
theorem lookup_ask (hk : k ∉ keys) (k' : α) :
    (if k' ∈ ask keys k then some (number (ask keys k) k') else none) =
      if k' = k then some ((keys.length : ℤ) + 1)
      else if k' ∈ keys then some (number keys k') else none := by
  by_cases hself : k' = k
  · subst hself
    rw [if_pos mem_ask_self, if_pos rfl, number_ask_of_not_mem hk]
  · rw [if_neg hself]
    by_cases hmem : k' ∈ keys
    · rw [if_pos (mem_ask.mpr (Or.inl hmem)), if_pos hmem, number_ask hmem]
    · rw [if_neg fun h => (mem_ask.mp h).elim hmem hself, if_neg hmem]

theorem Records.cons (h : Records l keys) (hk : k ∉ keys) :
    Records ((k, (l.length : ℤ) + 1) :: l) (ask keys k) := by
  refine ⟨?_, fun k' => ?_⟩
  · rw [ask_of_not_mem hk, List.length_cons, List.length_append, h.length, List.length_singleton]
  · rw [lookup_ask hk, List.lookup_cons, h.lookup, h.length]
    by_cases hself : k' = k
    · rw [if_pos hself, beq_iff_eq.mpr hself]
    · rw [if_neg hself, beq_eq_false_iff_ne.mpr hself]

theorem Records.append (h : Records l keys) (hk : k ∉ keys) :
    Records (l ++ [(k, (l.length : ℤ) + 1)]) (ask keys k) := by
  refine ⟨?_, fun k' => ?_⟩
  · rw [ask_of_not_mem hk, List.length_append, List.length_append, h.length]
    rfl
  · rw [lookup_ask hk, List.lookup_append, h.lookup, h.length]
    by_cases hself : k' = k
    · subst hself
      rw [if_neg hk, if_pos rfl, Option.none_or, List.lookup_cons_self]
    · rw [if_neg hself, List.lookup_cons, beq_eq_false_iff_ne.mpr hself]
      exact Option.or_none

end Numbering
