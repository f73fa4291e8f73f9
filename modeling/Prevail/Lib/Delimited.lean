import Mathlib.Data.Int.Basic
import Mathlib.Data.List.Basic
import Mathlib.Tactic.SplitIfs

/-!
# Texts with delimiters

A text in which a delimiter occurs determines the parts around it as soon as it is known that the
delimiter does not occur in the part in front of it (`inj_first`), or in the part behind it (`inj_last`).
The decimal notation of a number has digits and a sign only, and determines the number
(`decimal_injective`).
-/

namespace Delimited

variable {α : Type*} {d : α} {p q r s : List α}

/-- The part in front of the first delimiter. -/
theorem inj_first (hp : d ∉ p) (hq : d ∉ q) (h : p ++ d :: r = q ++ d :: s) : p = q ∧ r = s := by
  induction p generalizing q with
  | nil =>
    cases q with
    | nil => exact ⟨rfl, (List.cons.inj h).2⟩
    | cons b q =>
      obtain ⟨rfl, -⟩ := List.cons.inj h
      exact absurd List.mem_cons_self hq
  | cons a p ih =>
    cases q with
    | nil =>
      obtain ⟨rfl, -⟩ := List.cons.inj h
      exact absurd List.mem_cons_self hp
    | cons b q =>
      obtain ⟨rfl, htail⟩ := List.cons.inj h
      obtain ⟨rfl, rfl⟩ := ih (fun hd => hp (List.mem_cons_of_mem a hd))
        (fun hd => hq (List.mem_cons_of_mem a hd)) htail
      exact ⟨rfl, rfl⟩

/-- The part behind the last delimiter. -/
theorem inj_last (hr : d ∉ r) (hs : d ∉ s) (h : p ++ d :: r = q ++ d :: s) : p = q ∧ r = s := by
  have hrev : r.reverse ++ d :: p.reverse = s.reverse ++ d :: q.reverse := by
    simpa using congrArg List.reverse h
  obtain ⟨hleft, hright⟩ := inj_first (mt List.mem_reverse.mp hr) (mt List.mem_reverse.mp hs) hrev
  exact ⟨List.reverse_injective hright, List.reverse_injective hleft⟩

/-- The text up to the last delimiter, with it. -/
def uptoLast [DecidableEq α] (d : α) (p : List α) : Option (List α) :=
  if d ∈ p then some (p.reverse.dropWhile (· ≠ d)).reverse else none

theorem uptoLast_append [DecidableEq α] (hr : d ∉ r) :
    uptoLast d (p ++ d :: r) = some (p ++ [d]) := by
  have hdrop : ∀ q : List α, (∀ a ∈ r, a ≠ d) → (r.reverse ++ d :: q).dropWhile (· ≠ d) = d :: q := by
    intro q hne
    rw [List.dropWhile_append_of_pos fun a ha => ?_]
    · simp
    · simpa using hne a (List.mem_reverse.mp ha)
  unfold uptoLast
  rw [if_pos (List.mem_append_right p List.mem_cons_self), List.reverse_append, List.reverse_cons,
    List.append_assoc, List.singleton_append, hdrop _ fun a ha heq => hr (heq ▸ ha)]
  simp

/-! ## Numbers -/

/-- Decimal notation. -/
def decimal (n : ℤ) : List Char :=
  if n < 0 then '-' :: Nat.toDigits 10 n.natAbs else Nat.toDigits 10 n.natAbs

theorem toDigits_injective {m n : ℕ} (h : Nat.toDigits 10 m = Nat.toDigits 10 n) : m = n := by
  have hvalue := congrArg (fun digits => Nat.ofDigitChars 10 digits 0) h
  simpa using hvalue

theorem isDigit_of_mem_toDigits {n : ℕ} {c : Char} (h : c ∈ Nat.toDigits 10 n) : c.isDigit = true :=
  Nat.isDigit_of_mem_toDigits (by decide) (by decide) h

theorem not_mem_decimal {c : Char} {n : ℤ} (hdigit : c.isDigit = false) (hsign : c ≠ '-') :
    c ∉ decimal n := by
  have hdigits : c ∉ Nat.toDigits 10 n.natAbs := fun h => by
    rw [isDigit_of_mem_toDigits h] at hdigit
    cases hdigit
  unfold decimal
  split_ifs
  · exact fun h => (List.mem_cons.mp h).elim hsign hdigits
  · exact hdigits

theorem exists_digit_mem_decimal (n : ℤ) : ∃ c ∈ decimal n, c.isDigit = true := by
  have hne : Nat.toDigits 10 n.natAbs ≠ [] := Nat.toDigits_ne_nil
  obtain ⟨c, hc⟩ := List.exists_mem_of_ne_nil _ hne
  refine ⟨c, ?_, isDigit_of_mem_toDigits hc⟩
  unfold decimal
  split_ifs
  · exact List.mem_cons_of_mem _ hc
  · exact hc

theorem decimal_injective {m n : ℤ} (h : decimal m = decimal n) : m = n := by
  -- the sign is no digit
  have hsign : ∀ {k l : ℕ}, '-' :: Nat.toDigits 10 k ≠ Nat.toDigits 10 l := fun heq => by
    have hdigit := isDigit_of_mem_toDigits (heq ▸ List.mem_cons_self)
    revert hdigit
    decide
  unfold decimal at h
  split_ifs at h with hm hn hn
  · have := toDigits_injective (List.cons.inj h).2
    omega
  · exact absurd h hsign
  · exact absurd h.symm hsign
  · have := toDigits_injective h
    omega

end Delimited
