import Mathlib.Algebra.Group.Nat.Defs
import Mathlib.Data.List.GetD
import Mathlib.Order.Basic
import Mathlib.Tactic.Common

/-!
# Arrays reset by time stamps

An array is cleared between two runs by moving on a time stamp: an entry is current when its
stamp is the stamp of the run. The stamps are words and wrap around, so that each run also
refreshes one entry, at an index that slides over the array.

The age of an entry is how far its stamp is behind the current one. No entry that waits for the
index gets older than the array is long (`Aged`), and so none gets back to the current stamp as
long as the array is shorter than the stamps are many.
-/

namespace Prevail

namespace Stamps

variable {w : ℕ} {stamps : List (BitVec w)} {ts : BitVec w} {idx : ℕ}

/-- How far the stamp of an entry is behind the current stamp. -/
def age (stamps : List (BitVec w)) (ts : BitVec w) (v : ℕ) : ℕ := (ts - stamps.getD v 0).toNat

/-- The entries before the index were refreshed in this round, those from it on in the last. -/
def Aged (stamps : List (BitVec w)) (ts : BitVec w) (idx : ℕ) : Prop :=
  ∀ v < stamps.length, age stamps ts v + v ≤ if v < idx then idx else stamps.length + idx

theorem aged_nil : Aged ([] : List (BitVec w)) ts idx := by
  intro v hv
  simp at hv

theorem toNat_sub_sub_one_le (ts : BitVec w) : (ts - (ts - 1)).toNat ≤ 1 := by
  have h : ts - (ts - 1) = 1 := by
    rw [BitVec.sub_eq_iff_eq_add, BitVec.add_comm, BitVec.sub_add_cancel]
  rw [h]
  exact (BitVec.toNat_ofNat 1 w).trans_le (Nat.mod_le _ _)

/-- New entries that carry the last stamp. -/
theorem Aged.append (h : Aged stamps ts idx) (hidx : idx ≤ stamps.length) (k : ℕ) :
    Aged (stamps ++ List.replicate k (ts - 1)) ts idx := by
  intro v hv
  rw [List.length_append, List.length_replicate] at hv ⊢
  unfold age
  by_cases hlt : v < stamps.length
  · have hold := h v hlt
    unfold age at hold
    rw [List.getD_append _ _ _ _ hlt]
    split_ifs at hold ⊢ <;> omega
  · rw [List.getD_append_right _ _ _ _ (by omega), List.getD_replicate _ (by omega),
      if_neg (by omega)]
    have := toNat_sub_sub_one_le ts
    omega

theorem age_set {u : ℕ} (hu : u < stamps.length) (stamp : BitVec w) (v : ℕ) :
    age (stamps.set u stamp) ts v = if v = u then (ts - stamp).toNat else age stamps ts v := by
  unfold age
  rw [List.getD_eq_getElem?_getD, List.getD_eq_getElem?_getD, List.getElem?_set]
  split_ifs with h₁ h₂ h₂
  · rfl
  · exact absurd h₁.symm h₂
  · exact absurd h₂.symm h₁
  · rfl

/-- An entry that becomes current. -/
theorem Aged.mark (h : Aged stamps ts idx) {u : ℕ} (hu : u < stamps.length) :
    Aged (stamps.set u ts) ts idx := by
  intro v hv
  rw [List.length_set] at hv ⊢
  rw [age_set hu]
  have hold := h v hv
  split_ifs at hold ⊢ with h₁ h₂ h₂
  · rw [BitVec.sub_self, BitVec.toNat_zero]
    omega
  · rw [BitVec.sub_self, BitVec.toNat_zero]
    omega
  · exact hold
  · exact hold

/-- A step of the stamp makes an entry older by one, up to the wrap. -/
theorem toNat_succ_sub (ts stamp : BitVec w) :
    (ts + 1 - stamp).toNat = ((ts - stamp).toNat + 1) % 2 ^ w := by
  have h : ts + 1 - stamp = ts - stamp + 1 := by
    rw [BitVec.sub_eq_iff_eq_add, BitVec.add_assoc, BitVec.add_comm 1, ← BitVec.add_assoc,
      BitVec.sub_add_cancel]
  rw [h, BitVec.toNat_add]
  exact (congrArg (fun n => ((ts - stamp).toNat + n) % 2 ^ w) (BitVec.toNat_ofNat 1 w)).trans
    (Nat.add_mod_mod _ _ _)

theorem age_reset (hidx : idx < stamps.length) (v : ℕ) :
    age (stamps.set idx ts) (ts + 1) v =
      ((if v = idx then 0 else age stamps ts v) + 1) % 2 ^ w := by
  rw [age_set hidx]
  split_ifs
  · rw [toNat_succ_sub, BitVec.sub_self, BitVec.toNat_zero]
  · exact toNat_succ_sub _ _

/-- Refresh the entry at the index, and move on the stamp and the index. -/
theorem Aged.reset (h : Aged stamps ts idx) (hidx : idx < stamps.length) :
    Aged (stamps.set idx ts) (ts + 1) ((idx + 1) % stamps.length) := by
  intro v hv
  rw [List.length_set] at hv ⊢
  have hold := h v hv
  have hage : age (stamps.set idx ts) (ts + 1) v ≤ (if v = idx then 0 else age stamps ts v) + 1 :=
    (age_reset hidx v).trans_le (Nat.mod_le _ _)
  -- the index starts again at the front when the last entry was refreshed
  by_cases hlast : idx + 1 < stamps.length
  · rw [Nat.mod_eq_of_lt hlast]
    split_ifs at hold hage ⊢ <;> omega
  · rw [show idx + 1 = stamps.length by omega, Nat.mod_self]
    split_ifs at hold hage ⊢ <;> omega

/-- After that no entry is current, as long as there are more stamps than entries. -/
theorem Aged.reset_ne (h : Aged stamps ts idx) (hidx : idx < stamps.length)
    (hlen : stamps.length < 2 ^ w) {v : ℕ} (hv : v < stamps.length) :
    (stamps.set idx ts).getD v 0 ≠ ts + 1 := by
  intro heq
  have hzero : age (stamps.set idx ts) (ts + 1) v = 0 := by
    unfold age
    rw [heq, BitVec.sub_self, BitVec.toNat_zero]
  have hold := h v hv
  rw [age_reset hidx, Nat.mod_eq_of_lt] at hzero
  · split_ifs at hzero
  · split_ifs at hold ⊢ <;> omega

end Stamps

end Prevail
