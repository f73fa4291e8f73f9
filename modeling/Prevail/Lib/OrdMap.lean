import Mathlib.Order.Lattice
import Mathlib.Data.List.Basic
import Mathlib.Tactic.Common

/-!
# Ordered maps

`OrdMap α β` is a finite map kept as an association list in strictly increasing key order, so
that iterating over it visits the keys in order. The order is a field of the structure.

`find?_insert` and `find?_erase` are the two equations the clients use; `mem_entries` passes
between the entry list and the lookups.
-/

/-- A finite map whose entries are listed in strictly increasing key order. -/
structure OrdMap (α β : Type*) [LinearOrder α] where
  entries : List (α × β)
  sorted : entries.Pairwise (fun a b => a.1 < b.1)
  deriving DecidableEq

namespace OrdMap

variable {α β : Type*} [LinearOrder α]

/-! ## The entry list -/

/-- Insert or overwrite in a sorted entry list. -/
def insertEntry (k : α) (v : β) : List (α × β) → List (α × β)
  | [] => [(k, v)]
  | e :: l => if k < e.1 then (k, v) :: e :: l
      else if k = e.1 then (k, v) :: l else e :: insertEntry k v l

/-- The value of the first entry with key `k`. -/
def findEntry (k : α) : List (α × β) → Option β
  | [] => none
  | e :: l => if k = e.1 then some e.2 else findEntry k l

theorem mem_insertEntry {k : α} {v : β} {l : List (α × β)} {e : α × β}
    (h : e ∈ insertEntry k v l) : e = (k, v) ∨ e ∈ l := by
  induction l with
  | nil => simpa [insertEntry] using h
  | cons a l ih =>
    unfold insertEntry at h
    split_ifs at h
    · simpa using h
    · rcases List.mem_cons.mp h with h | h
      · exact Or.inl h
      · exact Or.inr (List.mem_cons_of_mem _ h)
    · rcases List.mem_cons.mp h with h | h
      · exact Or.inr (h ▸ List.mem_cons_self)
      · exact (ih h).imp_right (List.mem_cons_of_mem _)

theorem sorted_insertEntry (k : α) (v : β) {l : List (α × β)}
    (h : l.Pairwise (fun a b => a.1 < b.1)) :
    (insertEntry k v l).Pairwise (fun a b => a.1 < b.1) := by
  induction l with
  | nil => simp [insertEntry]
  | cons a l ih =>
    obtain ⟨ha, hl⟩ := List.pairwise_cons.mp h
    unfold insertEntry
    split_ifs with h1 h2
    · refine List.pairwise_cons.mpr ⟨fun e he => ?_, h⟩
      rcases List.mem_cons.mp he with rfl | he
      · exact h1
      · exact h1.trans (ha e he)
    · exact List.pairwise_cons.mpr ⟨fun e he => h2 ▸ ha e he, hl⟩
    · refine List.pairwise_cons.mpr ⟨fun e he => ?_, ih hl⟩
      rcases mem_insertEntry he with rfl | he
      · exact lt_of_le_of_ne (not_lt.mp h1) (Ne.symm h2)
      · exact ha e he

theorem findEntry_insertEntry (k j : α) (v : β) (l : List (α × β)) :
    findEntry j (insertEntry k v l) = if j = k then some v else findEntry j l := by
  induction l with
  | nil => simp [insertEntry, findEntry]
  | cons a l ih =>
    unfold insertEntry
    by_cases h1 : k < a.1
    · rw [if_pos h1, findEntry]
    · rw [if_neg h1]
      by_cases h2 : k = a.1
      · rw [if_pos h2, findEntry]
        by_cases hj : j = k
        · simp [hj]
        · simp [hj, findEntry, ← h2]
      · rw [if_neg h2, findEntry, findEntry, ih]
        by_cases hj : j = k
        · simp [hj, h2]
        · simp [hj]

theorem findEntry_eq_none {k : α} {l : List (α × β)} (h : ∀ e ∈ l, k < e.1) :
    findEntry k l = none := by
  induction l with
  | nil => rfl
  | cons a l ih =>
    have ha : k ≠ a.1 := (h a List.mem_cons_self).ne
    rw [findEntry, if_neg ha]
    exact ih fun e he => h e (List.mem_cons_of_mem _ he)

theorem findEntry_eq_some {k : α} {v : β} {l : List (α × β)}
    (hl : l.Pairwise (fun a b => a.1 < b.1)) : findEntry k l = some v ↔ (k, v) ∈ l := by
  induction l with
  | nil => simp [findEntry]
  | cons a l ih =>
    obtain ⟨ha, hl⟩ := List.pairwise_cons.mp hl
    rw [findEntry, List.mem_cons]
    by_cases hk : k = a.1
    · rw [if_pos hk]
      constructor
      · rintro h
        exact Or.inl (Prod.ext hk (Option.some.inj h).symm)
      · rintro (h | h)
        · rw [← h]
        · exact absurd hk (ha _ h).ne'
    · rw [if_neg hk, ih hl]
      constructor
      · exact Or.inr
      · rintro (h | h)
        · exact absurd (congrArg Prod.fst h) hk
        · exact h

/-! ## Maps -/

/-- The empty map. -/
def empty : OrdMap α β := ⟨[], List.Pairwise.nil⟩

instance : EmptyCollection (OrdMap α β) := ⟨empty⟩

/-- The value at a key, if the key is present. -/
def find? (m : OrdMap α β) (k : α) : Option β := findEntry k m.entries

/-- Insert a key or overwrite its value. -/
def insert (m : OrdMap α β) (k : α) (v : β) : OrdMap α β :=
  ⟨insertEntry k v m.entries, sorted_insertEntry k v m.sorted⟩

/-- Remove a key. -/
def erase (m : OrdMap α β) (k : α) : OrdMap α β :=
  ⟨m.entries.filter (fun e => e.1 ≠ k), m.sorted.sublist List.filter_sublist⟩

/-- Keep the entries whose key satisfies `p`. -/
def filterKeys (m : OrdMap α β) (p : α → Bool) : OrdMap α β :=
  ⟨m.entries.filter (fun e => p e.1), m.sorted.sublist List.filter_sublist⟩

/-- Keep the entries whose value satisfies `p`. -/
def filterVals (m : OrdMap α β) (p : β → Bool) : OrdMap α β :=
  ⟨m.entries.filter (fun e => p e.2), m.sorted.sublist List.filter_sublist⟩

/-- Apply a function to every value. -/
def mapVals {γ : Type*} (m : OrdMap α β) (f : β → γ) : OrdMap α γ :=
  ⟨m.entries.map (fun e => (e.1, f e.2)), m.sorted.map _ fun _ _ h => h⟩

/-- Insert a key only when it is absent. -/
def emplace (m : OrdMap α β) (k : α) (v : β) : OrdMap α β :=
  if (m.find? k).isSome then m else m.insert k v

/-- Is the key present? -/
def contains (m : OrdMap α β) (k : α) : Bool := (m.find? k).isSome

/-- The keys in increasing order. -/
def keys (m : OrdMap α β) : List α := m.entries.map Prod.fst

@[simp] theorem find?_empty (k : α) : (∅ : OrdMap α β).find? k = none := rfl

@[simp] theorem entries_empty : (∅ : OrdMap α β).entries = [] := rfl

theorem mem_entries {m : OrdMap α β} {k : α} {v : β} :
    (k, v) ∈ m.entries ↔ m.find? k = some v := (findEntry_eq_some m.sorted).symm

theorem mem_keys {m : OrdMap α β} {k : α} : k ∈ m.keys ↔ ∃ v, m.find? k = some v := by
  simp [keys, ← mem_entries]

theorem sorted_keys (m : OrdMap α β) : m.keys.Pairwise (· < ·) := List.pairwise_map.mpr m.sorted

theorem nodup_keys (m : OrdMap α β) : m.keys.Nodup := by
  exact m.sorted_keys.imp fun h => ne_of_lt h

theorem find?_insert (m : OrdMap α β) (k j : α) (v : β) :
    (m.insert k v).find? j = if j = k then some v else m.find? j :=
  findEntry_insertEntry k j v m.entries

@[simp] theorem find?_insert_self (m : OrdMap α β) (k : α) (v : β) :
    (m.insert k v).find? k = some v := by rw [find?_insert, if_pos rfl]

theorem find?_insert_of_ne {m : OrdMap α β} {k j : α} (h : j ≠ k) (v : β) :
    (m.insert k v).find? j = m.find? j := by rw [find?_insert, if_neg h]

theorem find?_erase (m : OrdMap α β) (k j : α) :
    (m.erase k).find? j = if j = k then none else m.find? j := by
  apply Option.ext
  intro v
  rw [← mem_entries, erase, List.mem_filter]
  by_cases h : j = k
  · simp [h]
  · simp [h, mem_entries]

theorem find?_filterKeys (m : OrdMap α β) (p : α → Bool) (k : α) :
    (m.filterKeys p).find? k = if p k then m.find? k else none := by
  apply Option.ext
  intro v
  rw [← mem_entries, filterKeys, List.mem_filter]
  by_cases h : p k
  · simp [h, mem_entries]
  · simp [h]

theorem find?_emplace (m : OrdMap α β) (k j : α) (v : β) :
    (m.emplace k v).find? j = if j = k then some ((m.find? k).getD v) else m.find? j := by
  unfold emplace
  cases h : m.find? k with
  | none => simp [find?_insert]
  | some w =>
    simp only [Option.isSome_some, if_true, Option.getD_some]
    split_ifs with hj
    · rw [hj, h]
    · rfl

end OrdMap
