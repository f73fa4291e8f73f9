import Mathlib.Data.List.TakeWhile
import Prevail.Elf.Core
import Prevail.Lib.Result

/-!
# Fields of types

In C the first index of an access counts values of the type itself, as in an array, and the further ones
select members and elements (`Field`). The walk of the loader reads the first index as a member or an
element too (`Access`), and it adds up the offsets in 32 bits (`foldlM_accessStep`).
-/

namespace Prevail

/-! ## Types -/

variable {B : BtfTypeData} {id id' t t' : ℕ} {k k' : BtfKind} {indices : List ℕ} {bits bits' : ℕ}

/-- The type behind a typedef or a qualifier. -/
def BtfKind.behind : BtfKind → Option ℕ
  | typedef type | const type | volatile type | restrict type => some type
  | _ => none

/-- The type `id` is `k` behind typedefs and qualifiers. -/
inductive Behind (B : BtfTypeData) : ℕ → BtfKind → Prop
  | here {id : ℕ} {k : BtfKind} (h : B.kind id = .ok k) (hk : k.behind = none) : Behind B id k
  | there {id t : ℕ} {k k' : BtfKind} (h : B.kind id = .ok k) (hk : k.behind = some t)
      (hrest : Behind B t k') : Behind B id k'

/-- An index selects a member of a structure or an element of an array, which is `bits` behind the start. -/
inductive Selects (B : BtfTypeData) (id index : ℕ) : ℕ → ℕ → Prop
  | member {members : List (ℕ × ℕ)} {bits t : ℕ} (h : Behind B id (.struct members))
      (hm : members[index]? = some (bits, t)) : Selects B id index bits t
  | element {t size : ℕ} (h : Behind B id (.array t)) (hsize : B.size t = .ok size) :
      Selects B id index (index * size * 8) t

/-- Indices that select members and elements one after the other, and the bits before the last one. -/
inductive Access (B : BtfTypeData) : ℕ → List ℕ → ℕ → Prop
  | nil {id : ℕ} : Access B id [] 0
  | cons {id index bits t rest : ℕ} {indices : List ℕ} (h : Selects B id index bits t)
      (hrest : Access B t indices rest) : Access B id (index :: indices) (bits + rest)

theorem Behind.unique (h : Behind B id k) (h' : Behind B id k') : k = k' := by
  induction h with
  | here h hk =>
    cases h' with
    | here h' _ => exact Except.ok.inj (h.symm.trans h')
    | there h' hk' _ =>
      obtain rfl := Except.ok.inj (h.symm.trans h')
      cases hk.symm.trans hk'
  | there h hk _ ih =>
    cases h' with
    | here h' hk' =>
      obtain rfl := Except.ok.inj (h.symm.trans h')
      cases hk.symm.trans hk'
    | there h' hk' hrest =>
      obtain rfl := Except.ok.inj (h.symm.trans h')
      obtain rfl := Option.some.inj (hk.symm.trans hk')
      exact ih hrest

theorem Selects.unique {index : ℕ} (h : Selects B id index bits t) (h' : Selects B id index bits' t') :
    bits = bits' ∧ t = t' := by
  cases h with
  | member h hm =>
    cases h' with
    | member h' hm' =>
      obtain rfl := BtfKind.struct.inj (h.unique h')
      exact Prod.mk.inj (Option.some.inj (hm.symm.trans hm'))
    | element h' _ => cases h.unique h'
  | element h hsize =>
    cases h' with
    | member h' _ => cases h.unique h'
    | element h' hsize' =>
      obtain rfl := BtfKind.array.inj (h.unique h')
      obtain rfl := Except.ok.inj (hsize.symm.trans hsize')
      exact ⟨rfl, rfl⟩

theorem Access.unique (h : Access B id indices bits) (h' : Access B id indices bits') : bits = bits' := by
  induction h generalizing bits' with
  | nil =>
    cases h'
    rfl
  | cons h _ ih =>
    cases h' with
    | cons h' hrest' =>
      obtain ⟨rfl, rfl⟩ := h.unique h'
      rw [ih hrest']

/-! ## The walk of the loader -/

theorem behind_of_resolveType {depth : ℕ} (h : resolveType B depth id = .ok (id', k)) : Behind B id k := by
  induction depth generalizing id with
  | zero => cases h
  | succ depth ih =>
    obtain ⟨k₀, hk₀, h⟩ := Except.bind_eq_ok.mp h
    cases k₀ with
    | typedef t | const t | volatile t | restrict t => exact .there hk₀ rfl (ih h)
    | struct members | array t | other =>
      cases h
      exact .here hk₀ rfl

theorem selects_of_accessStep {res res' : ℕ × ℕ} {index : ℕ} (h : accessStep B res index = .ok res') :
    ∃ bits, Selects B res.1 index bits res'.1 ∧ res'.2 = (res.2 + bits) % 2 ^ 32 := by
  obtain ⟨⟨id', k⟩, hk, h⟩ := Except.bind_eq_ok.mp h
  have hbehind := behind_of_resolveType hk
  cases k with
  | struct members =>
    dsimp only at h
    cases hm : members[index]? with
    | none =>
      rw [hm] at h
      cases h
    | some m =>
      rw [hm] at h
      cases h
      exact ⟨m.1, .member hbehind hm, rfl⟩
  | array t =>
    obtain ⟨size, hsize, h⟩ := Except.bind_eq_ok.mp h
    cases h
    refine ⟨index * size * 8, .element hbehind hsize, ?_⟩
    show (res.2 + index * size * 8 % 2 ^ 64) % 2 ^ 32 = _
    omega
  | typedef t | const t | volatile t | restrict t | other => cases h

/-- The walk is an access from the first index on, with its bits in 32 bits. -/
theorem foldlM_accessStep {res res' : ℕ × ℕ} (h : indices.foldlM (accessStep B) res = .ok res')
    (hres : res.2 < 2 ^ 32) : ∃ bits, Access B res.1 indices bits ∧ res'.2 = (res.2 + bits) % 2 ^ 32 := by
  induction indices generalizing res with
  | nil =>
    cases h
    exact ⟨0, .nil, by omega⟩
  | cons index indices ih =>
    rw [List.foldlM_cons] at h
    obtain ⟨mid, hmid, h⟩ := Except.bind_eq_ok.mp h
    obtain ⟨bits, hselects, hbits⟩ := selects_of_accessStep hmid
    obtain ⟨rest, haccess, hrest⟩ := ih h (by omega)
    exact ⟨bits + rest, .cons hselects haccess, by omega⟩

/-! ## Access strings -/

/-- The number that digits write. -/
def digitsValue (item : List Char) : ℕ := item.foldl (fun n c => 10 * n + (c.toNat - 48)) 0

/-- The digits of a number. -/
structure IsNumeral (item : List Char) (n : ℕ) : Prop where
  ne_nil : item ≠ []
  digits : ∀ c ∈ item, c.isDigit = true
  value : digitsValue item = n

/-- The string writes the indices, with colons between them. -/
def WritesIndices (s : List Char) (indices : List ℕ) : Prop := List.Forall₂ IsNumeral (s.splitOn ':') indices

theorem stoul_eq_some {item : List Char} {n m : ℕ} (h : IsNumeral item n) (hm : stoul item = some m) :
    m = n := by
  obtain ⟨hne, hdigits, hvalue⟩ := h
  cases item with
  | nil => exact absurd rfl hne
  | cons c item =>
    have hc : 48 ≤ c.toNat ∧ c.toNat ≤ 57 := Char.isDigit_iff_toNat.mp (hdigits c List.mem_cons_self)
    have hspace : isSpace c = false := by
      have hblank : c ≠ ' ' := by
        rintro rfl
        exact absurd hc.1 (by decide)
      have htab : ¬ c.toNat ≤ 13 := by omega
      simp [isSpace, hblank, htab]
    have htake : (c :: item).takeWhile Char.isDigit = c :: item := List.takeWhile_eq_self_iff.mpr hdigits
    have hsign : c ≠ '-' ∧ c ≠ '+' := by
      constructor <;> rintro rfl <;> exact absurd hc.1 (by decide)
    unfold stoul at hm
    rw [List.dropWhile_cons_of_neg (by simp [hspace])] at hm
    dsimp only at hm
    split at hm
    next heq => exact absurd (List.cons.inj heq).1 hsign.1
    next heq => exact absurd (List.cons.inj heq).1 hsign.2
    next =>
      rw [htake] at hm
      split at hm
      · cases hm
      · exact (Option.some.inj hm).symm.trans hvalue

theorem parsed_eq_of_isNumeral {items : List (List Char)} {parsed : List ℕ} {err : ElfError}
    (hnumerals : List.Forall₂ IsNumeral items indices)
    (hparsed : List.Forall₂ (fun item i => (match stoul item with
      | some n => .ok (n % 2 ^ 32)
      | none => .error err : Except ElfError ℕ) = .ok i) items parsed) :
    parsed = indices.map (· % 2 ^ 32) := by
  induction hnumerals generalizing parsed with
  | nil =>
    cases hparsed
    rfl
  | @cons item n _ _ hn _ ih =>
    cases hparsed with
    | cons hi hrest =>
      rw [List.map_cons, ← ih hrest]
      cases hm : stoul item with
      | none =>
        rw [hm] at hi
        cases hi
      | some m =>
        rw [hm] at hi
        rw [← stoul_eq_some hn hm, Except.ok.inj hi]

/-- What is parsed are the indices that the string writes, in 32 bits. -/
theorem parseCoreAccessString_writes {s : List Char} {parsed : List ℕ} (hs : WritesIndices s indices)
    (h : parseCoreAccessString s = .ok parsed) : parsed = indices.map (· % 2 ^ 32) := by
  unfold parseCoreAccessString at h
  have hall : (s.splitOn ':').filter (· ≠ []) = s.splitOn ':' := by
    have hne : ∀ item ∈ s.splitOn ':', item ≠ [] :=
      ((List.forall₂_and_left _ _).mp (hs.imp fun _ _ hn => ⟨hn.ne_nil, hn⟩)).1
    exact List.filter_eq_self.mpr fun item hitem => by simpa using hne item hitem
  rw [hall] at h
  exact parsed_eq_of_isNumeral hs (Except.forall₂_of_mapM h)

end Prevail
