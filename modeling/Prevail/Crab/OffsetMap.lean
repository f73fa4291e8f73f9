import Mathlib.Data.Prod.Lex
import Prevail.Arith.Interval
import Prevail.Lib.OrdMap

/-!
# The map of stack cells

A `Cell` is a range of stack bytes that has a scalar variable. `offset_map_t` keeps for each
offset the set of the cells that start there, in a radix tree that behaves as an ordered map.
Reading `_map[o]` creates the key `o` when it is missing, so that keys without cells come about.

`getOverlapCells` looks for the cells that overlap a range of bytes. It walks away from the
offset in both directions and stops at the first key that has no overlapping cell.
`getOverlapCells_exact_iff` says exactly when nothing is missed.

A function returns `none` where the source throws: `gsl::narrow<int>` refuses an offset that is
not an `int`.
-/

namespace Prevail

/-- `INT_MAX`. -/
def intMax : ℕ := 2 ^ 31 - 1

/-- `Cell`: the bytes `offset, …, offset + size - 1`. -/
structure Cell where
  offset : ℕ
  size : ℕ

namespace Cell

/-- `operator<`: by offset, then by size. -/
instance : LinearOrder Cell :=
  LinearOrder.lift' (fun c => toLex (c.offset, c.size)) fun a b h => by
    obtain ⟨h1, h2⟩ := Prod.mk.inj (toLex_inj.mp h)
    cases a
    cases b
    simp_all

/-- `to_interval` of an offset and a size. -/
def rangeInterval (o size : ℕ) : Option Interval :=
  if o ≤ intMax then some (.ofInts o (o + size - 1)) else none

def toInterval (c : Cell) : Option Interval := rangeInterval c.offset c.size

/-- `operator==`, which compares the intervals. -/
def eqv (a b : Cell) : Bool := decide (a.toInterval = b.toInterval)

def overlap (c : Cell) (o size : ℕ) : Option Bool := do
  let x ← c.toInterval
  let y ← rangeInterval o size
  return !(x.meet y).isBottom

def symbolicOverlap (c : Cell) (range : Interval) : Option Bool := do
  let x ← c.toInterval
  return !(x.meet range).isBottom

def isNull (c : Cell) : Bool := c.offset == 0 && c.size == 0

/-- The cell shares a byte with `[o, o + size)`. -/
def Intersects (c : Cell) (o size : ℕ) : Prop :=
  ∃ b, (c.offset ≤ b ∧ b < c.offset + c.size) ∧ o ≤ b ∧ b < o + size

theorem intersects_iff {c : Cell} {o size : ℕ} :
    c.Intersects o size ↔ 0 < c.size ∧ 0 < size ∧ c.offset < o + size ∧ o < c.offset + c.size := by
  constructor
  · rintro ⟨b, hb⟩
    omega
  · intro h
    exact ⟨max c.offset o, by omega⟩

instance (c : Cell) (o size : ℕ) : Decidable (c.Intersects o size) :=
  decidable_of_iff' _ intersects_iff

end Cell

/-- `cell_set_t`. -/
abbrev CellSet := OrdMap Cell Unit

/-- `offset_map_t`. -/
structure OffsetMap where
  map : OrdMap ℕ CellSet
  deriving DecidableEq

namespace OffsetMap

def empty : OffsetMap := ⟨∅⟩

/-- The cells at an offset. -/
def cellsAt (m : OffsetMap) (o : ℕ) : CellSet := (m.map.find? o).getD ∅

/-- `_map[o]`: the key is there afterwards. -/
def touch (m : OffsetMap) (o : ℕ) : OffsetMap := ⟨m.map.emplace o ∅⟩

def removeCell (m : OffsetMap) (c : Cell) : OffsetMap :=
  ⟨m.map.insert c.offset ((m.cellsAt c.offset).erase c)⟩

def insertCell (m : OffsetMap) (c : Cell) : OffsetMap :=
  ⟨m.map.insert c.offset ((m.cellsAt c.offset).insert c ())⟩

/-- `operator-=` with a vector of cells. -/
def removeCells (m : OffsetMap) (cells : List Cell) : OffsetMap := cells.foldl removeCell m

def getCell (m : OffsetMap) (o size : ℕ) : Option Cell × OffsetMap :=
  (if (m.cellsAt o).contains ⟨o, size⟩ then some ⟨o, size⟩ else none, m.touch o)

def mkCell (m : OffsetMap) (o size : ℕ) : Cell × OffsetMap :=
  match m.getCell o size with
  | (some c, m) => (c, m)
  | (none, m) => (⟨o, size⟩, m.insertCell ⟨o, size⟩)

/-! ## Overlapping cells -/

/-- `largest_cell` of the cells of one offset. -/
def largestCell (cells : List Cell) : Cell :=
  cells.foldl (fun largest c => if largest.isNull then c else if largest < c then c else largest)
    ⟨0, 0⟩

/-- The cells at the offsets whose largest cell overlaps the range. -/
def getOverlapCellsSymbolicOffset (m : OffsetMap) (range : Interval) : Option (List Cell) :=
  m.map.entries.foldlM (fun out e =>
    let largest := largestCell e.2.keys
    if largest.isNull then some out
    else do
      let b ← largest.symbolicOverlap range
      return if b then out ++ e.2.keys else out) []

/-- One cell of a search. The flag says that an overlapping cell was seen at this key; `keep`
says which overlapping cells are returned. -/
def scanCell (o size : ℕ) (keep : Cell → Bool) (acc : List Cell × Bool) (x : Cell) :
    Option (List Cell × Bool) := do
  let b ← x.overlap o size
  return if b then (if keep x && !acc.1.any x.eqv then acc.1 ++ [x] else acc.1, true) else acc

/-- Search the cells of key after key, up to the first key without an overlapping cell. The second
component lists the keys from there on. -/
def scanKeys (step : List Cell × Bool → Cell → Option (List Cell × Bool)) :
    List (ℕ × CellSet) → List Cell → Option (List Cell × List (ℕ × CellSet))
  | [], out => some (out, [])
  | e :: rest, out => do
    let (out, continueOuterLoop) ← e.2.keys.foldlM step (out, false)
    if continueOuterLoop then scanKeys step rest out else some (out, e :: rest)

/-- The three loops of `get_overlap_cells`: from the offset down, from the offset up, and over the
keys of the second loop once more. -/
def overlapSearch (m : OffsetMap) (o size : ℕ) : Option (List Cell) := do
  let self : Cell := ⟨o, size⟩
  let uptoLb := (m.map.entries.filter (·.1 ≤ o)).reverse
  let above := m.map.entries.filter (o < ·.1)
  let (out, _) ← scanKeys (scanCell o size fun x => !x.eqv self) uptoLb []
  let (out, rest) ← scanKeys (scanCell o size fun _ => true) above out
  let (out, _) ← scanKeys
    (fun acc x => if x.eqv self then some acc else scanCell o size (fun _ => true) acc x)
    (above.take (above.length - rest.length)) out
  return out

/-- All cells that might overlap with `[o, o + size)`. The cell `(o, size)` is in the map during
the search. -/
def getOverlapCells (m : OffsetMap) (o size : ℕ) : Option (List Cell × OffsetMap) :=
  match m.getCell o size with
  | (some _, m) => (m.overlapSearch o size).map fun out => (out, m)
  | (none, m) =>
    let m := m.insertCell ⟨o, size⟩
    (m.overlapSearch o size).map fun out => (out, m.removeCell ⟨o, size⟩)

/-! ## What the map holds -/

/-- The cell is in the map. -/
def Has (m : OffsetMap) (c : Cell) : Prop :=
  ∃ k s, m.map.find? k = some s ∧ s.find? c = some ()

/-- The offset is a key of the map. -/
def HasKey (m : OffsetMap) (k : ℕ) : Prop := ∃ s, m.map.find? k = some s

/-- Cells are stored under their own offset, which is an `int`. -/
def Inv (m : OffsetMap) : Prop :=
  ∀ k s c, m.map.find? k = some s → s.find? c = some () → c.offset = k ∧ c.offset ≤ intMax

variable {m : OffsetMap} {o size : ℕ} {c x : Cell}

theorem Inv.has_iff (h : m.Inv) : m.Has c ↔ (m.cellsAt c.offset).find? c = some () := by
  unfold cellsAt
  constructor
  · rintro ⟨k, s, hs, hc⟩
    rw [(h k s c hs hc).1, hs]
    exact hc
  · intro hc
    cases hs : m.map.find? c.offset with
    | none => simp [hs] at hc
    | some s => exact ⟨c.offset, s, hs, by simpa [hs] using hc⟩

theorem inv_empty : empty.Inv := by simp [Inv, empty]

theorem find?_touch (k : ℕ) :
    (m.touch o).map.find? k = if k = o then some (m.cellsAt o) else m.map.find? k :=
  OrdMap.find?_emplace _ _ _ _

theorem hasKey_touch {k : ℕ} : (m.touch o).HasKey k ↔ k = o ∨ m.HasKey k := by
  unfold HasKey
  rw [find?_touch]
  by_cases h : k = o <;> simp [h]

theorem has_touch : (m.touch o).Has c ↔ m.Has c := by
  unfold Has
  constructor
  · rintro ⟨k, s, hs, hc⟩
    rw [find?_touch] at hs
    split_ifs at hs with hk
    · obtain rfl := Option.some.inj hs
      unfold cellsAt at hc
      cases hm : m.map.find? o with
      | none => simp [hm] at hc
      | some s => exact ⟨o, s, hm, by simpa [hm] using hc⟩
    · exact ⟨k, s, hs, hc⟩
  · rintro ⟨k, s, hs, hc⟩
    refine ⟨k, s, ?_, hc⟩
    rw [find?_touch]
    split_ifs with hk
    · rw [cellsAt, ← hk, hs]
      rfl
    · exact hs

theorem Inv.touch (h : m.Inv) (o : ℕ) : (m.touch o).Inv := by
  intro k s c hs hc
  rw [find?_touch] at hs
  split_ifs at hs with hk
  · obtain rfl := Option.some.inj hs
    unfold cellsAt at hc
    cases hm : m.map.find? o with
    | none => simp [hm] at hc
    | some s => exact hk ▸ h o s c hm (by simpa [hm] using hc)
  · exact h k s c hs hc

theorem hasKey_insertCell {k : ℕ} : (m.insertCell x).HasKey k ↔ k = x.offset ∨ m.HasKey k := by
  simp only [HasKey, insertCell, OrdMap.find?_insert]
  by_cases h : k = x.offset <;> simp [h]

theorem hasKey_removeCell {k : ℕ} : (m.removeCell x).HasKey k ↔ k = x.offset ∨ m.HasKey k := by
  simp only [HasKey, removeCell, OrdMap.find?_insert]
  by_cases h : k = x.offset <;> simp [h]

theorem cellsAt_insertCell (k : ℕ) :
    (m.insertCell x).cellsAt k =
      if k = x.offset then (m.cellsAt x.offset).insert x () else m.cellsAt k := by
  simp only [cellsAt, insertCell, OrdMap.find?_insert]
  split_ifs <;> rfl

theorem cellsAt_removeCell (k : ℕ) :
    (m.removeCell x).cellsAt k =
      if k = x.offset then (m.cellsAt x.offset).erase x else m.cellsAt k := by
  simp only [cellsAt, removeCell, OrdMap.find?_insert]
  split_ifs <;> rfl

/-- The invariant in terms of the cells at an offset. -/
theorem inv_iff : m.Inv ↔
    ∀ k c, (m.cellsAt k).find? c = some () → c.offset = k ∧ c.offset ≤ intMax := by
  constructor
  · intro h k c hc
    unfold cellsAt at hc
    cases hs : m.map.find? k with
    | none => simp [hs] at hc
    | some s => exact h k s c hs (by simpa [hs] using hc)
  · intro h k s c hs hc
    exact h k c (by simpa [cellsAt, hs] using hc)

theorem Inv.insertCell (h : m.Inv) (hx : x.offset ≤ intMax) : (m.insertCell x).Inv := by
  rw [inv_iff] at h ⊢
  intro k c hc
  rw [cellsAt_insertCell] at hc
  split_ifs at hc with hk
  · rw [OrdMap.find?_insert] at hc
    split_ifs at hc with hcx
    · rw [hcx]
      exact ⟨hk.symm, hx⟩
    · exact hk ▸ h _ c hc
  · exact h k c hc

theorem Inv.removeCell (h : m.Inv) (x : Cell) : (m.removeCell x).Inv := by
  rw [inv_iff] at h ⊢
  intro k c hc
  rw [cellsAt_removeCell] at hc
  split_ifs at hc with hk
  · rw [OrdMap.find?_erase] at hc
    split_ifs at hc with hcx
    exact hk ▸ h _ c hc
  · exact h k c hc

theorem has_insertCell (h : m.Inv) (hx : x.offset ≤ intMax) :
    (m.insertCell x).Has c ↔ c = x ∨ m.Has c := by
  rw [(h.insertCell hx).has_iff, h.has_iff, cellsAt_insertCell]
  by_cases hk : c.offset = x.offset
  · rw [if_pos hk, OrdMap.find?_insert, hk]
    by_cases hc : c = x <;> simp [hc]
  · rw [if_neg hk]
    have hne : c ≠ x := fun hc => hk (hc ▸ rfl)
    simp [hne]

theorem has_removeCell (h : m.Inv) : (m.removeCell x).Has c ↔ c ≠ x ∧ m.Has c := by
  rw [(h.removeCell x).has_iff, h.has_iff, cellsAt_removeCell]
  by_cases hk : c.offset = x.offset
  · rw [if_pos hk, OrdMap.find?_erase, hk]
    by_cases hc : c = x <;> simp [hc]
  · rw [if_neg hk]
    have hne : c ≠ x := fun hc => hk (hc ▸ rfl)
    simp [hne]

theorem Inv.removeCells (h : m.Inv) (cells : List Cell) : (m.removeCells cells).Inv :=
  List.foldlRecOn cells _ h fun _ hm x _ => hm.removeCell x

theorem Inv.mkCell (h : m.Inv) (ho : o ≤ intMax) (size : ℕ) : (m.mkCell o size).2.Inv := by
  unfold OffsetMap.mkCell getCell
  split_ifs
  · exact h.touch o
  · exact (h.touch o).insertCell ho

/-! ## The search -/

theorem overlap_eq (hc : c.offset ≤ intMax) (ho : o ≤ intMax) :
    c.overlap o size = some (decide (c.Intersects o size)) := by
  have h : c.overlap o size = some (!((Interval.ofInts c.offset (c.offset + c.size - 1)).meet
      (.ofInts o (o + size - 1))).isBottom) := by
    simp [Cell.overlap, Cell.toInterval, Cell.rangeInterval, hc, ho]
  rw [h, Option.some.injEq, Bool.eq_iff_iff, Bool.not_eq_true', Interval.isBottom_meet_ofInts,
    decide_eq_true_iff]
  constructor
  · rintro ⟨n, hn, hn'⟩
    exact ⟨n.toNat, by omega⟩
  · rintro ⟨b, hb⟩
    exact ⟨b, by omega⟩

theorem overlap_eq_none (ho : intMax < o) (size : ℕ) : c.overlap o size = none := by
  simp [Cell.overlap, Cell.rangeInterval, Nat.not_le.mpr ho]

/-- Cells of at least one byte are equal when their intervals are. -/
theorem eq_of_eqv (hc : c.offset ≤ intMax) (hpos : 0 < c.size) (h : c.eqv x) : c = x := by
  unfold Cell.eqv Cell.toInterval Cell.rangeInterval at h
  rw [decide_eq_true_eq, if_pos hc, Interval.ofInts_of_le (by omega)] at h
  split_ifs at h with hx
  have hx' : (x.offset : ℤ) ≤ x.offset + x.size - 1 := by
    by_contra hlt
    have h' := congrArg Interval.isBottom (Option.some.inj h)
    rw [Interval.isBottom_ofInts, decide_eq_true (by omega)] at h'
    simp [Interval.isBottom, Bound.lt_iff] at h'
    omega
  rw [Interval.ofInts_of_le hx'] at h
  simp only [Option.some.injEq, Interval.mk.injEq, Bound.fin.injEq] at h
  cases c
  cases x
  simp only [Cell.mk.injEq]
  simp only at h hpos
  omega

theorem eqv_self : c.eqv c := by simp [Cell.eqv]

/-- A step of the search adds the cells in `add`, unless they are there, and raises the flag at
those in `flag`. -/
def IsScan (step : List Cell × Bool → Cell → Option (List Cell × Bool)) (add flag : Cell → Bool)
    (x : Cell) : Prop :=
  ∀ acc, step acc x =
    some (if add x && !acc.1.any x.eqv then acc.1 ++ [x] else acc.1, acc.2 || flag x)

variable {step : List Cell × Bool → Cell → Option (List Cell × Bool)} {add flag : Cell → Bool}

theorem scanCells_spec {l : List Cell} (hl : ∀ x ∈ l, IsScan step add flag x)
    (hadd : ∀ x ∈ l, add x → x.offset ≤ intMax ∧ 0 < x.size) (out : List Cell) (b : Bool) :
    ∃ out', l.foldlM step (out, b) = some (out', b || l.any flag) ∧
      ∀ c, c ∈ out' ↔ c ∈ out ∨ c ∈ l ∧ add c := by
  induction l generalizing out b with
  | nil => exact ⟨out, by simp, by simp⟩
  | cons x l ih =>
    rw [List.foldlM_cons, hl x List.mem_cons_self (out, b)]
    obtain ⟨out', hfold, hmem⟩ := ih (fun y hy => hl y (List.mem_cons_of_mem _ hy))
      (fun y hy => hadd y (List.mem_cons_of_mem _ hy))
      (if add x && !out.any x.eqv then out ++ [x] else out) (b || flag x)
    refine ⟨out', ?_, fun c => ?_⟩
    · simpa [Bool.or_assoc] using hfold
    · rw [hmem, List.mem_cons]
      -- the new cell is in the list afterwards, whether or not it was added now
      have hx : c ∈ (if add x && !out.any x.eqv then out ++ [x] else out) ↔
          c ∈ out ∨ c = x ∧ add x := by
        by_cases hax : add x
        · by_cases hany : out.any x.eqv
          · rw [if_neg (by simp [hany])]
            obtain ⟨y, hy, hxy⟩ := List.any_eq_true.mp hany
            obtain ⟨hle, hpos⟩ := hadd x List.mem_cons_self hax
            obtain rfl := eq_of_eqv hle hpos hxy
            constructor
            · exact Or.inl
            · rintro (hc | ⟨rfl, -⟩)
              · exact hc
              · exact hy
          · rw [if_pos (by simp [hax, hany])]
            simp [hax]
        · rw [if_neg (by simp [hax])]
          simp [hax]
      rw [hx]
      constructor
      · rintro ((hc | ⟨rfl, ha⟩) | ⟨hc, ha⟩)
        · exact Or.inl hc
        · exact Or.inr ⟨Or.inl rfl, ha⟩
        · exact Or.inr ⟨Or.inr hc, ha⟩
      · rintro (hc | ⟨rfl | hc, ha⟩)
        · exact Or.inl (Or.inl hc)
        · exact Or.inl (Or.inr ⟨rfl, ha⟩)
        · exact Or.inr ⟨hc, ha⟩

/-- A key at which the search goes on. -/
def goesOn (flag : Cell → Bool) (e : ℕ × CellSet) : Bool := e.2.keys.any flag

variable (step add flag) in
theorem scanKeys_spec {es : List (ℕ × CellSet)}
    (hes : ∀ e ∈ es, ∀ x ∈ e.2.keys, IsScan step add flag x)
    (hadd : ∀ e ∈ es, ∀ x ∈ e.2.keys, add x → (x.offset ≤ intMax ∧ 0 < x.size) ∧ flag x)
    (out : List Cell) :
    ∃ out', scanKeys step es out = some (out', es.dropWhile (goesOn flag)) ∧
      ∀ c, c ∈ out' ↔ c ∈ out ∨ ∃ e ∈ es.takeWhile (goesOn flag), c ∈ e.2.keys ∧ add c := by
  induction es generalizing out with
  | nil => exact ⟨out, rfl, by simp⟩
  | cons e es ih =>
    obtain ⟨out₁, hfold, hmem₁⟩ := scanCells_spec (hes e List.mem_cons_self)
      (fun x hx ha => (hadd e List.mem_cons_self x hx ha).1) out false
    rw [Bool.false_or] at hfold
    unfold scanKeys
    rw [hfold]
    by_cases hgo : goesOn flag e
    · obtain ⟨out₂, hscan, hmem₂⟩ := ih (fun e' he' => hes e' (List.mem_cons_of_mem _ he'))
        (fun e' he' => hadd e' (List.mem_cons_of_mem _ he')) out₁
      refine ⟨out₂, ?_, fun c => ?_⟩
      · have : e.2.keys.any flag = true := hgo
        simp [this, hscan, List.dropWhile_cons_of_pos hgo]
      · rw [hmem₂, hmem₁, List.takeWhile_cons_of_pos hgo]
        simp only [List.mem_cons, exists_eq_or_imp]
        tauto
    · refine ⟨out₁, ?_, fun c => ?_⟩
      · have : e.2.keys.any flag = false := by simpa [goesOn] using hgo
        simp [this, List.dropWhile_cons_of_neg hgo]
      · rw [hmem₁, List.takeWhile_cons_of_neg hgo]
        -- a key without the flag has nothing to add
        have hno : ¬ (c ∈ e.2.keys ∧ add c) := by
          rintro ⟨hc, ha⟩
          exact hgo (List.any_eq_true.mpr ⟨c, hc, (hadd e List.mem_cons_self c hc ha).2⟩)
        simp [hno]

/-- In a list ordered by `R`, the elements before the first failure of `p`. -/
theorem mem_takeWhile_iff {α : Type*} {R : α → α → Prop} {p : α → Bool} {l : List α} {x : α}
    (hl : l.Pairwise R) (hR : ∀ a b, R a b → ¬ R b a) :
    x ∈ l.takeWhile p ↔ x ∈ l ∧ p x ∧ ∀ y ∈ l, R y x → p y := by
  induction l with
  | nil => simp
  | cons a l ih =>
    obtain ⟨ha, hl⟩ := List.pairwise_cons.mp hl
    by_cases hp : p a
    · rw [List.takeWhile_cons_of_pos hp, List.mem_cons, ih hl, List.mem_cons]
      constructor
      · rintro (rfl | ⟨hx, hpx, hall⟩)
        · refine ⟨Or.inl rfl, hp, fun y hy hyx => ?_⟩
          rcases List.mem_cons.mp hy with rfl | hy
          · exact hp
          · exact absurd hyx (hR _ _ (ha y hy))
        · refine ⟨Or.inr hx, hpx, fun y hy hyx => ?_⟩
          rcases List.mem_cons.mp hy with rfl | hy
          · exact hp
          · exact hall y hy hyx
      · rintro ⟨rfl | hx, hpx, hall⟩
        · exact Or.inl rfl
        · exact Or.inr ⟨hx, hpx, fun y hy => hall y (List.mem_cons_of_mem _ hy)⟩
    · rw [List.takeWhile_cons_of_neg hp, List.mem_cons]
      constructor
      · simp
      · rintro ⟨rfl | hx, hpx, hall⟩
        · exact absurd hpx hp
        · exact absurd (hall a List.mem_cons_self (ha x hx)) hp

/-- No key between the cell and the offset stops the search: each has an overlapping cell. -/
def Reached (m : OffsetMap) (o size : ℕ) (c : Cell) : Prop :=
  ∀ j, m.HasKey j → (c.offset < j ∧ j < o ∨ o < j ∧ j < c.offset) →
    ∃ c', m.Has c' ∧ c'.offset = j ∧ c'.Intersects o size

/-- The test the search makes at a key. -/
theorem goesOn_iff (h : m.Inv) {e : ℕ × CellSet} (he : e ∈ m.map.entries) :
    goesOn (fun x => decide (x.Intersects o size)) e ↔
      ∃ c, m.Has c ∧ c.offset = e.1 ∧ c.Intersects o size := by
  have he' : m.map.find? e.1 = some e.2 := OrdMap.mem_entries.mp he
  unfold goesOn
  rw [List.any_eq_true]
  constructor
  · rintro ⟨c, hc, hi⟩
    obtain ⟨⟨⟩, hc⟩ := OrdMap.mem_keys.mp hc
    exact ⟨c, ⟨e.1, e.2, he', hc⟩, (h _ _ _ he' hc).1, of_decide_eq_true hi⟩
  · rintro ⟨c, ⟨k, s, hs, hc⟩, hoff, hi⟩
    obtain rfl : k = e.1 := ((h k s c hs hc).1.symm.trans hoff)
    obtain rfl := Option.some.inj (hs.symm.trans he')
    exact ⟨c, OrdMap.mem_keys.mpr ⟨(), hc⟩, decide_eq_true hi⟩

theorem has_iff_entry : m.Has c ↔ ∃ e ∈ m.map.entries, c ∈ e.2.keys := by
  constructor
  · rintro ⟨k, s, hs, hc⟩
    exact ⟨(k, s), OrdMap.mem_entries.mpr hs, OrdMap.mem_keys.mpr ⟨(), hc⟩⟩
  · rintro ⟨e, he, hc⟩
    obtain ⟨⟨⟩, hc⟩ := OrdMap.mem_keys.mp hc
    exact ⟨e.1, e.2, OrdMap.mem_entries.mp he, hc⟩

theorem hasKey_iff_entry {k : ℕ} : m.HasKey k ↔ ∃ e ∈ m.map.entries, e.1 = k := by
  constructor
  · rintro ⟨s, hs⟩
    exact ⟨(k, s), OrdMap.mem_entries.mpr hs, rfl⟩
  · rintro ⟨e, he, rfl⟩
    exact ⟨e.2, OrdMap.mem_entries.mp he⟩

/-- The keys of one side that the search visits. -/
theorem mem_visited (h : m.Inv) {l : List (ℕ × CellSet)} {R : ℕ → ℕ → Prop}
    (hl : l.Pairwise fun a b => R a.1 b.1) (hR : ∀ a b, R a b → ¬ R b a)
    (hsub : ∀ e ∈ l, e ∈ m.map.entries) (hc : c.Intersects o size) :
    (∃ e ∈ l.takeWhile (goesOn fun x => decide (x.Intersects o size)), c ∈ e.2.keys) ↔
      (∃ e ∈ l, c ∈ e.2.keys) ∧ ∀ e ∈ l, R e.1 c.offset →
        ∃ c', m.Has c' ∧ c'.offset = e.1 ∧ c'.Intersects o size := by
  have hoff : ∀ e ∈ l, c ∈ e.2.keys → e.1 = c.offset := by
    intro e he hce
    obtain ⟨⟨⟩, hce⟩ := OrdMap.mem_keys.mp hce
    exact (h _ _ _ (OrdMap.mem_entries.mp (hsub e he)) hce).1.symm
  constructor
  · rintro ⟨e, he, hce⟩
    rw [mem_takeWhile_iff hl fun a b => hR a.1 b.1] at he
    refine ⟨⟨e, he.1, hce⟩, fun e' he' hlt => ?_⟩
    exact (goesOn_iff h (hsub e' he')).mp (he.2.2 e' he' ((hoff e he.1 hce).symm ▸ hlt))
  · rintro ⟨⟨e, he, hce⟩, hall⟩
    refine ⟨e, (mem_takeWhile_iff hl fun a b => hR a.1 b.1).mpr ⟨he, ?_, fun e' he' hlt => ?_⟩, hce⟩
    · exact List.any_eq_true.mpr ⟨c, hce, decide_eq_true hc⟩
    · exact (goesOn_iff h (hsub e' he')).mpr (hall e' he' ((hoff e he hce) ▸ hlt))

theorem isScan_scanCell (size : ℕ) (hx : x.offset ≤ intMax) (ho : o ≤ intMax) (keep : Cell → Bool) :
    IsScan (scanCell o size keep) (fun x => decide (x.Intersects o size) && keep x)
      (fun x => decide (x.Intersects o size)) x := by
  intro acc
  unfold scanCell
  rw [overlap_eq hx ho]
  by_cases hi : x.Intersects o size <;> simp [hi]

/-- Does the cell overlap the range? The test of all three loops. -/
def isect (o size : ℕ) (x : Cell) : Bool := decide (x.Intersects o size)

theorem isect_iff : isect o size c ↔ c.Intersects o size := decide_eq_true_iff

section Loops

variable {es : List (ℕ × CellSet)}

/-- The first two loops. -/
theorem scanOverlap_spec (size : ℕ) (ho : o ≤ intMax) (hes : ∀ e ∈ es, ∀ x ∈ e.2.keys, x.offset ≤ intMax)
    (keep : Cell → Bool) (out : List Cell) :
    ∃ out', scanKeys (scanCell o size keep) es out =
        some (out', es.dropWhile (goesOn (isect o size))) ∧
      ∀ c, c ∈ out' ↔ c ∈ out ∨
        ∃ e ∈ es.takeWhile (goesOn (isect o size)), c ∈ e.2.keys ∧ c.Intersects o size ∧ keep c := by
  obtain ⟨out', hscan, hmem⟩ := scanKeys_spec _ _ _
    (fun e he x hx => isScan_scanCell size (hes e he x hx) ho keep)
    (fun e he x hx hadd => by
      rw [Bool.and_eq_true, decide_eq_true_eq] at hadd
      exact ⟨⟨hes e he x hx, (Cell.intersects_iff.mp hadd.1).1⟩, decide_eq_true hadd.1⟩) out
  refine ⟨out', hscan, fun c => ?_⟩
  rw [hmem]
  simp only [Bool.and_eq_true, decide_eq_true_eq]
  rfl

/-- The third loop returns no cell that does not overlap. -/
theorem scanAgain_spec (size : ℕ) (ho : o ≤ intMax) (hes : ∀ e ∈ es, ∀ x ∈ e.2.keys, x.offset ≤ intMax)
    (self : Cell) (out : List Cell) :
    ∃ out' rest, scanKeys (fun acc x => if x.eqv self then some acc
        else scanCell o size (fun _ => true) acc x) es out = some (out', rest) ∧
      (∀ c ∈ out, c ∈ out') ∧
      ∀ c ∈ out', c ∈ out ∨ ∃ e ∈ es, c ∈ e.2.keys ∧ c.Intersects o size := by
  obtain ⟨out', hscan, hmem⟩ := scanKeys_spec
    (fun acc x => if x.eqv self then some acc else scanCell o size (fun _ => true) acc x)
    (fun x => isect o size x && !x.eqv self) (fun x => isect o size x && !x.eqv self)
    (fun e he x hx acc => by
      have hstep := isScan_scanCell size (hes e he x hx) ho (fun _ => true) acc
      by_cases hq : x.eqv self
      · simp [hq]
      · show (if x.eqv self then some acc else scanCell o size (fun _ => true) acc x) = _
        rw [if_neg hq, hstep]
        simp [isect, hq])
    (fun e he x hx hadd => by
      have hi := (Bool.and_eq_true_iff.mp hadd).1
      exact ⟨⟨hes e he x hx, (Cell.intersects_iff.mp (isect_iff.mp hi)).1⟩, hadd⟩) out
  refine ⟨out', _, hscan, fun c hc => (hmem c).mpr (Or.inl hc), fun c hc => ?_⟩
  refine ((hmem c).mp hc).imp_right fun ⟨e, he, hce, hadd⟩ => ?_
  exact ⟨e, (List.takeWhile_sublist _).subset he, hce,
    isect_iff.mp (Bool.and_eq_true_iff.mp hadd).1⟩

theorem take_length_sub_dropWhile {α : Type*} (p : α → Bool) (l : List α) :
    l.take (l.length - (l.dropWhile p).length) = l.takeWhile p := by
  have happ := List.takeWhile_append_dropWhile (p := p) (l := l)
  have hlen := congrArg List.length happ
  rw [List.length_append] at hlen
  have hk : l.length - (l.dropWhile p).length = (l.takeWhile p).length := by omega
  rw [hk, ← List.prefix_iff_eq_take.mp (List.takeWhile_prefix p)]

end Loops

/-- What the search returns, when the cell `(o, size)` is in the map. -/
theorem overlapSearch_spec (h : m.Inv) (ho : o ≤ intMax) (hself : m.Has ⟨o, size⟩) :
    ∃ out, m.overlapSearch o size = some out ∧
      ∀ c, c ∈ out ↔ m.Has c ∧ c.Intersects o size ∧ c ≠ ⟨o, size⟩ ∧ m.Reached o size c := by
  set below := (m.map.entries.filter (·.1 ≤ o)).reverse with hbelow
  set above := m.map.entries.filter (o < ·.1) with habove
  have hcells : ∀ e ∈ m.map.entries, ∀ x ∈ e.2.keys, x.offset = e.1 ∧ x.offset ≤ intMax := by
    intro e he x hx
    obtain ⟨⟨⟩, hx⟩ := OrdMap.mem_keys.mp hx
    exact h _ _ _ (OrdMap.mem_entries.mp he) hx
  have hb : ∀ e, e ∈ below ↔ e ∈ m.map.entries ∧ e.1 ≤ o := by simp [hbelow]
  have ha : ∀ e, e ∈ above ↔ e ∈ m.map.entries ∧ o < e.1 := by simp [habove]
  obtain ⟨out₁, h₁, hmem₁⟩ := scanOverlap_spec size ho
    (fun e he x hx => (hcells e ((hb e).mp he).1 x hx).2) (fun x => !x.eqv ⟨o, size⟩) []
  obtain ⟨out₂, h₂, hmem₂⟩ := scanOverlap_spec size ho
    (fun e he x hx => (hcells e ((ha e).mp he).1 x hx).2) (fun _ => true) out₁
  have hvis : ∀ e ∈ above.takeWhile (goesOn (isect o size)), e ∈ above := fun e he =>
    (List.takeWhile_sublist _).subset he
  obtain ⟨out₃, rest, h₃, hsub₃, hmem₃⟩ := scanAgain_spec size ho
    (fun e he x hx => (hcells e ((ha e).mp (hvis e he)).1 x hx).2) ⟨o, size⟩ out₂
  refine ⟨out₃, ?_, fun c => ?_⟩
  · unfold overlapSearch
    simp only [← hbelow, ← habove, h₁, Option.bind_eq_bind, Option.bind_some, h₂,
      take_length_sub_dropWhile, h₃]
    rfl
  -- the third loop adds nothing to the second
  have hout₃ : c ∈ out₃ ↔ c ∈ out₂ := by
    refine ⟨fun hc => (hmem₃ c hc).elim id fun ⟨e, he, hce, hi⟩ => ?_, hsub₃ c⟩
    exact (hmem₂ c).mpr (Or.inr ⟨e, he, hce, hi, rfl⟩)
  rw [hout₃, hmem₂, hmem₁]
  simp only [List.not_mem_nil, false_or, and_true, Bool.not_eq_true']
  by_cases hi : c.Intersects o size
  swap
  · simp [hi]
  have hbsort : below.Pairwise fun a b => b.1 < a.1 :=
    List.pairwise_reverse.mpr (m.map.sorted.sublist List.filter_sublist)
  have hasort : above.Pairwise fun a b => a.1 < b.1 := m.map.sorted.sublist List.filter_sublist
  have hvb := mem_visited h (R := fun a b => b < a) hbsort (fun a b => Nat.lt_asymm)
    (fun e he => ((hb e).mp he).1) hi
  have hva := mem_visited h (R := fun a b => a < b) hasort (fun a b => Nat.lt_asymm)
    (fun e he => ((ha e).mp he).1) hi
  constructor
  · rintro (⟨e, he, hce, -, hne⟩ | ⟨e, he, hce, -⟩)
    · obtain ⟨⟨e', he', hce'⟩, hall⟩ := hvb.mp ⟨e, he, hce⟩
      have hle : c.offset ≤ o := (hcells e' ((hb e').mp he').1 c hce').1 ▸ ((hb e').mp he').2
      refine ⟨has_iff_entry.mpr ⟨e', ((hb e').mp he').1, hce'⟩, hi, ?_, fun j hj hbetween => ?_⟩
      · rintro rfl
        rw [eqv_self] at hne
        cases hne
      · obtain ⟨e'', he'', rfl⟩ := hasKey_iff_entry.mp hj
        exact hall e'' ((hb e'').mpr ⟨he'', by omega⟩) (by omega)
    · obtain ⟨⟨e', he', hce'⟩, hall⟩ := hva.mp ⟨e, he, hce⟩
      have hlt : o < c.offset := (hcells e' ((ha e').mp he').1 c hce').1 ▸ ((ha e').mp he').2
      refine ⟨has_iff_entry.mpr ⟨e', ((ha e').mp he').1, hce'⟩, hi, ?_, fun j hj hbetween => ?_⟩
      · rintro rfl
        exact absurd hlt (lt_irrefl _)
      · obtain ⟨e'', he'', rfl⟩ := hasKey_iff_entry.mp hj
        exact hall e'' ((ha e'').mpr ⟨he'', by omega⟩) (by omega)
  · rintro ⟨hc, -, hne, hreach⟩
    obtain ⟨e, he, hce⟩ := has_iff_entry.mp hc
    have hoff := (hcells e he c hce).1
    rcases Nat.lt_or_ge o c.offset with hlt | hle
    · have hall : ∀ e' ∈ above, e'.1 < c.offset →
          ∃ c', m.Has c' ∧ c'.offset = e'.1 ∧ c'.Intersects o size := fun e' he' hlt' =>
        hreach e'.1 (hasKey_iff_entry.mpr ⟨e', ((ha e').mp he').1, rfl⟩)
          (Or.inr ⟨((ha e').mp he').2, hlt'⟩)
      obtain ⟨e', he', hce'⟩ := hva.mpr ⟨⟨e, (ha e).mpr ⟨he, hoff ▸ hlt⟩, hce⟩, hall⟩
      exact Or.inr ⟨e', he', hce', hi⟩
    · -- at the offset itself the search goes on, as the cell `(o, size)` is there
      have hall : ∀ e' ∈ below, c.offset < e'.1 →
          ∃ c', m.Has c' ∧ c'.offset = e'.1 ∧ c'.Intersects o size := by
        intro e' he' hlt'
        rcases Nat.lt_or_ge e'.1 o with hlo | hge
        · exact hreach e'.1 (hasKey_iff_entry.mpr ⟨e', ((hb e').mp he').1, rfl⟩)
            (Or.inl ⟨hlt', hlo⟩)
        · refine ⟨⟨o, size⟩, hself, le_antisymm hge ((hb e').mp he').2, ?_⟩
          have hsize := (Cell.intersects_iff.mp hi).2.1
          exact Cell.intersects_iff.mpr ⟨hsize, hsize, by simpa using hsize, by simpa using hsize⟩
      obtain ⟨e', he', hce'⟩ := hvb.mpr ⟨⟨e, (hb e).mpr ⟨he, hoff ▸ hle⟩, hce⟩, hall⟩
      refine Or.inl ⟨e', he', hce', hi, ?_⟩
      rw [← Bool.not_eq_true]
      exact fun hq => hne
        (eq_of_eqv (hcells e he c hce).2 (Cell.intersects_iff.mp hi).1 hq)

/-- The map during the search. -/
def searched (m : OffsetMap) (o size : ℕ) : OffsetMap :=
  if (m.cellsAt o).contains ⟨o, size⟩ then m.touch o else (m.touch o).insertCell ⟨o, size⟩

/-- The map after the search. -/
def afterSearch (m : OffsetMap) (o size : ℕ) : OffsetMap :=
  if (m.cellsAt o).contains ⟨o, size⟩ then m.touch o
  else ((m.touch o).insertCell ⟨o, size⟩).removeCell ⟨o, size⟩

theorem getOverlapCells_eq (m : OffsetMap) (o size : ℕ) :
    m.getOverlapCells o size =
      ((m.searched o size).overlapSearch o size).map fun out => (out, m.afterSearch o size) := by
  unfold getOverlapCells getCell searched afterSearch
  split_ifs <;> rfl

theorem contains_iff (h : m.Inv) : (m.cellsAt o).contains ⟨o, size⟩ ↔ m.Has ⟨o, size⟩ := by
  rw [h.has_iff, OrdMap.contains, Option.isSome_iff_exists]
  exact ⟨fun ⟨⟨⟩, hc⟩ => hc, fun hc => ⟨(), hc⟩⟩

theorem searched_spec (size : ℕ) (h : m.Inv) (ho : o ≤ intMax) :
    (m.searched o size).Inv ∧ (∀ c, (m.searched o size).Has c ↔ c = ⟨o, size⟩ ∨ m.Has c) ∧
      ∀ k, (m.searched o size).HasKey k ↔ k = o ∨ m.HasKey k := by
  unfold searched
  split_ifs with hc
  · refine ⟨h.touch o, fun c => ?_, fun k => hasKey_touch⟩
    rw [has_touch]
    refine ⟨Or.inr, fun h' => h'.elim (fun he => ?_) id⟩
    exact he ▸ (contains_iff h).mp hc
  · refine ⟨(h.touch o).insertCell ho, fun c => ?_, fun k => ?_⟩
    · rw [has_insertCell (h.touch o) ho, has_touch]
    · rw [hasKey_insertCell, hasKey_touch]
      tauto

theorem afterSearch_spec (h : m.Inv) (ho : o ≤ intMax) :
    (m.afterSearch o size).Inv ∧ (∀ c, (m.afterSearch o size).Has c ↔ m.Has c) ∧
      ∀ k, (m.afterSearch o size).HasKey k ↔ k = o ∨ m.HasKey k := by
  unfold afterSearch
  split_ifs with hc
  · exact ⟨h.touch o, fun c => has_touch, fun k => hasKey_touch⟩
  · have hi := (h.touch o).insertCell (x := ⟨o, size⟩) ho
    refine ⟨hi.removeCell _, fun c => ?_, fun k => ?_⟩
    · rw [has_removeCell hi, has_insertCell (h.touch o) ho, has_touch]
      refine ⟨fun ⟨hne, h'⟩ => h'.resolve_left hne, fun h' => ⟨?_, Or.inr h'⟩⟩
      rintro rfl
      exact hc ((contains_iff h).mpr h')
    · rw [hasKey_removeCell, hasKey_insertCell, hasKey_touch]
      tauto

/-- An offset that is not an `int` throws. -/
theorem getOverlapCells_eq_none (ho : intMax < o) (size : ℕ) : m.getOverlapCells o size = none := by
  have hkey : ∃ s, (m.searched o size).map.find? o = some s ∧ s.find? ⟨o, size⟩ = some () := by
    unfold searched
    split_ifs with hc
    · refine ⟨m.cellsAt o, ?_, ?_⟩
      · rw [find?_touch, if_pos rfl]
      · obtain ⟨⟨⟩, hc⟩ := Option.isSome_iff_exists.mp hc
        exact hc
    · exact ⟨_, OrdMap.find?_insert_self _ _ _, OrdMap.find?_insert_self _ _ _⟩
  obtain ⟨s, hs, hself⟩ := hkey
  -- the first key of the walk is the offset, and its first cell already throws
  have hthrow : ∀ keep (es : List (ℕ × CellSet)) (out : List Cell), (∃ e ∈ es, e.1 = o) →
      (∀ e ∈ es, e.1 ≤ o) → es.Pairwise (fun a b => b.1 < a.1) →
      (∀ e ∈ es, e.1 = o → e.2 = s) → scanKeys (scanCell o size keep) es out = none := by
    intro keep es out hex hle hsorted heq
    cases es with
    | nil => simp at hex
    | cons e es =>
      have he : e.1 = o := by
        obtain ⟨e', he', rfl⟩ := hex
        rcases List.mem_cons.mp he' with rfl | he'
        · rfl
        · have h1 := (List.pairwise_cons.mp hsorted).1 e' he'
          have h2 := hle e List.mem_cons_self
          omega
      have hne : e.2.keys ≠ [] := by
        rw [heq e List.mem_cons_self he]
        exact List.ne_nil_of_mem (OrdMap.mem_keys.mpr ⟨(), hself⟩)
      obtain ⟨x, l, hl⟩ := List.exists_cons_of_ne_nil hne
      simp [scanKeys, hl, scanCell, overlap_eq_none ho]
  rw [getOverlapCells_eq, overlapSearch]
  simp only
  rw [hthrow]
  · rfl
  · exact ⟨(o, s), by simpa using OrdMap.mem_entries.mpr hs, rfl⟩
  · intro e he
    simpa using (List.mem_filter.mp (List.mem_reverse.mp he)).2
  · exact List.pairwise_reverse.mpr ((m.searched o size).map.sorted.sublist List.filter_sublist)
  · rintro e he rfl
    have he' := (List.mem_filter.mp (List.mem_reverse.mp he)).1
    exact Option.some.inj ((OrdMap.mem_entries.mp he').symm.trans hs)

/-- The cells the search returns: those that overlap the range and that no key hides. -/
theorem getOverlapCells_spec (h : m.Inv) (ho : o ≤ intMax) (size : ℕ) :
    ∃ out, m.getOverlapCells o size = some (out, m.afterSearch o size) ∧
      ∀ c, c ∈ out ↔ m.Has c ∧ c.Intersects o size ∧ c ≠ ⟨o, size⟩ ∧ m.Reached o size c := by
  obtain ⟨hinv, hhas, hkey⟩ := searched_spec size h ho
  obtain ⟨out, hout, hmem⟩ := overlapSearch_spec hinv ho ((hhas _).mpr (Or.inl rfl))
  refine ⟨out, by rw [getOverlapCells_eq, hout]; rfl, fun c => ?_⟩
  rw [hmem]
  -- the cell `(o, size)` and the key `o` play no part in `Reached`
  have hreach : (m.searched o size).Reached o size c ↔ m.Reached o size c := by
    unfold Reached
    refine forall_congr' fun j => ?_
    constructor
    · intro hr hj hbetween
      obtain ⟨c', hc', hoff, hi⟩ := hr ((hkey j).mpr (Or.inr hj)) hbetween
      refine ⟨c', ((hhas c').mp hc').resolve_left ?_, hoff, hi⟩
      rintro rfl
      simp only at hoff
      omega
    · intro hr hj hbetween
      obtain ⟨c', hc', hoff, hi⟩ := hr (((hkey j).mp hj).resolve_left (by omega)) hbetween
      exact ⟨c', (hhas c').mpr (Or.inr hc'), hoff, hi⟩
  rw [hreach, hhas]
  constructor
  · rintro ⟨hc, hi, hne, hr⟩
    exact ⟨hc.resolve_left hne, hi, hne, hr⟩
  · rintro ⟨hc, hi, hne, hr⟩
    exact ⟨Or.inr hc, hi, hne, hr⟩

/-! ## The maps that come about -/

/-- The maps that the operations issued by `ArrayDomain` lead to. A cell is made only at an
offset for which a search went through, or inside a cell that is there. -/
inductive Issued : OffsetMap → Prop
  | empty : Issued empty
  | getCell {m : OffsetMap} (h : Issued m) (o size : ℕ) : Issued (m.getCell o size).2
  | mkCell {m : OffsetMap} (h : Issued m) {o : ℕ} (ho : o ≤ intMax) (size : ℕ) :
      Issued (m.mkCell o size).2
  | removeCells {m : OffsetMap} (h : Issued m) (cells : List Cell) : Issued (m.removeCells cells)
  | getOverlapCells {m m' : OffsetMap} (h : Issued m) {o size : ℕ} {out : List Cell}
      (hs : m.getOverlapCells o size = some (out, m')) : Issued m'

theorem Issued.inv (h : Issued m) : m.Inv := by
  induction h with
  | empty => exact inv_empty
  | getCell _ o _ ih => exact ih.touch o
  | mkCell _ ho size ih => exact ih.mkCell ho size
  | removeCells _ cells ih => exact ih.removeCells cells
  | @getOverlapCells m m' _ o size out hs ih =>
    rcases Nat.lt_or_ge intMax o with ho | ho
    · rw [getOverlapCells_eq_none ho] at hs
      cases hs
    · obtain ⟨out', hs', -⟩ := getOverlapCells_spec ih ho size
      obtain ⟨-, rfl⟩ := Prod.mk.inj (Option.some.inj (hs.symm.trans hs'))
      exact (afterSearch_spec ih ho).1

/-- The search returns every cell that overlaps the range, other than the range itself, and no
other cell. -/
def OverlapExact (m : OffsetMap) (o size : ℕ) : Prop :=
  ∃ out m', m.getOverlapCells o size = some (out, m') ∧
    ∀ c, c ∈ out ↔ m.Has c ∧ c.Intersects o size ∧ c ≠ ⟨o, size⟩

/-- Between a cell that overlaps the range and the offset, every key of the map has an
overlapping cell. -/
def NoGap (m : OffsetMap) (o size : ℕ) : Prop :=
  ∀ c, m.Has c → c.Intersects o size → m.Reached o size c

/-- The search is exact at the offsets that are an `int` and between which and an overlapping
cell there is no key without an overlapping cell. -/
theorem getOverlapCells_exact_iff (h : Issued m) (o size : ℕ) :
    m.OverlapExact o size ↔ o ≤ intMax ∧ m.NoGap o size := by
  constructor
  · rintro ⟨out, m', hs, hmem⟩
    have ho : o ≤ intMax := by
      by_contra hlt
      rw [getOverlapCells_eq_none (not_le.mp hlt)] at hs
      cases hs
    obtain ⟨out', hs', hmem'⟩ := getOverlapCells_spec h.inv ho size
    obtain ⟨rfl, -⟩ := Prod.mk.inj (Option.some.inj (hs.symm.trans hs'))
    refine ⟨ho, fun c hc hi => ?_⟩
    by_cases hne : c = ⟨o, size⟩
    · intro j _ hbetween
      rw [hne] at hbetween
      simp only at hbetween
      omega
    · exact ((hmem' c).mp ((hmem c).mpr ⟨hc, hi, hne⟩)).2.2.2
  · rintro ⟨ho, hgap⟩
    obtain ⟨out, hs, hmem⟩ := getOverlapCells_spec h.inv ho size
    refine ⟨out, _, hs, fun c => ?_⟩
    rw [hmem]
    constructor
    · rintro ⟨hc, hi, hne, -⟩
      exact ⟨hc, hi, hne⟩
    · rintro ⟨hc, hi, hne⟩
      exact ⟨hc, hi, hne, hgap c hc hi⟩

/-- The map after a store of the bytes `[0, 8)`: the search before it, then the cell. -/
def storedMap : OffsetMap := ((empty.afterSearch 0 8).mkCell 0 8).2

/-- The map after a load of the byte `4` that found no value: the key `4` is there, without a
cell. -/
def gapMap : OffsetMap := (storedMap.getCell 4 1).2

theorem issued_storedMap : Issued storedMap :=
  .mkCell (.getOverlapCells .empty (by decide : empty.getOverlapCells 0 8 = some ([], _)))
    (by decide) 8

/-- A second store inside the cell finds the cell. -/
theorem storedMap_exact : storedMap.OverlapExact 6 1 := by
  refine (getOverlapCells_exact_iff issued_storedMap 6 1).mpr
    ⟨by decide, fun c _ _ j hj hbetween => ?_⟩
  have hkey : j = 0 := by
    obtain ⟨s, hs⟩ := hj
    have : j ∈ storedMap.map.keys := OrdMap.mem_keys.mpr ⟨s, hs⟩
    simpa [show storedMap.map.keys = [0] by decide] using this
  omega

/-- The cell `[0, 8)` is hidden from a search at the byte `6` by the empty key `4`. -/
theorem gapMap_not_exact : Issued gapMap ∧ ¬ gapMap.OverlapExact 6 1 := by
  have hissued : Issued gapMap := .getCell issued_storedMap 4 1
  refine ⟨hissued, ?_⟩
  rintro ⟨out, m', hs, hmem⟩
  have hnil : (gapMap.getOverlapCells 6 1).map Prod.fst = some [] := by decide
  rw [hs] at hnil
  obtain rfl : out = [] := Option.some.inj hnil
  have hcell : gapMap.Has ⟨0, 8⟩ := hissued.inv.has_iff.mpr (by decide)
  exact List.not_mem_nil ((hmem ⟨0, 8⟩).mpr ⟨hcell, by decide, by decide⟩)

end OffsetMap

end Prevail
