import Mathlib.Logic.Relation
import Mathlib.Data.List.Pairwise
import Mathlib.Tactic.Tauto
import Prevail.Lib.OrdMap

/-!
# Strongly connected components

Tarjan's algorithm on a finite graph given by its successor lists. `computeSccs` returns the
components in the order in which they are found, `computeSccs_emitted` says that each is strongly
connected and that edges lead to the same or to an earlier component.

A vertex is unmarked, on the stack, or done. The invariant `Inv` ties the stack and the found
components to the marks; `Result` says what a call on a vertex leaves behind: either the vertex
and all that was visited from it is done, or the new part of the stack reaches below itself.
-/

namespace Prevail

namespace Tarjan

variable {α : Type*} [LinearOrder α]

/-- The state of the search. A mark is the index of a vertex and whether it is on the stack. -/
structure State (α : Type*) [LinearOrder α] where
  index : ℕ
  marks : OrdMap α (ℕ × Bool)
  low : OrdMap α ℕ
  stack : List α
  sccs : List (List α)

namespace State

def idxOf (st : State α) (v : α) : ℕ := ((st.marks.find? v).map Prod.fst).getD 0

def lowOf (st : State α) (v : α) : ℕ := (st.low.find? v).getD 0

/-- Mark a new vertex and put it on the stack. -/
def push (st : State α) (v : α) : State α :=
  { st with
    index := st.index + 1
    marks := st.marks.insert v (st.index, true)
    low := st.low.insert v st.index
    stack := v :: st.stack }

def lowerTo (st : State α) (v : α) (n : ℕ) : State α :=
  { st with low := st.low.insert v (min (st.lowOf v) n) }

/-- Take the stack down to `v` as a component. -/
def popTo (st : State α) (v : α) : State α :=
  let scc := st.stack.takeWhile (· ≠ v) ++ [v]
  { st with
    marks := scc.foldl (fun m w => m.insert w (st.idxOf w, false)) st.marks
    stack := (st.stack.dropWhile (· ≠ v)).tail
    sccs := st.sccs ++ [scc] }

end State

/-- What a successor `w` of `v` does, `call` being the recursive call. -/
def visit (call : State α → α → State α) (v : α) (st : State α) (w : α) : State α :=
  match st.marks.find? w with
  | none =>
    let st := call st w
    st.lowerTo v (st.lowOf w)
  | some (i, true) => st.lowerTo v i
  | some (_, false) => st

/-- The search from an unmarked vertex. The fuel bounds the depth of the recursion. -/
def strongConnect (succs : α → List α) : ℕ → State α → α → State α
  | 0, st, _ => st
  | fuel + 1, st, v =>
    let st := (succs v).foldl (visit (strongConnect succs fuel) v) (st.push v)
    if st.lowOf v = st.idxOf v then st.popTo v else st

/-- Search from `v` unless it is marked. -/
def startAt (succs : α → List α) (fuel : ℕ) (st : State α) (v : α) : State α :=
  match st.marks.find? v with
  | none => strongConnect succs fuel { st with index := 1, stack := [] } v
  | some _ => st

/-- The components of the graph on `verts`. -/
def computeSccs (succs : α → List α) (verts : List α) : List (List α) :=
  (verts.foldl (startAt succs verts.length) ⟨1, ∅, ∅, [], []⟩).sccs

/-! ## The invariant -/

variable (succs : α → List α)

/-- There is a path from `a` to `b`. -/
abbrev Reach : α → α → Prop := Relation.ReflTransGen fun a b => b ∈ succs a

/-- Components in the order in which they are found: each strongly connected, with edges into
itself and earlier ones only. -/
inductive Emitted : List (List α) → Prop
  | nil : Emitted []
  | snoc {L : List (List α)} {C : List α} (h : Emitted L) (nodup : C.Nodup)
      (fresh : ∀ s ∈ C, ∀ D ∈ L, s ∉ D)
      (closed : ∀ s ∈ C, ∀ d ∈ succs s, d ∈ C ∨ ∃ D ∈ L, d ∈ D)
      (connected : ∀ s ∈ C, ∀ t ∈ C, Reach succs s t) : Emitted (L ++ [C])

/-- The marks, the stack and the components agree. Indices fall along the stack. -/
structure Inv (st : State α) : Prop where
  stack : ∀ u, u ∈ st.stack ↔ ∃ i, st.marks.find? u = some (i, true)
  done : ∀ u, (∃ C ∈ st.sccs, u ∈ C) ↔ ∃ i, st.marks.find? u = some (i, false)
  sorted : st.stack.Pairwise fun a b => st.idxOf b < st.idxOf a
  lt : ∀ u ∈ st.stack, st.idxOf u < st.index
  emitted : Emitted succs st.sccs

def Visited (st : State α) (u : α) : Prop := ∃ p, st.marks.find? u = some p

variable {succs} {st st' st₀ : State α} {u v w : α}

theorem Inv.visited_iff (h : Inv succs st) :
    Visited st u ↔ u ∈ st.stack ∨ ∃ C ∈ st.sccs, u ∈ C := by
  rw [h.stack, h.done]
  constructor
  · rintro ⟨⟨i, b⟩, hu⟩
    cases b
    · exact Or.inr ⟨i, hu⟩
    · exact Or.inl ⟨i, hu⟩
  · rintro (⟨i, hu⟩ | ⟨i, hu⟩) <;> exact ⟨_, hu⟩

theorem Inv.not_done (h : Inv succs st) (hu : u ∈ st.stack) : ¬ ∃ C ∈ st.sccs, u ∈ C := by
  rw [h.done]
  rintro ⟨i, hi⟩
  obtain ⟨j, hj⟩ := (h.stack u).mp hu
  cases hi.symm.trans hj

theorem Inv.nodup (h : Inv succs st) : st.stack.Nodup :=
  h.sorted.imp fun hab heq => by
    subst heq
    exact Nat.lt_irrefl _ hab

omit [LinearOrder α] in
/-- The components that are found are closed under successors. -/
theorem Emitted.closed {L : List (List α)} (h : Emitted succs L) (hu : ∃ C ∈ L, u ∈ C)
    (hw : w ∈ succs u) : ∃ C ∈ L, w ∈ C := by
  induction h with
  | nil => simp at hu
  | @snoc L C h _ _ closed _ ih =>
    obtain ⟨D, hD, huD⟩ := hu
    rcases List.mem_append.mp hD with hD | hD
    · obtain ⟨D', hD', hw'⟩ := ih ⟨D, hD, huD⟩
      exact ⟨D', List.mem_append_left _ hD', hw'⟩
    · obtain rfl := List.mem_singleton.mp hD
      rcases closed u huD w hw with hw' | ⟨D', hD', hw'⟩
      · exact ⟨_, List.mem_append_right _ hD, hw'⟩
      · exact ⟨D', List.mem_append_left _ hD', hw'⟩

omit [LinearOrder α] in
theorem Emitted.reach {L : List (List α)} (h : Emitted succs L) (hu : ∃ C ∈ L, u ∈ C)
    (hw : Reach succs u w) : ∃ C ∈ L, w ∈ C := by
  induction hw with
  | refl => exact hu
  | tail _ hstep ih => exact h.closed ih hstep

omit [LinearOrder α] in
/-- Vertices on a common cycle are in one component. -/
theorem Emitted.mem_of_reach {L : List (List α)} (h : Emitted succs L) {C : List α} (hC : C ∈ L)
    (hu : u ∈ C) (huw : Reach succs u w) (hwu : Reach succs w u) : w ∈ C := by
  induction h with
  | nil => simp at hC
  | @snoc L C' h nodup fresh closed connected ih =>
    rcases List.mem_append.mp hC with hC | hC
    · exact ih hC
    · obtain rfl := List.mem_singleton.mp hC
      obtain ⟨D, hD, hwD⟩ := (Emitted.snoc h nodup fresh closed connected).reach
        ⟨C, List.mem_append_right _ List.mem_cons_self, hu⟩ huw
      rcases List.mem_append.mp hD with hD | hD
      · obtain ⟨D', hD', huD'⟩ := h.reach ⟨D, hD, hwD⟩ hwu
        exact absurd huD' (fresh u hu D' hD')
      · exact List.mem_singleton.mp hD ▸ hwD

/-- What was marked before keeps its mark and its low link. -/
structure Extends (st st' : State α) : Prop where
  marks : ∀ u p, st.marks.find? u = some p → st'.marks.find? u = some p
  low : ∀ u, Visited st u → st'.low.find? u = st.low.find? u
  index : st.index ≤ st'.index

theorem Extends.visited (h : Extends st st') (hu : Visited st u) : Visited st' u :=
  let ⟨p, hp⟩ := hu
  ⟨p, h.marks u p hp⟩

theorem Extends.idxOf (h : Extends st st') (hu : Visited st u) : st'.idxOf u = st.idxOf u := by
  obtain ⟨p, hp⟩ := hu
  rw [State.idxOf, State.idxOf, h.marks u p hp, hp]

theorem Extends.lowOf (h : Extends st st') (hu : Visited st u) : st'.lowOf u = st.lowOf u := by
  rw [State.lowOf, State.lowOf, h.low u hu]

theorem Extends.trans {st'' : State α} (h : Extends st st') (h' : Extends st' st'') :
    Extends st st'' where
  marks u p hp := h'.marks u p (h.marks u p hp)
  low u hu := (h'.low u (h.visited hu)).trans (h.low u hu)
  index := Nat.le_trans h.index h'.index

/-- What a call on `v` leaves behind, with `suf` the new part of the stack. -/
structure Result (succs : α → List α) (st : State α) (v : α) (st' : State α) (suf : List α) :
    Prop where
  inv : Inv succs st'
  ext : Extends st st'
  stack : st'.stack = suf ++ st.stack
  self : Visited st' v
  reach : ∀ u, Visited st' u → ¬ Visited st u → Reach succs v u
  finished : ∀ u, Visited st' u → ¬ Visited st u → ∀ d ∈ succs u, Visited st' d
  back : ∀ u ∈ suf, ∀ z ∈ st.stack, z ∈ succs u → st'.lowOf v ≤ st.idxOf z
  descends : ∀ u ∈ suf, ∃ y ∈ st'.stack, st'.idxOf y < st'.idxOf u ∧ Reach succs u y
  lowSuf : suf ≠ [] → ∃ y ∈ st.stack, st.idxOf y = st'.lowOf v ∧ Reach succs v y
  lowNil : suf = [] → st.index ≤ st'.lowOf v

/-- The call on `v` from `st₀` when it has looked at the successors in `seen`; `rest` is what
stands above `v` on the stack. -/
structure Frame (succs : α → List α) (st₀ : State α) (v : α) (seen : List α) (st : State α)
    (rest : List α) : Prop where
  inv : Inv succs st
  ext : Extends st₀ st
  stack : st.stack = rest ++ v :: st₀.stack
  mark : st.marks.find? v = some (st₀.index, true)
  reach : ∀ u, Visited st u → ¬ Visited st₀ u → Reach succs v u
  finished : ∀ u, Visited st u → ¬ Visited st₀ u → u ≠ v → ∀ d ∈ succs u, Visited st d
  seenVisited : ∀ d ∈ seen, Visited st d
  back : ∀ u ∈ rest, ∀ z ∈ st₀.stack, z ∈ succs u → st.lowOf v ≤ st₀.idxOf z
  backSeen : ∀ z ∈ seen, z ∈ st₀.stack → st.lowOf v ≤ st₀.idxOf z
  descends : ∀ u ∈ rest, ∃ y ∈ st.stack, st.idxOf y < st.idxOf u ∧ Reach succs u y
  low : st.lowOf v = st₀.index ∨
    st.lowOf v < st₀.index ∧ ∃ y ∈ st₀.stack, st₀.idxOf y = st.lowOf v ∧ Reach succs v y

/-! ## One successor -/

theorem find?_marks_push (st : State α) (v u : α) :
    (st.push v).marks.find? u = if u = v then some (st.index, true) else st.marks.find? u :=
  OrdMap.find?_insert _ _ _ _

theorem idxOf_push (st : State α) (v u : α) :
    (st.push v).idxOf u = if u = v then st.index else st.idxOf u := by
  unfold State.idxOf
  rw [find?_marks_push]
  split_ifs <;> rfl

theorem lowOf_push (st : State α) (v : α) : (st.push v).lowOf v = st.index := by
  unfold State.lowOf State.push
  rw [OrdMap.find?_insert_self]
  rfl

theorem visited_push : Visited (st.push v) u ↔ u = v ∨ Visited st u := by
  unfold Visited
  rw [find?_marks_push]
  by_cases h : u = v <;> simp [h]

/-- The frame before the first successor. -/
theorem Inv.frame (h : Inv succs st) (hv : ¬ Visited st v) :
    Frame succs st v [] (st.push v) [] := by
  have hvs : v ∉ st.stack := fun hs => hv (h.visited_iff.mpr (Or.inl hs))
  have hne : ∀ u ∈ st.stack, u ≠ v := fun u hu huv => hvs (huv ▸ hu)
  refine ⟨⟨fun u => ?_, fun u => ?_, ?_, fun u hu => ?_, h.emitted⟩, ⟨fun u p hp => ?_,
    fun u hu => ?_, Nat.le_succ _⟩, rfl, by simp [find?_marks_push], fun u hu hu' => ?_,
    fun u hu hu' hne => ?_, by simp, by simp, by simp, by simp, Or.inl (lowOf_push st v)⟩
  · rw [find?_marks_push]
    simp only [State.push, List.mem_cons]
    by_cases huv : u = v
    · simp [huv]
    · simp [huv, h.stack]
  · rw [find?_marks_push]
    change (∃ C ∈ st.sccs, u ∈ C) ↔ _
    split_ifs with huv
    · subst huv
      rw [h.done]
      exact ⟨fun ⟨i, hi⟩ => absurd ⟨_, hi⟩ hv, by simp⟩
    · exact h.done u
  · refine List.pairwise_cons.mpr ⟨fun b hb => ?_, h.sorted.imp_of_mem fun ha hb hab => ?_⟩
    · rw [idxOf_push, idxOf_push, if_neg (hne b hb), if_pos rfl]
      exact h.lt b hb
    · rw [idxOf_push, idxOf_push, if_neg (hne _ ha), if_neg (hne _ hb)]
      exact hab
  · rw [idxOf_push]
    change _ < st.index + 1
    split_ifs with huv
    · exact Nat.lt_succ_self _
    · exact Nat.lt_succ_of_lt (h.lt u ((List.mem_cons.mp hu).resolve_left huv))
  · have huv : u ≠ v := fun huv => hv ⟨p, huv ▸ hp⟩
    rw [find?_marks_push, if_neg huv]
    exact hp
  · have huv : u ≠ v := fun huv => hv (huv ▸ hu)
    exact OrdMap.find?_insert_of_ne huv _
  · obtain rfl := (visited_push.mp hu).resolve_right hu'
    exact .refl
  · exact absurd ((visited_push.mp hu).resolve_right hu') hne

section

variable {seen rest : List α}

theorem Frame.idxOf_self (h : Frame succs st₀ v seen st rest) : st.idxOf v = st₀.index := by
  rw [State.idxOf, h.mark]
  rfl

theorem Frame.lt_of_mem_rest (h : Frame succs st₀ v seen st rest) (hu : u ∈ rest) :
    st₀.index < st.idxOf u := by
  have hs := h.inv.sorted
  rw [h.stack] at hs
  exact h.idxOf_self ▸ (List.pairwise_append.mp hs).2.2 u hu v List.mem_cons_self

theorem Frame.mem_old (h : Frame succs st₀ v seen st rest) (hu : u ∈ st.stack)
    (hlt : st.idxOf u < st₀.index) : u ∈ st₀.stack := by
  rw [h.stack] at hu
  rcases List.mem_append.mp hu with hu | hu
  · have := h.lt_of_mem_rest hu
    omega
  · rcases List.mem_cons.mp hu with rfl | hu
    · have := h.idxOf_self
      omega
    · exact hu

theorem lowOf_lowerTo (st : State α) (v : α) (n : ℕ) :
    (st.lowerTo v n).lowOf v = min (st.lowOf v) n := by
  unfold State.lowerTo
  simp [State.lowOf]

/-- Lowering the low link of the vertex of the frame to `n`, when `n` is large or belongs to a
vertex that stood on the stack before and can be reached. -/
theorem Frame.lowerTo (h : Frame succs st₀ v seen st rest) (hv : ¬ Visited st₀ v) {n : ℕ}
    (hn : n < st₀.index → ∃ y ∈ st₀.stack, st₀.idxOf y = n ∧ Reach succs v y) :
    Frame succs st₀ v seen (st.lowerTo v n) rest := by
  have hle : (st.lowerTo v n).lowOf v ≤ st.lowOf v := by
    rw [lowOf_lowerTo]
    exact Nat.min_le_left _ _
  refine ⟨⟨h.inv.stack, h.inv.done, h.inv.sorted, h.inv.lt, h.inv.emitted⟩,
    ⟨h.ext.marks, fun u hu => ?_, h.ext.index⟩, h.stack, h.mark, h.reach, h.finished,
    h.seenVisited, fun u hu z hz hzu => Nat.le_trans hle (h.back u hu z hz hzu),
    fun z hz hz' => Nat.le_trans hle (h.backSeen z hz hz'), h.descends, ?_⟩
  · have huv : u ≠ v := fun huv => hv (huv ▸ hu)
    exact (OrdMap.find?_insert_of_ne huv _).trans (h.ext.low u hu)
  · rw [lowOf_lowerTo]
    rcases Nat.lt_or_ge n (st.lowOf v) with hlt | hge
    · have hi : n < st₀.index := by
        rcases h.low with hl | hl <;> omega
      exact Or.inr ⟨by omega, by rw [Nat.min_eq_right (Nat.le_of_lt hlt)]; exact hn hi⟩
    · rw [Nat.min_eq_left hge]
      exact h.low

/-- A successor that is already marked. -/
theorem Frame.see (h : Frame succs st₀ v seen st rest) (hw : Visited st w)
    (hlow : w ∈ st₀.stack → st.lowOf v ≤ st₀.idxOf w) :
    Frame succs st₀ v (w :: seen) st rest :=
  { h with
    seenVisited := fun d hd => (List.mem_cons.mp hd).elim (fun hd => hd ▸ hw) (h.seenVisited d)
    backSeen := fun z hz hz' => (List.mem_cons.mp hz).elim (fun hd => hd ▸ hlow (hd ▸ hz'))
      (fun hz => h.backSeen z hz hz') }

/-- A successor that was not marked, after the call on it. -/
theorem Frame.call {st₁ : State α} {suf : List α} (h₀ : Inv succs st₀)
    (h : Frame succs st₀ v seen st rest) (hv : ¬ Visited st₀ v) (hw : w ∈ succs v)
    (hwn : ¬ Visited st w) (hr : Result succs st w st₁ suf) :
    Frame succs st₀ v (w :: seen) (st₁.lowerTo v (st₁.lowOf w)) (suf ++ rest) := by
  have hvst : Visited st v := ⟨_, h.mark⟩
  have hlowv : st₁.lowOf v = st.lowOf v := hr.ext.lowOf hvst
  have hold : ∀ z ∈ st₀.stack, z ∈ st.stack ∧ Visited st₀ z ∧ st.idxOf z = st₀.idxOf z := by
    intro z hz
    have hz₀ : Visited st₀ z := h₀.visited_iff.mpr (Or.inl hz)
    refine ⟨?_, hz₀, h.ext.idxOf hz₀⟩
    rw [h.stack]
    exact List.mem_append_right _ (List.mem_cons_of_mem _ hz)
  have hlow : (st₁.lowerTo v (st₁.lowOf w)).lowOf v = min (st.lowOf v) (st₁.lowOf w) := by
    rw [lowOf_lowerTo, hlowv]
  have hext := h.ext.trans hr.ext
  have hstk : ∀ u ∈ st.stack, Visited st u := fun u hu => h.inv.visited_iff.mpr (Or.inl hu)
  refine ⟨⟨hr.inv.stack, hr.inv.done, hr.inv.sorted, hr.inv.lt, hr.inv.emitted⟩,
    ⟨hext.marks, fun u hu => ?_, hext.index⟩, ?_, hr.ext.marks v _ h.mark, fun u hu hu₀ => ?_,
    fun u hu hu₀ huv d hd => ?_, fun d hd => ?_, fun u hu z hz hzu => ?_, fun z hz hz₀ => ?_,
    fun u hu => ?_, ?_⟩
  · have huv : u ≠ v := fun huv => hv (huv ▸ hu)
    exact (OrdMap.find?_insert_of_ne huv _).trans (hext.low u hu)
  · change st₁.stack = _
    rw [hr.stack, h.stack, List.append_assoc]
  · by_cases hust : Visited st u
    · exact h.reach u hust hu₀
    · exact .head hw (hr.reach u hu hust)
  · by_cases hust : Visited st u
    · exact hr.ext.visited (h.finished u hust hu₀ huv d hd)
    · exact hr.finished u hu hust d hd
  · rcases List.mem_cons.mp hd with rfl | hd
    · exact hr.self
    · exact hr.ext.visited (h.seenVisited d hd)
  · rw [hlow]
    obtain ⟨hzst, -, hidx⟩ := hold z hz
    rcases List.mem_append.mp hu with hu | hu
    · have := hr.back u hu z hzst hzu
      omega
    · have := h.back u hu z hz hzu
      omega
  · rw [hlow]
    rcases List.mem_cons.mp hz with rfl | hz
    · exact absurd (hstk z (hold z hz₀).1) hwn
    · have := h.backSeen z hz hz₀
      omega
  · rcases List.mem_append.mp hu with hu | hu
    · exact hr.descends u hu
    · obtain ⟨y, hy, hlt, hreach⟩ := h.descends u hu
      have hust : u ∈ st.stack := by
        rw [h.stack]
        exact List.mem_append_left _ hu
      refine ⟨y, ?_, ?_, hreach⟩
      · change y ∈ st₁.stack
        rw [hr.stack]
        exact List.mem_append_right _ hy
      · change st₁.idxOf y < st₁.idxOf u
        rw [hr.ext.idxOf (hstk y hy), hr.ext.idxOf (hstk u hust)]
        exact hlt
  · rw [hlow]
    rcases Nat.lt_or_ge (st₁.lowOf w) (st.lowOf v) with hlt | hge
    · -- the low link of the successor is that of a vertex below the frame
      have hi : st₁.lowOf w < st₀.index := by
        rcases h.low with hl | hl <;> omega
      have hne : suf ≠ [] := fun hnil => by
        have := hr.lowNil hnil
        have := h.ext.index
        omega
      obtain ⟨y, hy, hidx, hreach⟩ := hr.lowSuf hne
      have hy₀ : y ∈ st₀.stack := h.mem_old hy (by omega)
      refine Or.inr ⟨by omega, y, hy₀, ?_, .head hw hreach⟩
      have := (hold y hy₀).2.2
      omega
    · rw [Nat.min_eq_left hge]
      exact h.low

/-- One successor, with what the recursive call does. -/
theorem Frame.visit (h₀ : Inv succs st₀) (h : Frame succs st₀ v seen st rest)
    (hv : ¬ Visited st₀ v) (hw : w ∈ succs v) {call : State α → α → State α}
    (hcall : ¬ Visited st w → ∃ suf, Result succs st w (call st w) suf) :
    ∃ rest', Frame succs st₀ v (w :: seen) (visit call v st w) rest' := by
  unfold Tarjan.visit
  cases hm : st.marks.find? w with
  | none =>
    have hwn : ¬ Visited st w := fun ⟨p, hp⟩ => by cases hm.symm.trans hp
    obtain ⟨suf, hr⟩ := hcall hwn
    exact ⟨_, h.call h₀ hv hw hwn hr⟩
  | some p =>
    obtain ⟨i, b⟩ := p
    have hold : w ∈ st₀.stack → b = true ∧ st₀.idxOf w = i := by
      intro hw₀
      obtain ⟨j, hj⟩ := (h₀.stack w).mp hw₀
      obtain ⟨rfl, rfl⟩ := Prod.mk.inj (Option.some.inj (hm.symm.trans (h.ext.marks w _ hj)))
      exact ⟨rfl, by rw [State.idxOf, hj]; rfl⟩
    cases b with
    | true =>
      have hidx : st.idxOf w = i := by
        rw [State.idxOf, hm]
        rfl
      have hws : w ∈ st.stack := (h.inv.stack w).mpr ⟨i, hm⟩
      refine ⟨rest, (h.lowerTo hv fun hlt => ?_).see ⟨_, hm⟩ fun hw₀ => ?_⟩
      · have hw₀ := h.mem_old hws (hidx ▸ hlt)
        exact ⟨w, hw₀, (hold hw₀).2, .single hw⟩
      · rw [lowOf_lowerTo, (hold hw₀).2]
        exact Nat.min_le_right _ _
    | false => exact ⟨rest, h.see ⟨_, hm⟩ fun hw₀ => by cases (hold hw₀).1⟩

/-! ## The whole call -/

theorem Frame.mem_stack (h : Frame succs st₀ v seen st rest) :
    u ∈ st.stack ↔ u ∈ rest ++ [v] ∨ u ∈ st₀.stack := by
  rw [h.stack]
  simp only [List.mem_append, List.mem_cons, List.not_mem_nil, or_false]
  tauto

/-- What stands above the vertices of the stack before was not marked before. -/
theorem Frame.not_visited (h₀ : Inv succs st₀) (h : Frame succs st₀ v seen st rest)
    (hv : ¬ Visited st₀ v) (hu : u ∈ rest ++ [v]) : ¬ Visited st₀ u := by
  rcases List.mem_append.mp hu with hu | hu
  swap
  · exact List.mem_singleton.mp hu ▸ hv
  intro hvis
  have hidx := h.ext.idxOf hvis
  have hlt := h.lt_of_mem_rest hu
  rcases h₀.visited_iff.mp hvis with hs | hd
  · have := h₀.lt u hs
    omega
  · obtain ⟨i, hi⟩ := (h₀.done u).mp hd
    have hust : u ∈ st.stack := h.mem_stack.mpr (Or.inl (List.mem_append_left _ hu))
    exact h.inv.not_done hust ((h.inv.done u).mpr ⟨i, h.ext.marks u _ hi⟩)

theorem Frame.succs_visited (h : Frame succs st₀ v seen st rest)
    (hseen : ∀ d ∈ succs v, d ∈ seen) (hvis : Visited st u)
    (hu : ¬ Visited st₀ u) (hw : w ∈ succs u) : Visited st w := by
  by_cases huv : u = v
  · exact h.seenVisited w (hseen w (huv ▸ hw))
  · exact h.finished u hvis hu huv w hw

theorem Frame.low_le (h : Frame succs st₀ v seen st rest) (hseen : ∀ d ∈ succs v, d ∈ seen)
    (hu : u ∈ rest ++ [v]) {z : α} (hz : z ∈ st₀.stack) (hzu : z ∈ succs u) :
    st.lowOf v ≤ st₀.idxOf z := by
  rcases List.mem_append.mp hu with hu | hu
  · exact h.back u hu z hz hzu
  · exact h.backSeen z (hseen z (List.mem_singleton.mp hu ▸ hzu)) hz

/-- When the low link of `v` is its index, the part of the stack from `v` on is closed. -/
theorem Frame.closed (h₀ : Inv succs st₀) (h : Frame succs st₀ v seen st rest)
    (hv : ¬ Visited st₀ v) (hseen : ∀ d ∈ succs v, d ∈ seen) (hroot : st.lowOf v = st.idxOf v)
    (hu : u ∈ rest ++ [v]) (hw : w ∈ succs u) :
    w ∈ rest ++ [v] ∨ ∃ C ∈ st.sccs, w ∈ C := by
  rw [h.idxOf_self] at hroot
  have hvis : Visited st u := h.inv.visited_iff.mpr (Or.inl (h.mem_stack.mpr (Or.inl hu)))
  have hwvis := h.succs_visited hseen hvis (h.not_visited h₀ hv hu) hw
  rcases h.inv.visited_iff.mp hwvis with hs | hd
  swap
  · exact Or.inr hd
  rcases h.mem_stack.mp hs with hs | hs
  · exact Or.inl hs
  · have h1 := h.low_le hseen hu hs hw
    have h2 := h₀.lt w hs
    omega

/-- When the low link of `v` is its index, every vertex above `v` reaches `v`. -/
theorem Frame.reach_self (h₀ : Inv succs st₀) (h : Frame succs st₀ v seen st rest)
    (hv : ¬ Visited st₀ v) (hseen : ∀ d ∈ succs v, d ∈ seen) (hroot : st.lowOf v = st.idxOf v) :
    ∀ n, ∀ u ∈ rest ++ [v], st.idxOf u = n → Reach succs u v := by
  -- a path that starts in the closed part stays there or ends in a component
  have hpath : ∀ u ∈ rest ++ [v], ∀ y, Reach succs u y →
      y ∈ rest ++ [v] ∨ ∃ C ∈ st.sccs, y ∈ C := by
    intro u hu y hreach
    induction hreach with
    | refl => exact Or.inl hu
    | tail _ hstep ih =>
      rcases ih with ih | ih
      · exact h.closed h₀ hv hseen hroot ih hstep
      · exact Or.inr (h.inv.emitted.closed ih hstep)
  intro n
  induction n using Nat.strongRecOn with
  | ind n ih =>
    rintro u hu rfl
    rcases List.mem_append.mp hu with hr | hr
    swap
    · exact List.mem_singleton.mp hr ▸ .refl
    obtain ⟨y, hy, hlt, hreach⟩ := h.descends u hr
    have hy' : y ∈ rest ++ [v] := (hpath u hu y hreach).resolve_right (h.inv.not_done hy)
    exact hreach.trans (ih _ hlt y hy' rfl)

omit [LinearOrder α] in
theorem find?_markAll {β : Type*} [LinearOrder α] (l : List α) (f : α → β) (m : OrdMap α β)
    (u : α) : (l.foldl (fun m w => m.insert w (f w)) m).find? u =
      if u ∈ l then some (f u) else m.find? u := by
  induction l generalizing m with
  | nil => simp
  | cons a l ih =>
    rw [List.foldl_cons, ih, OrdMap.find?_insert]
    by_cases h1 : u ∈ l <;> by_cases h2 : u = a <;> simp [h1, h2]

theorem Frame.popTo_eq (h : Frame succs st₀ v seen st rest) :
    st.stack.takeWhile (· ≠ v) ++ [v] = rest ++ [v] ∧
      (st.stack.dropWhile (· ≠ v)).tail = st₀.stack := by
  have hnot : ∀ u ∈ rest, (decide (u ≠ v)) = true := by
    intro u hu
    rw [decide_eq_true_eq]
    rintro rfl
    have h1 := h.lt_of_mem_rest hu
    have h2 := h.idxOf_self
    omega
  rw [h.stack, List.takeWhile_append_of_pos hnot, List.dropWhile_append_of_pos hnot]
  simp

/-- The call on a vertex that turns out to be the root of its component. -/
theorem Frame.popTo (h₀ : Inv succs st₀) (h : Frame succs st₀ v seen st rest)
    (hv : ¬ Visited st₀ v) (hseen : ∀ d ∈ succs v, d ∈ seen) (hroot : st.lowOf v = st.idxOf v) :
    Result succs st₀ v (st.popTo v) [] := by
  obtain ⟨hscc, hstack⟩ := h.popTo_eq
  have hmarks : ∀ u, (st.popTo v).marks.find? u =
      if u ∈ rest ++ [v] then some (st.idxOf u, false) else st.marks.find? u := by
    intro u
    unfold State.popTo
    simp only [hscc]
    exact find?_markAll _ _ _ _
  have hidx : ∀ u, (st.popTo v).idxOf u = st.idxOf u := by
    intro u
    rw [State.idxOf, hmarks]
    split_ifs <;> rfl
  have hvisited : ∀ u, Visited (st.popTo v) u ↔ Visited st u := by
    intro u
    unfold Visited
    rw [hmarks]
    split_ifs with hu
    · refine ⟨fun _ => ?_, fun _ => ⟨_, rfl⟩⟩
      exact h.inv.visited_iff.mpr (Or.inl (h.mem_stack.mpr (Or.inl hu)))
    · exact Iff.rfl
  have hst : (st.popTo v).stack = st₀.stack := hstack
  have hsccs : (st.popTo v).sccs = st.sccs ++ [rest ++ [v]] := by
    unfold State.popTo
    rw [hscc]
  have hsub : ∀ u ∈ st₀.stack, u ∉ rest ++ [v] := fun u hu hmem =>
    h.not_visited h₀ hv hmem (h₀.visited_iff.mpr (Or.inl hu))
  have happ : st.stack = (rest ++ [v]) ++ st₀.stack := by simp [h.stack]
  have hnodup : (rest ++ [v]).Nodup := (List.nodup_append.mp (happ ▸ h.inv.nodup)).1
  refine ⟨⟨fun u => ?_, fun u => ?_, ?_, fun u hu => ?_, ?_⟩, ⟨fun u p hp => ?_, h.ext.low,
    h.ext.index⟩, hst, (hvisited v).mpr ⟨_, h.mark⟩,
    fun u hu hu₀ => h.reach u ((hvisited u).mp hu) hu₀, fun u hu hu₀ d hd => ?_, by simp, by simp,
    by simp, fun _ => ?_⟩
  · rw [hst, hmarks]
    split_ifs with hu
    · exact ⟨fun hs => absurd hu (hsub u hs), by simp⟩
    · rw [← h.inv.stack, h.mem_stack, or_iff_right hu]
  · rw [hsccs, hmarks]
    split_ifs with hu
    · exact ⟨fun _ => ⟨_, rfl⟩, fun _ => ⟨_, List.mem_append_right _ List.mem_cons_self, hu⟩⟩
    · rw [← h.inv.done]
      simp only [List.mem_append, List.mem_singleton]
      constructor
      · rintro ⟨C, hC | rfl, huC⟩
        · exact ⟨C, hC, huC⟩
        · exact absurd huC (by simpa using hu)
      · rintro ⟨C, hC, huC⟩
        exact ⟨C, Or.inl hC, huC⟩
  · rw [hst]
    have hs := h.inv.sorted
    rw [happ] at hs
    refine (List.pairwise_append.mp hs).2.1.imp fun hab => ?_
    rwa [hidx, hidx]
  · rw [hidx]
    exact h.inv.lt u (h.mem_stack.mpr (Or.inr (hst ▸ hu)))
  · rw [hsccs]
    refine .snoc h.inv.emitted hnodup (fun s hs D hD hsD => ?_)
      (fun s hs d hd => h.closed h₀ hv hseen hroot hs hd) fun s hs t ht => ?_
    · exact h.inv.not_done (h.mem_stack.mpr (Or.inl hs)) ⟨D, hD, hsD⟩
    · have hvt : Reach succs v t := h.reach t
        (h.inv.visited_iff.mpr (Or.inl (h.mem_stack.mpr (Or.inl ht)))) (h.not_visited h₀ hv ht)
      exact (h.reach_self h₀ hv hseen hroot _ s hs rfl).trans hvt
  · have hu : u ∉ rest ++ [v] := fun hu => h.not_visited h₀ hv hu ⟨p, hp⟩
    rw [hmarks, if_neg hu]
    exact h.ext.marks u p hp
  · exact (hvisited d).mpr (h.succs_visited hseen ((hvisited u).mp hu) hu₀ hd)
  · change _ ≤ st.lowOf v
    exact Nat.le_of_eq (by rw [hroot, h.idxOf_self])

/-- The call on a vertex that stays on the stack. -/
theorem Frame.stay (h₀ : Inv succs st₀) (h : Frame succs st₀ v seen st rest)
    (hv : ¬ Visited st₀ v) (hseen : ∀ d ∈ succs v, d ∈ seen) (hroot : st.lowOf v ≠ st.idxOf v) :
    Result succs st₀ v st (rest ++ [v]) := by
  rw [h.idxOf_self] at hroot
  obtain ⟨hlt, y, hy, hidx, hreach⟩ := h.low.resolve_left hroot
  refine ⟨h.inv, h.ext, by simp [h.stack], ⟨_, h.mark⟩, h.reach,
    fun u hu hu₀ d hd => h.succs_visited hseen hu hu₀ hd,
    fun u hu z hz hzu => h.low_le hseen hu hz hzu, fun u hu => ?_, fun _ => ⟨y, hy, hidx, hreach⟩,
    by simp⟩
  rcases List.mem_append.mp hu with hu | hu
  · exact h.descends u hu
  · obtain rfl := List.mem_singleton.mp hu
    refine ⟨y, h.mem_stack.mpr (Or.inr hy), ?_, hreach⟩
    rw [h.ext.idxOf (h₀.visited_iff.mpr (Or.inl hy)), h.idxOf_self]
    omega

end

/-- The vertices of `verts` that are not marked. -/
def unmarked (verts : List α) (st : State α) : List α :=
  verts.filter fun u => (st.marks.find? u).isNone

theorem length_unmarked_lt {verts : List α} (h : Extends st st') (hv : v ∈ verts)
    (hn : ¬ Visited st v) (hv' : Visited st' v) :
    (unmarked verts st').length < (unmarked verts st).length := by
  have hnone : ∀ {s : State α} {u : α}, (s.marks.find? u).isNone = true ↔ ¬ Visited s u := by
    intro s u
    rw [Option.isNone_iff_eq_none, Option.eq_none_iff_forall_ne_some]
    exact ⟨fun h ⟨p, hp⟩ => h p hp, fun h p hp => h ⟨p, hp⟩⟩
  have hsub : unmarked verts st' =
      (unmarked verts st).filter fun u => (st'.marks.find? u).isNone := by
    unfold unmarked
    rw [List.filter_filter]
    refine List.filter_congr fun u _ => ?_
    rw [Bool.eq_iff_iff, Bool.and_eq_true, hnone, hnone]
    exact ⟨fun hu => ⟨hu, fun hs => hu (h.visited hs)⟩, And.left⟩
  rw [hsub, List.length_filter_lt_length_iff_exists]
  exact ⟨v, List.mem_filter.mpr ⟨hv, hnone.mpr hn⟩, fun hc => hnone.mp hc hv'⟩

/-- The call on an unmarked vertex, with fuel for all unmarked ones. -/
theorem strongConnect_spec {verts : List α} (hverts : ∀ u ∈ verts, ∀ d ∈ succs u, d ∈ verts) :
    ∀ fuel (st : State α) (v : α), Inv succs st → ¬ Visited st v → v ∈ verts →
      (unmarked verts st).length ≤ fuel →
      ∃ suf, Result succs st v (strongConnect succs fuel st v) suf := by
  intro fuel
  induction fuel with
  | zero =>
    intro st v h hv hmem hfuel
    have hnil := List.eq_nil_of_length_eq_zero (Nat.le_zero.mp hfuel)
    have hin : v ∈ unmarked verts st := by
      refine List.mem_filter.mpr ⟨hmem, ?_⟩
      rw [Option.isNone_iff_eq_none, Option.eq_none_iff_forall_ne_some]
      exact fun p hp => hv ⟨p, hp⟩
    rw [hnil] at hin
    cases hin
  | succ fuel ih =>
    intro st v h hv hmem hfuel
    -- the loop over the successors keeps the frame
    have hloop : ∀ l : List α, (∀ d ∈ l, d ∈ succs v) → ∀ seen st₁ rest,
        Frame succs st v seen st₁ rest → ∃ seen' rest',
          Frame succs st v seen' (l.foldl (visit (strongConnect succs fuel) v) st₁) rest' ∧
            (∀ d, d ∈ l ∨ d ∈ seen → d ∈ seen') := by
      intro l
      induction l with
      | nil =>
        intro _ seen st₁ rest hf
        exact ⟨seen, rest, hf, fun d hd => hd.resolve_left (by simp)⟩
      | cons w l ihl =>
        intro hl seen st₁ rest hf
        have hw : w ∈ succs v := hl w List.mem_cons_self
        obtain ⟨rest₁, hf₁⟩ : ∃ rest₁, Frame succs st v (w :: seen)
            (visit (strongConnect succs fuel) v st₁ w) rest₁ := by
          refine hf.visit h hv hw fun hwn => ih st₁ w hf.inv hwn (hverts v hmem w hw) ?_
          have := length_unmarked_lt hf.ext hmem hv ⟨_, hf.mark⟩
          omega
        obtain ⟨seen', rest', hf', hseen'⟩ := ihl (fun d hd => hl d (List.mem_cons_of_mem _ hd)) _ _ _ hf₁
        refine ⟨seen', rest', hf', fun d hd => hseen' d ?_⟩
        simp only [List.mem_cons] at hd ⊢
        tauto
    obtain ⟨seen, rest, hframe, hseen⟩ := hloop (succs v) (fun _ => id) [] _ [] (h.frame hv)
    have hall : ∀ d ∈ succs v, d ∈ seen := fun d hd => hseen d (Or.inl hd)
    unfold strongConnect
    simp only
    split_ifs with hroot
    · exact ⟨[], hframe.popTo h hv hall hroot⟩
    · exact ⟨_, hframe.stay h hv hall hroot⟩

/-! ## All components -/

/-- What holds between two searches: the stack is empty and only `verts` are marked. -/
structure Between (succs : α → List α) (verts : List α) (st : State α) : Prop where
  inv : Inv succs st
  stack : st.stack = []
  marked : ∀ u, Visited st u → u ∈ verts

theorem Between.startAt {verts : List α} (hverts : ∀ u ∈ verts, ∀ d ∈ succs u, d ∈ verts)
    (h : Between succs verts st) (hv : v ∈ verts) :
    Between succs verts (startAt succs verts.length st v) ∧
      Visited (startAt succs verts.length st v) v ∧
      ∀ u, Visited st u → Visited (startAt succs verts.length st v) u := by
  unfold Tarjan.startAt
  cases hm : st.marks.find? v with
  | some p => exact ⟨h, ⟨p, hm⟩, fun _ => id⟩
  | none =>
    have hvn : ¬ Visited st v := fun ⟨p, hp⟩ => by cases hm.symm.trans hp
    have hinv : Inv succs { st with index := 1, stack := [] } :=
      ⟨h.stack ▸ h.inv.stack, h.inv.done, .nil, by simp, h.inv.emitted⟩
    obtain ⟨suf, hr⟩ := strongConnect_spec hverts verts.length { st with index := 1, stack := [] } v
      hinv hvn hv (List.length_filter_le _ _)
    have hsuf : suf = [] := by
      by_contra hne
      obtain ⟨y, hy, -⟩ := hr.lowSuf hne
      cases hy
    refine ⟨⟨hr.inv, by rw [hr.stack, hsuf]; rfl, fun u hu => ?_⟩, hr.self,
      fun u hu => hr.ext.visited hu⟩
    by_cases hst : Visited st u
    · exact h.marked u hst
    · have hreach := hr.reach u hu hst
      clear hu hst
      induction hreach with
      | refl => exact hv
      | tail _ hstep ih => exact hverts _ ih _ hstep

/-- The components are found in an order in which edges lead backwards, and they cover the
graph. -/
theorem computeSccs_emitted {verts : List α} (hverts : ∀ u ∈ verts, ∀ d ∈ succs u, d ∈ verts) :
    Emitted succs (computeSccs succs verts) ∧
      ∀ v, v ∈ verts ↔ ∃ C ∈ computeSccs succs verts, v ∈ C := by
  have hloop : ∀ l : List α, (∀ v ∈ l, v ∈ verts) → ∀ st : State α, Between succs verts st →
      Between succs verts (l.foldl (startAt succs verts.length) st) ∧
        ∀ v, v ∈ l ∨ Visited st v → Visited (l.foldl (startAt succs verts.length) st) v := by
    intro l
    induction l with
    | nil => exact fun _ st h => ⟨h, fun v hv => hv.resolve_left (by simp)⟩
    | cons w l ih =>
      intro hl st h
      obtain ⟨h₁, hw, hold⟩ := h.startAt hverts (hl w List.mem_cons_self)
      obtain ⟨h₂, hall⟩ := ih (fun v hv => hl v (List.mem_cons_of_mem _ hv)) _ h₁
      refine ⟨h₂, fun v hv => hall v ?_⟩
      rcases hv with hv | hv
      · rcases List.mem_cons.mp hv with rfl | hv
        · exact Or.inr hw
        · exact Or.inl hv
      · exact Or.inr (hold v hv)
  have hinit : Between succs verts ⟨1, ∅, ∅, [], []⟩ := by
    refine ⟨⟨?_, ?_, .nil, by simp, .nil⟩, rfl, ?_⟩ <;> simp [Visited]
  obtain ⟨h, hall⟩ := hloop verts (fun _ => id) _ hinit
  refine ⟨h.inv.emitted, fun v => ?_⟩
  have hvis := h.inv.visited_iff (u := v)
  rw [h.stack] at hvis
  constructor
  · intro hv
    exact (hvis.mp (hall v (Or.inl hv))).resolve_left (by simp)
  · intro hv
    exact h.marked v (hvis.mpr (Or.inr hv))

end Tarjan

end Prevail
