import Mathlib.Data.Finset.Card
import Mathlib.Data.Finset.Range
import Prevail.Crab.GraphClosure
import Prevail.Crab.HeapOrder

/-!
# A repaired potential is a potential

`repair_potential` starts from a potential that all edges but one respect. It lowers vertices in
the order of how much they are lowered, so that a vertex that was lowered never has to be lowered
again: `Repaired` says what holds between two turns of its loop.
-/

namespace Prevail

namespace GraphOps

variable {g : GraphView} {p : List ℤ} {ii jj es : ℕ} {d₀ : ℤ} {st st' : RepairState}

namespace RepairState

/-- How much the vertex is to be lowered. -/
def key (st : RepairState) (u : ℕ) : ℤ := (st.dists.find? u).getD 0

/-- The new potential. -/
def alt (st : RepairState) (u : ℕ) : ℤ := st.distsAlt.getD u 0

/-- The vertex has its new potential. -/
def Lowered (st : RepairState) (p : List ℤ) (u : ℕ) : Prop := st.alt u ≠ p.getD u 0

end RepairState

open RepairState

/-- The state between two turns, when the edges in `R` from lowered vertices are followed. -/
structure Repaired (p : List ℤ) (ii jj : ℕ) (d₀ : ℤ) (R : DiffSys ℕ) (st : RepairState) :
    Prop where
  length : st.distsAlt.length = p.length
  nodup : st.heap.Nodup
  ordered : Heap.Ordered st.key st.heap
  waiting : ∀ u ∈ st.heap, u < p.length ∧ st.key u < 0 ∧ ¬ st.Lowered p u
  idle : ∀ u, ¬ st.Lowered p u → u ∉ st.heap → st.key u = 0
  lowered : ∀ u, st.Lowered p u → st.alt u = p.getD u 0 + st.key u ∧ st.key u < 0
  mono : ∀ u, st.Lowered p u → ∀ v ∈ st.heap, st.key u ≤ st.key v
  followed : ∀ u v w, R u v w → st.Lowered p u → ¬ (u = ii ∧ v = jj) →
    p.getD v 0 + st.key v ≤ st.alt u + w
  start : st.key jj ≤ d₀
  first : ¬ st.Lowered p jj → st.heap = [jj]

theorem distsCompare_eq (st : RepairState) (a b : ℕ) :
    distsCompare st.dists a b = decide (st.key a < st.key b) := rfl

theorem Repaired.key_le {R : DiffSys ℕ} (h : Repaired p ii jj d₀ R st) (u : ℕ) : st.key u ≤ 0 := by
  by_cases hu : st.Lowered p u
  · exact (h.lowered u hu).2.le
  · by_cases hmem : u ∈ st.heap
    · exact (h.waiting u hmem).2.1.le
    · exact (h.idle u hu hmem).le

/-- The vertex `es` leaves the heap. -/
theorem Repaired.pop {heap : List ℕ} (h : Repaired p ii jj d₀ g.Edge st)
    (hpop : Heap.removeMin (distsCompare st.dists) st.heap = some (es, heap))
    (hst : st' = { st with
      heap := heap
      distsAlt := st.distsAlt.set es (p.getD es 0 + (st.dists.find? es).getD 0) }) :
    Repaired p ii jj d₀ (fun u v w => g.Edge u v w ∧ u ≠ es) st' ∧ st'.Lowered p es ∧
      st'.Lowered p jj ∧ (∀ u, st'.Lowered p u → st'.key u ≤ st'.key es) ∧
      ∀ u, st'.Lowered p u ↔ st.Lowered p u ∨ u = es := by
  obtain ⟨hord, hperm, hmin⟩ := Heap.removeMin_spec (distsCompare_eq st) h.ordered hpop
  have hmem : ∀ u, u ∈ st.heap ↔ u = es ∨ u ∈ heap := fun u => by
    rw [hperm.mem_iff, List.mem_cons]
  have hnodup := List.nodup_cons.mp (hperm.nodup_iff.mp h.nodup)
  obtain ⟨hlen, hneg, hnot⟩ := h.waiting es ((hmem es).mpr (Or.inl rfl))
  have hkey : st'.key = st.key := by rw [hst]; rfl
  have hheap : st'.heap = heap := by rw [hst]
  have hself : st'.alt es = p.getD es 0 + st.key es := by
    rw [hst]
    show (st.distsAlt.set es _).getD es 0 = _
    rw [List.getD_eq_getElem _ _ (by rwa [List.length_set, h.length]), List.getElem_set_self]
    rfl
  have hother : ∀ u ≠ es, st'.alt u = st.alt u := by
    intro u hu
    rw [hst]
    show (st.distsAlt.set es _).getD u 0 = st.distsAlt.getD u 0
    rw [List.getD_eq_getElem?_getD, List.getElem?_set_ne hu.symm, List.getD_eq_getElem?_getD]
  have hes : st'.Lowered p es := by
    unfold Lowered
    rw [hself]
    omega
  have hlow : ∀ u, st'.Lowered p u ↔ st.Lowered p u ∨ u = es := by
    intro u
    by_cases hu : u = es
    · simp only [hu, hes, or_true]
    · unfold Lowered
      rw [hother u hu, or_iff_left hu]
  have htop : ∀ u, st'.Lowered p u → st'.key u ≤ st'.key es := by
    intro u hu
    rw [hkey]
    rcases (hlow u).mp hu with hu | rfl
    · exact h.mono u hu es ((hmem es).mpr (Or.inl rfl))
    · exact le_rfl
  have hjj : st'.Lowered p jj := by
    by_cases hjj : st.Lowered p jj
    · exact (hlow jj).mpr (Or.inl hjj)
    · have hes' := (hmem es).mpr (Or.inl rfl)
      rw [h.first hjj, List.mem_singleton] at hes'
      exact (hlow jj).mpr (Or.inr hes'.symm)
  refine ⟨⟨?_, ?_, ?_, fun u hu => ?_, fun u hu hn => ?_, fun u hu => ?_, fun u hu v hv => ?_,
    fun u v w he hu hne => ?_, ?_, fun hc => absurd hjj hc⟩, hes, hjj, htop, hlow⟩
  · rw [hst]
    simpa using h.length
  · rw [hheap]
    exact hnodup.2
  · rw [hkey, hheap]
    exact hord
  · rw [hheap] at hu
    obtain ⟨hul, hun, hnl⟩ := h.waiting u ((hmem u).mpr (Or.inr hu))
    rw [hkey, hlow]
    refine ⟨hul, hun, not_or.mpr ⟨hnl, ?_⟩⟩
    rintro rfl
    exact hnodup.1 hu
  · rw [hlow, not_or] at hu
    rw [hheap] at hn
    rw [hkey]
    exact h.idle u hu.1 fun hc => ((hmem u).mp hc).elim hu.2 hn
  · rw [hkey]
    by_cases hu' : u = es
    · rw [hu']
      exact ⟨hself, hneg⟩
    · rw [hother u hu']
      exact h.lowered u (((hlow u).mp hu).resolve_right hu')
  · rw [hheap] at hv
    rw [hkey]
    have hv' := (hmem v).mpr (Or.inr hv)
    rcases (hlow u).mp hu with hu | rfl
    · exact h.mono u hu v hv'
    · exact hmin v hv'
  · rw [hkey, hother u he.2]
    exact h.followed u v w he.1 (((hlow u).mp hu).resolve_right he.2) hne
  · rw [hkey]
    exact h.start

theorem ordered_congr {key key' : ℕ → ℤ} {heap : List ℕ} (h : Heap.Ordered key heap)
    (hkey : ∀ u ∈ heap, key' u = key u) : Heap.Ordered key' heap := by
  have hmem : ∀ i < heap.length, heap.getD i 0 ∈ heap := by
    intro i hi
    rw [List.getD_eq_getElem _ _ hi]
    exact List.getElem_mem hi
  intro i hi
  have hp : Heap.parent i ≤ i := by unfold Heap.parent; omega
  rw [hkey _ (hmem i hi), hkey _ (hmem _ (hp.trans_lt hi))]
  exact h i hi

/-- A vertex that is not lowered gets a smaller distance. -/
theorem Repaired.relax {R : DiffSys ℕ} {v : ℕ} {n : ℤ} (h : Repaired p ii jj d₀ R st)
    (hjj : st.Lowered p jj) (hv : ¬ st.Lowered p v) (hlen : v < p.length) (hn : n < st.key v)
    (hmono : ∀ u, st.Lowered p u → st.key u ≤ n)
    (hst : st' = { st with
      dists := st.dists.insert v n
      heap := if v ∈ st.heap then Heap.decrease (distsCompare (st.dists.insert v n)) v st.heap
        else Heap.insert (distsCompare (st.dists.insert v n)) v st.heap }) :
    Repaired p ii jj d₀ R st' ∧ st'.key v = n := by
  have halt : st'.alt = st.alt := by rw [hst]; rfl
  have hlow : ∀ u, st'.Lowered p u ↔ st.Lowered p u := fun u => by unfold Lowered; rw [halt]
  have hself : st'.key v = n := by
    rw [hst]
    show ((st.dists.insert v n).find? v).getD 0 = n
    rw [OrdMap.find?_insert_self, Option.getD_some]
  have hother : ∀ u ≠ v, st'.key u = st.key u := by
    intro u hu
    rw [hst]
    show ((st.dists.insert v n).find? u).getD 0 = _
    rw [OrdMap.find?_insert_of_ne hu]
    rfl
  have hle : ∀ u, st'.key u ≤ st.key u := by
    intro u
    by_cases hu : u = v
    · rw [hu, hself]
      exact hn.le
    · rw [hother u hu]
  have hheap : Heap.Ordered st'.key st'.heap ∧ st'.heap.Nodup ∧
      ∀ u, u ∈ st'.heap ↔ u ∈ st.heap ∨ u = v := by
    have hcmp : ∀ a b, distsCompare (st.dists.insert v n) a b = decide (st'.key a < st'.key b) := by
      rw [hst]
      exact fun _ _ => rfl
    by_cases hin : v ∈ st.heap
    · have heq : st'.heap = Heap.decrease (distsCompare (st.dists.insert v n)) v st.heap := by
        rw [hst]
        exact if_pos hin
      obtain ⟨hord, hperm⟩ := Heap.decrease_spec hcmp h.ordered h.nodup hin (hle v) hother
      rw [heq]
      refine ⟨hord, hperm.nodup_iff.mpr h.nodup, fun u => ?_⟩
      rw [hperm.mem_iff, or_iff_left_of_imp]
      rintro rfl
      exact hin
    · have heq : st'.heap = Heap.insert (distsCompare (st.dists.insert v n)) v st.heap := by
        rw [hst]
        exact if_neg hin
      have hord' : Heap.Ordered st'.key st.heap := ordered_congr h.ordered fun u hu =>
        hother u fun hc => hin (hc ▸ hu)
      obtain ⟨hord, hperm⟩ := Heap.insert_spec (n := v) hcmp hord'
      rw [heq]
      refine ⟨hord, hperm.nodup_iff.mpr ?_, fun u => ?_⟩
      · refine List.nodup_append.mpr ⟨h.nodup, List.nodup_singleton v, fun a ha b hb hab => ?_⟩
        rw [hab, List.mem_singleton.mp hb] at ha
        exact hin ha
      · rw [hperm.mem_iff, List.mem_append, List.mem_singleton]
  obtain ⟨hord, hnodup, hmem⟩ := hheap
  refine ⟨⟨?_, hnodup, hord, fun u hu => ?_, fun u hu hnin => ?_, fun u hu => ?_, fun u hu w hw => ?_,
    fun u w c hR hu hne => ?_, (hle jj).trans h.start, fun hc => absurd ((hlow jj).mpr hjj) hc⟩, hself⟩
  · rw [hst]
    exact h.length
  · rw [hlow]
    rcases (hmem u).mp hu with hu | rfl
    · obtain ⟨hul, hneg, hnl⟩ := h.waiting u hu
      exact ⟨hul, (hle u).trans_lt hneg, hnl⟩
    · refine ⟨hlen, ?_, hv⟩
      rw [hself]
      exact hn.trans_le (h.key_le u)
  · rw [hlow] at hu
    rw [hmem, not_or] at hnin
    rw [hother u hnin.2]
    exact h.idle u hu hnin.1
  · rw [hlow] at hu
    have hne : u ≠ v := fun hc => hv (hc ▸ hu)
    rw [halt, hother u hne]
    exact h.lowered u hu
  · rw [hlow] at hu
    have hne : u ≠ v := fun hc => hv (hc ▸ hu)
    rw [hother u hne]
    by_cases hwv : w = v
    · rw [hwv, hself]
      exact hmono u hu
    · rw [hother w hwv]
      exact h.mono u hu w (((hmem w).mp hw).resolve_right hwv)
  · rw [hlow] at hu
    have hf := h.followed u w c hR hu hne
    have hw := hle w
    rw [halt]
    omega

section

variable (hvalid : ∀ s t w, g.Edge s t w → ¬ (s = ii ∧ t = jj) → p.getD t 0 ≤ p.getD s 0 + w)
  (hlen : ∀ s t w, g.Edge s t w → t < p.length)

include hvalid hlen in
/-- One edge out of the vertex that was lowered last. -/
theorem Repaired.edge {R : DiffSys ℕ} {e : ℕ × ℤ} (h : Repaired p ii jj d₀ R st)
    (he : g.Edge es e.1 e.2) (hes : st.Lowered p es) (hjj : st.Lowered p jj)
    (htop : ∀ u, st.Lowered p u → st.key u ≤ st.key es) :
    Repaired p ii jj d₀ (fun u v w => R u v w ∨ u = es ∧ (v, w) = e) (repairEdge p es st e) ∧
      (∀ u, (repairEdge p es st e).Lowered p u ↔ st.Lowered p u) ∧
      ∀ u, st.Lowered p u → (repairEdge p es st e).key u = st.key u := by
  obtain ⟨v, w⟩ := e
  obtain ⟨halt, hneg⟩ := h.lowered es hes
  have hadd : ∀ st', Repaired p ii jj d₀ R st' → st'.alt = st.alt →
      (¬ (es = ii ∧ v = jj) → p.getD v 0 + st'.key v ≤ st.alt es + w) →
      Repaired p ii jj d₀ (fun a b c => R a b c ∨ a = es ∧ (b, c) = (v, w)) st' := by
    intro st' h' halt' hnew
    refine ⟨h'.length, h'.nodup, h'.ordered, h'.waiting, h'.idle, h'.lowered, h'.mono, ?_, h'.start,
      h'.first⟩
    rintro a b c (hR | ⟨rfl, hbc⟩) ha hne
    · exact h'.followed a b c hR ha hne
    · obtain ⟨rfl, rfl⟩ := Prod.mk.inj hbc
      rw [halt']
      exact hnew hne
  unfold repairEdge
  simp only
  by_cases hv : st.distsAlt.getD v 0 = p.getD v 0
  swap
  · -- the vertex was lowered before, and by more
    rw [if_neg hv]
    refine ⟨hadd st h rfl fun hne => ?_, fun u => Iff.rfl, fun u _ => rfl⟩
    have hvk := htop v hv
    have hslack := hvalid es v w he hne
    rw [halt]
    omega
  rw [if_pos hv]
  by_cases hlt : st.distsAlt.getD es 0 + w - st.distsAlt.getD v 0 < (st.dists.find? v).getD 0
  · -- the vertex comes closer
    rw [if_pos hlt]
    have hvl : ¬ st.Lowered p v := fun hc => hc hv
    have hvj : ¬ (es = ii ∧ v = jj) := by
      rintro ⟨-, rfl⟩
      exact hvl hjj
    have hslack := hvalid es v w he hvj
    have hmono : ∀ u, st.Lowered p u → st.key u ≤
        st.distsAlt.getD es 0 + w - st.distsAlt.getD v 0 := by
      intro u hu
      have hu := htop u hu
      have hes' : st.distsAlt.getD es 0 = p.getD es 0 + st.key es := halt
      rw [hv, hes']
      omega
    obtain ⟨h', hself⟩ := h.relax hjj hvl (hlen es v w he) hlt hmono rfl
    refine ⟨hadd _ h' rfl fun _ => ?_, fun u => Iff.rfl, fun u hu => ?_⟩
    · rw [hself, hv]
      show _ ≤ st.distsAlt.getD es 0 + w
      omega
    · have hne : u ≠ v := fun hc => hvl (hc ▸ hu)
      show ((st.dists.insert v _).find? u).getD 0 = _
      rw [OrdMap.find?_insert_of_ne hne]
      rfl
  · rw [if_neg hlt]
    refine ⟨hadd st h rfl fun _ => ?_, fun u => Iff.rfl, fun u _ => rfl⟩
    have hge : st.key v ≤ st.distsAlt.getD es 0 + w - st.distsAlt.getD v 0 := not_lt.mp hlt
    show _ ≤ st.distsAlt.getD es 0 + w
    rw [hv] at hge
    omega

include hvalid hlen in
theorem Repaired.edges (h : Repaired p ii jj d₀ (fun u v w => g.Edge u v w ∧ u ≠ es) st)
    (hes : st.Lowered p es) (hjj : st.Lowered p jj)
    (htop : ∀ u, st.Lowered p u → st.key u ≤ st.key es) :
    Repaired p ii jj d₀ g.Edge ((g.eSuccs es).foldl (repairEdge p es) st) ∧
      ∀ u, ((g.eSuccs es).foldl (repairEdge p es) st).Lowered p u ↔ st.Lowered p u := by
  have key : ∀ (l : List (ℕ × ℤ)) (R : DiffSys ℕ) (st : RepairState), (∀ e ∈ l, g.Edge es e.1 e.2) →
      Repaired p ii jj d₀ R st → st.Lowered p es → st.Lowered p jj →
      (∀ u, st.Lowered p u → st.key u ≤ st.key es) →
      Repaired p ii jj d₀ (fun u v w => R u v w ∨ u = es ∧ (v, w) ∈ l)
        (l.foldl (repairEdge p es) st) ∧
      ∀ u, (l.foldl (repairEdge p es) st).Lowered p u ↔ st.Lowered p u := by
    intro l
    induction l with
    | nil =>
      intro R st _ h _ _ _
      simpa using h
    | cons e l ih =>
      intro R st hl h hes hjj htop
      obtain ⟨h', hlow, hkey⟩ := h.edge hvalid hlen (hl e List.mem_cons_self) hes hjj htop
      obtain ⟨h'', hlow'⟩ := ih _ _ (fun e' he' => hl e' (List.mem_cons_of_mem _ he')) h'
        ((hlow es).mpr hes) ((hlow jj).mpr hjj) fun u hu => by
          have hu := (hlow u).mp hu
          rw [hkey u hu, hkey es hes]
          exact htop u hu
      refine ⟨?_, fun u => (hlow' u).trans (hlow u)⟩
      simp only [List.mem_cons, and_or_left, ← or_assoc]
      exact h''
  obtain ⟨h', hlow⟩ := key _ _ _ (fun e he => he) h hes hjj htop
  refine ⟨⟨h'.length, h'.nodup, h'.ordered, h'.waiting, h'.idle, h'.lowered, h'.mono,
    fun u v w he => h'.followed u v w ?_, h'.start, h'.first⟩, hlow⟩
  by_cases hu : u = es
  · exact Or.inr ⟨hu, hu ▸ he⟩
  · exact Or.inl ⟨he, hu⟩

instance : DecidablePred (st.Lowered p) := fun u =>
  inferInstanceAs (Decidable (st.alt u ≠ p.getD u 0))

/-- The vertices below `n` that may still be lowered. -/
def toLower (n : ℕ) (p : List ℤ) (st : RepairState) : Finset ℕ :=
  (Finset.range n).filter fun u => ¬ st.Lowered p u

/-- Only ends of edges are put on the heap. -/
theorem mem_heap_repairEdges {l : List (ℕ × ℤ)} {u : ℕ} (h : u ∈ (l.foldl (repairEdge p es) st).heap) :
    u ∈ st.heap ∨ ∃ w, (u, w) ∈ l := by
  induction l generalizing st with
  | nil => exact Or.inl h
  | cons e l ih =>
    rcases ih h with h | ⟨w, hw⟩
    · unfold repairEdge at h
      simp only at h
      split_ifs at h with halt hlt hin
      · exact Or.inl (Heap.mem_decrease hin h)
      · rcases Heap.mem_insert h with rfl | h
        · exact Or.inr ⟨e.2, List.mem_cons_self⟩
        · exact Or.inl h
      · exact Or.inl h
      · exact Or.inl h
    · exact Or.inr ⟨w, List.mem_cons_of_mem _ hw⟩

include hvalid hlen in
/-- After the loop nothing is left to do. -/
theorem Repaired.loop {n : ℕ} (hn : ∀ s t w, g.Edge s t w → t < n) (fuel : ℕ)
    (h : Repaired p ii jj d₀ g.Edge st) (hheap : ∀ u ∈ st.heap, u < n)
    (hfuel : (toLower n p st).card ≤ fuel) :
    Repaired p ii jj d₀ g.Edge (repairLoop g p fuel st) ∧ (repairLoop g p fuel st).heap = [] := by
  induction fuel generalizing st with
  | zero =>
    refine ⟨h, List.eq_nil_iff_forall_not_mem.mpr fun u hu => ?_⟩
    obtain ⟨-, -, hnl⟩ := h.waiting u hu
    have hmem : u ∈ toLower n p st := by simp [toLower, hheap u hu, hnl]
    rw [Finset.card_eq_zero.mp (Nat.le_zero.mp hfuel)] at hmem
    exact absurd hmem (Finset.notMem_empty u)
  | succ fuel ih =>
    unfold repairLoop
    split
    · next hnone =>
      refine ⟨h, ?_⟩
      cases hheap : st.heap with
      | nil => rfl
      | cons a rest => rw [hheap] at hnone; cases hnone
    · next es heap hpop =>
      obtain ⟨h₁, hes, hjj, htop, hlow⟩ := h.pop hpop rfl
      obtain ⟨h₂, hlow₂⟩ := h₁.edges hvalid hlen hes hjj htop
      obtain ⟨hmem, hrest⟩ := Heap.mem_of_removeMin hpop
      refine ih h₂ (fun u hu => ?_) ?_
      · rcases mem_heap_repairEdges hu with hu | ⟨w, hw⟩
        · exact hheap u (hrest u hu)
        · exact hn es u w hw
      obtain ⟨-, -, hnl⟩ := h.waiting es hmem
      have hsub : toLower n p ((g.eSuccs es).foldl (repairEdge p es) { st with
          heap := heap
          distsAlt := st.distsAlt.set es (p.getD es 0 + (st.dists.find? es).getD 0) }) ⊂
          toLower n p st := by
        refine Finset.ssubset_iff_subset_ne.mpr ⟨fun u hu => ?_, fun heq => ?_⟩
        · simp only [toLower, Finset.mem_filter, hlow₂, hlow, not_or] at hu ⊢
          exact ⟨hu.1, hu.2.1⟩
        · have hmem : es ∈ toLower n p st := by simp [toLower, hheap es hmem, hnl]
          rw [← heq] at hmem
          exact (Finset.mem_filter.mp hmem).2 ((hlow₂ es).mpr hes)
      have hcard := Finset.card_lt_card hsub
      omega

omit hlen in
include hvalid in
/-- When the repair succeeds, all edges respect the new potential. -/
theorem sat_of_repairPotential {p' : List ℤ} (hends : ∀ s t w, g.Edge s t w → t < g.size)
    (hsize : g.size ≤ p.length) (hjj : jj < g.size) (hedge : ∀ w, g.Edge ii jj w → w = g.edgeVal ii jj)
    (h : repairPotential g p ii jj = some p') :
    p'.length = p.length ∧ g.Edge.Sat fun u => p'.getD u 0 := by
  have hlen : ∀ s t w, g.Edge s t w → t < p.length := fun s t w he => (hends s t w he).trans_le hsize
  unfold repairPotential at h
  simp only at h
  split_ifs at h with h0 hneg
  · obtain rfl := Option.some.inj h
    refine ⟨rfl, fun s t w he => ?_⟩
    by_cases hst : s = ii ∧ t = jj
    · obtain ⟨rfl, rfl⟩ := hst
      rw [hedge w he]
      show p.getD t 0 ≤ p.getD s 0 + _
      omega
    · exact hvalid s t w he hst
  · obtain rfl := Option.some.inj h
    set d := p.getD ii 0 + g.edgeVal ii jj - p.getD jj 0 with hd
    set st₀ : RepairState := ⟨(∅ : OrdMap ℕ ℤ).insert jj d, p, [jj]⟩ with hst₀
    have hkey : ∀ u, st₀.key u = if u = jj then d else 0 := by
      intro u
      show (((∅ : OrdMap ℕ ℤ).insert jj d).find? u).getD 0 = _
      rw [OrdMap.find?_insert]
      split_ifs <;> rfl
    have hlow : ∀ u, ¬ st₀.Lowered p u := fun u hu => hu rfl
    have hinit : Repaired p ii jj d g.Edge st₀ := by
      refine ⟨rfl, List.nodup_singleton jj, fun i hi => ?_, fun u hu => ?_, fun u _ hu => ?_,
        fun u hu => absurd hu (hlow u), fun u hu => absurd hu (hlow u),
        fun u _ _ _ hu => absurd hu (hlow u), ?_, fun _ => rfl⟩
      · obtain rfl : i = 0 := by simpa [hst₀] using hi
        exact le_rfl
      · rw [hkey, if_pos (List.mem_singleton.mp hu)]
        exact ⟨List.mem_singleton.mp hu ▸ hjj.trans_le hsize, not_le.mp h0, hlow u⟩
      · rw [hkey, if_neg fun hc => hu (List.mem_singleton.mpr hc)]
      · rw [hkey, if_pos rfl]
    have hcard : (toLower g.size p st₀).card ≤ g.size := by
      refine le_trans (Finset.card_filter_le _ _) ?_
      rw [Finset.card_range]
    obtain ⟨hfin, hempty⟩ := hinit.loop hvalid hlen hends g.size
      (fun u hu => List.mem_singleton.mp hu ▸ hjj) hcard
    set st := repairLoop g p g.size st₀ with hst
    have hii : ¬ st.Lowered p ii := fun hc => hneg (hfin.lowered ii hc).2
    have hjl : st.Lowered p jj := by
      by_contra hc
      have := hfin.first hc
      rw [hempty] at this
      cases this
    have hup : ∀ u, st.alt u = p.getD u 0 + st.key u := by
      intro u
      by_cases hu : st.Lowered p u
      · exact (hfin.lowered u hu).1
      · rw [hfin.idle u hu (by rw [hempty]; exact List.not_mem_nil), add_zero]
        exact not_not.mp hu
    refine ⟨hfin.length, fun s t w he => ?_⟩
    show st.alt t ≤ st.alt s + w
    rw [hup t]
    by_cases hs : st.Lowered p s
    · refine hfin.followed s t w he hs ?_
      rintro ⟨rfl, -⟩
      exact hii hs
    · have hs' : st.alt s = p.getD s 0 := not_not.mp hs
      rw [hs']
      by_cases hst : s = ii ∧ t = jj
      · obtain ⟨rfl, rfl⟩ := hst
        have hstart := hfin.start
        rw [hedge w he]
        omega
      · have hle := hfin.key_le t
        have hslack := hvalid s t w he hst
        omega

end

end GraphOps

end Prevail
