import Mathlib.Order.Bounds.Basic
import Mathlib.Data.Set.Finite.Lattice
import Mathlib.Order.Interval.Finset.Nat
import Prevail.Crab.GraphOps
import Prevail.Lib.Tarjan

/-!
# The choice of a potential

`select_potentials` runs Bellman-Ford on one strongly connected component after the other,
starting from given potentials, in the order in which Tarjan's algorithm finds the components. A
component gets as many rounds as it has vertices. A vertex of an earlier component whose
potential is lowered on the way takes part in these rounds as well.

When the procedure returns a potential the graph is feasible (`feasible_of_selectPotentials`).
When the graph is feasible the procedure still gives up if the rounds of a component do not
suffice for the earlier components; `selectPotentials_settles` is the case in which no lowering
crosses from one component into another.
-/

namespace Prevail

namespace GraphOps

/-- Strongly connected components, in reverse topological order. -/
def computeSccs (g : GraphView) : List (List ℕ) :=
  Tarjan.computeSccs (fun v => (g.eSuccs v).map Prod.fst) g.verts

/-- The potentials, the marks and the next queue. A vertex has a mark when `BF_SCC` is set; the
mark is `true` when `BF_QUEUED` is set too. -/
structure BfState where
  potentials : List ℤ
  vertMarks : OrdMap ℕ Bool
  next : List ℕ

namespace BfState

def pot (st : BfState) (v : ℕ) : ℤ := st.potentials.getD v 0

end BfState

/-- Relax the edge to `e.1` of weight `e.2` from a vertex of potential `sPot`. -/
def bfEdge (sPot : ℤ) (st : BfState) (e : ℕ × ℤ) : BfState :=
  if sPot + e.2 < st.pot e.1 then
    if st.vertMarks.find? e.1 = some false then
      { potentials := st.potentials.set e.1 (sPot + e.2)
        vertMarks := st.vertMarks.insert e.1 true
        next := e.1 :: st.next }
    else { st with potentials := st.potentials.set e.1 (sPot + e.2) }
  else st

/-- Take the vertex `s` off the queue. -/
def bfVertex (g : GraphView) (st : BfState) (s : ℕ) : BfState :=
  (g.eSuccs s).foldl (bfEdge (st.pot s)) { st with vertMarks := st.vertMarks.insert s false }

/-- Work off a queue, last element first; lists hold the last element in front. -/
def bfRound (g : GraphView) (st : BfState) (queue : List ℕ) : BfState :=
  queue.foldl (bfVertex g) { st with next := [] }

/-- At most `n` rounds, with the queue that is left. -/
def bfRounds (g : GraphView) : ℕ → BfState → List ℕ → BfState × List ℕ
  | 0, st, queue => (st, queue)
  | n + 1, st, queue =>
    let st := bfRound g st queue
    if st.next.isEmpty then (st, []) else bfRounds g n st st.next

/-- Some edge out of `s` is violated. -/
def violated (g : GraphView) (st : BfState) (s : ℕ) : Bool :=
  (g.eSuccs s).any fun e => st.pot s + e.2 < st.pot e.1

/-- Bellman-Ford on one component; `none` when it is infeasible. -/
def bfComponent (g : GraphView) (st : BfState) (scc : List ℕ) : Option BfState :=
  let st := { st with
    vertMarks := scc.foldl (fun m v => m.insert v true) st.vertMarks
    next := [] }
  let (st, queue) := bfRounds g scc.length st scc.reverse
  if queue.any (violated g st) then none else some st

/-- A potential for the graph, from the potentials that are there. -/
def selectPotentials (g : GraphView) (potentials : List ℤ) : Option (List ℤ) :=
  ((computeSccs g).foldlM (bfComponent g) ⟨potentials, ∅, []⟩).map BfState.potentials

/-! ## One edge -/

section

variable {g : GraphView} {st : BfState} {C q : List ℕ} {s v : ℕ} {c : ℤ} {e : ℕ × ℤ}

theorem potentials_bfEdge : (bfEdge c st e).potentials =
    if c + e.2 < st.pot e.1 then st.potentials.set e.1 (c + e.2) else st.potentials := by
  unfold bfEdge
  split_ifs <;> rfl

theorem pot_bfEdge (hv : e.1 < st.potentials.length) (v : ℕ) :
    (bfEdge c st e).pot v = if v = e.1 then min (st.pot v) (c + e.2) else st.pot v := by
  rw [BfState.pot, potentials_bfEdge]
  split_ifs with hlt hve hve
  · rw [getD_set hv, if_pos hve, min_eq_right (hve ▸ hlt.le)]
  · rw [getD_set hv, if_neg hve]
    rfl
  · rw [min_eq_left (hve ▸ not_lt.mp hlt)]
    rfl
  · rfl

theorem length_bfEdge : (bfEdge c st e).potentials.length = st.potentials.length := by
  rw [potentials_bfEdge]
  split_ifs <;> simp

/-- What a queue `q` and the state say about the vertices of a component: those with a violated
edge wait in one of the queues, and the marks tell which vertices wait. -/
structure Queued (C q : List ℕ) (st : BfState) : Prop where
  marked : ∀ x ∈ q ++ st.next, st.vertMarks.find? x = some true
  nodup : (q ++ st.next).Nodup
  inScc : ∀ s ∈ C, st.vertMarks.find? s = some false ∨ s ∈ q ++ st.next

/-- A vertex of the component whose potential falls waits in a queue afterwards. -/
theorem Queued.bfEdge (h : Queued C q st) (c : ℤ) (e : ℕ × ℤ) :
    Queued C q (bfEdge c st e) ∧
      (∀ x ∈ q ++ st.next, x ∈ q ++ (bfEdge c st e).next) ∧
      (e.1 ∈ C → c + e.2 < st.pot e.1 → e.1 ∈ q ++ (GraphOps.bfEdge c st e).next) := by
  unfold GraphOps.bfEdge
  split_ifs with hlt hm
  · have hfresh : e.1 ∉ q ++ st.next := fun hx => by cases hm.symm.trans (h.marked e.1 hx)
    have hsub : ∀ x, x ∈ q ++ e.1 :: st.next ↔ x = e.1 ∨ x ∈ q ++ st.next := by
      intro x
      simp only [List.mem_append, List.mem_cons]
      tauto
    refine ⟨⟨fun x hx => ?_, ?_, fun s hs => ?_⟩, fun x hx => (hsub x).mpr (Or.inr hx),
      fun _ _ => (hsub _).mpr (Or.inl rfl)⟩
    · rw [OrdMap.find?_insert]
      split_ifs with hxe
      · rfl
      · exact h.marked x (((hsub x).mp hx).resolve_left hxe)
    · exact List.nodup_middle.mpr (List.nodup_cons.mpr ⟨hfresh, h.nodup⟩)
    · rw [OrdMap.find?_insert]
      by_cases hse : s = e.1
      · exact Or.inr ((hsub s).mpr (Or.inl hse))
      · rw [if_neg hse]
        exact (h.inScc s hs).imp id fun hx => (hsub s).mpr (Or.inr hx)
  · refine ⟨⟨h.marked, h.nodup, h.inScc⟩, fun x => id, fun he _ => ?_⟩
    exact (h.inScc e.1 he).resolve_left hm
  · exact ⟨h, fun x => id, fun _ hlt' => absurd hlt' hlt⟩

/-! ## One vertex -/

/-- From `st₀` to `st` potentials only fall, and a vertex of the component whose potential fell
waits in a queue. -/
structure Falls (C q : List ℕ) (st₀ st : BfState) : Prop where
  len : st.potentials.length = st₀.potentials.length
  le : ∀ v, st.pot v ≤ st₀.pot v
  waits : ∀ t ∈ C, st.pot t < st₀.pot t → t ∈ q ++ st.next
  keeps : ∀ x ∈ q ++ st₀.next, x ∈ q ++ st.next

theorem Falls.refl (C q : List ℕ) (st : BfState) : Falls C q st st :=
  ⟨rfl, fun _ => le_rfl, fun _ _ h => absurd h (lt_irrefl _), fun _ => id⟩

/-- Relaxing the edges in `l` out of a vertex of potential `c`. -/
theorem bfEdges_spec {l : List (ℕ × ℤ)} {st₀ : BfState} (hq : Queued C q st)
    (hf : Falls C q st₀ st) (hl : ∀ e ∈ l, e.1 < st₀.potentials.length) :
    Queued C q (l.foldl (bfEdge c) st) ∧ Falls C q st₀ (l.foldl (bfEdge c) st) ∧
      ∀ e ∈ l, (l.foldl (bfEdge c) st).pot e.1 ≤ c + e.2 := by
  induction l generalizing st st₀ with
  | nil => exact ⟨hq, hf, by simp⟩
  | cons e l ih =>
    have he : e.1 < st.potentials.length := hf.len ▸ hl e List.mem_cons_self
    have hpot := pot_bfEdge (c := c) he
    obtain ⟨hq', hkeep, hwait⟩ := hq.bfEdge c e
    have hf' : Falls C q st₀ (bfEdge c st e) := by
      refine ⟨length_bfEdge.trans hf.len, fun v => ?_, fun t ht hlt => ?_,
        fun x hx => hkeep x (hf.keeps x hx)⟩
      · rw [hpot]
        split_ifs
        · exact (min_le_left _ _).trans (hf.le v)
        · exact hf.le v
      · by_cases hlt₀ : st.pot t < st₀.pot t
        · exact hkeep t (hf.waits t ht hlt₀)
        · rw [hpot] at hlt
          split_ifs at hlt with hte
          · subst hte
            refine hwait ht ?_
            rcases min_lt_iff.mp hlt with h | h
            · exact absurd h hlt₀
            · exact lt_of_lt_of_le h (not_lt.mp hlt₀)
          · exact absurd hlt hlt₀
    obtain ⟨h1, h2, h3⟩ := ih hq' hf' fun e' he' => hl e' (List.mem_cons_of_mem _ he')
    refine ⟨h1, h2, fun e' he' => ?_⟩
    rcases List.mem_cons.mp he' with rfl | he'
    · have hstep : (l.foldl (bfEdge c) (bfEdge c st e')).pot e'.1 ≤
          (bfEdge c st e').pot e'.1 :=
        (ih hq' (.refl C q _) fun e'' he'' => by
          rw [length_bfEdge, hf.len]
          exact hl e'' (List.mem_cons_of_mem _ he'')).2.1.le _
      refine hstep.trans ?_
      rw [hpot, if_pos rfl]
      exact min_le_right _ _
    · exact h3 e' he'

/-- The vertices of the component with a violated edge wait in a queue. -/
def Waits (g : GraphView) (C q : List ℕ) (st : BfState) : Prop :=
  ∀ s ∈ C, (∃ e ∈ g.eSuccs s, st.pot s + e.2 < st.pot e.1) → s ∈ q ++ st.next

/-- Taking a vertex off the queue relaxes its edges. -/
theorem bfVertex_spec (hq : Queued C (s :: q) st) (hw : Waits g C (s :: q) st)
    (hl : ∀ e ∈ g.eSuccs s, e.1 < st.potentials.length) :
    Queued C q (bfVertex g st s) ∧ Waits g C q (bfVertex g st s) ∧
      (bfVertex g st s).potentials.length = st.potentials.length ∧
      (∀ v, (bfVertex g st s).pot v ≤ st.pot v) ∧
      ∀ e ∈ g.eSuccs s, (bfVertex g st s).pot e.1 ≤ st.pot s + e.2 := by
  have hns : s ∉ q ++ st.next := (List.nodup_cons.mp hq.nodup).1
  have hq₀ : Queued C q { st with vertMarks := st.vertMarks.insert s false } := by
    refine ⟨fun x hx => ?_, (List.nodup_cons.mp hq.nodup).2, fun t ht => ?_⟩
    · have hxs : x ≠ s := fun h => hns (h ▸ hx)
      change (st.vertMarks.insert s false).find? x = _
      rw [OrdMap.find?_insert, if_neg hxs]
      exact hq.marked x (List.mem_cons_of_mem _ hx)
    · change (st.vertMarks.insert s false).find? t = _ ∨ t ∈ q ++ st.next
      rw [OrdMap.find?_insert]
      by_cases hts : t = s
      · simp [hts]
      · rw [if_neg hts]
        exact (hq.inScc t ht).imp id fun hx => (List.mem_cons.mp hx).resolve_left hts
  obtain ⟨h1, h2, h3⟩ := bfEdges_spec (c := st.pot s) hq₀ (.refl C q _) hl
  refine ⟨h1, fun t ht hviol => ?_, h2.len, h2.le, h3⟩
  -- a violated edge is old or its source fell
  by_cases hfall : (bfVertex g st s).pot t < st.pot t
  · exact h2.waits t ht hfall
  have heq : (bfVertex g st s).pot t = st.pot t := le_antisymm (h2.le t) (not_lt.mp hfall)
  obtain ⟨e, he, hlt⟩ := hviol
  rw [heq] at hlt
  have hts : t ≠ s := by
    rintro rfl
    exact absurd (h3 e he) (not_le.mpr hlt)
  have hold := hw t ht ⟨e, he, lt_of_lt_of_le hlt (h2.le e.1)⟩
  exact h2.keeps t ((List.mem_cons.mp hold).resolve_left hts)

/-! ## Rounds -/

/-- A round relaxes the edges of all vertices in the queue. -/
theorem bfQueue_spec (hq : Queued C q st) (hw : Waits g C q st)
    (hl : ∀ s e, e ∈ g.eSuccs s → e.1 < st.potentials.length) :
    Queued C [] (q.foldl (bfVertex g) st) ∧ Waits g C [] (q.foldl (bfVertex g) st) ∧
      (q.foldl (bfVertex g) st).potentials.length = st.potentials.length ∧
      (∀ v, (q.foldl (bfVertex g) st).pot v ≤ st.pot v) ∧
      ∀ s ∈ q, ∀ e ∈ g.eSuccs s, (q.foldl (bfVertex g) st).pot e.1 ≤ st.pot s + e.2 := by
  induction q generalizing st with
  | nil => exact ⟨hq, hw, rfl, fun _ => le_rfl, by simp⟩
  | cons s q ih =>
    obtain ⟨h1, h2, h3, h4, h5⟩ := bfVertex_spec hq hw (hl s)
    obtain ⟨i1, i2, i3, i4, i5⟩ := ih h1 h2 (h3 ▸ hl)
    refine ⟨i1, i2, i3.trans h3, fun v => (i4 v).trans (h4 v), fun t ht e he => ?_⟩
    rcases List.mem_cons.mp ht with rfl | ht
    · exact (i4 e.1).trans (h5 e he)
    · exact (i5 t ht e he).trans (add_le_add_left (h4 t) _)

/-- The state before a round with the queue `q`. -/
structure Ready (g : GraphView) (C q : List ℕ) (st : BfState) : Prop where
  queued : Queued C q { st with next := [] }
  waits : Waits g C q { st with next := [] }
  ends : ∀ s e, e ∈ g.eSuccs s → e.1 < st.potentials.length

theorem Ready.bfRound (h : Ready g C q st) :
    Ready g C (bfRound g st q).next (bfRound g st q) ∧ (∀ v, (bfRound g st q).pot v ≤ st.pot v) ∧
      ∀ s ∈ q, ∀ e ∈ g.eSuccs s, (bfRound g st q).pot e.1 ≤ st.pot s + e.2 := by
  obtain ⟨h1, h2, h3, h4, h5⟩ := bfQueue_spec h.queued h.waits h.ends
  change Queued C [] (GraphOps.bfRound g st q) at h1
  change Waits g C [] (GraphOps.bfRound g st q) at h2
  refine ⟨⟨⟨fun x hx => ?_, ?_, fun t ht => ?_⟩, fun t ht hv => ?_, ?_⟩, h4, h5⟩
  · exact h1.marked x (by simpa using hx)
  · simpa using h1.nodup
  · simpa using h1.inScc t ht
  · simpa using h2 t ht hv
  · rw [GraphOps.bfRound, h3]
    exact h.ends

theorem Ready.bfRounds (n : ℕ) (h : Ready g C q st) :
    Ready g C (bfRounds g n st q).2 (bfRounds g n st q).1 := by
  induction n generalizing st q with
  | zero => exact h
  | succ n ih =>
    unfold GraphOps.bfRounds
    simp only
    split_ifs with hnil
    · have := h.bfRound.1
      rwa [List.isEmpty_iff.mp hnil] at this
    · exact ih h.bfRound.1

/-- A vertex with a violated edge is in the queue that is left. -/
theorem Ready.relaxed (h : Ready g C q st) (hq : q.any (violated g st) = false) :
    ∀ s ∈ C, ∀ e ∈ g.eSuccs s, st.pot e.1 ≤ st.pot s + e.2 := by
  intro s hs e he
  by_contra hlt
  rw [not_le] at hlt
  have hmem : s ∈ q := by simpa using h.waits s hs ⟨e, he, hlt⟩
  rw [List.any_eq_false] at hq
  refine hq s hmem ?_
  unfold violated
  rw [List.any_eq_true]
  exact ⟨e, he, decide_eq_true hlt⟩

/-! ## One component -/

theorem find?_markScc (C : List ℕ) (m : OrdMap ℕ Bool) (v : ℕ) :
    (C.foldl (fun m v => m.insert v true) m).find? v =
      if v ∈ C then some true else m.find? v :=
  Tarjan.find?_markAll C (fun _ => true) m v

/-- The state before the first round of a component. -/
def bfStart (st : BfState) (C : List ℕ) : BfState :=
  { st with
    vertMarks := C.foldl (fun m v => m.insert v true) st.vertMarks
    next := [] }

theorem ready_bfStart (hC : C.Nodup) (hl : ∀ s e, e ∈ g.eSuccs s → e.1 < st.potentials.length) :
    Ready g C C.reverse (bfStart st C) := by
  refine ⟨⟨fun x hx => ?_, by simpa using hC, fun s hs => Or.inr (by simpa using hs)⟩,
    fun s hs _ => by simpa using hs, hl⟩
  exact (find?_markScc C st.vertMarks x).trans (if_pos (by simpa using hx))

theorem relaxed_of_bfComponent {st' : BfState} (h : bfComponent g st C = some st')
    (hC : C.Nodup) (hl : ∀ s e, e ∈ g.eSuccs s → e.1 < st.potentials.length) :
    (∀ s ∈ C, ∀ e ∈ g.eSuccs s, st'.pot e.1 ≤ st'.pot s + e.2) ∧
      ∀ s e, e ∈ g.eSuccs s → e.1 < st'.potentials.length := by
  have hr := (ready_bfStart hC hl).bfRounds C.length
  unfold bfComponent at h
  simp only at h
  split_ifs at h with hq
  obtain rfl := Option.some.inj h
  exact ⟨hr.relaxed (Bool.eq_false_iff.mpr hq), hr.ends⟩

end

/-! ## The graph is feasible when a potential is returned -/

/-- Potentials of the single components, shifted so that edges to earlier components hold too. -/
theorem feasible_of_components {g : GraphView} {L : List (List ℕ)}
    (hL : Tarjan.Emitted (fun v => (g.eSuccs v).map Prod.fst) L)
    (h : ∀ C ∈ L, ∃ φ : ℕ → ℤ, ∀ s ∈ C, ∀ e ∈ g.eSuccs s, φ e.1 ≤ φ s + e.2) :
    ∃ φ : ℕ → ℤ, ∀ C ∈ L, ∀ s ∈ C, ∀ e ∈ g.eSuccs s, φ e.1 ≤ φ s + e.2 := by
  induction hL with
  | nil => exact ⟨fun _ => 0, by simp⟩
  | @snoc L C hL _ fresh _ _ ih =>
    obtain ⟨φ, hφ⟩ := ih fun D hD => h D (List.mem_append_left _ hD)
    obtain ⟨ψ, hψ⟩ := h C (List.mem_append_right _ List.mem_cons_self)
    -- the new component is raised above all earlier ones it has edges to
    obtain ⟨K, hK⟩ : ∃ K : ℤ, ∀ s ∈ C, ∀ e ∈ g.eSuccs s, φ e.1 - ψ s - e.2 ≤ K := by
      have hfin : {x : ℤ | ∃ s ∈ C, ∃ e ∈ g.eSuccs s, x = φ e.1 - ψ s - e.2}.Finite := by
        have hsub : {x : ℤ | ∃ s ∈ C, ∃ e ∈ g.eSuccs s, x = φ e.1 - ψ s - e.2} =
            ↑(C.flatMap fun s => (g.eSuccs s).map fun e => φ e.1 - ψ s - e.2).toFinset := by
          ext x
          simp [List.mem_flatMap, eq_comm]
        rw [hsub]
        exact Finset.finite_toSet _
      obtain ⟨K, hK⟩ := hfin.bddAbove
      exact ⟨K, fun s hs e he => hK ⟨s, hs, e, he, rfl⟩⟩
    refine ⟨fun v => if v ∈ C then ψ v + K else φ v, fun D hD s hs e he => ?_⟩
    have hsucc : e.1 ∈ (g.eSuccs s).map Prod.fst := List.mem_map_of_mem he
    rcases List.mem_append.mp hD with hD | hD
    · have hsC : s ∉ C := fun hc => fresh s hc D hD hs
      obtain ⟨D', hD', heD'⟩ := hL.closed ⟨D, hD, hs⟩ hsucc
      have heC : e.1 ∉ C := fun hc => fresh e.1 hc D' hD' heD'
      simp only [hsC, heC, if_false]
      exact hφ D hD s hs e he
    · obtain rfl := List.mem_singleton.mp hD
      simp only [hs, if_true]
      split_ifs with heC
      · have := hψ s hs e he
        omega
      · have := hK s hs e he
        omega

section

variable {g : GraphView} {p : List ℤ}

/-- All edges run between the vertices, which have potentials. -/
structure Closed (g : GraphView) (n : ℕ) : Prop where
  source : ∀ s e, e ∈ g.eSuccs s → s ∈ g.verts
  target : ∀ s e, e ∈ g.eSuccs s → e.1 ∈ g.verts
  lt : ∀ v ∈ g.verts, v < n

theorem Closed.emitted {n : ℕ} (hg : Closed g n) :
    Tarjan.Emitted (fun v => (g.eSuccs v).map Prod.fst) (computeSccs g) ∧
      ∀ v, v ∈ g.verts ↔ ∃ C ∈ computeSccs g, v ∈ C := by
  refine Tarjan.computeSccs_emitted fun u _ d hd => ?_
  obtain ⟨e, he, rfl⟩ := List.mem_map.mp hd
  exact hg.target u e he

theorem nodup_of_emitted {succs : ℕ → List ℕ} {L : List (List ℕ)} (h : Tarjan.Emitted succs L)
    {C : List ℕ} (hC : C ∈ L) : C.Nodup := by
  induction h with
  | nil => simp at hC
  | snoc _ nodup _ _ _ ih =>
    rcases List.mem_append.mp hC with hC | hC
    · exact ih hC
    · exact List.mem_singleton.mp hC ▸ nodup

theorem feasible_of_selectPotentials (hg : Closed g p.length)
    (h : (selectPotentials g p).isSome) : ∃ φ, g.Edge.Sat φ := by
  obtain ⟨hem, hcover⟩ := hg.emitted
  have hcomp : ∀ (L : List (List ℕ)) (st st' : BfState), (∀ C ∈ L, C.Nodup) →
      (∀ s e, e ∈ g.eSuccs s → e.1 < st.potentials.length) →
      L.foldlM (bfComponent g) st = some st' →
      ∀ C ∈ L, ∃ φ : ℕ → ℤ, ∀ s ∈ C, ∀ e ∈ g.eSuccs s, φ e.1 ≤ φ s + e.2 := by
    intro L
    induction L with
    | nil => simp
    | cons C L ih =>
      intro st st' hn hl hrun D hD
      rw [List.foldlM_cons, Option.bind_eq_bind, Option.bind_eq_some_iff] at hrun
      obtain ⟨st₁, h₁, hrun⟩ := hrun
      obtain ⟨hrel, hl₁⟩ := relaxed_of_bfComponent h₁ (hn C List.mem_cons_self) hl
      rcases List.mem_cons.mp hD with rfl | hD
      · exact ⟨st₁.pot, hrel⟩
      · exact ih st₁ st' (fun E hE => hn E (List.mem_cons_of_mem _ hE)) hl₁ hrun D hD
  obtain ⟨p', hp'⟩ := Option.isSome_iff_exists.mp h
  obtain ⟨st', hrun, -⟩ := Option.map_eq_some_iff.mp hp'
  obtain ⟨φ, hφ⟩ := feasible_of_components hem
    (hcomp _ _ st' (fun C hC => nodup_of_emitted hem hC)
      (fun s e he => hg.lt _ (hg.target s e he)) hrun)
  refine ⟨φ, fun s d w he => ?_⟩
  obtain ⟨C, hC, hs⟩ := (hcover s).mp (hg.source s (d, w) he)
  exact hφ C hC s hs (d, w) he

end

/-! ## No lowering crosses between components -/

section

variable {g : GraphView} {C q : List ℕ} {ρ π : ℕ → ℤ} {st st₀ : BfState}

/-- The potentials `ρ` are what Bellman-Ford makes of the component `C`, starting from `π`: any
set of vertices that `ρ` puts below `π` has a tight edge into it from the rest of `C`. -/
def TightIn (g : GraphView) (π ρ : ℕ → ℤ) (C : List ℕ) : Prop :=
  ∀ T ⊆ C, T ≠ [] → (∀ v ∈ T, ρ v < π v) →
    ∃ s ∈ C, s ∉ T ∧ ∃ e ∈ g.eSuccs s, e.1 ∈ T ∧ ρ e.1 = ρ s + e.2

/-- Edges that leave the component are satisfied by `ρ`, which holds outside it already. -/
def OutSettled (g : GraphView) (C : List ℕ) (ρ : ℕ → ℤ) (st₀ : BfState) : Prop :=
  ∀ s ∈ C, ∀ e ∈ g.eSuccs s, e.1 ∉ C → st₀.pot e.1 = ρ e.1

/-- What the rounds of a component do not change. -/
structure Settling (C : List ℕ) (ρ : ℕ → ℤ) (st₀ st : BfState) : Prop where
  ge : ∀ v ∈ C, ρ v ≤ st.pot v
  out : ∀ v, v ∉ C → st.pot v = st₀.pot v
  next : ∀ x ∈ st.next, x ∈ C

theorem Settling.bfEdge {s : ℕ} {c : ℤ} {e : ℕ × ℤ} (h : Settling C ρ st₀ st)
    (hρ : g.Edge.Sat ρ) (hout : OutSettled g C ρ st₀) (hs : s ∈ C) (hc : ρ s ≤ c)
    (he : e ∈ g.eSuccs s) (hlen : e.1 < st.potentials.length) :
    Settling C ρ st₀ (bfEdge c st e) := by
  have hedge : ρ e.1 ≤ ρ s + e.2 := hρ s e.1 e.2 he
  by_cases heC : e.1 ∈ C
  · refine ⟨fun v hv => ?_, fun v hv => ?_, fun x hx => ?_⟩
    · rw [pot_bfEdge hlen]
      split_ifs with hve
      · exact le_min (h.ge v hv) (hve ▸ by omega)
      · exact h.ge v hv
    · have hve : v ≠ e.1 := fun hve => hv (hve ▸ heC)
      rw [pot_bfEdge hlen, if_neg hve]
      exact h.out v hv
    · unfold GraphOps.bfEdge at hx
      split_ifs at hx
      · exact (List.mem_cons.mp hx).elim (fun hxe => hxe ▸ heC) (h.next x)
      · exact h.next x hx
      · exact h.next x hx
  · have hpot : st.pot e.1 = ρ e.1 := (h.out e.1 heC).trans (hout s hs e he heC)
    have hno : ¬ c + e.2 < st.pot e.1 := by omega
    unfold GraphOps.bfEdge
    rwa [if_neg hno]

theorem Settling.bfVertex {s : ℕ} (h : Settling C ρ st₀ st) (hρ : g.Edge.Sat ρ)
    (hout : OutSettled g C ρ st₀) (hs : s ∈ C)
    (hl : ∀ e ∈ g.eSuccs s, e.1 < st.potentials.length) :
    Settling C ρ st₀ (bfVertex g st s) := by
  have hloop : ∀ l : List (ℕ × ℤ), (∀ e ∈ l, e ∈ g.eSuccs s) → ∀ st₁ : BfState,
      st₁.potentials.length = st.potentials.length → Settling C ρ st₀ st₁ →
      Settling C ρ st₀ (l.foldl (GraphOps.bfEdge (st.pot s)) st₁) := by
    intro l
    induction l with
    | nil => exact fun _ st₁ _ h₁ => h₁
    | cons e l ih =>
      intro hsub st₁ hlen h₁
      have he := hsub e List.mem_cons_self
      refine ih (fun e' he' => hsub e' (List.mem_cons_of_mem _ he')) _
        (length_bfEdge.trans hlen) (h₁.bfEdge hρ hout hs (h.ge s hs) he ?_)
      rw [hlen]
      exact hl e he
  exact hloop _ (fun _ => id) _ rfl ⟨h.ge, h.out, h.next⟩

theorem Settling.bfRound (h : Settling C ρ st₀ st) (hρ : g.Edge.Sat ρ)
    (hout : OutSettled g C ρ st₀) (hr : Ready g C q st) (hq : ∀ x ∈ q, x ∈ C) :
    Settling C ρ st₀ (bfRound g st q) := by
  have hloop : ∀ (q : List ℕ) (st : BfState), (∀ x ∈ q, x ∈ C) → Queued C q st →
      Waits g C q st → (∀ s e, e ∈ g.eSuccs s → e.1 < st.potentials.length) →
      Settling C ρ st₀ st → Settling C ρ st₀ (q.foldl (GraphOps.bfVertex g) st) := by
    intro q
    induction q with
    | nil => exact fun _ _ _ _ _ h => h
    | cons s q ih =>
      intro st hq h1 h2 hl h
      obtain ⟨i1, i2, i3, -⟩ := bfVertex_spec h1 h2 (hl s)
      exact ih _ (fun x hx => hq x (List.mem_cons_of_mem _ hx)) i1 i2 (i3 ▸ hl)
        (h.bfVertex hρ hout (hq s List.mem_cons_self) (hl s))
  exact hloop q _ hq hr.queued hr.waits hr.ends ⟨h.ge, h.out, by simp⟩

/-- The vertices of the component that are not at `ρ` yet. -/
def unsettled (C : List ℕ) (ρ : ℕ → ℤ) (st : BfState) : List ℕ := C.filter fun v => st.pot v ≠ ρ v

theorem mem_unsettled {v : ℕ} : v ∈ unsettled C ρ st ↔ v ∈ C ∧ st.pot v ≠ ρ v := by
  simp [unsettled]

/-- As long as vertices are not settled, one of them is about to be. -/
theorem Settling.exists_tight (h : Settling C ρ st₀ st) (ht : TightIn g π ρ C)
    (hπ : ∀ v ∈ C, st.pot v ≤ π v) (hne : unsettled C ρ st ≠ []) :
    ∃ s ∈ C, st.pot s = ρ s ∧ ∃ e ∈ g.eSuccs s, e.1 ∈ unsettled C ρ st ∧
      ρ e.1 = st.pot s + e.2 := by
  obtain ⟨s, hs, hsT, e, he, heT, heq⟩ := ht _ (List.filter_subset_self C) hne (fun v hv => by
    obtain ⟨hvC, hvne⟩ := mem_unsettled.mp hv
    exact lt_of_lt_of_le (lt_of_le_of_ne (h.ge v hvC) (Ne.symm hvne)) (hπ v hvC))
  have hsettled : st.pot s = ρ s := by
    by_contra hc
    exact hsT (mem_unsettled.mpr ⟨hs, hc⟩)
  exact ⟨s, hs, hsettled, e, he, heT, by rw [hsettled]; exact heq⟩

/-- A round settles at least one more vertex. -/
theorem length_unsettled_bfRound (h : Settling C ρ st₀ st) (hρ : g.Edge.Sat ρ)
    (hout : OutSettled g C ρ st₀) (ht : TightIn g π ρ C) (hπ : ∀ v ∈ C, st.pot v ≤ π v)
    (hr : Ready g C q st) (hq : ∀ x ∈ q, x ∈ C) (hne : unsettled C ρ st ≠ []) :
    (unsettled C ρ (bfRound g st q)).length < (unsettled C ρ st).length := by
  obtain ⟨-, hle, hrelax⟩ := hr.bfRound
  have h' := h.bfRound hρ hout hr hq
  obtain ⟨s, hs, hsettled, e, he, heT, heq⟩ := h.exists_tight ht hπ hne
  obtain ⟨heC, hene⟩ := mem_unsettled.mp heT
  -- the tight edge is violated, so its source is in the queue
  have hsq : s ∈ q := by
    have hviol : st.pot s + e.2 < st.pot e.1 :=
      heq ▸ lt_of_le_of_ne (h.ge e.1 heC) (Ne.symm hene)
    simpa using hr.waits s hs ⟨e, he, hviol⟩
  have hnew : (bfRound g st q).pot e.1 = ρ e.1 :=
    le_antisymm (heq ▸ hrelax s hsq e he) (h'.ge e.1 heC)
  have hsub : unsettled C ρ (bfRound g st q) =
      (unsettled C ρ st).filter fun v => (bfRound g st q).pot v ≠ ρ v := by
    unfold unsettled
    rw [List.filter_filter]
    refine List.filter_congr fun v hv => ?_
    rw [Bool.eq_iff_iff]
    simp only [Bool.and_eq_true, decide_eq_true_eq]
    refine ⟨fun hn => ⟨hn, fun hs => hn ?_⟩, And.left⟩
    exact le_antisymm (hs ▸ hle v) (h'.ge v hv)
  rw [hsub, List.length_filter_lt_length_iff_exists]
  exact ⟨e.1, heT, by simp [hnew]⟩

/-- Enough rounds settle the component. -/
theorem bfRounds_settles (n : ℕ) (h : Settling C ρ st₀ st) (hρ : g.Edge.Sat ρ)
    (hout : OutSettled g C ρ st₀) (ht : TightIn g π ρ C) (hπ : ∀ v ∈ C, st.pot v ≤ π v)
    (hr : Ready g C q st) (hq : ∀ x ∈ q, x ∈ C) (hn : (unsettled C ρ st).length ≤ n) :
    Settling C ρ st₀ (bfRounds g n st q).1 ∧ unsettled C ρ (bfRounds g n st q).1 = [] ∧
      ∀ x ∈ (bfRounds g n st q).2, x ∈ C := by
  induction n generalizing st q with
  | zero => exact ⟨h, List.eq_nil_of_length_eq_zero (Nat.le_zero.mp hn), hq⟩
  | succ n ih =>
    have h' := h.bfRound hρ hout hr hq
    obtain ⟨hr', hle, -⟩ := hr.bfRound
    have hπ' : ∀ v ∈ C, (bfRound g st q).pot v ≤ π v := fun v hv => (hle v).trans (hπ v hv)
    unfold bfRounds
    simp only
    split_ifs with hnil
    · refine ⟨h', ?_, by simp⟩
      -- with an empty queue no edge is violated, and a tight edge would be
      by_contra hne
      obtain ⟨s, hs, -, e, he, heT, heq⟩ := h'.exists_tight ht hπ' hne
      obtain ⟨heC, hene⟩ := mem_unsettled.mp heT
      have hviol : (bfRound g st q).pot s + e.2 < (bfRound g st q).pot e.1 :=
        heq ▸ lt_of_le_of_ne (h'.ge e.1 heC) (Ne.symm hene)
      have := hr'.waits s hs ⟨e, he, hviol⟩
      rw [List.isEmpty_iff.mp hnil] at this
      simp at this
    · refine ih h' hπ' hr' h'.next ?_
      by_cases hne : unsettled C ρ st = []
      · have : unsettled C ρ (bfRound g st q) = [] := by
          rw [List.eq_nil_iff_forall_not_mem]
          intro v hv
          obtain ⟨hvC, hvne⟩ := mem_unsettled.mp hv
          have hold : st.pot v = ρ v := by
            by_contra hc
            exact List.not_mem_nil (hne ▸ mem_unsettled.mpr ⟨hvC, hc⟩)
          exact hvne (le_antisymm (hold ▸ hle v) (h'.ge v hvC))
        simp [this]
      · have := length_unsettled_bfRound h hρ hout ht hπ hr hq hne
        omega

theorem bfComponent_settles (hC : C.Nodup) (hρ : g.Edge.Sat ρ) (hout : OutSettled g C ρ st)
    (ht : TightIn g π ρ C) (hπ : ∀ v ∈ C, st.pot v = π v) (hle : ∀ v ∈ C, ρ v ≤ π v)
    (hl : ∀ s e, e ∈ g.eSuccs s → e.1 < st.potentials.length) :
    ∃ st', bfComponent g st C = some st' ∧ (∀ v ∈ C, st'.pot v = ρ v) ∧
      (∀ v, v ∉ C → st'.pot v = st.pot v) ∧
      ∀ s e, e ∈ g.eSuccs s → e.1 < st'.potentials.length := by
  have hr := ready_bfStart hC hl
  have hset : Settling C ρ st (bfStart st C) :=
    ⟨fun v hv => (hle v hv).trans (hπ v hv).ge, fun _ _ => rfl, by simp [bfStart]⟩
  obtain ⟨h1, h2, h3⟩ := bfRounds_settles C.length hset hρ hout ht (fun v hv => (hπ v hv).le) hr
    (fun x hx => by simpa using hx) (List.length_filter_le _ _)
  have hall : ∀ v ∈ C, (bfRounds g C.length (bfStart st C) C.reverse).1.pot v = ρ v := by
    intro v hv
    by_contra hc
    exact List.not_mem_nil (h2 ▸ mem_unsettled.mpr ⟨hv, hc⟩)
  refine ⟨_, if_neg ?_, hall, h1.out, (hr.bfRounds C.length).ends⟩
  rw [List.any_eq_true]
  rintro ⟨s, hs, hviol⟩
  have hsC := h3 s hs
  obtain ⟨e, he, hlt⟩ := List.any_eq_true.mp hviol
  rw [decide_eq_true_eq] at hlt
  have hedge : ρ e.1 ≤ ρ s + e.2 := hρ s e.1 e.2 he
  have hs' := hall s hsC
  have he' : (bfRounds g C.length (bfStart st C) C.reverse).1.pot e.1 = ρ e.1 := by
    by_cases heC : e.1 ∈ C
    · exact hall e.1 heC
    · exact (h1.out e.1 heC).trans (hout s hsC e he heC)
  unfold bfStart at hs' he'
  omega

/-- When the potentials that the components settle at satisfy all edges, they are returned. -/
theorem selectPotentials_settles {p : List ℤ} (hg : Closed g p.length) (hρ : g.Edge.Sat ρ)
    (hle : ∀ v ∈ g.verts, ρ v ≤ p.getD v 0)
    (ht : ∀ C ∈ computeSccs g, TightIn g (p.getD · 0) ρ C) :
    ∃ pi, selectPotentials g p = some pi ∧ ∀ v ∈ g.verts, pi.getD v 0 = ρ v := by
  obtain ⟨hem, hcover⟩ := hg.emitted
  have hrun : ∀ L : List (List ℕ), Tarjan.Emitted (fun v => (g.eSuccs v).map Prod.fst) L →
      (∀ C ∈ L, C ∈ computeSccs g) → ∃ st, L.foldlM (bfComponent g) ⟨p, ∅, []⟩ = some st ∧
        (∀ v, (∃ C ∈ L, v ∈ C) → st.pot v = ρ v) ∧
        (∀ v, (¬ ∃ C ∈ L, v ∈ C) → st.pot v = p.getD v 0) ∧
        ∀ s e, e ∈ g.eSuccs s → e.1 < st.potentials.length := by
    intro L hL
    induction hL with
    | nil =>
      refine fun _ => ⟨_, rfl, by simp, fun _ _ => rfl, fun s e he => hg.lt _ (hg.target s e he)⟩
    | @snoc L C hL nodup fresh closed _ ih =>
      intro hsub
      obtain ⟨st, hst, hin, hnot, hl⟩ := ih fun D hD => hsub D (List.mem_append_left _ hD)
      have hCmem : C ∈ computeSccs g := hsub C (List.mem_append_right _ List.mem_cons_self)
      have hπ : ∀ v ∈ C, st.pot v = p.getD v 0 := fun v hv =>
        hnot v fun ⟨D, hD, hvD⟩ => fresh v hv D hD hvD
      have hout : OutSettled g C ρ st := fun s hs e he heC =>
        hin e.1 ((closed s hs e.1 (List.mem_map_of_mem he)).resolve_left heC)
      obtain ⟨st', hst', hC, hrest, hl'⟩ := bfComponent_settles nodup hρ hout (ht C hCmem) hπ
        (fun v hv => hle v ((hcover v).mpr ⟨C, hCmem, hv⟩)) hl
      refine ⟨st', ?_, fun v hv => ?_, fun v hv => ?_, hl'⟩
      · rw [List.foldlM_append, hst]
        simpa using hst'
      · by_cases hvC : v ∈ C
        · exact hC v hvC
        · rw [hrest v hvC]
          obtain ⟨D, hD, hvD⟩ := hv
          rcases List.mem_append.mp hD with hD | hD
          · exact hin v ⟨D, hD, hvD⟩
          · exact absurd (List.mem_singleton.mp hD ▸ hvD) hvC
      · have hvC : v ∉ C := fun hvC => hv ⟨C, List.mem_append_right _ List.mem_cons_self, hvC⟩
        rw [hrest v hvC]
        exact hnot v fun ⟨D, hD, hvD⟩ => hv ⟨D, List.mem_append_left _ hD, hvD⟩
  obtain ⟨st, hst, hval, -⟩ := hrun _ hem fun _ => id
  exact ⟨st.potentials, congrArg (Option.map _) hst, fun v hv => hval v ((hcover v).mp hv)⟩

end

end GraphOps

end Prevail
