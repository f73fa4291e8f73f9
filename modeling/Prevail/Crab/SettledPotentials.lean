import Prevail.Crab.SelectPotentials

/-!
# When the selected potential is one

A component that has used up its rounds may leave vertices in the queue. `select_potentials` goes
on when none of them has a violated edge, but their mark still says that they are queued. A later
component that lowers such a vertex does not queue it again, and its edges are not looked at any
more. `Undisturbed` says that this does not happen, and then the potential that is returned
respects all edges.
-/

namespace Prevail

namespace GraphOps

variable {g : GraphView} {p pi : List ℤ} {C q : List ℕ} {st st' : BfState}

/-! ## Potentials only fall -/

theorem length_bfVertex (st : BfState) (s : ℕ) :
    (bfVertex g st s).potentials.length = st.potentials.length :=
  List.foldlRecOn (motive := fun st' : BfState => st'.potentials.length = st.potentials.length)
    _ _ rfl fun _ h _ _ => length_bfEdge.trans h

theorem length_bfRound (st : BfState) (q : List ℕ) :
    (bfRound g st q).potentials.length = st.potentials.length :=
  List.foldlRecOn (motive := fun st' : BfState => st'.potentials.length = st.potentials.length)
    _ _ rfl fun st' h s _ => (length_bfVertex st' s).trans h

theorem length_bfRounds (n : ℕ) (st : BfState) (q : List ℕ) :
    (bfRounds g n st q).1.potentials.length = st.potentials.length := by
  induction n generalizing st q with
  | zero => rfl
  | succ n ih =>
    unfold bfRounds
    simp only
    split_ifs
    · exact length_bfRound st q
    · rw [ih, length_bfRound]

theorem Ready.bfRounds_le (n : ℕ) (h : Ready g C q st) (v : ℕ) :
    (GraphOps.bfRounds g n st q).1.pot v ≤ st.pot v := by
  induction n generalizing st q with
  | zero => exact le_rfl
  | succ n ih =>
    obtain ⟨hr, hle, -⟩ := h.bfRound
    unfold GraphOps.bfRounds
    simp only
    split_ifs
    · exact hle v
    · exact (ih hr).trans (hle v)

/-- The state and the queue when the rounds of a component are over. -/
def bfResult (g : GraphView) (st : BfState) (C : List ℕ) : BfState × List ℕ :=
  bfRounds g C.length (bfStart st C) C.reverse

theorem bfComponent_eq_some (h : bfComponent g st C = some st') :
    st' = (bfResult g st C).1 ∧
      (bfResult g st C).2.any (violated g (bfResult g st C).1) = false := by
  have heq : bfComponent g st C = if (bfResult g st C).2.any (violated g (bfResult g st C).1)
      then none else some (bfResult g st C).1 := rfl
  rw [heq] at h
  split_ifs at h with hq
  exact ⟨(Option.some.inj h).symm, Bool.eq_false_iff.mpr hq⟩

theorem length_bfComponent (h : bfComponent g st C = some st') :
    st'.potentials.length = st.potentials.length := by
  rw [(bfComponent_eq_some h).1]
  exact length_bfRounds _ _ _

theorem bfComponents_le {L : List (List ℕ)} (hL : ∀ C ∈ L, C.Nodup)
    (hl : ∀ s e, e ∈ g.eSuccs s → e.1 < st.potentials.length)
    (h : L.foldlM (bfComponent g) st = some st') :
    st'.potentials.length = st.potentials.length ∧ ∀ v, st'.pot v ≤ st.pot v := by
  induction L generalizing st with
  | nil =>
    obtain rfl := Option.some.inj h
    exact ⟨rfl, fun v => le_rfl⟩
  | cons C L ih =>
    rw [List.foldlM_cons, Option.bind_eq_bind, Option.bind_eq_some_iff] at h
    obtain ⟨st₁, h₁, h⟩ := h
    have hlen := length_bfComponent h₁
    obtain ⟨hlen', hle⟩ := ih (fun D hD => hL D (List.mem_cons_of_mem _ hD)) (hlen ▸ hl) h
    refine ⟨hlen'.trans hlen, fun v => (hle v).trans ?_⟩
    rw [(bfComponent_eq_some h₁).1]
    exact (ready_bfStart (hL C List.mem_cons_self) hl).bfRounds_le C.length v

/-! ## Vertices left in a queue -/

/-- No vertex that is left in the queue of a component is lowered by a later one. -/
def Undisturbed (g : GraphView) (p : List ℤ) : Prop :=
  ∀ L C R st pi, computeSccs g = L ++ C :: R → L.foldlM (bfComponent g) ⟨p, ∅, []⟩ = some st →
    selectPotentials g p = some pi →
    ∀ v ∈ (bfResult g st C).2, pi.getD v 0 = (bfResult g st C).1.pot v

/-- Between two components: the vertices in `D` are done, and those of them that are not marked
for another round are in `S`. -/
structure Relaxed (g : GraphView) (D S : List ℕ) (st : BfState) : Prop where
  sat : ∀ s ∈ D, ∀ e ∈ g.eSuccs s, st.pot e.1 ≤ st.pot s + e.2
  mark : ∀ s ∈ D, s ∈ S ∨ st.vertMarks.find? s = some false
  ends : ∀ s e, e ∈ g.eSuccs s → e.1 < st.potentials.length

theorem Relaxed.component {D S : List ℕ} (h : Relaxed g D S st) (hC : C.Nodup)
    (hcomp : bfComponent g st C = some st') (hkeep : ∀ v ∈ S, st'.pot v = st.pot v) :
    Relaxed g (D ++ C) (S ++ (bfResult g st C).2) st' := by
  -- a vertex that is done and can be queued again takes part in the rounds
  have hmem : ∀ s, s ∈ C ++ D.filter (fun v => v ∉ S) ↔ s ∈ C ∨ s ∈ D ∧ s ∉ S := by simp
  have hready : Ready g (C ++ D.filter fun v => v ∉ S) C.reverse (bfStart st C) := by
    have hstart := ready_bfStart hC h.ends
    refine ⟨⟨hstart.queued.marked, hstart.queued.nodup, fun s hs => ?_⟩, fun s hs hviol => ?_,
      hstart.ends⟩
    · by_cases hsC : s ∈ C
      · exact hstart.queued.inScc s hsC
      · obtain ⟨hsD, hsS⟩ := ((hmem s).mp hs).resolve_left hsC
        refine Or.inl ((find?_markScc C st.vertMarks s).trans ?_)
        rw [if_neg hsC]
        exact (h.mark s hsD).resolve_left hsS
    · rcases (hmem s).mp hs with hsC | ⟨hsD, -⟩
      · exact hstart.waits s hsC hviol
      · obtain ⟨e, he, hlt⟩ := hviol
        exact absurd (h.sat s hsD e he) (not_le.mpr hlt)
  obtain ⟨rfl, hq⟩ := bfComponent_eq_some hcomp
  have hend := hready.bfRounds C.length
  refine ⟨fun s hs e he => ?_, fun s hs => ?_, ?_⟩
  · by_cases hsC : s ∈ C ∨ s ∈ D ∧ s ∉ S
    · exact hend.relaxed hq s ((hmem s).mpr hsC) e he
    · rw [not_or, not_and, not_not] at hsC
      have hsD : s ∈ D := (List.mem_append.mp hs).resolve_right hsC.1
      rw [hkeep s (hsC.2 hsD)]
      exact (hready.bfRounds_le C.length e.1).trans (h.sat s hsD e he)
  · by_cases hsC : s ∈ C ∨ s ∈ D ∧ s ∉ S
    · rcases hend.queued.inScc s ((hmem s).mpr hsC) with hmark | hleft
      · exact Or.inr hmark
      · rw [List.append_nil] at hleft
        exact Or.inl (List.mem_append_right _ hleft)
    · rw [not_or, not_and, not_not] at hsC
      have hsD : s ∈ D := (List.mem_append.mp hs).resolve_right hsC.1
      exact Or.inl (List.mem_append_left _ (hsC.2 hsD))
  · rw [length_bfComponent hcomp]
    exact h.ends

theorem relaxed_run (hu : Undisturbed g p) (hn : ∀ C ∈ computeSccs g, C.Nodup)
    (hl : ∀ s e, e ∈ g.eSuccs s → e.1 < p.length) (hsel : selectPotentials g p = some pi)
    (L R : List (List ℕ)) (hLR : computeSccs g = L ++ R)
    (hrun : L.foldlM (bfComponent g) ⟨p, ∅, []⟩ = some st) :
    ∃ S, Relaxed g L.flatten S st ∧ ∀ v ∈ S, pi.getD v 0 = st.pot v := by
  induction L using List.reverseRecOn generalizing R st with
  | nil =>
    obtain rfl := Option.some.inj hrun
    exact ⟨[], ⟨by simp, by simp, hl⟩, by simp⟩
  | append_singleton L C ih =>
    rw [List.foldlM_append, Option.bind_eq_bind, Option.bind_eq_some_iff] at hrun
    obtain ⟨st₁, hrun₁, hrun⟩ := hrun
    have hcomp : bfComponent g st₁ C = some st := by simpa using hrun
    rw [List.append_assoc, List.singleton_append] at hLR
    obtain ⟨S, hrel, hS⟩ := ih (C :: R) hLR hrun₁
    have hmem : C ∈ computeSccs g := by simp [hLR]
    -- the final potentials are below those of the state, which are below the earlier ones
    obtain ⟨st₂, hst₂, rfl⟩ := Option.map_eq_some_iff.mp hsel
    have hrest : R.foldlM (bfComponent g) st = some st₂ := by
      rw [hLR, List.foldlM_append, hrun₁] at hst₂
      simpa [hcomp] using hst₂
    have hle := (bfComponents_le (fun D hD => hn D (by simp [hLR, hD]))
      (by rw [length_bfComponent hcomp]; exact hrel.ends) hrest).2
    have hle₁ : ∀ v, st.pot v ≤ st₁.pot v :=
      (bfComponents_le (L := [C]) (by simpa using hn C hmem) hrel.ends (by simpa using hcomp)).2
    have hkeep : ∀ v ∈ S, st.pot v = st₁.pot v := fun v hv =>
      le_antisymm (hle₁ v) ((hS v hv).symm.trans_le (hle v))
    have hleft := hu L C R st₁ _ hLR hrun₁ hsel
    refine ⟨S ++ (bfResult g st₁ C).2, ?_, fun v hv => ?_⟩
    · have hstep := hrel.component (hn C hmem) hcomp hkeep
      simpa using hstep
    · rcases List.mem_append.mp hv with hv | hv
      · rw [hS v hv, hkeep v hv]
      · rw [hleft v hv, (bfComponent_eq_some hcomp).1]

theorem sat_of_selectPotentials (hg : Closed g p.length) (hu : Undisturbed g p)
    (h : selectPotentials g p = some pi) : g.Edge.Sat fun v => pi.getD v 0 := by
  obtain ⟨hem, hcover⟩ := hg.emitted
  obtain ⟨st, hrun, rfl⟩ := Option.map_eq_some_iff.mp h
  obtain ⟨S, hrel, -⟩ := relaxed_run hu (fun C hC => nodup_of_emitted hem hC)
    (fun s e he => hg.lt _ (hg.target s e he)) h (computeSccs g) [] (by simp) hrun
  intro s t w he
  obtain ⟨C, hC, hs⟩ := (hcover s).mp (hg.source s (t, w) he)
  exact hrel.sat s (List.mem_flatten.mpr ⟨C, hC, hs⟩) (t, w) he

theorem length_selectPotentials (h : selectPotentials g p = some pi) : pi.length = p.length := by
  obtain ⟨st, hrun, rfl⟩ := Option.map_eq_some_iff.mp h
  have hlen : ∀ (L : List (List ℕ)) (st₀ : BfState), L.foldlM (bfComponent g) st₀ = some st →
      st.potentials.length = st₀.potentials.length := by
    intro L
    induction L with
    | nil =>
      intro st₀ h₀
      rw [← Option.some.inj h₀]
    | cons C L ih =>
      intro st₀ h₀
      rw [List.foldlM_cons, Option.bind_eq_bind, Option.bind_eq_some_iff] at h₀
      obtain ⟨st₁, h₁, h₀⟩ := h₀
      rw [ih st₁ h₀, length_bfComponent h₁]
  exact hlen _ _ hrun

end GraphOps

end Prevail
