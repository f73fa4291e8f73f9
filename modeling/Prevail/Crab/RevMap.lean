import Prevail.Crab.AddSteps
import Prevail.Crab.Reachable
import Prevail.Crab.WidenKept

/-!
# The maps between variables and vertices

The map of the vertices is the inverse of the map of the variables in every reachable state. An assignment
leaves this for a while: the new vertex of the variable is entered while the old one is still in use.
-/

namespace Prevail

open DiffSys GraphOps

namespace SplitDbm

variable {V : Type*} [LinearOrder V] {a b d d' : SplitDbm V} {P : ℕ → Prop} {v : V} {n : ℕ}

/-- Off the vertices in `P`, the two maps are inverse to each other. -/
def InverseOff (P : ℕ → Prop) (d : SplitDbm V) : Prop :=
  ∀ v n, ¬ P n → (d.vertMap.find? v = some n ↔ d.revMap[n]? = some (some v))

/-- The two maps are inverse to each other. -/
abbrev Inverse (d : SplitDbm V) : Prop := d.InverseOff fun _ => False

theorem InverseOff.congr (h : d.InverseOff P) (hv : d'.vertMap = d.vertMap) (hr : d'.revMap = d.revMap) :
    d'.InverseOff P := by
  unfold InverseOff
  rwa [hv, hr]

@[simp] theorem revMap_normalize (d : SplitDbm V) : d.normalize.revMap = d.revMap := by
  unfold normalize
  split_ifs <;> rfl

theorem InverseOff.normalize (h : d.InverseOff P) : d.normalize.InverseOff P :=
  h.congr (vertMap_normalize d) (revMap_normalize d)

theorem inverse_top : (top : SplitDbm V).Inverse := by
  intro v n _
  cases n <;> simp [top]

/-! ## New vertices -/

theorem Fresh.revMap_setVert {g : AdaptGraph} (h : Fresh P d n g) (hd : d.WFWith P) (m : OrdMap V ℕ) (v : V)
    (p : ℤ) (k : ℕ) : (setVert { d with g := g, vertMap := m } n v p).revMap[k]? =
      if k = n then some (some v) else d.revMap[k]? := by
  have hr := hd.revLen
  unfold setVert
  simp only
  rcases h.size with ⟨-, hn⟩ | ⟨-, hn⟩
  · rw [if_pos (hr ▸ hn), List.getElem?_set]
    by_cases hk : k = n
    · rw [if_pos hk.symm, if_pos hk, if_pos (hr ▸ hn)]
    · rw [if_neg (Ne.symm hk), if_neg hk]
  · rw [if_neg (by omega)]
    by_cases hk : k = n
    · rw [if_pos hk, hk, hn, ← hr, List.getElem?_concat_length]
    · rw [if_neg hk, List.getElem?_append]
      split_ifs with hlt
      · rfl
      · rw [List.getElem?_eq_none (by simp; omega), List.getElem?_eq_none (by omega)]

theorem InverseOff.getVert (h : d.InverseOff P) (hd : d.WFWith P) (v : V) :
    (d.getVert v).2.InverseOff P ∧ ∀ k, P k → (d.getVert v).2.revMap[k]? = d.revMap[k]? := by
  unfold SplitDbm.getVert
  cases hv : d.vertMap.find? v with
  | some y => exact ⟨h, fun _ _ => rfl⟩
  | none =>
    have hf := fresh_newVertex hd
    refine ⟨fun u m hm => ?_, fun k hk => ?_⟩
    · simp only [hf.revMap_setVert hd, Fresh.setVert_vertMap, OrdMap.find?_emplace, hv, Option.getD_none]
      by_cases hmn : m = d.g.newVertex.1
      · rw [if_pos hmn]
        split_ifs with huv
        · simp [hmn, huv]
        · have hne : d.vertMap.find? u ≠ some m := fun hu =>
            hf.ne_of_live (Or.inr (Or.inl ⟨u, hu⟩)) hmn
          simpa [hne] using Ne.symm huv
      · rw [if_neg hmn]
        split_ifs with huv
        · have hnone : d.revMap[m]? ≠ some (some u) := fun hr => by
            rw [huv, ← h v m hm, hv] at hr
            cases hr
          simpa [hnone] using Ne.symm hmn
        · exact h u m hm
    · rw [hf.revMap_setVert hd, if_neg]
      exact hf.ne_of_live (Or.inr (Or.inr hk))

/-! ## Freed vertices -/

theorem InverseOff.dropVert (h : d.InverseOff P) (hd : d.WFWith P) (hv : d.vertMap.find? v = some n) :
    (d.dropVert v n).InverseOff P ∧ ∀ k, k ≠ n → (d.dropVert v n).revMap[k]? = d.revMap[k]? := by
  refine ⟨fun u m hm => ?_, fun k hk => List.getElem?_set_ne hk.symm⟩
  show (d.vertMap.erase v).find? u = some m ↔ (d.revMap.set n none)[m]? = some (some u)
  rw [OrdMap.find?_erase, List.getElem?_set]
  by_cases hnm : n = m
  · rw [if_pos hnm]
    refine ⟨fun hu => ?_, fun hr => ?_⟩
    · split_ifs at hu with huv
      exact absurd (hd.inj u v m hu (hnm ▸ hv)) huv
    · split_ifs at hr
      cases hr
  · rw [if_neg hnm]
    split_ifs with huv
    · refine ⟨nofun, fun hr => ?_⟩
      rw [← h u m hm, huv, hv] at hr
      exact absurd (Option.some.inj hr) hnm
    · exact h u m hm

theorem InverseOff.havoc (h : d.InverseOff P) (hd : d.WFWith P) (v : V) :
    (d.havoc v).InverseOff P ∧ ∀ k, P k → (d.havoc v).revMap[k]? = d.revMap[k]? := by
  cases hv : d.vertMap.find? v with
  | none =>
    rw [havoc_of_none hv]
    exact ⟨h, fun _ _ => rfl⟩
  | some n =>
    obtain ⟨hinv, hrev⟩ := h.dropVert hd hv
    rw [havoc_of_some hv]
    refine ⟨hinv.normalize, fun k hk => ?_⟩
    rw [revMap_normalize]
    refine hrev k fun hkn => hd.extraFresh v n (hkn ▸ hk) hv

theorem Inverse.havocs (h : d.Inverse) (hd : d.WF) (vars : List V) :
    (vars.foldl (fun d v => if d.vertMap.contains v then d.havoc v else d) d).Inverse := by
  have hkeep : ∀ d : SplitDbm V, d.WF ∧ d.Inverse → ∀ v,
      (if d.vertMap.contains v then d.havoc v else d).WF ∧
        (if d.vertMap.contains v then d.havoc v else d).Inverse := by
    rintro d ⟨hd, h⟩ v
    split_ifs
    · exact ⟨wf_havoc hd v, (h.havoc hd v).1⟩
    · exact ⟨hd, h⟩
  exact (List.foldlRecOn (motive := fun d : SplitDbm V => d.WF ∧ d.Inverse) _ _ ⟨hd, h⟩
    fun d hd v _ => hkeep d hd v).2

theorem Inverse.forget (h : d.Inverse) (hd : d.WF) (vars : List V) : (d.forget vars).Inverse := by
  unfold SplitDbm.forget
  split_ifs
  · exact h
  · exact (h.havocs hd vars).normalize

/-! ## Assignment -/

theorem Inverse.set (h : d.Inverse) (hd : d.WF) (v : V) (i : Interval) : (d.set v i).Inverse := by
  have hh := wf_havoc hd v
  obtain ⟨hhavoc, -⟩ := h.havoc hd v
  rw [set_eq]
  split_ifs
  · exact hhavoc
  · refine InverseOff.normalize ((hhavoc.getVert hh v).1.congr ?_ ?_) <;>
      (unfold setLb setUb; cases i.ub.number <;> cases i.lb.number <;> rfl)

/-- The edges of an assignment keep the maps, and the entry of the new vertex. -/
theorem InverseOff.assignDelta (h : d.InverseOff P) (hd : d.WFWith P) (vert : ℕ)
    (diffsLb diffsUb : List (V × ℤ)) :
    (d.assignDelta vert diffsLb diffsUb).2.InverseOff P ∧
      ∀ k, P k → (d.assignDelta vert diffsLb diffsUb).2.revMap[k]? = d.revMap[k]? := by
  let Q (acc : EdgeVector × SplitDbm V) : Prop :=
    acc.2.WFWith P ∧ acc.2.InverseOff P ∧ ∀ k, P k → acc.2.revMap[k]? = d.revMap[k]?
  have hstep : ∀ (acc : EdgeVector × SplitDbm V) (v : V) (l : EdgeVector), Q acc →
      Q (l, (acc.2.getVert v).2) := by
    rintro acc v l ⟨hwf, hinv, hrev⟩
    obtain ⟨hinv', hrev'⟩ := hinv.getVert hwf v
    exact ⟨(getVert_spec hwf v).wf, hinv', fun k hk => (hrev' k hk).trans (hrev k hk)⟩
  have h0 : Q ([], d) := ⟨hd, h, fun _ _ => rfl⟩
  exact (List.foldlRecOn (motive := Q) _ _
    (List.foldlRecOn (motive := Q) _ _ h0 fun acc hacc t _ => hstep acc t.1 _ hacc)
    fun acc hacc t _ => hstep acc t.1 _ hacc).2

theorem Inverse.assignDiffs (h : d.Inverse) (hd : d.WF) (lhs : V) (value : Interval) (eVal : ℤ)
    (diffsLb diffsUb : List (V × ℤ)) :
    (d.assignDiffs lhs value eVal diffsLb diffsUb).Inverse := by
  have hf := fresh_newVertex hd
  have hwf := hf.wf_extra hd lhs (pot d.potential 0 + eVal)
  have hrevStart := hf.revMap_setVert hd d.vertMap lhs (pot d.potential 0 + eVal)
  have hstart : (setVert { d with g := d.g.newVertex.2 } d.g.newVertex.1 lhs
      (pot d.potential 0 + eVal)).InverseOff fun m => False ∨ m = d.g.newVertex.1 := by
    intro u m hm
    rw [hrevStart, Fresh.setVert_vertMap, if_neg fun heq => hm (Or.inr heq)]
    exact h u m not_false
  obtain ⟨hdelta, hrev⟩ := hstart.assignDelta hwf d.g.newVertex.1 diffsLb diffsUb
  have hgraph := (assignGraph_spec hd lhs value eVal diffsLb diffsUb).1
  have hinv : (d.assignGraph lhs value eVal diffsLb diffsUb).InverseOff
      fun m => False ∨ m = d.g.newVertex.1 := hdelta.congr rfl rfl
  obtain ⟨hhavoc, hrev'⟩ := hinv.havoc hgraph lhs
  have hnone : ((d.assignGraph lhs value eVal diffsLb diffsUb).havoc lhs).vertMap.find? lhs = none := by
    rw [find?_havoc hgraph, if_pos rfl]
  have hvert : ((d.assignGraph lhs value eVal diffsLb diffsUb).havoc lhs).revMap[d.g.newVertex.1]? =
      some (some lhs) := by
    rw [hrev' _ (Or.inr rfl)]
    exact (hrev _ (Or.inr rfl)).trans ((hrevStart _).trans (if_pos rfl))
  rw [assignDiffs_eq]
  refine InverseOff.normalize fun u m _ => ?_
  show ((_ : OrdMap V ℕ).emplace lhs d.g.newVertex.1).find? u = some m ↔ _
  rw [OrdMap.find?_emplace, hnone, Option.getD_none]
  by_cases hm : m = d.g.newVertex.1
  · have hfresh := (wf_havoc hgraph lhs).extraFresh u m (Or.inr hm)
    rw [hm, hvert]
    split_ifs with hu
    · simp [hu]
    · simpa [hm ▸ hfresh] using Ne.symm hu
  · have hoff := hhavoc u m (by simpa using hm)
    split_ifs with hu
    · rw [← hoff, hu, hnone]
      simpa using Ne.symm hm
    · exact hoff

theorem Inverse.assign (h : d.Inverse) (hd : d.WF) (v : V) (e : LinearExpression V) :
    (d.assign v e).Inverse := by
  unfold SplitDbm.assign
  simp only
  split_ifs
  · exact (h.set hd v _).normalize
  · exact (h.set hd v _).normalize
  · exact h.assignDiffs hd _ _ _ _ _

/-! ## Lattice operations -/

theorem inverse_numbered {names : List V} (hn : names.Nodup) (g : AdaptGraph) (p : List ℤ) (u : List ℕ) :
    (numbered names g p u).Inverse := fun _ _ _ => find?_alignVerts hn

theorem Inverse.join (ha : a.Inverse) (hb : b.Inverse) (hwa : a.WF) : (a.join b).Inverse := by
  cases htb : b.isTop with
  | true =>
    unfold SplitDbm.join
    rwa [if_pos htb]
  | false =>
    cases hta : a.isTop with
    | true =>
      unfold SplitDbm.join
      rwa [if_neg (by simp [htb]), if_pos hta]
    | false =>
      have hn := nodup_commonNames a b
      obtain ⟨-, hgraph⟩ := joinGraph_spec hwa b
      have hwf := wf_numbered hn hgraph (p := 0 :: (commonNames a b).map a.relPot) (by simp) []
      rw [join_eq hta htb]
      exact foldl_collect_induct (fun _ _ _ hwf hxv _ h => (InverseOff.dropVert h hwf hxv).1)
        (List.nodup_range.filter _) hwf (revMap_joinGraph hgraph) (inverse_numbered hn _ _ _)

theorem inverse_widen (a b : SplitDbm V) : (a.widen b).Inverse :=
  InverseOff.normalize (inverse_numbered (nodup_commonNames a b) _ _ _)

theorem Inverse.meet (ha : a.Inverse) (hb : b.Inverse) (h : a.meet b = some d) : d.Inverse := by
  cases hta : a.isTop with
  | true =>
    unfold SplitDbm.meet at h
    rw [if_pos hta] at h
    exact Option.some.inj h ▸ hb
  | false =>
    cases htb : b.isTop with
    | true =>
      unfold SplitDbm.meet at h
      rw [if_neg (by simp [hta]), if_pos htb] at h
      exact Option.some.inj h ▸ ha
    | false =>
      rw [meet_of_not_top hta htb] at h
      obtain ⟨pi, -, rfl⟩ := Option.map_eq_some_iff.mp h
      rw [← numbered_meetState]
      exact inverse_numbered (nodup_allNames a b) _ _ _

/-! ## Reachable states -/

theorem kept_inverse (G : Prop) : Kept G (V := V) fun d => d.Inverse where
  getVert v hd h := (InverseOff.getVert h hd v).1
  setEdge _ h := h.congr rfl rfl
  close h := h.congr rfl rfl
  normalize _ _ h := InverseOff.normalize h

theorem Inverse.addConstraint (h : d.Inverse) (hd : d.WF) (c : LinearConstraint V)
    (hr : d.addConstraint c = some d') : d'.Inverse := by
  refine (kept_inverse False).addConstraint ⟨hd, nofun, h⟩ (fun {d d' c} h _ _ hr => ?_)
    (addMeets_true d c) hr
  obtain ⟨d₁, h₁, rfl⟩ := Option.map_eq_some_iff.mp hr
  obtain ⟨p, -, rfl⟩ := Option.map_eq_some_iff.mp h₁
  have hg := getVert_spec h.wf c.1.2
  exact (InverseOff.getVert (InverseOff.getVert h.holds h.wf _).1 hg.wf _).1.congr rfl rfl

variable {meets : SplitDbm V → SplitDbm V → Prop}

/-- In every reachable state the two maps are inverse to each other. -/
theorem Reachable.inverse (h : Reachable meets d) : d.Inverse := by
  induction h with
  | top => exact inverse_top
  | assign hd x e ih => exact ih.assign hd.wf x e
  | set hd x i _ ih => exact ih.set hd.wf x i
  | applyVar hd op x y z ih =>
    unfold SplitDbm.applyVar
    cases op with
    | mul => exact (ih.set hd.wf _ _).normalize
    | _ => exact (ih.assign hd.wf _ _).normalize
  | applyNum hd op x y k ih =>
    unfold SplitDbm.applyNum
    cases op <;> exact (ih.assign hd.wf _ _).normalize
  | havoc hd x ih => exact (InverseOff.havoc ih hd.wf x).1
  | forget hd vars ih => exact ih.forget hd.wf vars
  | addConstraint hd c h ih => exact ih.addConstraint hd.wf c h
  | join ha _ iha ihb => exact iha.join ihb ha.wf
  | widen _ _ _ _ => exact inverse_widen _ _
  | meet _ _ _ h iha ihb => exact iha.meet ihb h
  | narrow _ _ iha ihb =>
    unfold SplitDbm.narrow
    split_ifs
    · exact ihb
    · exact iha

end SplitDbm

end Prevail
