import Prevail.Ir.InlineFrame
import Prevail.Lib.SearchOrder

/-!
# What the copy of a function looks like

The walk searches the function with the smallest label first, and copies an edge only when it
copies the edge's target: an edge to a label that was copied before its source is lost. What the walk
takes for the predecessors of a label are those of the graph it walks over, in any frame, and copies of
its own that return to the label (`Feeds`). A label becomes seen only if one of its successors is still
to come, so that the calls that are inlined in turn are those before their successor (`Ordered`).
-/

namespace Prevail

/-- A label of an instruction sequence or of a jump in it, in no frame. -/
def Label.Plain (l : Label) : Prop := l.stackFramePrefix = [] ∧ l.special = false

instance : DecidablePred Label.Plain := fun _ => inferInstanceAs (Decidable (_ ∧ _))

theorem Label.Plain.inFrame_inj {a b : Label} {f : Frame} (ha : a.Plain) (hb : b.Plain)
    (h : a.inFrame f = b.inFrame f) : a = b := by
  have hsrc := congrArg Label.src h
  have hdst := congrArg Label.dst h
  exact Label.ext (ha.1.trans hb.1.symm) hsrc hdst (ha.2.trans hb.2.symm)

namespace CfgBuilder

variable {O C : Type} {b b₁ b₂ : CfgBuilder O C} {caller entry exitTo m t : Label}
  {st st' : Walk O C} {done order : List Label}

/-- The steps inside a function. -/
def Step (b : CfgBuilder O C) (x y : Label) : Prop := b.Edge x y ∧ y ≠ .exit

/-- The labels of the function at `t`: what it reaches without going through the exit. -/
def Callee (b : CfgBuilder O C) (t : Label) : Label → Prop := Relation.ReflTransGen b.Step t

/-- The walk takes `p` for a predecessor of `n`: an edge leads to `n` from `p` or from a copy of `p` in
another frame, or `n` is where the call returns to, and the copy of `p` has been joined to it. -/
def Feeds (b : CfgBuilder O C) (caller exitTo p n : Label) : Prop :=
  (∃ x, b.Edge x n ∧ x.inFrame caller.frame = p.inFrame caller.frame) ∨
    n = exitTo ∧ n ≠ p ∧ b.Edge p .exit

theorem not_inside_of_plain (h : m.Plain) : ¬ Inside caller m := by
  intro hin
  have hlen := hin.length_le
  rw [h.1] at hlen
  simp [Label.frame] at hlen

theorem copy_ne_caller (p : Label) : p.inFrame caller.frame ≠ caller := by
  intro h
  have hin := inside_inFrame caller p
  rw [h] at hin
  exact not_inside_self caller hin

/-- What the walk has done after it copied the labels `done` in this order, if it has not come to the
call itself. -/
structure Ordered (b : CfgBuilder O C) (caller entry exitTo : Label) (done : List Label)
    (st : Walk O C) : Prop extends Copied b caller entry exitTo done st where
  visits : done ≠ [] → Visits b.Step entry done
  frontier : done ≠ [] → ∀ x ∉ done, (st.macroLabels.contains x ↔ ∃ p ∈ done, b.Step p x)
  link : ∀ p ∈ done, ∀ n ∈ done, (st.builder.Edge (p.inFrame caller.frame) (n.inFrame caller.frame) ↔
    b.Feeds caller exitTo p n ∧ done.idxOf p ≤ done.idxOf n)
  ret : ∀ p ∈ done, (st.builder.Edge (p.inFrame caller.frame) exitTo ↔ b.Edge p .exit)
  seenEntry : st.seenLabels.contains entry
  seenOn : ∀ p ∈ done, ∀ y, b.Step p y → done.idxOf p ≤ done.idxOf y → st.seenLabels.contains p
  seenWhy : ∀ p ∈ done, st.seenLabels.contains p → p = entry ∨ ∃ y, b.Step p y ∧
    (done.idxOf p < done.idxOf y ∨ y ∈ done ∧ st.macroLabels.contains y)
  again : ∀ p ∈ done, ∀ n ∈ done, b.Step p n → done.idxOf n ≤ done.idxOf p → n = entry ∨
    (∃ y, b.Step n y ∧ done.idxOf n < done.idxOf y ∧ (n = p → y < n)) ∨
    ∃ z ∈ done, st.macroLabels.contains z
  copy : ∀ p ∈ done, ∃ i, b.instructions.find? p = some i ∧
    st.builder.instructions.find? (p.inFrame caller.frame) = some (cloneInstruction caller.frame i)

theorem ordered_start (hb : b.Consistent) :
    Ordered b caller entry exitTo [] (Walk.start b entry) where
  toCopied := copied_start hb
  visits h := absurd rfl h
  frontier h := absurd rfl h
  link := by simp
  ret := by simp
  seenEntry := mem_start.mpr rfl
  seenOn := by simp
  seenWhy := by simp
  again := by simp
  copy := by simp

section

variable (h : Copied b caller entry exitTo done st) (hfresh : Fresh b caller)

include h in
/-- The walk has not changed where a label leads that is neither the call nor a copy. -/
theorem Copied.edge_from (hf : caller.frame ≠ m.stackFramePrefix) (hc : m ≠ caller) (y : Label) :
    st.builder.Edge m y ↔ b.Edge m y := by
  refine ⟨fun hy => ?_, h.edgeOld m y⟩
  rcases h.edgeNew m y hy with hy | ⟨rfl, -⟩ | ⟨hp, -⟩
  · exact hy
  · exact absurd rfl hc
  · exact absurd hp.symm hf

include h hfresh in
theorem Copied.has_copy {x : Label} (hx : x.stackFramePrefix = caller.frame) :
    st.builder.Has x ↔ ∃ q ∈ done, x = q.inFrame caller.frame := by
  rw [h.has, or_iff_right (hfresh _ (inside_of_prefix_eq hx))]

include h hfresh in
/-- The walk has joined its own copies only to the label that the call returns to. -/
theorem Copied.edge_to (hf : caller.frame ≠ m.stackFramePrefix) (x : Label) :
    st.builder.Edge x m ↔ b.Edge x m ∨ m = exitTo ∧ ∃ q ∈ done, x = q.inFrame caller.frame ∧
      st.builder.Edge (q.inFrame caller.frame) exitTo := by
  constructor
  · intro hx
    rcases h.edgeNew x m hx with hx | ⟨-, rfl⟩ | ⟨hp, hm | rfl⟩
    · exact Or.inl hx
    · exact absurd rfl hf
    · exact absurd hm.symm hf
    · obtain ⟨q, hq, rfl⟩ := (h.has_copy hfresh hp).mp hx.source
      exact Or.inr ⟨rfl, q, hq, rfl, hx⟩
  · rintro (hx | ⟨rfl, q, -, rfl, hx⟩)
    · exact h.edgeOld x m hx
    · exact hx

end

section

variable (h : Ordered b caller entry exitTo done st) (hret : b.Edge caller exitTo)
  (hfresh : Fresh b caller) (hb : b.Consistent) (hc : m ≠ caller) (hm : st.macroLabels.contains m)
  (hs : WalkLabel caller exitTo { st with macroLabels := st.macroLabels.erase m } m st')

include h hs in
theorem Ordered.step_new : m ∉ done := fun hmem => hs.fresh ((h.has _).mpr (Or.inr ⟨m, hmem, rfl⟩))

include h hm hs in
/-- Labels that are copied have copies of their own. -/
theorem Ordered.eq_of_copy {p q : Label} (hp : p ∈ done ++ [m]) (hq : q ∈ done ++ [m])
    (heq : p.inFrame caller.frame = q.inFrame caller.frame) : p = q :=
  List.inj_on_of_nodup_map (h.toCopied.step hm hs).nodup hp hq heq

include hret hfresh hb in
theorem return_not_copy (n : Label) : exitTo ≠ n.inFrame caller.frame := by
  rintro rfl
  exact hfresh _ (inside_inFrame caller n) (hb.target _ _ hret)

include h hret hfresh hb hm hs in
/-- The edges between copies that come with `m`. -/
theorem Ordered.step_edge {p : Label} (hp : p ∈ done ++ [m]) {n : Label} (hn : n ∈ done ++ [m]) :
    st'.builder.Edge (p.inFrame caller.frame) (n.inFrame caller.frame) ↔
      st.builder.Edge (p.inFrame caller.frame) (n.inFrame caller.frame) ∨
        n = m ∧ b.Feeds caller exitTo p m := by
  have hnew := h.step_new hs
  have hmem : m ∈ done ++ [m] := by simp
  have hin : ∀ {q}, q ∈ done → q ∈ done ++ [m] := fun hq => List.mem_append_left _ hq
  have hto := fun x => h.toCopied.edge_to hfresh hs.frame (x := x)
  rw [hs.adds.edge]
  refine or_congr_right ⟨?_, ?_⟩
  · rintro (⟨-, hcp, -⟩ | ⟨hnm, q, hqm, hpq, -⟩ | ⟨-, hcp, -⟩)
    · exact absurd hcp (copy_ne_caller p)
    · refine ⟨h.eq_of_copy hm hs hn hmem hnm, ?_⟩
      rcases (hto q).mp hqm with hqm | ⟨rfl, r, hr, rfl, hqm⟩
      · exact Or.inl ⟨q, hqm, hpq.symm⟩
      · obtain rfl := h.eq_of_copy hm hs hp (hin hr) hpq
        exact Or.inr ⟨rfl, fun heq => hnew (heq ▸ hr), (h.ret p hr).mp hqm⟩
    · exact absurd hcp.symm (return_not_copy hret hfresh hb n)
  · rintro ⟨rfl, ⟨x, hx, hxp⟩ | ⟨rfl, hne, hexit⟩⟩
    · refine Or.inr (Or.inl ⟨rfl, x, (hto x).mpr (Or.inl hx), hxp.symm, ?_⟩)
      rw [hxp]
      rcases List.mem_append.mp hp with hp | hp
      · exact Or.inl ((h.has _).mpr (Or.inr ⟨p, hp, rfl⟩))
      · exact Or.inr (by rw [List.mem_singleton.mp hp])
    · have hpd : p ∈ done := (List.mem_append.mp hp).resolve_right fun hpm =>
        hne (List.mem_singleton.mp hpm).symm
      refine Or.inr (Or.inl ⟨rfl, p.inFrame caller.frame, (h.ret p hpd).mpr hexit, rfl, Or.inl ?_⟩)
      exact (h.has _).mpr (Or.inr ⟨p, hpd, rfl⟩)

include h hret hfresh hb hc hm hs in
theorem Ordered.step_ret {p : Label} (hp : p ∈ done ++ [m]) :
    st'.builder.Edge (p.inFrame caller.frame) exitTo ↔
      st.builder.Edge (p.inFrame caller.frame) exitTo ∨ p = m ∧ b.Edge m .exit := by
  rw [hs.adds.edge, ← h.edge_from hs.frame hc]
  refine or_congr_right ⟨?_, ?_⟩
  · rintro (⟨-, hcp, -⟩ | ⟨hcp, -⟩ | ⟨hpm, -, he⟩)
    · exact absurd hcp (copy_ne_caller p)
    · exact absurd hcp (return_not_copy hret hfresh hb m)
    · exact ⟨h.eq_of_copy hm hs hp (by simp) hpm, he⟩
  · rintro ⟨rfl, he⟩
    exact Or.inr (Or.inr ⟨rfl, rfl, he⟩)

include h hret hfresh hb hm hs in
theorem Ordered.step_link : ∀ p ∈ done ++ [m], ∀ n ∈ done ++ [m],
    (st'.builder.Edge (p.inFrame caller.frame) (n.inFrame caller.frame) ↔
      b.Feeds caller exitTo p n ∧ (done ++ [m]).idxOf p ≤ (done ++ [m]).idxOf n) := by
  have hnew := h.step_new hs
  have hnone : ¬ st.builder.Has (m.inFrame caller.frame) := hs.fresh
  intro p hp n hn
  rw [h.step_edge hret hfresh hb hm hs hp hn]
  rcases List.mem_append.mp hn with hn' | hn'
  · have hne : n ≠ m := by
      rintro rfl
      exact hnew hn'
    rw [or_iff_left fun hc => hne hc.1]
    rcases List.mem_append.mp hp with hp' | hp'
    · rw [h.link p hp' n hn', List.idxOf_append_of_mem hp', List.idxOf_append_of_mem hn']
    · obtain rfl := List.mem_singleton.mp hp'
      have hlt := List.idxOf_lt_length_of_mem hn'
      rw [List.idxOf_concat_self hnew, List.idxOf_append_of_mem hn']
      exact iff_of_false (fun he => hnone he.source) fun hc => absurd hc.2 hlt.not_ge
  · obtain rfl := List.mem_singleton.mp hn'
    have hnot : ¬ st.builder.Edge (p.inFrame caller.frame) (n.inFrame caller.frame) := fun he =>
      hnone (h.consistent.target _ _ he)
    rw [or_iff_right hnot, and_iff_right rfl, and_iff_left]
    have hlt := List.idxOf_lt_length_of_mem hp
    rw [List.length_append, List.length_singleton] at hlt
    rw [List.idxOf_concat_self hnew]
    omega

include h hs in
theorem Ordered.step_copy : ∀ p ∈ done ++ [m], ∃ i, b.instructions.find? p = some i ∧
    st'.builder.instructions.find? (p.inFrame caller.frame) =
      some (cloneInstruction caller.frame i) := by
  intro p hp
  rcases List.mem_append.mp hp with hp | hp
  · obtain ⟨i, hi, hcopy⟩ := h.copy p hp
    exact ⟨i, hi, (hs.adds.instr _ ((h.has _).mpr (Or.inr ⟨p, hp, rfl⟩))).trans hcopy⟩
  · obtain rfl := List.mem_singleton.mp hp
    obtain ⟨i, hi, hcopy⟩ := hs.instr
    have hhas : b.Has p := by
      refine ((h.has p).mp ((h.consistent.instr p).mpr ⟨i, hi⟩)).resolve_right ?_
      rintro ⟨q, -, hq⟩
      exact hs.frame (congrArg Label.stackFramePrefix hq).symm
    exact ⟨i, (h.instr p hhas).symm.trans hi, hcopy⟩

include h hm in
/-- The first label is the entry. -/
theorem Ordered.eq_entry (hd : done = []) : m = entry := (h.start hd m).mp hm

include h hm in
/-- What is not copied yet is not seen. -/
theorem Ordered.not_seen {x : Label} (hx : x ∉ done ++ [m]) : ¬ st.seenLabels.contains x := by
  intro hseen
  rcases h.seen x hseen with hd | rfl
  · exact hx (List.mem_append_left _ hd)
  · by_cases hd : done = []
    · rw [h.eq_entry hm hd] at hx
      exact hx (by simp)
    · exact hx (List.mem_append_left _ (h.entryDone hd))

include h hc hm hs in
theorem Ordered.step_frontier (x : Label) (hx : x ∉ done ++ [m]) :
    st'.macroLabels.contains x ↔ ∃ p ∈ done ++ [m], b.Step p x := by
  have hfrom := h.edge_from hs.frame hc
  rw [List.mem_append, List.mem_singleton, not_or] at hx
  constructor
  · intro hq
    rcases hs.macroSub x hq with hq | ⟨hq | ⟨-, hmc, -⟩, hne, -⟩
    · obtain ⟨-, hq⟩ := contains_erase.mp hq
      by_cases hd : done = []
      · exact absurd (((h.start hd x).mp hq).trans (h.eq_entry hm hd).symm) hx.2
      · obtain ⟨p, hp, hpx⟩ := (h.frontier hd x hx.1).mp hq
        exact ⟨p, List.mem_append_left _ hp, hpx⟩
    · exact ⟨m, by simp, (hfrom x).mp hq, hne⟩
    · exact absurd hmc hc
  · rintro ⟨p, hp, hpx⟩
    rcases List.mem_append.mp hp with hp | hp
    · refine hs.macroKeep x (contains_erase.mpr ⟨hx.2, ?_⟩)
      exact (h.frontier (List.ne_nil_of_mem hp) x hx.1).mpr ⟨p, hp, hpx⟩
    · obtain rfl := List.mem_singleton.mp hp
      refine hs.macroPush x ((hfrom x).mpr hpx.1) hpx.2 (h.not_seen hm ?_) hx.2
      simpa using hx

include h hm hs in
theorem Ordered.step_visits (hmin : ∀ x, st.macroLabels.contains x → m ≤ x) :
    Visits b.Step entry (done ++ [m]) := by
  by_cases hd : done = []
  · rw [h.eq_entry hm hd, hd]
    exact Visits.start
  · have hnew := h.step_new hs
    refine (h.visits hd).step ⟨hnew, (h.frontier hd m hnew).mp hm, fun x hx p hp hpx => ?_⟩
    exact hmin x ((h.frontier hd x hx).mpr ⟨p, hp, hpx⟩)

include h hc hm hs in
theorem Ordered.step_seenOn : ∀ p ∈ done ++ [m], ∀ y, b.Step p y →
    (done ++ [m]).idxOf p ≤ (done ++ [m]).idxOf y → st'.seenLabels.contains p := by
  have hnew := h.step_new hs
  intro p hp y hpy hle
  rcases List.mem_append.mp hp with hp | hp
  · rw [List.idxOf_concat_le_iff hp] at hle
    exact hs.seenKeep p (h.seenOn p hp y hpy hle)
  · obtain rfl := List.mem_singleton.mp hp
    by_cases hpe : p = entry
    · rw [hpe]
      exact hs.seenKeep entry h.seenEntry
    -- a label that is its own successor is not seen yet
    · have hy : ¬ st.seenLabels.contains y := by
        rcases eq_or_ne y p with rfl | hyp
        · exact fun hseen => (h.seen y hseen).elim hnew hpe
        · refine h.not_seen hm ((List.idxOf_concat_self_lt_iff hnew).mp (lt_of_le_of_ne hle ?_))
          exact fun heq => hyp ((List.idxOf_inj (List.mem_append_right _ hp)).mp heq).symm
      exact hs.seenAdd y ((h.edge_from hs.frame hc y).mpr hpy.1) hpy.2 hy

include h hs in
/-- A label that was queued again stays in the queue. -/
theorem Ordered.step_queued {z : Label} (hz : z ∈ done) (hq : st.macroLabels.contains z) :
    st'.macroLabels.contains z :=
  hs.macroKeep z (contains_erase.mpr ⟨fun hzm => h.step_new hs (hzm ▸ hz), hq⟩)

include h hc hs in
theorem Ordered.step_seenWhy : ∀ p ∈ done ++ [m], st'.seenLabels.contains p → p = entry ∨
    ∃ y, b.Step p y ∧ ((done ++ [m]).idxOf p < (done ++ [m]).idxOf y ∨
      y ∈ done ++ [m] ∧ st'.macroLabels.contains y) := by
  have hnew := h.step_new hs
  intro p hp hseen
  rcases List.mem_append.mp hp with hp | hp
  · have hne : p ≠ m := fun hpm => hnew (hpm ▸ hp)
    refine (h.seenWhy p hp ((hs.seenSub p hseen).resolve_right hne)).imp_right ?_
    rintro ⟨y, hpy, hy⟩
    refine ⟨y, hpy, hy.imp (List.idxOf_concat_lt_iff hp).mpr ?_⟩
    rintro ⟨hy, hq⟩
    exact ⟨List.mem_append_left _ hy, h.step_queued hs hy hq⟩
  · obtain rfl := List.mem_singleton.mp hp
    rcases hs.seenWhy hseen with hseen | hpc | ⟨y, hpy, hne, -, hq⟩
    · exact Or.inl ((h.seen p hseen).resolve_left hnew)
    · exact absurd hpc hc
    · refine Or.inr ⟨y, ⟨(h.edge_from hs.frame hc y).mp hpy, hne⟩, ?_⟩
      rw [List.idxOf_concat_self_lt_iff hnew]
      by_cases hy : y ∈ done ++ [p]
      · exact Or.inr ⟨hy, hq⟩
      · exact Or.inl hy

include h hc hm hs in
/-- An edge back to a label that is not seen queues a label again. -/
theorem Ordered.step_again_new {n : Label} (hn : n ∈ done ++ [m]) (hstep : b.Step m n)
    (hseen : ¬ st.seenLabels.contains n) :
    (∃ y, b.Step n y ∧ (done ++ [m]).idxOf n < (done ++ [m]).idxOf y ∧ (n = m → y < n)) ∨
      ∃ z ∈ done ++ [m], st'.macroLabels.contains z := by
  have hnew := h.step_new hs
  have hfrom := h.edge_from hs.frame hc
  by_cases hnm : n = m
  swap
  · exact Or.inr ⟨n, hn, hs.macroPush n ((hfrom n).mpr hstep.1) hstep.2 hseen hnm⟩
  subst hnm
  by_cases hall : ∀ y, st.builder.Edge n y → y < n → y ≠ .exit → st.seenLabels.contains y
  · exact Or.inr ⟨n, hn, (hs.macroSelf hc hstep.2 ((hfrom n).mpr hstep.1) hseen).mpr (Or.inr hall)⟩
  push Not at hall
  obtain ⟨y, hny, hlt, hexit, hy⟩ := hall
  by_cases hyd : y ∈ done ++ [n]
  · exact Or.inr ⟨y, hyd, hs.macroPush y hny hexit hy hlt.ne⟩
  · exact Or.inl ⟨y, ⟨(hfrom y).mp hny, hexit⟩, (List.idxOf_concat_self_lt_iff hnew).mpr hyd,
      fun _ => hlt⟩

include h hc hm hs in
theorem Ordered.step_again : ∀ p ∈ done ++ [m], ∀ n ∈ done ++ [m], b.Step p n →
    (done ++ [m]).idxOf n ≤ (done ++ [m]).idxOf p → n = entry ∨
    (∃ y, b.Step n y ∧ (done ++ [m]).idxOf n < (done ++ [m]).idxOf y ∧ (n = p → y < n)) ∨
    ∃ z ∈ done ++ [m], st'.macroLabels.contains z := by
  have hnew := h.step_new hs
  have hmono : ∀ {n}, n ∈ done → ∀ {p},
      (∃ y, b.Step n y ∧ done.idxOf n < done.idxOf y ∧ (n = p → y < n)) →
      ∃ y, b.Step n y ∧ (done ++ [m]).idxOf n < (done ++ [m]).idxOf y ∧ (n = p → y < n) := by
    rintro n hn p ⟨y, hny, hlt, hself⟩
    exact ⟨y, hny, (List.idxOf_concat_lt_iff hn).mpr hlt, hself⟩
  have hqueue : (∃ z ∈ done, st.macroLabels.contains z) →
      ∃ z ∈ done ++ [m], st'.macroLabels.contains z := by
    rintro ⟨z, hz, hq⟩
    exact ⟨z, List.mem_append_left _ hz, h.step_queued hs hz hq⟩
  intro p hp n hn hpn hle
  rcases List.mem_append.mp hp with hp | hp
  · have hnd : n ∈ done := by
      by_contra hnd
      have hlt := List.idxOf_lt_length_of_mem hp
      rw [List.idxOf_append_of_mem hp, List.idxOf_append_of_notMem hnd] at hle
      omega
    rw [List.idxOf_concat_le_iff hnd] at hle
    exact (h.again p hp n hnd hpn hle).imp_right fun hcase => hcase.imp (hmono hnd) hqueue
  · obtain rfl := List.mem_singleton.mp hp
    by_cases hseen : st.seenLabels.contains n
    · rcases h.seen n hseen with hnd | rfl
      · refine (h.seenWhy n hnd hseen).imp_right ?_
        rintro ⟨y, hny, hlt | ⟨hy, hq⟩⟩
        · exact Or.inl ⟨y, hny, (List.idxOf_concat_lt_iff hnd).mpr hlt, fun hnp => absurd (hnp ▸ hnd) hnew⟩
        · exact Or.inr (hqueue ⟨y, hy, hq⟩)
      · exact Or.inl rfl
    · exact Or.inr (h.step_again_new hc hm hs hn hpn hseen)

include h hret hfresh hb hc hm hs in
theorem Ordered.step (hmin : ∀ x, st.macroLabels.contains x → m ≤ x) :
    Ordered b caller entry exitTo (done ++ [m]) st' where
  toCopied := h.toCopied.step hm hs
  visits _ := h.step_visits hm hs hmin
  frontier _ := h.step_frontier hc hm hs
  link := h.step_link hret hfresh hb hm hs
  ret p hp := by
    have hnew := h.step_new hs
    rw [h.step_ret hret hfresh hb hc hm hs hp]
    rcases List.mem_append.mp hp with hp | hp
    · rw [h.ret p hp, or_iff_left]
      exact fun hc => hnew (hc.1 ▸ hp)
    · obtain rfl := List.mem_singleton.mp hp
      rw [or_iff_right, and_iff_right rfl]
      exact fun he => hs.fresh he.source
  seenEntry := hs.seenKeep entry h.seenEntry
  seenOn := h.step_seenOn hc hm hs
  seenWhy := h.step_seenWhy hc hs
  again := h.step_again hc hm hs
  copy := h.step_copy hs

end

/-! ## The call itself -/

/-- What the walk has done, whatever it came to. After it has come to the call itself, a copy is left to
be walked, which fails. -/
structure Walked (b : CfgBuilder O C) (caller entry exitTo : Label) (done : List Label)
    (st : Walk O C) : Prop extends Copied b caller entry exitTo done st where
  frames : ∀ m ∈ done, caller.frame ≠ m.stackFramePrefix
  ordered : caller ∉ done → Ordered b caller entry exitTo done st
  recursion : caller ∈ done → ∃ x, st.macroLabels.contains x ∧ x.stackFramePrefix = caller.frame

theorem walked_start (hb : b.Consistent) :
    Walked b caller entry exitTo [] (Walk.start b entry) where
  toCopied := copied_start hb
  frames := by simp
  ordered _ := ordered_start hb
  recursion := by simp

/-- A walk that comes to the call goes on to the first copy. -/
theorem Walked.step_recursion (h : Walked b caller entry exitTo done st)
    (hm : st.macroLabels.contains caller)
    (hs : WalkLabel caller exitTo { st with macroLabels := st.macroLabels.erase caller } caller st') :
    ∃ x, st'.macroLabels.contains x ∧ x.stackFramePrefix = caller.frame := by
  have hfirst : entry.inFrame caller.frame ∉ done := fun hmem => h.frames _ hmem rfl
  by_cases hd : done = []
  · have hentry : caller = entry := (h.start hd caller).mp hm
    refine ⟨_, hs.macroFirst (h.first.mpr hd) rfl fun hseen => ?_, rfl⟩
    rcases h.seen _ hseen with hmem | heq
    · rw [hd] at hmem
      cases hmem
    · exact copy_ne_caller caller (heq.trans hentry.symm)
  · refine ⟨_, hs.macroPush _ (h.call hd) (entry.inFrame_frame_ne_exit caller) (fun hseen => ?_)
      (copy_ne_caller entry), rfl⟩
    rcases h.seen _ hseen with hmem | heq
    · exact hfirst hmem
    · exact hfirst (by rw [heq]; exact h.entryDone hd)

theorem Walked.step (h : Walked b caller entry exitTo done st) (hret : b.Edge caller exitTo)
    (hfresh : Fresh b caller) (hb : b.Consistent) (hm : st.macroLabels.contains m)
    (hmin : ∀ x, st.macroLabels.contains x → m ≤ x)
    (hs : WalkLabel caller exitTo { st with macroLabels := st.macroLabels.erase m } m st') :
    Walked b caller entry exitTo (done ++ [m]) st' where
  toCopied := h.toCopied.step hm hs
  frames x hx := by
    rcases List.mem_append.mp hx with hx | hx
    · exact h.frames x hx
    · rw [List.mem_singleton.mp hx]
      exact hs.frame
  ordered hc := by
    rw [List.mem_append, not_or, List.mem_singleton] at hc
    exact (h.ordered hc.1).step hret hfresh hb (Ne.symm hc.2) hm hs hmin
  recursion hc := by
    rcases List.mem_append.mp hc with hc | hc
    · obtain ⟨x, hx, hf⟩ := h.recursion hc
      refine ⟨x, hs.macroKeep x (contains_erase.mpr ⟨?_, hx⟩), hf⟩
      rintro rfl
      exact hs.frame hf.symm
    · obtain rfl := List.mem_singleton.mp hc
      exact h.step_recursion hm hs

/-! ## The whole copy -/

/-- The copy of the function at `entry`, with the calls in it still to be inlined. -/
structure CopyOf (b : CfgBuilder O C) (caller entry exitTo : Label) (order : List Label)
    (st : Walk O C) : Prop where
  search : SearchOrder b.Step entry order
  nodup : (order.map (·.inFrame caller.frame)).Nodup
  notCaller : caller ∉ order
  has : ∀ x, x.stackFramePrefix = caller.frame →
    (st.builder.Has x ↔ ∃ m ∈ order, x = m.inFrame caller.frame)
  link : ∀ p ∈ order, ∀ n ∈ order,
    (st.builder.Edge (p.inFrame caller.frame) (n.inFrame caller.frame) ↔
      b.Feeds caller exitTo p n ∧ order.idxOf p ≤ order.idxOf n)
  ret : ∀ p ∈ order, (st.builder.Edge (p.inFrame caller.frame) exitTo ↔ b.Edge p .exit)
  leaves : ∀ p ∈ order, ∀ y, st.builder.Edge (p.inFrame caller.frame) y →
    y = exitTo ∨ ∃ n ∈ order, y = n.inFrame caller.frame
  seenEntry : st.seenLabels.contains entry
  seenOn : ∀ p ∈ order, ∀ y, b.Step p y → order.idxOf p ≤ order.idxOf y → st.seenLabels.contains p
  seenWhy : ∀ p, st.seenLabels.contains p → p ∈ order ∧
    (p = entry ∨ ∃ y, b.Step p y ∧ order.idxOf p < order.idxOf y)
  again : ∀ p ∈ order, ∀ n ∈ order, b.Step p n → order.idxOf n ≤ order.idxOf p → n = entry ∨
    ∃ y, b.Step n y ∧ order.idxOf n < order.idxOf y ∧ (n = p → y < n)
  copy : ∀ p ∈ order, ∃ i, b.instructions.find? p = some i ∧
    st.builder.instructions.find? (p.inFrame caller.frame) = some (cloneInstruction caller.frame i)

theorem Ordered.copyOf (h : Ordered b caller entry exitTo done st) (hfresh : Fresh b caller)
    (hcaller : caller ∉ done) (hend : ∀ x, ¬ st.macroLabels.contains x)
    (hrem : st.builder.removeChild caller exitTo = .ok b₂) :
    CopyOf b caller entry exitTo done { st with builder := b₂ } := by
  have hdone : done ≠ [] := fun hd => hend entry ((h.start hd entry).mpr rfl)
  obtain ⟨hhas, hedge, -, hsame⟩ := removeChild_spec hrem h.consistent
  have hEdge : ∀ p y : Label, b₂.Edge (p.inFrame caller.frame) y ↔
      st.builder.Edge (p.inFrame caller.frame) y := by
    intro p y
    rw [hedge, and_iff_left fun hc => copy_ne_caller p hc.1]
  refine ⟨⟨h.visits hdone, fun p hp x hpx => ?_⟩, h.nodup, hcaller, fun x hx => ?_, fun p hp n hn => ?_,
    fun p hp => ?_, fun p hp y hy => ?_, h.seenEntry, h.seenOn, fun p hp => ?_, fun p hp n hn hpn hle => ?_,
    fun p hp => ?_⟩
  · by_contra hx
    exact hend x ((h.frontier hdone x hx).mpr ⟨p, hp, hpx⟩)
  · show b₂.Has x ↔ _
    rw [hhas, h.toCopied.has_copy hfresh hx]
  · show b₂.Edge _ _ ↔ _
    rw [hEdge, h.link p hp n hn]
  · show b₂.Edge _ _ ↔ _
    rw [hEdge, h.ret p hp]
  · have hy := (hEdge p y).mp hy
    rcases h.edgeNew _ y hy with hold | ⟨hc, -⟩ | ⟨-, hp | rfl⟩
    · exact absurd hold.source (hfresh _ (inside_inFrame caller p))
    · exact absurd hc (copy_ne_caller p)
    · exact Or.inr ((h.toCopied.has_copy hfresh hp).mp (h.consistent.target _ _ hy))
    · exact Or.inl rfl
  · have hmem : p ∈ done := (h.seen p hp).elim id fun hp => hp ▸ h.entryDone hdone
    refine ⟨hmem, (h.seenWhy p hmem hp).imp_right ?_⟩
    rintro ⟨y, hpy, hlt | ⟨-, hq⟩⟩
    · exact ⟨y, hpy, hlt⟩
    · exact absurd hq (hend y)
  · rcases h.again p hp n hn hpn hle with hn | hy | ⟨z, -, hq⟩
    · exact Or.inl hn
    · exact Or.inr hy
    · exact absurd hq (hend z)
  · show ∃ i, _ ∧ b₂.instructions.find? _ = _
    rw [hsame]
    exact h.copy p hp

/-- Only the edges of the graph and the instructions of the function matter. -/
theorem CopyOf.congr (h : CopyOf b₁ caller entry exitTo order st) (hedge : b₁.Edge = b.Edge)
    (hinstr : ∀ p ∈ order, b₁.instructions.find? p = b.instructions.find? p) :
    CopyOf b caller entry exitTo order st := by
  have hstep : b₁.Step = b.Step := by
    funext x y
    unfold Step
    rw [hedge]
  have hfeeds : b₁.Feeds = b.Feeds := by
    funext c r p n
    unfold Feeds
    rw [hedge]
  refine ⟨hstep ▸ h.search, h.nodup, h.notCaller, h.has, hfeeds ▸ h.link, hedge ▸ h.ret, h.leaves,
    h.seenEntry, hstep ▸ h.seenOn, hstep ▸ h.seenWhy, hstep ▸ h.again, fun p hp => ?_⟩
  rw [← hinstr p hp]
  exact h.copy p hp

/-- `setFrame` changes one instruction and no edge. -/
theorem setFrame_edge (hset : b.setFrame caller = .ok b₁) : b₁.Edge = b.Edge := by
  funext x y
  unfold Edge
  rw [(setFrame_spec hset).1]

theorem Fresh.setFrame (hfresh : Fresh b caller) (hset : b.setFrame caller = .ok b₁) :
    Fresh b₁ caller := by
  intro x hx
  unfold Has
  rw [(setFrame_spec hset).1]
  exact hfresh x hx

/-- `cloneMacro` copies the function in the order of the search. -/
theorem cloneMacro_copyOf (h : b.cloneMacro caller entry = .ok st) (hb : b.Consistent)
    (hfresh : Fresh b caller) (hexit : ∀ z, b.Edge caller z ↔ z = exitTo) :
    ∃ order, CopyOf b caller entry exitTo order st := by
  obtain ⟨ret, b₁, fuel, st₁, b₂, hret, hset, hwalk, hrem, rfl⟩ := cloneMacro_eq_ok h
  obtain rfl := (hret exitTo).mp ((hexit exitTo).mpr rfl)
  have hEdge := setFrame_edge hset
  have hb₁ := consistent_setFrame hb hset
  have hfresh₁ := hfresh.setFrame hset
  have hret₁ : b₁.Edge caller exitTo := by
    rw [hEdge]
    exact (hret exitTo).mpr rfl
  obtain ⟨order, hord, hend⟩ := walk_induction (Walked b₁ caller entry exitTo) hwalk
    (walked_start hb₁) (fun _ _ h => h.consistent)
    fun done st st' m h hm hmin hs => h.step hret₁ hfresh₁ hb₁ hm hmin hs
  have hcaller : caller ∉ order := fun hc => by
    obtain ⟨x, hx, -⟩ := hord.recursion hc
    exact hend x hx
  refine ⟨order, ((hord.ordered hcaller).copyOf hfresh₁ hcaller hend hrem).congr hEdge fun p hp => ?_⟩
  refine (setFrame_spec hset).2.1 p ?_
  rintro rfl
  exact hcaller hp

end CfgBuilder

end Prevail
