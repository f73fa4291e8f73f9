import Prevail.Analysis.FwdAnalyzer
import Prevail.Cfg.WtoHeads
import Prevail.Lib.WeakOrderCycles

/-!
# The entries of a cycle

The iterator joins the posts of the predecessors of a head that have no more heads around them than the
head has. These are to be the predecessors outside the cycle. The head itself has no more heads around
it, so that it counts as outside when it has an edge to itself; and the vertices of a cycle beside this
one count as inside.
-/

namespace Prevail

variable {g : Cfg} {w : Wto} {fuel fuel₀ : ℕ} {body P : WtoPartition} {head l u v : Label}
  {prevs : List Label}

theorem isComponentMember_iff : isComponentMember l P = true ↔ l ∈ P.vertices := by
  induction P with
  | nil => simp [isComponentMember]
  | vertex a P ih =>
    unfold isComponentMember
    rw [Bool.or_eq_true, beq_iff_eq, ih, WeakOrder.vertices_vertex, List.mem_cons, eq_comm]
  | component B P ihB ih =>
    unfold isComponentMember
    rw [Bool.or_eq_true, Bool.or_eq_true, ihB, ih, WeakOrder.vertices_component, List.mem_append]
    refine or_congr_left (or_iff_right_of_imp fun hB => WeakOrder.mem_of_first? (beq_iff_eq.mp hB))

theorem nestingGt_iff : nestingGt (P.nesting v) (P.nesting u) = true ↔ P.Deeper v u := by
  unfold nestingGt WeakOrder.Deeper
  rw [WeakOrder.nesting_eq, WeakOrder.nesting_eq, List.reverse_reverse, List.reverse_reverse,
    List.length_reverse, List.length_reverse, Bool.and_eq_true, decide_eq_true_iff,
    List.isPrefixOf_iff_prefix]

/-- The test tells the predecessors in the cycle from those outside, and the posts of the latter are
joined. -/
structure EntriesExact (g : Cfg) (w : Wto) (fuel : ℕ) (body : WtoPartition) (head : Label)
    (prevs : List Label) : Prop where
  test : ∀ prev ∈ prevs, ∃ heads headsOfHead, w.collectHeads fuel prev = .ok heads ∧
    w.collectHeads fuel head = .ok headsOfHead ∧
    (nestingGt heads headsOfHead = true ↔ isComponentMember prev (.component body .nil) = true)
  initial : ∀ {O C A E D : Type} (dom : FwdDomain O C A E D) (prog : Program O C A), prog.cfg = g →
    ∀ s : FwdAnalyzer E D, s.initialInvariant dom prog w fuel head =
      s.joinPosts dom (prevs.filter fun prev => !isComponentMember prev (.component body .nil))

theorem foldlM_congr {α β : Type} {m : Type → Type} [Monad m] {as : List α} {f f' : β → α → m β}
    (h : ∀ b, ∀ a ∈ as, f b a = f' b a) (b : β) : as.foldlM f b = as.foldlM f' b := by
  induction as generalizing b with
  | nil => rfl
  | cons a as ih =>
    rw [List.foldlM_cons, List.foldlM_cons, h b a List.mem_cons_self]
    congr 1
    funext b'
    exact ih (fun b a ha => h b a (List.mem_cons_of_mem _ ha)) b'

/-- The posts that are joined are those of the predecessors that fail the test. -/
theorem initialInvariant_eq {O C A E D : Type} {dom : FwdDomain O C A E D} {prog : Program O C A}
    {p : Label → Bool} {headsOfHead : List Label} (hprevs : prog.cfg.parentsOf head = .ok prevs)
    (hhead : w.collectHeads fuel head = .ok headsOfHead)
    (htest : ∀ prev ∈ prevs, ∃ heads, w.collectHeads fuel prev = .ok heads ∧
      nestingGt heads headsOfHead = p prev) (s : FwdAnalyzer E D) :
    s.initialInvariant dom prog w fuel head = s.joinPosts dom (prevs.filter fun prev => !p prev) := by
  have hparents : prog.parentsOf head = .ok prevs := by
    unfold Program.parentsOf
    rw [hprevs]
  unfold FwdAnalyzer.initialInvariant FwdAnalyzer.joinPosts
  rw [hhead, hparents, List.foldlM_filter]
  refine foldlM_congr (fun res prev hprev => ?_) _
  obtain ⟨heads, hheads, hgt⟩ := htest prev hprev
  rw [hheads]
  show (if nestingGt heads headsOfHead = true then _ else _) = _
  rw [hgt]
  cases p prev <;> rfl

theorem entriesExact_of_not_beside (hg : g.Closed) (h : Wto.ofCfg fuel₀ g = .ok w)
    (hbody : WeakOrder.Cycle body w.components) (hhead : body.first? = some head)
    (hprevs : g.parentsOf head = .ok prevs) (hfuel : w.components.allHeads.length < fuel)
    (hnot : ∀ prev ∈ prevs, prev ≠ head ∧ ¬ WeakOrder.Beside body prev w.components) :
    EntriesExact g w fuel body head prevs := by
  have hvalid := Wto.valid_of_ofCfg hg h
  have hheads := Wto.collectHeads_of_ofCfg hg h hfuel
  have htest : ∀ prev ∈ prevs,
      (nestingGt (w.components.nesting prev) (w.components.nesting head) = true ↔
        isComponentMember prev (.component body .nil) = true) := by
    intro prev hprev
    obtain ⟨hne, hside⟩ := hnot prev hprev
    rw [nestingGt_iff, isComponentMember_iff, WeakOrder.vertices_component, WeakOrder.vertices_nil,
      List.append_nil, WeakOrder.deeper_head_iff hbody hvalid.headed hvalid.nodup hhead hne]
    exact or_iff_left hside
  refine ⟨fun prev hprev => ⟨_, _, hheads prev, hheads head, htest prev hprev⟩, ?_⟩
  intro O C A E D dom prog hprog s
  refine initialInvariant_eq (hprog ▸ hprevs) (hheads head) (fun prev hprev => ⟨_, hheads prev, ?_⟩) s
  exact Bool.eq_iff_iff.mpr (htest prev hprev)

theorem not_beside_of_entriesExact (hg : g.Closed) (h : Wto.ofCfg fuel₀ g = .ok w)
    (hbody : WeakOrder.Cycle body w.components) (hhead : body.first? = some head)
    (hfuel : w.components.allHeads.length < fuel) (hexact : EntriesExact g w fuel body head prevs) :
    ∀ prev ∈ prevs, prev ≠ head ∧ ¬ WeakOrder.Beside body prev w.components := by
  have hvalid := Wto.valid_of_ofCfg hg h
  have hheads := Wto.collectHeads_of_ofCfg hg h hfuel
  intro prev hprev
  obtain ⟨heads, headsOfHead, hp, hh, htest⟩ := hexact.test prev hprev
  obtain rfl := Except.ok.inj ((hheads prev).symm.trans hp)
  obtain rfl := Except.ok.inj ((hheads head).symm.trans hh)
  rw [nestingGt_iff, isComponentMember_iff, WeakOrder.vertices_component, WeakOrder.vertices_nil,
    List.append_nil] at htest
  have hne : prev ≠ head := by
    rintro rfl
    exact absurd (htest.mpr (WeakOrder.mem_of_first? hhead)).1 (lt_irrefl _)
  refine ⟨hne, fun hside => hside.not_mem hvalid.nodup (htest.mp ?_)⟩
  exact (WeakOrder.deeper_head_iff hbody hvalid.headed hvalid.nodup hhead hne).mpr (Or.inr hside)

/-- The test is right exactly when no predecessor is the head or in a cycle beside this one. -/
theorem entriesExact_iff (hg : g.Closed) (h : Wto.ofCfg fuel₀ g = .ok w)
    (hbody : WeakOrder.Cycle body w.components) (hhead : body.first? = some head)
    (hprevs : g.parentsOf head = .ok prevs) (hfuel : w.components.allHeads.length < fuel) :
    EntriesExact g w fuel body head prevs ↔
      ∀ prev ∈ prevs, prev ≠ head ∧ ¬ WeakOrder.Beside body prev w.components :=
  ⟨not_beside_of_entriesExact hg h hbody hhead hfuel,
    entriesExact_of_not_beside hg h hbody hhead hprevs hfuel⟩

/-! ## Two graphs -/

/-- The order of a graph, and the predecessors of a label. -/
theorem exists_order {adjList : OrdMap Label (List Label)} {q : WtoPartition × List Label → Bool}
    (h : (do
      let g ← CfgBuilder.cfgFromAdjacencyList adjList
      let w ← Wto.ofCfg fuel g
      let prevs ← g.parentsOf head
      return (w.components, prevs)).okWith q) :
    ∃ g w prevs, CfgBuilder.cfgFromAdjacencyList adjList = .ok g ∧ Wto.ofCfg fuel g = .ok w ∧
      g.parentsOf head = .ok prevs ∧ q (w.components, prevs) = true := by
  obtain ⟨r, hr, hq⟩ := Except.exists_of_okWith h
  obtain ⟨g, hg, hr⟩ := Except.bind_eq_ok.mp hr
  obtain ⟨w, hw, hr⟩ := Except.bind_eq_ok.mp hr
  obtain ⟨prevs, hprevs, hr⟩ := Except.bind_eq_ok.mp hr
  obtain rfl := Except.ok.inj hr
  exact ⟨g, w, prevs, hg, hw, hprevs, hq⟩

/-- The inner loop of `figure1`. -/
def innerLoop : WtoPartition := .vertex (.ofIndex 5) (.vertex (.ofIndex 6) .nil)

/-- The outer loop of `figure1`. -/
def outerLoop : WtoPartition :=
  .vertex (.ofIndex 3) (.vertex (.ofIndex 4) (.component innerLoop (.vertex (.ofIndex 7) .nil)))

/-- The order of `figure1`. -/
def figure1Order : WtoPartition :=
  .vertex .entry (.vertex (.ofIndex 1) (.vertex (.ofIndex 2)
    (.component outerLoop (.vertex (.ofIndex 8) (.vertex .exit .nil)))))

/-- No loop stands beside another one. -/
theorem not_beside_innerLoop (v : Label) : ¬ WeakOrder.Beside innerLoop v figure1Order := by
  intro hside
  cases hside with
  | here hB => exact absurd (List.mem_singleton.mp hB) (by decide)
  | inside hB' hside =>
    obtain rfl := List.mem_singleton.mp hB'
    cases hside with
    | here _ hB' hne => exact hne (List.mem_singleton.mp hB')
    | inside hB' hside =>
      obtain rfl := List.mem_singleton.mp hB'
      cases hside with
      | here hB => cases hB
      | inside hB' => cases hB'

/-- The inner loop is entered from the outer one. -/
theorem entriesExact_innerLoop : ∃ g w prevs, CfgBuilder.cfgFromAdjacencyList figure1 = .ok g ∧
    Wto.ofCfg 40 g = .ok w ∧ WeakOrder.Cycle innerLoop w.components ∧
    g.parentsOf (.ofIndex 5) = .ok prevs ∧ EntriesExact g w 40 innerLoop (.ofIndex 5) prevs := by
  obtain ⟨g, w, prevs, hg, hw, hprevs, hq⟩ :=
    @exists_order 40 (.ofIndex 5) figure1
      ( fun r => r = (figure1Order, [.ofIndex 4, .ofIndex 6])) (by decide +kernel)
  obtain ⟨hcomp, hps⟩ := Prod.mk.inj (of_decide_eq_true hq)
  have hcyc : WeakOrder.Cycle innerLoop w.components := by
    rw [hcomp]
    exact .inside List.mem_cons_self (.here (List.mem_cons_self : innerLoop ∈ outerLoop.components))
  refine ⟨g, w, prevs, hg, hw, hcyc, hprevs, ?_⟩
  refine (entriesExact_iff (CfgBuilder.cfgFromAdjacencyList_closed hg) hw hcyc rfl hprevs ?_).mpr ?_
  · rw [hcomp]
    decide
  · rw [hps, hcomp]
    intro prev hprev
    refine ⟨?_, not_beside_innerLoop prev⟩
    rintro rfl
    revert hprev
    decide

/-- Two loops, one after the other; the first one is left from its second label. -/
def twoLoops : OrdMap Label (List Label) :=
  [(Label.entry, [.ofIndex 1]), (.ofIndex 1, [.ofIndex 2]), (.ofIndex 2, [.ofIndex 1, .ofIndex 3]),
    (.ofIndex 3, [.ofIndex 4]), (.ofIndex 4, [.ofIndex 3, .exit])].foldl
      (fun m e => m.insert e.1 e.2) ∅

def firstLoop : WtoPartition := .vertex (.ofIndex 1) (.vertex (.ofIndex 2) .nil)

def secondLoop : WtoPartition := .vertex (.ofIndex 3) (.vertex (.ofIndex 4) .nil)

/-- The only label before the second loop is taken for one inside it. -/
theorem not_entriesExact_twoLoops : ∃ g w prevs, CfgBuilder.cfgFromAdjacencyList twoLoops = .ok g ∧
    Wto.ofCfg 40 g = .ok w ∧ WeakOrder.Cycle secondLoop w.components ∧
    g.parentsOf (.ofIndex 3) = .ok prevs ∧ ¬ EntriesExact g w 40 secondLoop (.ofIndex 3) prevs := by
  obtain ⟨g, w, prevs, hg, hw, hprevs, hq⟩ :=
    @exists_order 40 (.ofIndex 3) twoLoops
      ( fun r => r = (.vertex .entry (.component firstLoop (.component secondLoop
        (.vertex .exit .nil))), [.ofIndex 2, .ofIndex 4])) (by decide +kernel)
  obtain ⟨hcomp, hps⟩ := Prod.mk.inj (of_decide_eq_true hq)
  have hsecond : secondLoop ∈ w.components.components := by
    rw [hcomp]
    exact List.mem_cons_of_mem _ List.mem_cons_self
  have hfirst : firstLoop ∈ w.components.components := by
    rw [hcomp]
    exact List.mem_cons_self
  refine ⟨g, w, prevs, hg, hw, .here hsecond, hprevs, fun hexact => ?_⟩
  have hfuel : w.components.allHeads.length < 40 := by
    rw [hcomp]
    decide
  refine (not_beside_of_entriesExact (CfgBuilder.cfgFromAdjacencyList_closed hg) hw (.here hsecond) rfl
    hfuel hexact (.ofIndex 2) (hps ▸ List.mem_cons_self)).2 ?_
  exact .here hsecond hfirst (by decide) (by decide) (by decide)

end Prevail
