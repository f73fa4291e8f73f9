import Prevail.Cfg.WtoValid
import Prevail.Lib.WeakOrderCycles

/-!
# The heads around every label

A label that is not reachable from the entry is in no cycle, so that the heads collected for it are those
of the order as well.
-/

namespace Prevail

namespace WtoBuilder

variable {g : Cfg} {b b' : WtoBuilder} {l : Label} {c : Option Label}

theorem succs_of_childrenOf {ls : List Label} (h : g.childrenOf l = .ok ls) : ls = g.succs l := by
  obtain ⟨n, hn, rfl⟩ := Except.map_eq_ok.mp h
  unfold Cfg.getNode at hn
  unfold Cfg.succs
  cases hfind : g.neighbours.find? l with
  | none =>
    rw [hfind] at hn
    cases hn
  | some n' =>
    rw [hfind] at hn
    rw [← Except.ok.inj hn]

theorem scheduleSuccessors_visitStack {succs : List Label} {c' : Option Label} {t : VisitArgs}
    (ht : t ∈ (b.scheduleSuccessors succs c c').visitStack) : t.vertex ∈ succs ∨ t ∈ b.visitStack := by
  induction succs with
  | nil => exact Or.inr ht
  | cons y succs ih =>
    unfold scheduleSuccessors at ih ht
    rw [List.foldr_cons] at ht
    split_ifs at ht
    · rcases List.mem_cons.mp ht with rfl | ht
      · exact Or.inl List.mem_cons_self
      · exact (ih ht).imp_left (List.mem_cons_of_mem _)
    · exact (ih ht).imp_left (List.mem_cons_of_mem _)

/-- The labels that are visited, or were put into the order, are reachable. -/
structure SeesReachable (g : Cfg) (b : WtoBuilder) : Prop where
  visitStack : ∀ t ∈ b.visitStack, g.Reachable t.vertex
  containing : ∀ l c, b.wto.containingCycle.find? l = some c → g.Reachable l

theorem SeesReachable.schedule {succs : List Label} {c' : Option Label} (h : SeesReachable g b)
    (hl : g.Reachable l) (hs : succs = g.succs l) :
    SeesReachable g (b.scheduleSuccessors succs c c') where
  visitStack t ht := by
    rcases scheduleSuccessors_visitStack ht with hmem | hmem
    · exact hl.tail (hs ▸ hmem)
    · exact h.visitStack t hmem
  containing l' c hc := h.containing l' c (by rwa [scheduleSuccessors_wto] at hc)

theorem Step.seesReachable (hstep : Step g b b') (h : SeesReachable g b) : SeesReachable g b' := by
  obtain ⟨⟨type, l, p, c⟩, rest, hvs, htask⟩ := hstep
  have hl : g.Reachable l := h.visitStack ⟨type, l, p, c⟩ (hvs ▸ List.mem_cons_self)
  have hrest : ∀ t ∈ rest, g.Reachable t.vertex := fun t ht =>
    h.visitStack t (hvs ▸ List.mem_cons_of_mem _ ht)
  have hpush : ∀ {b₁ : WtoBuilder} {t : VisitArgs}, t.vertex = l → b₁.visitStack = t :: rest →
      b₁.wto.containingCycle = b.wto.containingCycle → SeesReachable g b₁ := by
    intro b₁ t ht hvs₁ hwto
    refine ⟨fun t' ht' => ?_, fun l' c hc => h.containing l' c (hwto ▸ hc)⟩
    rw [hvs₁] at ht'
    rcases List.mem_cons.mp ht' with rfl | ht'
    · rwa [ht]
    · exact hrest t' ht'
  have hemplace : ∀ {b₁ : WtoBuilder}, b₁.visitStack = rest →
      b₁.wto.containingCycle = b.wto.containingCycle.emplace l c → SeesReachable g b₁ := by
    intro b₁ hvs₁ hwto
    refine ⟨fun t ht => hrest t (hvs₁ ▸ ht), fun l' c' hc => ?_⟩
    rw [hwto, OrdMap.find?_emplace] at hc
    split_ifs at hc with heq
    · rwa [heq]
    · exact h.containing l' c' hc
  have hsame : ∀ {b₁ : WtoBuilder}, b₁.visitStack = rest →
      b₁.wto.containingCycle = b.wto.containingCycle → SeesReachable g b₁ := fun hvs₁ hwto =>
    ⟨fun t ht => hrest t (hvs₁ ▸ ht), fun l' c' hc => h.containing l' c' (hwto ▸ hc)⟩
  cases type with
  | pushSuccessors =>
    unfold task pushSuccessors at htask
    dsimp only at htask
    split_ifs at htask with h0
    · rw [← Except.ok.inj htask]
      exact hsame rfl rfl
    · obtain ⟨ls, hls, heq⟩ := Except.bind_eq_ok.mp htask
      rw [← Except.ok.inj heq]
      refine SeesReachable.schedule ?_ hl (succs_of_childrenOf hls)
      exact hpush (t := ⟨.startVisit, l, p, c⟩) rfl rfl rfl
  | startVisit =>
    unfold task startVisit at htask
    obtain ⟨ls, hls, htask⟩ := Except.bind_eq_ok.mp htask
    dsimp only at htask
    split_ifs at htask
    · rw [← Except.ok.inj htask]
      refine SeesReachable.schedule ?_ hl (succs_of_childrenOf hls)
      exact hpush (t := ⟨.continueVisit, l, p, some l⟩) rfl rfl rfl
    · rw [← Except.ok.inj htask]
      refine hemplace rfl ?_
      unfold emplaceVertex
      dsimp only
      rw [Wto.containingCycle_prepend]
    · rw [← Except.ok.inj htask]
      exact hsame rfl rfl
  | continueVisit =>
    rw [← Except.ok.inj htask]
    refine hemplace rfl ?_
    unfold continueVisit
    dsimp only
    rw [Wto.containingCycle_prepend, Wto.containingCycle_prepend]

theorem seesReachable_start : SeesReachable g (start g) where
  visitStack t ht := by
    obtain rfl := List.mem_singleton.mp ht
    exact .refl
  containing l c hc := by cases hc

end WtoBuilder

namespace Wto

variable {g : Cfg} {w : Wto} {l : Label} {fuel : ℕ}

theorem collectHeads_of_unreachable (hl : w.containingCycle.find? l = none) (hfuel : 0 < fuel) :
    w.collectHeads fuel l = .ok [] := by
  obtain ⟨fuel, rfl⟩ := Nat.exists_eq_add_of_le' hfuel
  have hhead : w.head l = .ok none := by
    unfold head
    rw [hl]
    rfl
  unfold collectHeads
  rw [hhead]
  rfl

/-- The heads that are collected for a label, also for one that is not reachable. -/
theorem collectHeads_of_ofCfg (hg : g.Closed) {fuel₀ : ℕ} (h : ofCfg fuel₀ g = .ok w)
    (hfuel : w.components.allHeads.length < fuel) (l : Label) :
    w.collectHeads fuel l = .ok (w.components.nesting l) := by
  obtain ⟨b, P, hruns, hend, rfl, -, hbatch⟩ := WtoBuilder.exists_run hg
  obtain ⟨n, hn⟩ := WtoBuilder.run_of_runs hruns hend
  have hw : w = b.wto := by
    refine @ofCfg_unique _ _ _ _ n h ?_
    unfold ofCfg
    rw [hn n le_rfl]
    rfl
  have hsees : WtoBuilder.SeesReachable g b := by
    clear hend hbatch hn hw
    induction hruns with
    | refl => exact WtoBuilder.seesReachable_start
    | tail _ hstep ih => exact hstep.seesReachable ih
  have hmem := (valid_of_ofCfg hg h).mem l
  rw [hw] at hfuel hmem ⊢
  by_cases hl : g.Reachable l
  · obtain ⟨c, hc, hhead⟩ := hbatch.placed.exists_around .top hbatch.nodup (hmem.mpr hl) (by simp)
    rw [List.append_nil] at hc hhead
    refine collectHeads_of_around hc hhead (lt_of_le_of_lt ?_ hfuel)
    unfold WeakOrder.nesting
    rw [List.length_reverse]
    exact (List.length_filter_le _ _).trans (WeakOrder.length_heads_le _ _)
  · have hnone : b.wto.containingCycle.find? l = none := by
      cases hfind : b.wto.containingCycle.find? l with
      | none => rfl
      | some c => exact absurd (hsees.containing l c hfind) hl
    have hnil : b.wto.components.nesting l = [] := by
      unfold WeakOrder.nesting
      rw [WeakOrder.heads_eq_nil (mt hmem.mp hl)]
      rfl
    rw [hnil, collectHeads_of_unreachable hnone (Nat.zero_lt_of_lt hfuel)]

end Wto

end Prevail
