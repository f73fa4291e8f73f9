import Prevail.Cfg.WtoVisit
import Prevail.Lib.Result

/-!
# The run of the construction

The tasks on the stack are done one by one (`Step`). `exists_batch` says that the tasks that visit a
list of labels come to an end and leave a `Batch` behind; the induction is on the number of labels
that are new, since a label that has been pushed is never new again until all of its own visit is
over.
-/

namespace Prevail

namespace WtoBuilder

variable {g : Cfg} {b b' b₁ b₃ b₄ : WtoBuilder} {v x y z t : Label} {c c₄ : Option Label}
  {ts ts₄ A A₄ S : List Label} {P P₄ X : WtoPartition} {head : WithTop ℕ × Bool}
  {rest vs : List VisitArgs}

/-! ## The tasks -/

/-- The task that visits a label in the partition `c`. -/
def pushArgs (c : Option Label) (t : Label) : VisitArgs := ⟨.pushSuccessors, t, c, c⟩

/-- The successors that have no number. -/
def newSuccs (b : WtoBuilder) (succs : List Label) : List Label :=
  succs.filter fun y => b.dfn y = 0

theorem mem_newSuccs {succs : List Label} : y ∈ b.newSuccs succs ↔ y ∈ succs ∧ ¬ b.Seen y := by
  simp [newSuccs, Seen]

theorem scheduleSuccessors_eq (b : WtoBuilder) (succs : List Label) (c : Option Label) :
    b.scheduleSuccessors succs c c =
      { b with visitStack := (b.newSuccs succs).map (pushArgs c) ++ b.visitStack } := by
  induction succs with
  | nil => rfl
  | cons y succs ih =>
    have hcons : b.scheduleSuccessors (y :: succs) c c =
        if b.dfn y = 0 then
          { b with
            visitStack := pushArgs c y :: ((b.newSuccs succs).map (pushArgs c) ++ b.visitStack) }
        else { b with visitStack := (b.newSuccs succs).map (pushArgs c) ++ b.visitStack } := by
      unfold scheduleSuccessors at ih ⊢
      rw [List.foldr_cons, ih]
      rfl
    rw [hcons]
    unfold newSuccs
    by_cases hy : b.dfn y = 0
    · rw [if_pos hy, List.filter_cons_of_pos (by simpa using hy)]
      rfl
    · rw [if_neg hy, List.filter_cons_of_neg (by simpa using hy)]

theorem popTo_append (A S : List Label) (m : OrdMap Label WtoVertexData) (ht : t ∉ A) :
    popTo t (A ++ t :: S) m = (S, A.foldl (fun m a => m.insert a ⟨0, 0⟩) m) := by
  induction A generalizing m with
  | nil => exact if_pos rfl
  | cons a A ih =>
    rw [List.mem_cons, not_or] at ht
    obtain ⟨hat, hA⟩ := ht
    rw [List.cons_append, popTo, if_neg (Ne.symm hat), ih _ hA]
    rfl

theorem find?_foldl_insert (A : List Label) (m : OrdMap Label WtoVertexData) (v : Label) :
    (A.foldl (fun m a => m.insert a ⟨0, 0⟩) m).find? v =
      if v ∈ A then some ⟨0, 0⟩ else m.find? v := by
  induction A generalizing m with
  | nil => simp
  | cons a A ih =>
    rw [List.foldl_cons, ih, OrdMap.find?_insert]
    by_cases hA : v ∈ A
    · simp [hA]
    · by_cases hva : v = a
      · simp [hva]
      · simp [hA, hva]

theorem pushed_pushSuccessors (ht : ¬ b.Seen t) (hl : t ∈ g.labels) :
    ∃ b₁, b.pushSuccessors g t c c = .ok b₁ ∧ Pushed b t b₁ ∧ b₁.visitStack =
      (b₁.newSuccs (g.succs t)).map (pushArgs c) ++ ⟨.startVisit, t, c, c⟩ :: b.visitStack := by
  unfold pushSuccessors
  rw [if_neg (show ¬ (b.data t).dfn ≠ 0 from ht), Cfg.childrenOf_eq_succs hl]
  refine ⟨_, rfl, ?_⟩
  rw [scheduleSuccessors_eq]
  exact ⟨⟨data_setData b t _, rfl, rfl, rfl⟩, rfl⟩

theorem pushSuccessors_of_seen (ht : b.Seen t) : b.pushSuccessors g t c c = .ok b := by
  unfold pushSuccessors
  rw [if_pos (show (b.data t).dfn ≠ 0 from ht)]
  rfl

theorem startVisit_eq (hl : t ∈ g.labels)
    (hhead : head = (g.succs t).foldl b.lowerHead (b.dfn t, false)) :
    b.startVisit g t c c = .ok (
      if head.1 = b.dfn t then
        if head.2 then b.openCycle t head.1 (g.succs t) c c else b.emplaceVertex t head.1 c c
      else b.setData t { b.data t with headDfn := head.1 }) := by
  subst hhead
  unfold startVisit dfn
  rw [Cfg.childrenOf_eq_succs hl]
  show (if _ then _ else _) = _
  split_ifs <;> rfl

/-- The builder with which `start_visit` opens a cycle. -/
theorem popped_openCycle (hstack : b.stack = A ++ t :: S) (ht : t ∉ A) :
    Popped b A t S (b.openCycle t head.1 (g.succs t) c c) := by
  unfold openCycle
  rw [hstack, popTo_append A S _ ht, scheduleSuccessors_eq]
  have hdata : ∀ v, (((A.foldl (fun m a => m.insert a ⟨0, 0⟩) b.vertexData).insert t
      ⟨⊤, head.1⟩).find? v).getD ⟨0, 0⟩ =
      if v = t then ⟨⊤, head.1⟩ else if v ∈ A then ⟨0, 0⟩ else b.data v := by
    intro v
    rw [OrdMap.find?_insert, find?_foldl_insert]
    split_ifs <;> rfl
  refine ⟨?_, ?_, ?_, rfl, rfl⟩
  · show WtoVertexData.dfn (Option.getD _ _) = ⊤
    rw [hdata, if_pos rfl]
  · intro v hv
    refine (hdata v).trans ?_
    rw [if_neg (fun hvt : v = t => ht (hvt ▸ hv)), if_pos hv]
  · intro v hvt hv
    refine (hdata v).trans ?_
    rw [if_neg hvt, if_neg hv]

theorem popped_emplaceVertex (hstack : b.stack = t :: S) :
    Popped b [] t S (b.emplaceVertex t head.1 c c) := by
  refine ⟨?_, by simp, ?_, rfl, ?_⟩
  · show ((b.setData t _).data t).dfn = ⊤
    rw [data_setData, if_pos rfl]
  · intro v hvt _
    show (b.setData t _).data v = b.data v
    rw [data_setData, if_neg hvt]
  · show b.stack.tail = S
    rw [hstack, List.tail_cons]

/-! ## Steps -/

/-- Do the task on top. -/
def Step (g : Cfg) (b b' : WtoBuilder) : Prop :=
  ∃ t rest, b.visitStack = t :: rest ∧ task g t { b with visitStack := rest } = .ok b'

abbrev Runs (g : Cfg) : WtoBuilder → WtoBuilder → Prop := Relation.ReflTransGen (Step g)

theorem run_of_runs (h : Runs g b b') (hend : b'.visitStack = []) :
    ∃ n, ∀ fuel, n ≤ fuel → run g fuel b = .ok b' := by
  induction h using Relation.ReflTransGen.head_induction_on with
  | refl =>
    refine ⟨1, fun fuel hfuel => ?_⟩
    obtain ⟨fuel, rfl⟩ := Nat.exists_eq_add_of_le' hfuel
    unfold run
    rw [hend]
  | head hstep _ ih =>
    obtain ⟨n, hn⟩ := ih
    obtain ⟨t, rest, hvs, htask⟩ := hstep
    refine ⟨n + 1, fun fuel hfuel => ?_⟩
    obtain ⟨fuel, rfl⟩ := Nat.exists_eq_add_of_le' (Nat.le_of_add_left_le hfuel : 1 ≤ fuel)
    unfold run
    rw [hvs]
    show task g t _ >>= run g fuel = _
    rw [htask]
    exact hn fuel (Nat.le_of_add_le_add_right hfuel)

theorem run_mono {fuel fuel' : ℕ} (h : run g fuel b = .ok b') (hle : fuel ≤ fuel') :
    run g fuel' b = .ok b' := by
  induction fuel generalizing b fuel' with
  | zero => cases h
  | succ fuel ih =>
    obtain ⟨fuel', rfl⟩ := Nat.exists_eq_add_of_le' (Nat.one_le_of_lt (Nat.lt_of_succ_le hle))
    unfold run at h ⊢
    cases hvs : b.visitStack with
    | nil =>
      rw [hvs] at h
      exact h
    | cons t rest =>
      rw [hvs] at h
      obtain ⟨b₁, hb₁, h⟩ := Except.bind_eq_ok.mp h
      refine Except.bind_eq_ok.mpr ⟨b₁, hb₁, ?_⟩
      exact ih h (Nat.le_of_succ_le_succ hle)

/-- The tasks that are left do not matter. -/
theorem Inv.withVisitStack (h : Inv g b) (vs : List VisitArgs) :
    Inv g { b with visitStack := vs } :=
  h.congr (fun _ => rfl) rfl rfl h.unplaced

theorem Batch.withVisitStack (h : Batch g b c ts b' A P) (vs vs' : List VisitArgs) :
    Batch g { b with visitStack := vs } c ts { b' with visitStack := vs' } A P :=
  ⟨h.data, h.budget, h.num, h.stack, h.completed, h.all, h.closed, h.done, h.root, h.reach, h.nodup,
    h.mem, h.forward, h.components, h.cycles, h.containing, h.placed, h.first, h.looped⟩

/-- What the tasks of a batch have done when they are over. -/
def Finishes (g : Cfg) (b : WtoBuilder) (c : Option Label) (ts : List Label)
    (rest : List VisitArgs) : Prop :=
  ∃ b' A P, Runs g b b' ∧ b'.visitStack = rest ∧ Inv g b' ∧ Batch g b c ts b' A P

/-- Every batch finishes when fewer than `n` labels are new. -/
def FinishesBelow (g : Cfg) (n : ℕ) : Prop :=
  ∀ (b : WtoBuilder) (c : Option Label) (ts : List Label) (rest : List VisitArgs),
    (newLabels g b).card < n → Inv g b → Open b c → (∀ t ∈ ts, t ∈ g.labels) →
    b.visitStack = ts.map (pushArgs c) ++ rest → Finishes g b c ts rest

/-- The head of `t` is lower: it stays on the stack. -/
theorem Explored.startVisit_active (h : Explored g b c t b' A P)
    (hhead : head = (g.succs t).foldl b'.lowerHead (b'.dfn t, false)) (hroot : head.1 ≠ b'.dfn t) :
    ∃ b₃, b'.startVisit g t c c = .ok b₃ ∧ b₃.visitStack = b'.visitStack ∧ Inv g b₃ ∧
      Batch g b c [t] b₃ (A ++ [t]) P := by
  have hh : HeadOf b' t (g.succs t) head := hhead ▸ headOf_foldl b' t (g.succs t)
  obtain ⟨hinv, hbatch⟩ := h.active hh hroot
  refine ⟨b'.setData t { b'.data t with headDfn := head.1 }, ?_, rfl, hinv, hbatch⟩
  rw [startVisit_eq h.label hhead, if_neg hroot]

/-- Nothing leads back to `t`: it is a component of its own. -/
theorem Explored.startVisit_vertex (h : Explored g b c t b' A P) (hc : Open b c)
    (hhead : head = (g.succs t).foldl b'.lowerHead (b'.dfn t, false)) (hroot : head.1 = b'.dfn t)
    (hloop : head.2 = false) :
    ∃ b₃, b'.startVisit g t c c = .ok b₃ ∧ b₃.visitStack = b'.visitStack ∧ Inv g b₃ ∧
      Batch g b c [t] b₃ [] (.vertex t P) := by
  have hh : HeadOf b' t (g.succs t) head := hhead ▸ headOf_foldl b' t (g.succs t)
  obtain rfl : A = [] := h.eq_nil_of_no_loop hh hloop
  have hp : Popped b' [] t b.stack (b'.emplaceVertex t head.1 c c) :=
    popped_emplaceVertex h.stack
  have hcne : ∀ v, ¬ b.Seen v → c ≠ some v := fun v hv hcv => hv (hc v hcv).1.seen
  have hcontaining : ∀ v, v ≠ t → (b'.emplaceVertex t head.1 c c).wto.containingCycle.find? v =
      b'.wto.containingCycle.find? v := by
    intro v hvt
    show ((b'.wto.prepend c _).containingCycle.emplace t c).find? v = _
    rw [OrdMap.find?_emplace, if_neg hvt, Wto.containingCycle_prepend]
  have hcycles : ∀ v, c ≠ some v → (b'.emplaceVertex t head.1 c c).wto.cycles.find? v =
      b'.wto.cycles.find? v := fun v hv => Wto.find?_cycles_prepend_of_ne hv
  have hinv : Inv g (b'.emplaceVertex t head.1 c c) := by
    refine hp.inv h fun v hv => ?_
    have hvt : v ≠ t := fun hvt => hv (hvt ▸ hp.self)
    have hun := h.after.unplaced v fun hd => hv (hp.done_mono h hd)
    rw [hcontaining v hvt, hcycles v]
    · exact hun
    · exact fun hcv => hv (hp.done_mono h ((h.done_iff (hc v hcv).1.seen).mpr (hc v hcv).1))
  refine ⟨b'.emplaceVertex t head.1 c c, ?_, rfl, hinv, ?_⟩
  · rw [startVisit_eq h.label hhead, if_pos hroot, hloop]
    rfl
  · have h₄ : Batch g (b'.emplaceVertex t head.1 c c) c [] (b'.emplaceVertex t head.1 c c) [] .nil :=
      Batch.refl _ (by simp)
    show Batch g b c [t] _ [] ((WeakOrder.vertex t .nil).append P)
    refine hp.batch h (h.closed_root hh hroot) ?_ hinv h₄ (by simp) rfl ?_ (fun _ => rfl) rfl rfl
      ?_ ?_ ?_ ?_ (by simp [WeakOrder.allHeads])
    · intro y hy hs
      exact absurd (hp.done_mono h (h.done_of_no_loop hh hloop hy)).seen hs
    · intro u hu y hy hy'
      obtain rfl := List.mem_singleton.mp hu
      obtain rfl := List.mem_singleton.mp hy'
      exact absurd (h.done_of_no_loop hh hloop hy) h.not_done_self
    · exact Wto.components_prepend_congr h.components
    · exact fun v hv => Wto.find?_cycles_prepend_congr (h.cycles v hv)
    · intro v hv
      rw [hcontaining v (h.ne_of_seen hv), h.containing v hv]
    · refine .vertex ?_ (h.placed.congr fun v hv => ?_)
      · show ((b'.wto.prepend c _).containingCycle.emplace t c).find? t = _
        rw [OrdMap.find?_emplace, if_pos rfl, Wto.containingCycle_prepend,
          (h.after.unplaced t h.not_done_self).1]
        rfl
      · obtain ⟨hnew, hd⟩ := (h.mem v).mp hv
        exact ⟨hcontaining v fun hvt => h.not_done_self (hvt ▸ hd), hcycles v (hcne v hnew)⟩

/-! ## Cycles -/

/-- A cycle with no component has been made for `t`. -/
structure Opened (b' : WtoBuilder) (c : Option Label) (t : Label) (b₃ : WtoBuilder) : Prop where
  components : b₃.wto.components = b'.wto.components
  self : b₃.wto.cycles.find? t = some ⟨.nil, c⟩
  cycles : ∀ v, v ≠ t → b₃.wto.cycles.find? v = b'.wto.cycles.find? v
  containing : b₃.wto.containingCycle = b'.wto.containingCycle

theorem opened_openCycle : Opened b c t (b.openCycle t head.1 (g.succs t) c c) := by
  unfold openCycle
  rw [scheduleSuccessors_eq]
  exact ⟨rfl, OrdMap.find?_insert_self _ _ _, fun v hv => OrdMap.find?_insert_of_ne hv _, rfl⟩

theorem Explored.startVisit_open (h : Explored g b c t b' A P)
    (hhead : head = (g.succs t).foldl b'.lowerHead (b'.dfn t, false)) (hroot : head.1 = b'.dfn t)
    (hloop : head.2 = true) :
    ∃ b₃, b'.startVisit g t c c = .ok b₃ ∧ Popped b' A t b.stack b₃ ∧ Opened b' c t b₃ ∧
      Inv g b₃ ∧ b₃.visitStack = (b₃.newSuccs (g.succs t)).map (pushArgs (some t)) ++
        ⟨.continueVisit, t, c, some t⟩ :: b'.visitStack := by
  have hp : Popped b' A t b.stack (b'.openCycle t head.1 (g.succs t) c c) :=
    popped_openCycle h.stack h.self_not_mem
  have ho : Opened b' c t (b'.openCycle t head.1 (g.succs t) c c) := opened_openCycle
  refine ⟨b'.openCycle t head.1 (g.succs t) c c, ?_, hp, ho, hp.inv h fun v hv => ?_, ?_⟩
  · rw [startVisit_eq h.label hhead, if_pos hroot, hloop]
    rfl
  · have hvt : v ≠ t := fun hvt => hv (hvt ▸ hp.self)
    rw [ho.containing, ho.cycles v hvt]
    exact h.after.unplaced v fun hd => hv (hp.done_mono h hd)
  · unfold openCycle
    rw [scheduleSuccessors_eq]
    rfl

/-- The cycle of `t` is closed and is put in front of the partition `c`. -/
structure Closes (b₄ : WtoBuilder) (c : Option Label) (t : Label) (P₄ : WtoPartition)
    (b₅ : WtoBuilder) : Prop where
  data : ∀ v, b₅.data v = b₄.data v
  num : b₅.num = b₄.num
  stack : b₅.stack = b₄.stack
  components : b₅.wto.components =
    (b₄.wto.prepend c (.component (.vertex t P₄) .nil)).components
  self : b₅.wto.cycles.find? t = some ⟨.vertex t P₄, c⟩
  cycles : ∀ v, v ≠ t → b₅.wto.cycles.find? v =
    (b₄.wto.prepend c (.component (.vertex t P₄) .nil)).cycles.find? v
  containing : ∀ v, v ≠ t →
    b₅.wto.containingCycle.find? v = b₄.wto.containingCycle.find? v
  containing_self : b₄.wto.containingCycle.find? t = none →
    b₅.wto.containingCycle.find? t = some (some t)

theorem closes_continueVisit (hcycle : b₄.wto.cycles.find? t = some ⟨P₄, c⟩) (hct : c ≠ some t) :
    Closes b₄ c t P₄ (b₄.continueVisit t c (some t)) := by
  set w := b₄.wto.prepend (some t) (.vertex t .nil) with hw
  have hself : w.cycles.find? t = some ⟨.vertex t P₄, c⟩ := by
    rw [hw, Wto.find?_cycles_prepend, hcycle]
    simp
  have hbody : (((some t).bind w.cycles.find?).map WtoCycle.components).getD .nil =
      .vertex t P₄ := by
    show ((w.cycles.find? t).map WtoCycle.components).getD .nil = _
    rw [hself]
    rfl
  have hwto : (b₄.continueVisit t c (some t)).wto =
      { w.prepend c (.component (.vertex t P₄) .nil) with containingCycle :=
        (w.prepend c (.component (.vertex t P₄) .nil)).containingCycle.emplace t (some t) } := by
    unfold continueVisit
    dsimp only
    rw [← hw, hbody]
  refine ⟨fun _ => rfl, rfl, rfl, ?_, ?_, ?_, ?_, ?_⟩
  · rw [hwto]
    show (w.prepend c _).components = _
    rw [Wto.components_prepend, hw, Wto.components_prepend, Wto.components_prepend]
    rfl
  · rw [hwto]
    exact (Wto.find?_cycles_prepend_of_ne hct).trans hself
  · intro v hv
    rw [hwto]
    show (w.prepend c _).cycles.find? v = _
    rw [Wto.find?_cycles_prepend, hw,
      Wto.find?_cycles_prepend_of_ne fun hvt => hv (Option.some.inj hvt).symm,
      Wto.find?_cycles_prepend]
  · intro v hv
    rw [hwto]
    show ((w.prepend c _).containingCycle.emplace t (some t)).find? v = _
    rw [OrdMap.find?_emplace, if_neg hv, Wto.containingCycle_prepend, hw,
      Wto.containingCycle_prepend]
  · intro hnone
    rw [hwto]
    show ((w.prepend c _).containingCycle.emplace t (some t)).find? t = _
    rw [OrdMap.find?_emplace, if_pos rfl, Wto.containingCycle_prepend, hw,
      Wto.containingCycle_prepend, hnone]
    rfl

/-- The component of `t` is done. -/
theorem Explored.cycle {b₅ : WtoBuilder} (h : Explored g b c t b' A P) (hc : Open b c)
    (hh : HeadOf b' t (g.succs t) head) (hroot : head.1 = b'.dfn t) (hloop : head.2 = true)
    (hp : Popped b' A t b.stack b₃) (ho : Opened b' c t b₃)
    (h₄ : Batch g b₃ (some t) (b₃.newSuccs (g.succs t)) b₄ [] P₄) (hb₄ : Inv g b₄)
    (h₅ : Closes b₄ c t P₄ b₅) :
    Inv g b₅ ∧ Batch g b c [t] b₅ [] (.component (.vertex t P₄) P) := by
  have hcne : ∀ v, ¬ b.Seen v → c ≠ some v := fun v hv hcv => hv (hc v hcv).1.seen
  have hcontaining : ∀ v, b₃.Seen v → v ≠ t →
      b₅.wto.containingCycle.find? v = b'.wto.containingCycle.find? v := by
    intro v hv hvt
    rw [h₅.containing v hvt, h₄.containing v hv, ho.containing]
  have hcycles : ∀ v, b₃.Seen v → v ≠ t → b₄.wto.cycles.find? v = b'.wto.cycles.find? v := by
    intro v hv hvt
    rw [h₄.cycles v hv, Wto.find?_cycles_prepend_of_ne fun htv => hvt (Option.some.inj htv).symm,
      ho.cycles v hvt]
  constructor
  · refine hb₄.congr h₅.data h₅.stack h₅.num fun v hv => ?_
    have hvt : v ≠ t := fun hvt => hv (hvt ▸ hp.done_self h₄)
    rw [h₅.containing v hvt, h₅.cycles v hvt, Wto.find?_cycles_prepend_of_ne]
    · exact hb₄.unplaced v hv
    · intro hcv
      exact hv (h₄.done_mono (hp.done_mono h ((h.done_iff (hc v hcv).1.seen).mpr (hc v hcv).1)))
  · show Batch g b c [t] b₅ [] ((WeakOrder.component (.vertex t P₄) .nil).append P)
    have hnodup := hp.nodup_cons h₄
    refine hp.batch h (h.closed_root hh hroot) (fun y hy hs => mem_newSuccs.mpr ⟨hy, hs⟩) hb₄ h₄
      (fun y hy => (mem_newSuccs.mp hy).1) (by simp) ?_ h₅.data h₅.num h₅.stack ?_ ?_ ?_ ?_ ?_
    · intro u hu y hy hy'
      rw [WeakOrder.vertices_component, WeakOrder.vertices_nil, List.append_nil] at hu hy'
      rcases List.mem_cons.mp hy' with rfl | hyP
      · exact WeakOrder.forward_head hu
      rcases List.mem_cons.mp hu with rfl | hu
      · exact WeakOrder.forward_body hnodup hyP
      · refine WeakOrder.Forward.component ((h₄.forward u hu y hy).resolve_left fun hd => ?_) hnodup
        exact ((h₄.mem y).mp hyP).1 hd.seen
    · rw [h₅.components]
      refine Wto.components_prepend_congr ?_
      rw [h₄.components, Wto.components_prepend, if_neg (Option.some_ne_none t), ho.components,
        h.components]
    · intro v hv
      rw [h₅.cycles v (h.ne_of_seen hv)]
      refine Wto.find?_cycles_prepend_congr ?_
      rw [hcycles v (hp.seen_of_seen h hv) (h.ne_of_seen hv), h.cycles v hv]
    · intro v hv
      rw [hcontaining v (hp.seen_of_seen h hv) (h.ne_of_seen hv), h.containing v hv]
    · refine .component (h₅.containing_self ?_) h₅.self ?_ ?_
      · rw [h₄.containing t hp.self.seen, ho.containing]
        exact (h.after.unplaced t h.not_done_self).1
      · refine h₄.placed.congr fun v hv => ?_
        obtain ⟨hnew, -⟩ := (h₄.mem v).mp hv
        have hvt : v ≠ t := fun hvt => hnew (hvt ▸ hp.self.seen)
        refine ⟨h₅.containing v hvt, ?_⟩
        rw [h₅.cycles v hvt, Wto.find?_cycles_prepend_of_ne]
        exact hcne v fun hs => hnew (hp.seen_of_seen h hs)
      · refine h.placed.congr fun v hv => ?_
        obtain ⟨hnew, hd⟩ := (h.mem v).mp hv
        have hvt : v ≠ t := fun hvt => h.not_done_self (hvt ▸ hd)
        have hs : b₃.Seen v := (hp.done_mono h hd).seen
        refine ⟨hcontaining v hs hvt, ?_⟩
        rw [h₅.cycles v hvt, Wto.find?_cycles_prepend_of_ne (hcne v hnew), hcycles v hs hvt]
    · intro k hk
      have hk' : k ∈ (t :: P₄.allHeads) ++ [] := hk
      rw [List.append_nil] at hk'
      rcases List.mem_cons.mp hk' with rfl | hk
      · exact Or.inr ⟨rfl, h.exists_back hh hroot hloop⟩
      · exact Or.inl hk

/-! ## Every batch finishes -/

theorem Step.push {b₁ : WtoBuilder} (hvs : b.visitStack = pushArgs c t :: rest)
    (h : ({ b with visitStack := rest } : WtoBuilder).pushSuccessors g t c c = .ok b₁) :
    Step g b b₁ := ⟨_, _, hvs, h⟩

theorem Step.start (hvs : b.visitStack = ⟨.startVisit, t, c, c⟩ :: rest)
    (h : ({ b with visitStack := rest } : WtoBuilder).startVisit g t c c = .ok b₃) :
    Step g b b₃ := ⟨_, _, hvs, h⟩

theorem Step.continue (hvs : b.visitStack = ⟨.continueVisit, t, c, c₄⟩ :: rest) :
    Step g b (({ b with visitStack := rest } : WtoBuilder).continueVisit t c c₄) :=
  ⟨_, _, hvs, rfl⟩

theorem Pushed.isOpen (hp : Pushed b t b₁) (ht : ¬ b.Seen t) (hc : Open b c) : Open b₁ c := by
  intro v hv
  rw [hp.done_iff ht, hp.wto]
  exact hc v hv

/-- The cycle of a head: its body is visited, and it is closed. -/
theorem finishes_cycle {n : ℕ} (ih : FinishesBelow g n) (hg : g.Closed)
    (hn : (newLabels g b).card < n + 1) (h : Explored g b c t b' A P) (hc : Open b c)
    (hhead : head = (g.succs t).foldl b'.lowerHead (b'.dfn t, false)) (hroot : head.1 = b'.dfn t)
    (hloop : head.2 = true) :
    ∃ b₃ b₅ P', b'.startVisit g t c c = .ok b₃ ∧ Runs g b₃ b₅ ∧ b₅.visitStack = b'.visitStack ∧
      Inv g b₅ ∧ Batch g b c [t] b₅ [] P' := by
  have hh : HeadOf b' t (g.succs t) head := hhead ▸ headOf_foldl b' t (g.succs t)
  obtain ⟨b₃, hstart, hp, ho, hb₃, hvs⟩ := h.startVisit_open hhead hroot hloop
  have hopen : Open b₃ (some t) := by
    rintro v ⟨rfl⟩
    exact ⟨hp.self, _, ho.self⟩
  have hcard : (newLabels g b₃).card < n := by
    have := card_newLabels_lt (fun v => hp.seen_of_seen h) h.label h.new hp.self.seen
    omega
  obtain ⟨b₄, A₄, P₄, hruns, hvs₄, hb₄, h₄⟩ := ih b₃ (some t) (b₃.newSuccs (g.succs t))
    (⟨.continueVisit, t, c, some t⟩ :: b'.visitStack) hcard hb₃ hopen
    (fun y hy => hg.succ t h.label y (mem_newSuccs.mp hy).1) hvs
  obtain rfl : A₄ = [] := hp.eq_nil_of_batch h (h.closed_root hh hroot)
    (fun y hy => (mem_newSuccs.mp hy).1) hb₃ hb₄ h₄
  have hcycle : b₄.wto.cycles.find? t = some ⟨P₄, c⟩ := by
    rw [h₄.cycles t hp.self.seen, Wto.find?_cycles_prepend, ho.self]
    simp
  have hct : c ≠ some t := fun hct => h.new (hc t hct).1.seen
  have hclose : Closes { b₄ with visitStack := b'.visitStack } c t P₄ _ :=
    closes_continueVisit hcycle hct
  obtain ⟨hb₅, h₅⟩ := h.cycle hc hh hroot hloop hp ho (h₄.withVisitStack _ _) (hb₄.withVisitStack _) hclose
  exact ⟨b₃, _, _, hstart, hruns.tail (.continue hvs₄), rfl, hb₅, h₅⟩

/-- The visit of one new label. -/
theorem finishes_visit {n : ℕ} (ih : FinishesBelow g n) (hg : g.Closed) (hb : Inv g b)
    (hn : (newLabels g b).card < n + 1) (hc : Open b c) (hl : t ∈ g.labels) (ht : ¬ b.Seen t)
    (hvs : b.visitStack = pushArgs c t :: rest) : Finishes g b c [t] rest := by
  have hb₀ : Inv g { b with visitStack := rest } := hb.withVisitStack rest
  obtain ⟨b₁, hpush, hp, hvs₁⟩ := pushed_pushSuccessors (b := { b with visitStack := rest })
    (c := c) ht hl
  have hb₁ : Inv g b₁ := hp.inv hb₀ ht hl
  have hcard : (newLabels g b₁).card < n := by
    have := card_newLabels_lt (g := g) (b := b) (fun v hv => hp.seen_iff.mpr (Or.inr hv)) hl ht
      hp.seen_self
    omega
  obtain ⟨b₂, A, P, hruns, hvs₂, hb₂, h₂⟩ := ih b₁ c (b₁.newSuccs (g.succs t)) _ hcard hb₁
    (hp.isOpen ht hc) (fun y hy => hg.succ t hl y (mem_newSuccs.mp hy).1) hvs₁
  have h : Explored g b c t { b₂ with visitStack := rest } A P :=
    (h₂.withVisitStack b₁.visitStack rest).explored (b := b) ⟨hp.data, hp.num, hp.stack, hp.wto⟩ hb
      (hb₂.withVisitStack rest) ht hl (fun y hy => (mem_newSuccs.mp hy).1)
      fun y hy hs => mem_newSuccs.mpr ⟨hy, hs⟩
  have hrun : Runs g b b₂ := hruns.head (.push hvs hpush)
  obtain ⟨head, hhead⟩ : ∃ head, head = (g.succs t).foldl
      ({ b₂ with visitStack := rest } : WtoBuilder).lowerHead
      (({ b₂ with visitStack := rest } : WtoBuilder).dfn t, false) := ⟨_, rfl⟩
  by_cases hroot : head.1 = ({ b₂ with visitStack := rest } : WtoBuilder).dfn t
  · cases hloop : head.2 with
    | false =>
      obtain ⟨b₃, hstart, hvs₃, hb₃, h₃⟩ := h.startVisit_vertex hc hhead hroot hloop
      exact ⟨b₃, _, _, hrun.tail (.start hvs₂ hstart), hvs₃, hb₃, h₃⟩
    | true =>
      obtain ⟨b₃, b₅, P', hstart, hruns', hvs₅, hb₅, h₅⟩ :=
        finishes_cycle ih hg hn h hc hhead hroot hloop
      exact ⟨b₅, _, _, (hrun.tail (.start hvs₂ hstart)).trans hruns', hvs₅, hb₅, h₅⟩
  · obtain ⟨b₃, hstart, hvs₃, hb₃, h₃⟩ := h.startVisit_active hhead hroot
    exact ⟨b₃, _, _, hrun.tail (.start hvs₂ hstart), hvs₃, hb₃, h₃⟩

theorem finishesBelow (hg : g.Closed) (n : ℕ) : FinishesBelow g n := by
  induction n with
  | zero => exact fun b c ts rest h => absurd h (Nat.not_lt_zero _)
  | succ n ih =>
    intro b c ts rest hn hb hc hts hvs
    induction ts generalizing b with
    | nil => exact ⟨b, [], .nil, .refl, hvs, hb, .refl b (by simp)⟩
    | cons t ts ihts =>
      have hts' : ∀ y ∈ ts, y ∈ g.labels := fun y hy => hts y (List.mem_cons_of_mem _ hy)
      obtain ⟨b₁, A₁, P₁, hruns₁, hvs₁, hb₁, h₁⟩ :
          Finishes g b c [t] (ts.map (pushArgs c) ++ rest) := by
        by_cases ht : b.Seen t
        · refine ⟨_, [], .nil, .single (.push hvs (pushSuccessors_of_seen ht)), rfl,
            hb.withVisitStack _, ?_⟩
          exact (Batch.refl b (by simpa using ht)).withVisitStack b.visitStack _
        · exact finishes_visit ih hg hb hn hc (hts t List.mem_cons_self) ht hvs
      have hn₁ : (newLabels g b₁).card < n + 1 :=
        lt_of_le_of_lt (card_newLabels_le fun v hv => h₁.seen hv) hn
      obtain ⟨b₂, A₂, P₂, hruns₂, hvs₂, hb₂, h₂⟩ := ihts b₁ hn₁ hb₁ (h₁.isOpen hc) hts' hvs₁
      exact ⟨b₂, _, _, hruns₁.trans hruns₂, hvs₂, hb₂, h₁.append hc h₂⟩

end WtoBuilder

end Prevail
