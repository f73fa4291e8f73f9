import Mathlib.Data.Finset.Card
import Prevail.Cfg.WtoInvariant

/-!
# What a batch of tasks leaves behind

`Batch` compares the builder before and after the tasks that visit the labels `ts` in the partition
`c`: the part `A` of the stack above the old stack is completed, the labels of `P` are done and are
the new components of the partition, edges from them lead forward in `P` or to labels that were done
before. `Batch.append` composes batches; `Explored` is the batch of the successors of a label that
has just been pushed.
-/

namespace Prevail

/-! ## Partitions that grow -/

namespace Wto

variable {w w' : Wto} {c : Option Label} {P Q : WtoPartition} {v : Label}

@[simp] theorem containingCycle_prepend : (w.prepend c P).containingCycle = w.containingCycle := by
  unfold prepend
  split
  · rfl
  · split <;> rfl

theorem components_prepend :
    (w.prepend c P).components = if c = none then P.append w.components else w.components := by
  unfold prepend
  split
  · rfl
  · split <;> rfl

theorem find?_cycles_prepend : (w.prepend c P).cycles.find? v =
    (w.cycles.find? v).map fun cycle =>
      if c = some v then { cycle with components := P.append cycle.components } else cycle := by
  unfold prepend
  split
  · simp
  · next c' =>
    simp only [Option.some.injEq]
    split
    · next cycle hcycle =>
      rw [OrdMap.find?_insert]
      by_cases hv : v = c'
      · rw [if_pos hv, hv, hcycle, Option.map_some, if_pos rfl]
      · simp [hv, Ne.symm hv]
    · next hcycle =>
      by_cases hv : c' = v
      · rw [← hv, hcycle]
        rfl
      · simp [hv]

theorem find?_cycles_prepend_of_ne (h : c ≠ some v) :
    (w.prepend c P).cycles.find? v = w.cycles.find? v := by
  rw [find?_cycles_prepend]
  simp [h]

theorem find?_cycles_prepend_congr (h : w'.cycles.find? v = (w.prepend c P).cycles.find? v) :
    (w'.prepend c Q).cycles.find? v = (w.prepend c (Q.append P)).cycles.find? v := by
  rw [find?_cycles_prepend, h, find?_cycles_prepend, find?_cycles_prepend, Option.map_map]
  congr 1
  funext cycle
  show (if _ then _ else _) = _
  split_ifs <;> simp [WeakOrder.append_assoc]

theorem components_prepend_congr (h : w'.components = (w.prepend c P).components) :
    (w'.prepend c Q).components = (w.prepend c (Q.append P)).components := by
  rw [components_prepend, h, components_prepend, components_prepend]
  split_ifs
  · rw [WeakOrder.append_assoc]
  · rfl

/-- The components of `P` are registered, with `c` around them. -/
inductive Placed (w : Wto) : Option Label → WtoPartition → Prop
  | nil {c : Option Label} : Placed w c .nil
  | vertex {c : Option Label} {a : Label} {rest : WtoPartition}
      (ha : w.containingCycle.find? a = some c) (hrest : Placed w c rest) :
      Placed w c (.vertex a rest)
  | component {c : Option Label} {h : Label} {body rest : WtoPartition}
      (hh : w.containingCycle.find? h = some (some h))
      (hcycle : w.cycles.find? h = some ⟨.vertex h body, c⟩) (hbody : Placed w (some h) body)
      (hrest : Placed w c rest) : Placed w c (.component (.vertex h body) rest)

theorem Placed.congr (h : Placed w c P) (hw : ∀ v ∈ P.vertices,
    w'.containingCycle.find? v = w.containingCycle.find? v ∧
    w'.cycles.find? v = w.cycles.find? v) : Placed w' c P := by
  induction h with
  | nil => exact .nil
  | @vertex c a rest ha _ ih =>
    refine .vertex ?_ (ih fun v hv => hw v (List.mem_cons_of_mem _ hv))
    rw [(hw a List.mem_cons_self).1]
    exact ha
  | @component c h body rest hh hcycle _ _ ihb ih =>
    have hmem : h ∈ (WeakOrder.component (.vertex h body) rest).vertices := List.mem_cons_self
    refine .component ?_ ?_ (ihb fun v hv => hw v ?_) (ih fun v hv => hw v ?_)
    · rw [(hw h hmem).1]
      exact hh
    · rw [(hw h hmem).2]
      exact hcycle
    · exact List.mem_append_left _ (List.mem_cons_of_mem _ hv)
    · exact List.mem_append_right _ hv

theorem Placed.append (hP : Placed w c P) (hQ : Placed w c Q) : Placed w c (P.append Q) := by
  induction hP with
  | nil => exact hQ
  | vertex ha _ ih => exact .vertex ha (ih hQ)
  | component hh hcycle hbody _ _ ih => exact .component hh hcycle hbody (ih hQ)

end Wto

namespace WtoBuilder

variable {g : Cfg} {b b' b₁ b₂ : WtoBuilder} {v x y z t : Label} {c : Option Label}
  {ts ts₁ ts₂ A A₁ A₂ : List Label} {P P₁ P₂ : WtoPartition}

/-! ## Counting -/

def newLabels (g : Cfg) (b : WtoBuilder) : Finset Label :=
  g.labels.toFinset.filter fun v => b.dfn v = 0

def openLabels (g : Cfg) (b : WtoBuilder) : Finset Label :=
  g.labels.toFinset.filter fun v => b.dfn v ≠ ⊤

/-- A bound on the numbers that are given. -/
def budget (g : Cfg) (b : WtoBuilder) : ℕ :=
  b.num + (g.labels.length + 1) * (openLabels g b).card + (newLabels g b).card

theorem card_newLabels_le (h : ∀ v, b.Seen v → b'.Seen v) :
    (newLabels g b').card ≤ (newLabels g b).card := by
  refine Finset.card_le_card fun v hv => ?_
  obtain ⟨hl, hv⟩ := Finset.mem_filter.mp hv
  exact Finset.mem_filter.mpr ⟨hl, by_contra fun hs => h v hs hv⟩

theorem card_newLabels_lt (h : ∀ v, b.Seen v → b'.Seen v) (ht : t ∈ g.labels) (hnew : ¬ b.Seen t)
    (hseen : b'.Seen t) : (newLabels g b').card < (newLabels g b).card := by
  refine Finset.card_lt_card (Finset.ssubset_iff_of_subset (fun v hv => ?_) |>.mpr ⟨t, ?_, ?_⟩)
  · obtain ⟨hl, hv⟩ := Finset.mem_filter.mp hv
    exact Finset.mem_filter.mpr ⟨hl, by_contra fun hs => h v hs hv⟩
  · exact Finset.mem_filter.mpr ⟨List.mem_toFinset.mpr ht, not_not.mp hnew⟩
  · exact fun hmem => hseen (Finset.mem_filter.mp hmem).2

theorem card_newLabels_le_length : (newLabels g b).card ≤ g.labels.length :=
  (Finset.card_filter_le _ _).trans (List.toFinset_card_le _)

theorem card_openLabels_le (h : ∀ v, b.Done v → b'.Done v) :
    (openLabels g b').card ≤ (openLabels g b).card := by
  refine Finset.card_le_card fun v hv => ?_
  obtain ⟨hl, hv⟩ := Finset.mem_filter.mp hv
  exact Finset.mem_filter.mpr ⟨hl, fun hd => hv (h v hd)⟩

theorem card_openLabels_lt (h : ∀ v, b.Done v → b'.Done v) (ht : t ∈ g.labels) (hnot : ¬ b.Done t)
    (hdone : b'.Done t) : (openLabels g b').card < (openLabels g b).card := by
  refine Finset.card_lt_card (Finset.ssubset_iff_of_subset (fun v hv => ?_) |>.mpr ⟨t, ?_, ?_⟩)
  · obtain ⟨hl, hv⟩ := Finset.mem_filter.mp hv
    exact Finset.mem_filter.mpr ⟨hl, fun hd => hv (h v hd)⟩
  · exact Finset.mem_filter.mpr ⟨List.mem_toFinset.mpr ht, hnot⟩
  · exact fun hmem => (Finset.mem_filter.mp hmem).2 hdone

theorem budget_congr (hdfn : b'.dfn = b.dfn) (hnum : b'.num = b.num) :
    budget g b' = budget g b := by
  unfold budget openLabels newLabels
  rw [hdfn, hnum]

/-- A label that becomes done pays for the labels that become new. -/
theorem budget_le_of_done (hnum : b'.num = b.num) (h : ∀ v, b.Done v → b'.Done v)
    (ht : t ∈ g.labels) (hnot : ¬ b.Done t) (hdone : b'.Done t) : budget g b' ≤ budget g b := by
  have hlt := card_openLabels_lt h ht hnot hdone
  have hle : (newLabels g b').card ≤ g.labels.length := card_newLabels_le_length
  have hmul := Nat.mul_le_mul_left (g.labels.length + 1) (Nat.succ_le_of_lt hlt)
  rw [Nat.succ_eq_add_one, Nat.mul_add, Nat.mul_one] at hmul
  unfold budget
  omega

/-! ## Batches -/

/-- A path from `t` to `v` over labels that are new. -/
def NewPath (g : Cfg) (b : WtoBuilder) (t v : Label) : Prop :=
  ¬ b.Seen t ∧ Relation.ReflTransGen (fun x y => y ∈ g.succs x ∧ ¬ b.Seen y) t v

theorem NewPath.mono (h : NewPath g b' t v) (hb : ∀ x, ¬ b'.Seen x → ¬ b.Seen x) :
    NewPath g b t v :=
  ⟨hb t h.1, Relation.ReflTransGen.mono (fun _ y hxy => ⟨hxy.1, hb y hxy.2⟩) _ _ h.2⟩

theorem NewPath.head (h : NewPath g b t v) (hx : ¬ b.Seen x) (ht : t ∈ g.succs x) :
    NewPath g b x v :=
  ⟨hx, Relation.ReflTransGen.head ⟨ht, h.1⟩ h.2⟩

/-- The cycle whose partition grows has been opened. -/
def Open (b : WtoBuilder) (c : Option Label) : Prop :=
  ∀ h, c = some h → b.Done h ∧ ∃ cycle, b.wto.cycles.find? h = some cycle

structure Batch (g : Cfg) (b : WtoBuilder) (c : Option Label) (ts : List Label) (b' : WtoBuilder)
    (A : List Label) (P : WtoPartition) : Prop where
  data : ∀ v, b.Seen v → b'.data v = b.data v
  budget : budget g b' ≤ budget g b
  num : b.num ≤ b'.num
  stack : b'.stack = A ++ b.stack
  completed : ∀ a ∈ A, b'.Seen a ∧ b'.headDfn a ≠ 0
  all : ∀ t ∈ ts, b'.Seen t
  closed : ∀ v, ¬ b.Seen v → b'.Seen v → ∀ y ∈ g.succs v, b'.Seen y
  done : ∀ v, ¬ b.Seen v → b'.Done v → ∀ y ∈ g.succs v, b'.Done y
  root : ∀ a ∈ A, ∃ t ∈ ts, t ∈ A ∧ b'.headDfn t ≤ b'.headDfn a
  reach : ∀ v, ¬ b.Seen v → b'.Seen v → ∃ t ∈ ts, NewPath g b t v
  nodup : P.vertices.Nodup
  mem : ∀ v, v ∈ P.vertices ↔ ¬ b.Seen v ∧ b'.Done v
  forward : ∀ u ∈ P.vertices, ∀ y ∈ g.succs u, b.Done y ∨ P.Forward u y
  components : b'.wto.components = (b.wto.prepend c P).components
  cycles : ∀ v, b.Seen v → b'.wto.cycles.find? v = (b.wto.prepend c P).cycles.find? v
  containing : ∀ v, b.Seen v →
    b'.wto.containingCycle.find? v = b.wto.containingCycle.find? v
  placed : b'.wto.Placed c P
  first : ∀ t, ts = [t] → ¬ b.Seen t → A = [] → P.vertices.head? = some t
  looped : ∀ h ∈ P.allHeads, ∃ t ∈ ts, ∃ u, NewPath g b t u ∧ h ∈ g.succs u

namespace Batch

theorem seen (h : Batch g b c ts b' A P) (hv : b.Seen v) : b'.Seen v :=
  (seen_of_data (h.data v hv)).mpr hv

theorem not_seen (h : Batch g b c ts b' A P) (hv : ¬ b'.Seen v) : ¬ b.Seen v := fun hs =>
  hv (h.seen hs)

theorem done_iff (h : Batch g b c ts b' A P) (hv : b.Seen v) : b'.Done v ↔ b.Done v :=
  done_of_data (h.data v hv)

theorem done_mono (h : Batch g b c ts b' A P) (hv : b.Done v) : b'.Done v :=
  (h.done_iff hv.seen).mpr hv

theorem isOpen (h : Batch g b c ts b' A P) (hc : Open b c) : Open b' c := by
  intro v hv
  obtain ⟨hd, cycle, hcycle⟩ := hc v hv
  refine ⟨h.done_mono hd, ?_⟩
  rw [h.cycles v hd.seen, Wto.find?_cycles_prepend, hcycle]
  exact ⟨_, rfl⟩

/-- The top of the stack was new before. -/
theorem new_of_mem (h : Batch g b c ts b' A P) (hb : Inv g b) (hb' : Inv g b') (hv : v ∈ A) :
    ¬ b.Seen v := by
  intro hs
  have hon : v ∈ b'.stack := by
    rw [h.stack]
    exact List.mem_append_left _ hv
  obtain ⟨-, hnd⟩ := (hb'.mem_stack v).mp hon
  have hold : v ∈ b.stack := (hb.mem_stack v).mpr ⟨hs, fun hd => hnd (h.done_mono hd)⟩
  have hnodup := hb'.nodup
  rw [h.stack] at hnodup
  exact (List.disjoint_of_nodup_append hnodup) hv hold

/-- Nothing was to be done. -/
theorem refl (b : WtoBuilder) (h : ∀ t ∈ ts, b.Seen t) : Batch g b c ts b [] .nil where
  data _ _ := rfl
  budget := le_rfl
  num := le_rfl
  stack := rfl
  completed := by simp
  all := h
  closed v hv hv' := absurd hv' hv
  done v hv hd := absurd hd.seen hv
  root := by simp
  reach v hv hv' := absurd hv' hv
  nodup := List.nodup_nil
  mem v := by
    simp only [WeakOrder.vertices_nil, List.not_mem_nil, false_iff, not_and]
    exact fun hv hd => hv hd.seen
  forward := by simp
  components := by rw [Wto.components_prepend, WeakOrder.nil_append, ite_self]
  cycles v _ := by
    rw [Wto.find?_cycles_prepend]
    simp
  containing _ _ := rfl
  placed := .nil
  first t ht hnew := absurd (h t (ht ▸ List.mem_singleton_self t)) hnew
  looped := by simp [WeakOrder.allHeads]

/-- Without labels to visit nothing happens. -/
theorem seen_iff_of_nil (h : Batch g b c [] b' A P) : b'.Seen v ↔ b.Seen v := by
  refine ⟨fun hv => by_contra fun hnew => ?_, h.seen⟩
  obtain ⟨t, ht, -⟩ := h.reach v hnew hv
  cases ht

theorem vertices_of_nil (h : Batch g b c [] b' A P) : P.vertices = [] := by
  refine List.eq_nil_iff_forall_not_mem.mpr fun v hv => ?_
  obtain ⟨hnew, hd⟩ := (h.mem v).mp hv
  exact hnew (h.seen_iff_of_nil.mp hd.seen)

/-- One batch after the other. -/
theorem append (hc : Open b c) (h₁ : Batch g b c ts₁ b₁ A₁ P₁) (h₂ : Batch g b₁ c ts₂ b₂ A₂ P₂) :
    Batch g b c (ts₁ ++ ts₂) b₂ (A₂ ++ A₁) (P₂.append P₁) := by
  have hnodup : (P₂.append P₁).vertices.Nodup := by
    rw [WeakOrder.vertices_append]
    refine h₂.nodup.append h₁.nodup fun v hv₂ hv₁ => ?_
    exact ((h₂.mem v).mp hv₂).1 ((h₁.mem v).mp hv₁).2.seen
  refine ⟨?_, h₂.budget.trans h₁.budget, h₁.num.trans h₂.num, ?_, ?_, ?_, ?_, ?_, ?_, ?_, hnodup, ?_,
    ?_, ?_, ?_, ?_, ?_, ?_, ?_⟩
  · intro v hv
    rw [h₂.data v (h₁.seen hv), h₁.data v hv]
  · rw [h₂.stack, h₁.stack, List.append_assoc]
  · intro a ha
    rcases List.mem_append.mp ha with ha | ha
    · exact h₂.completed a ha
    · obtain ⟨hs, h0⟩ := h₁.completed a ha
      refine ⟨h₂.seen hs, ?_⟩
      unfold headDfn at h0 ⊢
      rwa [h₂.data a hs]
  · intro t ht
    rcases List.mem_append.mp ht with ht | ht
    · exact h₂.seen (h₁.all t ht)
    · exact h₂.all t ht
  · intro v hv hv' y hy
    by_cases hs : b₁.Seen v
    · exact h₂.seen (h₁.closed v hv hs y hy)
    · exact h₂.closed v hs hv' y hy
  · intro v hv hd y hy
    by_cases hs : b₁.Seen v
    · exact h₂.done_mono (h₁.done v hv ((h₂.done_iff hs).mp hd) y hy)
    · exact h₂.done v hs hd y hy
  · intro a ha
    rcases List.mem_append.mp ha with ha | ha
    · obtain ⟨t, ht, htA, hle⟩ := h₂.root a ha
      exact ⟨t, List.mem_append_right _ ht, List.mem_append_left _ htA, hle⟩
    · obtain ⟨t, ht, htA, hle⟩ := h₁.root a ha
      refine ⟨t, List.mem_append_left _ ht, List.mem_append_right _ htA, ?_⟩
      unfold headDfn at hle ⊢
      rwa [h₂.data t (h₁.completed t htA).1, h₂.data a (h₁.completed a ha).1]
  · intro v hv hv'
    by_cases hs : b₁.Seen v
    · obtain ⟨t, ht, hpath⟩ := h₁.reach v hv hs
      exact ⟨t, List.mem_append_left _ ht, hpath⟩
    · obtain ⟨t, ht, hpath⟩ := h₂.reach v hs hv'
      exact ⟨t, List.mem_append_right _ ht, hpath.mono fun x => h₁.not_seen⟩
  · intro v
    rw [WeakOrder.vertices_append, List.mem_append, h₁.mem, h₂.mem]
    constructor
    · rintro (⟨hs, hd⟩ | ⟨hs, hd⟩)
      · exact ⟨h₁.not_seen hs, hd⟩
      · exact ⟨hs, h₂.done_mono hd⟩
    · rintro ⟨hs, hd⟩
      by_cases hs₁ : b₁.Seen v
      · exact Or.inr ⟨hs, (h₂.done_iff hs₁).mp hd⟩
      · exact Or.inl ⟨hs₁, hd⟩
  · intro u hu y hy
    rw [WeakOrder.vertices_append, List.mem_append] at hu
    rcases hu with hu | hu
    · rcases h₂.forward u hu y hy with hd | hf
      · by_cases hs : b.Seen y
        · exact Or.inl ((h₁.done_iff hs).mp hd)
        · exact Or.inr (WeakOrder.forward_across hnodup hu ((h₁.mem y).mpr ⟨hs, hd⟩))
      · exact Or.inr (hf.append_left hnodup)
    · exact (h₁.forward u hu y hy).imp_right fun hf => hf.append_right hnodup
  · rw [h₂.components, Wto.components_prepend_congr h₁.components]
  · intro v hv
    rw [h₂.cycles v (h₁.seen hv), Wto.find?_cycles_prepend_congr (h₁.cycles v hv)]
  · intro v hv
    rw [h₂.containing v (h₁.seen hv), h₁.containing v hv]
  · refine h₂.placed.append (h₁.placed.congr fun v hv => ?_)
    obtain ⟨hnew, hd⟩ := (h₁.mem v).mp hv
    refine ⟨h₂.containing v hd.seen, ?_⟩
    rw [h₂.cycles v hd.seen, Wto.find?_cycles_prepend_of_ne]
    exact fun hcv => hnew (hc v hcv).1.seen
  · intro t ht hnew hA
    obtain ⟨rfl, rfl⟩ := List.append_eq_nil_iff.mp hA
    rw [WeakOrder.vertices_append]
    rcases List.append_eq_singleton_iff.mp ht with ⟨rfl, rfl⟩ | ⟨rfl, rfl⟩
    · rw [h₁.vertices_of_nil, List.append_nil]
      exact h₂.first t rfl (fun hs => hnew (h₁.seen_iff_of_nil.mp hs)) rfl
    · rw [h₂.vertices_of_nil, List.nil_append]
      exact h₁.first t rfl hnew rfl
  · intro k hk
    rw [WeakOrder.allHeads_append, List.mem_append] at hk
    rcases hk with hk | hk
    · obtain ⟨t, ht, u, hpath, hu⟩ := h₂.looped k hk
      exact ⟨t, List.mem_append_right _ ht, u, hpath.mono fun x => h₁.not_seen, hu⟩
    · obtain ⟨t, ht, u, hpath, hu⟩ := h₁.looped k hk
      exact ⟨t, List.mem_append_left _ ht, u, hpath, hu⟩

end Batch

end WtoBuilder

end Prevail
