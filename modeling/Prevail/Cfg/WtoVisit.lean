import Prevail.Cfg.WtoBatch

/-!
# The visit of one label

A label is pushed (`Pushed`), its successors are visited (`Explored`), and then its head is known.
A label with a lower head stays on the stack (`Explored.active`). Otherwise nothing above it leads
below it (`Explored.closed_root`): it is done, what is above it is taken off the stack (`Popped`) and
visited again as the body of its component, which leaves nothing on the stack
(`Explored.eq_nil_of_batch`).
-/

namespace Prevail

namespace WtoBuilder

variable {g : Cfg} {b b' b₁ b₃ b₄ : WtoBuilder} {v x y z t : Label} {c c₄ : Option Label}
  {ts ts₄ A A₄ : List Label} {P P₄ X : WtoPartition} {head : WithTop ℕ × Bool}

/-! ## Pushing -/

/-- `t` has got the next number. -/
structure Pushed (b : WtoBuilder) (t : Label) (b₁ : WtoBuilder) : Prop where
  data : ∀ v, b₁.data v = if v = t then ⟨(b.num + 1 : ℕ), b.headDfn t⟩ else b.data v
  num : b₁.num = b.num + 1
  stack : b₁.stack = t :: b.stack
  wto : b₁.wto = b.wto

namespace Pushed

theorem data_of_seen (h : Pushed b t b₁) (ht : ¬ b.Seen t) (hv : b.Seen v) :
    b₁.data v = b.data v := by
  rw [h.data, if_neg]
  rintro rfl
  exact ht hv

theorem dfn_self (h : Pushed b t b₁) : b₁.dfn t = (b.num + 1 : ℕ) := by
  unfold dfn
  rw [h.data, if_pos rfl]

theorem seen_self (h : Pushed b t b₁) : b₁.Seen t := by
  intro h0
  exact Nat.succ_ne_zero b.num (WithTop.coe_injective (h.dfn_self.symm.trans h0))

theorem not_done_self (h : Pushed b t b₁) : ¬ b₁.Done t := fun hd =>
  WithTop.natCast_ne_top _ (h.dfn_self.symm.trans hd)

theorem seen_iff (h : Pushed b t b₁) : b₁.Seen v ↔ v = t ∨ b.Seen v := by
  by_cases hv : v = t
  · simp [hv, h.seen_self]
  · rw [seen_of_data (b := b)]
    · simp [hv]
    · rw [h.data, if_neg hv]

theorem done_iff (h : Pushed b t b₁) (ht : ¬ b.Seen t) : b₁.Done v ↔ b.Done v := by
  by_cases hv : v = t
  · subst hv
    exact ⟨fun hd => absurd hd h.not_done_self, fun hd => absurd hd.seen ht⟩
  · refine done_of_data ?_
    rw [h.data, if_neg hv]

theorem inv (h : Pushed b t b₁) (hb : Inv g b) (ht : ¬ b.Seen t) (hl : t ∈ g.labels) :
    Inv g b₁ := by
  have hon : ∀ v ∈ b.stack, b.Seen v := fun v hv => ((hb.mem_stack v).mp hv).1
  have hdfn : ∀ v ∈ b.stack, b₁.dfn v = b.dfn v := fun v hv =>
    congrArg WtoVertexData.dfn (h.data_of_seen ht (hon v hv))
  have hlt : ∀ v ∈ b.stack, b₁.dfn v < b₁.dfn t := by
    intro v hv
    rw [hdfn v hv, h.dfn_self]
    exact lt_of_le_of_lt (hb.le_num v hv) (WithTop.coe_lt_coe.mpr (Nat.lt_succ_self _))
  have hhead : ∀ v ∈ b.stack, b₁.headDfn v = b.headDfn v := fun v hv =>
    congrArg WtoVertexData.headDfn (h.data_of_seen ht (hon v hv))
  have hhead_t : b₁.headDfn t = 0 := by
    rw [← hb.head_new t ht]
    unfold headDfn
    rw [h.data, if_pos rfl]
    rfl
  refine ⟨?_, ?_, ?_, ?_, ?_, ?_, ?_⟩
  · intro v hv
    rcases h.seen_iff.mp hv with rfl | hv
    · exact hl
    · exact hb.label v hv
  · intro v
    rw [h.stack, List.mem_cons, hb.mem_stack, h.seen_iff, h.done_iff ht]
    constructor
    · rintro (rfl | hv)
      · exact ⟨Or.inl rfl, fun hd => ht hd.seen⟩
      · exact ⟨Or.inr hv.1, hv.2⟩
    · rintro ⟨rfl | hv, hd⟩
      · exact Or.inl rfl
      · exact Or.inr ⟨hv, hd⟩
  · rw [h.stack, List.pairwise_cons]
    refine ⟨hlt, hb.sorted.imp_of_mem fun hx hy hxy => ?_⟩
    rw [hdfn _ hx, hdfn _ hy]
    exact hxy
  · rw [h.stack]
    intro v hv
    rcases List.mem_cons.mp hv with rfl | hv
    · rw [h.dfn_self, h.num]
    · rw [hdfn v hv, h.num]
      exact (hb.le_num v hv).trans (WithTop.coe_le_coe.mpr (Nat.le_succ _))
  · intro v hv
    have hvt : v ≠ t := by
      rintro rfl
      exact hv h.seen_self
    rw [← hb.head_new v fun hs => hv (h.seen_iff.mpr (Or.inr hs))]
    unfold headDfn
    rw [h.data, if_neg hvt]
  · rw [h.stack]
    intro v hv hv0
    rcases List.mem_cons.mp hv with rfl | hv
    · exact absurd hhead_t hv0
    · rw [hhead v hv] at hv0
      have hc := hb.completed v hv hv0
      refine ⟨?_, ?_, ?_, ?_⟩
      · rw [hdfn v hv, hhead v hv]
        exact hc.lt
      · intro y hy
        exact h.seen_iff.mpr (Or.inr (hc.seen y hy))
      · rw [h.stack, hhead v hv]
        intro y hy hys
        rcases List.mem_cons.mp hys with rfl | hys
        · exact absurd (hc.seen y hy) ht
        · rw [hdfn y hys]
          exact hc.low y hy hys
      · rw [h.stack, hhead v hv, hdfn v hv]
        intro d hd hd'
        obtain ⟨x, hx, z, hz, hxz, hdx, hdz⟩ := hc.cross d hd hd'
        refine ⟨x, List.mem_cons_of_mem _ hx, z, List.mem_cons_of_mem _ hz, hxz, ?_, ?_⟩
        · rwa [hdfn x hx]
        · rwa [hdfn z hz]
  · intro v hv
    rw [h.wto]
    exact hb.unplaced v fun hd => hv ((h.done_iff ht).mpr hd)

theorem budget_le (h : Pushed b t b₁) (ht : ¬ b.Seen t) (hl : t ∈ g.labels) :
    budget g b₁ ≤ budget g b := by
  have hopen : (openLabels g b₁).card ≤ (openLabels g b).card :=
    card_openLabels_le fun v hv => (h.done_iff ht).mpr hv
  have hnew : (newLabels g b₁).card < (newLabels g b).card :=
    card_newLabels_lt (fun v hv => h.seen_iff.mpr (Or.inr hv)) hl ht h.seen_self
  have hmul := Nat.mul_le_mul_left (g.labels.length + 1) hopen
  unfold budget
  rw [h.num]
  omega

end Pushed

/-! ## Visiting the successors -/

/-- `t` has been pushed and its successors have been visited. -/
structure Explored (g : Cfg) (b : WtoBuilder) (c : Option Label) (t : Label) (b' : WtoBuilder)
    (A : List Label) (P : WtoPartition) : Prop where
  before : Inv g b
  after : Inv g b'
  label : t ∈ g.labels
  new : ¬ b.Seen t
  stack : b'.stack = A ++ t :: b.stack
  data : ∀ v, b.Seen v → b'.data v = b.data v
  budget : b'.budget g ≤ b.budget g
  num : b.num ≤ b'.num
  completed : ∀ a ∈ A, b'.Seen a ∧ b'.headDfn a ≠ 0
  all : ∀ y ∈ g.succs t, b'.Seen y
  closed : ∀ v, v ≠ t → ¬ b.Seen v → b'.Seen v → ∀ y ∈ g.succs v, b'.Seen y
  done : ∀ v, ¬ b.Seen v → b'.Done v → ∀ y ∈ g.succs v, b'.Done y
  root : ∀ a ∈ A, ∃ y ∈ g.succs t, y ∈ A ∧ b'.headDfn y ≤ b'.headDfn a
  reach : ∀ v, ¬ b.Seen v → b'.Seen v → NewPath g b t v
  nodup : P.vertices.Nodup
  mem : ∀ v, v ∈ P.vertices ↔ ¬ b.Seen v ∧ b'.Done v
  forward : ∀ u ∈ P.vertices, ∀ y ∈ g.succs u, b.Done y ∨ P.Forward u y
  components : b'.wto.components = (b.wto.prepend c P).components
  cycles : ∀ v, b.Seen v → b'.wto.cycles.find? v = (b.wto.prepend c P).cycles.find? v
  containing : ∀ v, b.Seen v →
    b'.wto.containingCycle.find? v = b.wto.containingCycle.find? v
  placed : b'.wto.Placed c P
  looped : ∀ k ∈ P.allHeads, ∃ u, NewPath g b t u ∧ k ∈ g.succs u

theorem Batch.explored (h : Batch g b₁ c ts b' A P) (hp : Pushed b t b₁) (hb : Inv g b)
    (hb' : Inv g b') (ht : ¬ b.Seen t) (hl : t ∈ g.labels) (hts : ∀ y ∈ ts, y ∈ g.succs t)
    (hall : ∀ y ∈ g.succs t, ¬ b₁.Seen y → y ∈ ts) : Explored g b c t b' A P := by
  have hseen : ∀ {v}, b.Seen v → b₁.Seen v := fun hv => hp.seen_iff.mpr (Or.inr hv)
  have hnew : ∀ {v}, ¬ b.Seen v → b'.Done v → ¬ b₁.Seen v := by
    intro v hv hd hs
    rcases hp.seen_iff.mp hs with rfl | hs'
    · exact hp.not_done_self ((h.done_iff hs).mp hd)
    · exact hv hs'
  refine ⟨hb, hb', hl, ht, ?_, ?_, h.budget.trans (hp.budget_le ht hl), ?_, h.completed, ?_, ?_, ?_,
    ?_, ?_, h.nodup, ?_, ?_, ?_, ?_, ?_, h.placed, ?_⟩
  · rw [h.stack, hp.stack]
  · intro v hv
    rw [h.data v (hseen hv), hp.data_of_seen ht hv]
  · have := h.num
    rw [hp.num] at this
    omega
  · intro y hy
    by_cases hs : b₁.Seen y
    · exact h.seen hs
    · exact h.all y (hall y hy hs)
  · intro v hvt hv hv' y hy
    refine h.closed v (fun hs => ?_) hv' y hy
    exact (hp.seen_iff.mp hs).elim hvt hv
  · intro v hv hd y hy
    exact h.done v (hnew hv hd) hd y hy
  · intro a ha
    obtain ⟨y, hy, hyA, hle⟩ := h.root a ha
    exact ⟨y, hts y hy, hyA, hle⟩
  · intro v hv hv'
    by_cases hvt : v = t
    · subst hvt
      exact ⟨ht, .refl⟩
    · obtain ⟨y, hy, hpath⟩ := h.reach v (fun hs => (hp.seen_iff.mp hs).elim hvt hv) hv'
      exact (hpath.mono fun x hx hs => hx (hseen hs)).head ht (hts y hy)
  · intro v
    rw [h.mem]
    constructor
    · rintro ⟨hs, hd⟩
      exact ⟨fun hs' => hs (hseen hs'), hd⟩
    · rintro ⟨hs, hd⟩
      exact ⟨hnew hs hd, hd⟩
  · intro u hu y hy
    exact (h.forward u hu y hy).imp_left (hp.done_iff ht).mp
  · rw [h.components, hp.wto]
  · intro v hv
    rw [h.cycles v (hseen hv), hp.wto]
  · intro v hv
    rw [h.containing v (hseen hv), hp.wto]
  · intro k hk
    obtain ⟨y, hy, u, hpath, hu⟩ := h.looped k hk
    exact ⟨u, (hpath.mono fun x hx hs => hx (hseen hs)).head ht (hts y hy), hu⟩

namespace Explored

theorem done_iff (h : Explored g b c t b' A P) (hv : b.Seen v) : b'.Done v ↔ b.Done v :=
  done_of_data (h.data v hv)

theorem mem_stack_iff (h : Explored g b c t b' A P) :
    v ∈ b'.stack ↔ v ∈ A ∨ v = t ∨ v ∈ b.stack := by
  rw [h.stack, List.mem_append, List.mem_cons]

theorem self_mem (h : Explored g b c t b' A P) : t ∈ b'.stack :=
  h.mem_stack_iff.mpr (Or.inr (Or.inl rfl))

theorem not_done_self (h : Explored g b c t b' A P) : ¬ b'.Done t :=
  ((h.after.mem_stack t).mp h.self_mem).2

theorem not_done_of_mem (h : Explored g b c t b' A P) (hv : v ∈ A) : ¬ b'.Done v :=
  ((h.after.mem_stack v).mp (h.mem_stack_iff.mpr (Or.inl hv))).2

theorem ne_of_seen (h : Explored g b c t b' A P) (hv : b.Seen v) : v ≠ t := by
  rintro rfl
  exact h.new hv

theorem new_of_mem (h : Explored g b c t b' A P) (hv : v ∈ A) : ¬ b.Seen v := by
  intro hs
  have hold : v ∈ b.stack := (h.before.mem_stack v).mpr
    ⟨hs, fun hd => h.not_done_of_mem hv ((h.done_iff hs).mpr hd)⟩
  have hnodup := h.after.nodup
  rw [h.stack] at hnodup
  exact (List.disjoint_of_nodup_append hnodup) hv (List.mem_cons_of_mem _ hold)

theorem self_not_mem (h : Explored g b c t b' A P) : t ∉ A := by
  intro ht
  have hnodup := h.after.nodup
  rw [h.stack] at hnodup
  exact (List.disjoint_of_nodup_append hnodup) ht List.mem_cons_self

/-- What is new and seen is done, or it is at or above `t`. -/
theorem done_or_mem (h : Explored g b c t b' A P) (hv : ¬ b.Seen v) (hv' : b'.Seen v) :
    b'.Done v ∨ v ∈ A ∨ v = t := by
  by_cases hd : b'.Done v
  · exact Or.inl hd
  · rcases h.mem_stack_iff.mp ((h.after.mem_stack v).mpr ⟨hv', hd⟩) with hA | rfl | hS
    · exact Or.inr (Or.inl hA)
    · exact Or.inr (Or.inr rfl)
    · exact absurd ((h.before.mem_stack v).mp hS).1 hv

theorem below_lt (h : Explored g b c t b' A P) (hz : z ∈ b.stack) : b'.dfn z < b'.dfn t := by
  have hsort := h.after.sorted
  rw [h.stack, List.pairwise_append, List.pairwise_cons] at hsort
  exact hsort.2.1.1 z hz

/-- The head of `t` is at most the heads above it. -/
theorem head_le (h : Explored g b c t b' A P) (hh : HeadOf b' t (g.succs t) head) (hx : x ∈ A) :
    head.1 ≤ b'.headDfn x := by
  obtain ⟨y, hy, hyA, hle⟩ := h.root x hx
  have hmin := hh.le_succ y hy
  rw [minDfn_of_completed h.after (h.mem_stack_iff.mpr (Or.inl hyA)) (h.completed y hyA).2] at hmin
  exact hmin.trans hle

/-- When `t` is its own head, nothing at or above it leads below it. -/
theorem closed_root (h : Explored g b c t b' A P) (hh : HeadOf b' t (g.succs t) head)
    (hroot : head.1 = b'.dfn t) :
    ∀ x, x ∈ A ∨ x = t → ∀ y ∈ g.succs x, y ∈ A ∨ y = t ∨ b'.Done y := by
  intro x hx y hy
  have hys : b'.Seen y := by
    rcases hx with hx | rfl
    · exact h.closed x (fun hxt => h.self_not_mem (hxt ▸ hx)) (h.new_of_mem hx)
        (h.completed x hx).1 y hy
    · exact h.all y hy
  by_cases hd : b'.Done y
  · exact Or.inr (Or.inr hd)
  have hyst := (h.after.mem_stack y).mpr ⟨hys, hd⟩
  rcases h.mem_stack_iff.mp hyst with hA | rfl | hS
  · exact Or.inl hA
  · exact Or.inr (Or.inl rfl)
  · -- the head would be below `t`
    have hle : head.1 ≤ b'.dfn y := by
      rcases hx with hx | rfl
      · exact (h.head_le hh hx).trans ((h.after.completed x (h.mem_stack_iff.mpr (Or.inl hx))
          (h.completed x hx).2).low y hy hyst)
      · exact (hh.le_succ y hy).trans (minDfn_le h.after hyst)
    rw [hroot] at hle
    exact absurd (h.below_lt hS) (not_lt.mpr hle)

/-- Without a loop there is nothing above `t`. -/
theorem eq_nil_of_no_loop (h : Explored g b c t b' A P) (hh : HeadOf b' t (g.succs t) head)
    (hloop : head.2 = false) : A = [] := by
  by_contra hA
  obtain ⟨x, hx, z, hz, hxz⟩ :=
    h.after.exists_cross h.stack hA fun a ha => (h.completed a ha).2
  have hzst : z ∈ b'.stack := h.mem_stack_iff.mpr (Or.inr (List.mem_cons.mp hz))
  have hzt : b'.dfn z ≤ b'.dfn t := by
    rcases List.mem_cons.mp hz with rfl | hz
    · exact le_rfl
    · exact (h.below_lt hz).le
  obtain ⟨y, hy, hyA, hle⟩ := h.root x hx
  have hlow := (h.after.completed x (h.mem_stack_iff.mpr (Or.inl hx)) (h.completed x hx).2).low
    z hxz hzst
  have hmin := minDfn_of_completed h.after (h.mem_stack_iff.mpr (Or.inl hyA)) (h.completed y hyA).2
  have hyt : b'.minDfn y ≤ b'.dfn t := hmin ▸ hle.trans (hlow.trans hzt)
  have := hh.loop.mpr ⟨y, hy, hyt⟩
  rw [hloop] at this
  cases this

/-- A loop comes back to `t`. -/
theorem exists_back (h : Explored g b c t b' A P) (hh : HeadOf b' t (g.succs t) head)
    (hroot : head.1 = b'.dfn t) (hloop : head.2 = true) :
    ∃ u, NewPath g b t u ∧ t ∈ g.succs u := by
  by_cases hA : A = []
  · -- the successor that has set the head is `t` itself
    obtain ⟨y, hy, hyt⟩ := hh.loop.mp hloop
    have hyst : y ∈ b'.stack := by
      refine (h.after.mem_stack y).mpr ⟨h.all y hy, fun hd => ?_⟩
      rw [minDfn, if_neg fun hcond => hcond.2 hd] at hyt
      exact h.not_done_self (top_le_iff.mp (hd ▸ hyt))
    rcases h.mem_stack_iff.mp hyst with hyA | rfl | hS
    · rw [hA] at hyA
      cases hyA
    · exact ⟨y, ⟨h.new, .refl⟩, hy⟩
    · have hle := (hh.le_succ y hy).trans (minDfn_le h.after hyst)
      rw [hroot] at hle
      exact absurd (h.below_lt hS) (not_lt.mpr hle)
  · obtain ⟨x, hx, z, hz, hxz⟩ :=
      h.after.exists_cross h.stack hA fun a ha => (h.completed a ha).2
    have hzt : z = t := by
      refine (List.mem_cons.mp hz).resolve_right fun hS => ?_
      obtain ⟨hzs, hzd⟩ := (h.before.mem_stack z).mp hS
      rcases h.closed_root hh hroot x (Or.inl hx) z hxz with hzA | rfl | hd
      · exact h.new_of_mem hzA hzs
      · exact h.new hzs
      · exact hzd ((h.done_iff hzs).mp hd)
    exact ⟨x, h.reach x (h.new_of_mem hx) (h.completed x hx).1, hzt ▸ hxz⟩

/-- Without a loop the successors are done. -/
theorem done_of_no_loop (h : Explored g b c t b' A P) (hh : HeadOf b' t (g.succs t) head)
    (hloop : head.2 = false) (hy : y ∈ g.succs t) : b'.Done y := by
  by_contra hd
  have hyst := (h.after.mem_stack y).mpr ⟨h.all y hy, hd⟩
  have hyt : b'.dfn y ≤ b'.dfn t := by
    rcases h.mem_stack_iff.mp hyst with hA | rfl | hS
    · rw [h.eq_nil_of_no_loop hh hloop] at hA
      cases hA
    · exact le_rfl
    · exact (h.below_lt hS).le
  have := hh.loop.mpr ⟨y, hy, (minDfn_le h.after hyst).trans hyt⟩
  rw [hloop] at this
  cases this

/-! ## A label that stays on the stack -/

/-- `t` gets a head. -/
abbrev withHead (b : WtoBuilder) (t : Label) (n : WithTop ℕ) : WtoBuilder :=
  b.setData t { b.data t with headDfn := n }

theorem dfn_withHead {n : WithTop ℕ} : (withHead b t n).dfn = b.dfn := by
  funext v
  unfold dfn
  rw [data_setData]
  split_ifs with hv
  · rw [hv]
  · rfl

theorem seen_withHead {n : WithTop ℕ} : (withHead b t n).Seen = b.Seen := by
  unfold Seen
  rw [dfn_withHead]

theorem done_withHead {n : WithTop ℕ} : (withHead b t n).Done = b.Done := by
  unfold Done
  rw [dfn_withHead]

theorem headDfn_withHead_self {n : WithTop ℕ} : (withHead b t n).headDfn t = n := by
  unfold headDfn
  rw [data_setData, if_pos rfl]

theorem headDfn_withHead {n : WithTop ℕ} (hv : v ≠ t) : (withHead b t n).headDfn v = b.headDfn v := by
  unfold headDfn
  rw [data_setData, if_neg hv]

/-- The other labels keep their heads. -/
theorem completed_withHead_of_ne {n : WithTop ℕ} (hc : Completed g b v) (hv : v ≠ t) :
    Completed g (withHead b t n) v where
  lt := by
    rw [dfn_withHead, headDfn_withHead hv]
    exact hc.lt
  seen := by
    rw [seen_withHead]
    exact hc.seen
  low := by
    rw [dfn_withHead, headDfn_withHead hv]
    exact hc.low
  cross := by
    rw [dfn_withHead, headDfn_withHead hv]
    exact hc.cross

/-- The head of `t` is found along the edge that has set it, or on the way down from its target. -/
theorem completed_withHead (h : Explored g b c t b' A P) (hh : HeadOf b' t (g.succs t) head)
    (hroot : head.1 ≠ b'.dfn t) : Completed g (withHead b' t head.1) t := by
  have hlt : head.1 < b'.dfn t := lt_of_le_of_ne hh.le hroot
  refine ⟨?_, ?_, ?_, ?_⟩
  · rw [dfn_withHead, headDfn_withHead_self]
    exact hlt
  · rw [seen_withHead]
    exact h.all
  · rw [dfn_withHead, headDfn_withHead_self]
    exact fun z hz hzs => (hh.le_succ z hz).trans (minDfn_le h.after hzs)
  · rw [dfn_withHead, headDfn_withHead_self]
    intro d hd hd'
    obtain ⟨y, hy, hyh⟩ := hh.from_succ.resolve_left hroot
    have hyt : b'.minDfn y < ⊤ := hyh ▸ lt_of_lt_of_le hlt le_top
    have hyst : y ∈ b'.stack := by
      refine (h.after.mem_stack y).mpr ⟨h.all y hy, fun hyd => ?_⟩
      rw [minDfn, if_neg fun hcond => hcond.2 hyd] at hyt
      exact hyt.ne hyd
    by_cases hdy : b'.dfn y < d
    · exact ⟨t, h.self_mem, y, hyst, hy, hd', hdy⟩
    · have hy0 : b'.headDfn y ≠ 0 := by
        intro h0
        rw [hyh, minDfn, if_neg fun hcond => hcond.1 h0] at hd
        exact hdy hd
      rw [hyh, minDfn_of_completed h.after hyst hy0] at hd
      exact (h.after.completed y hyst hy0).cross d hd (not_lt.mp hdy)

theorem inv_withHead (h : Explored g b c t b' A P) (hh : HeadOf b' t (g.succs t) head)
    (hroot : head.1 ≠ b'.dfn t) : Inv g (withHead b' t head.1) := by
  refine ⟨?_, ?_, ?_, ?_, ?_, ?_, ?_⟩
  · rw [seen_withHead]
    exact h.after.label
  · rw [seen_withHead, done_withHead]
    exact h.after.mem_stack
  · rw [dfn_withHead]
    exact h.after.sorted
  · rw [dfn_withHead]
    exact h.after.le_num
  · intro v hv
    rw [seen_withHead] at hv
    rw [headDfn_withHead, h.after.head_new v hv]
    rintro rfl
    exact hv (h.after.mem_stack v |>.mp h.self_mem).1
  · intro v hv hv0
    by_cases hvt : v = t
    · subst hvt
      exact h.completed_withHead hh hroot
    · rw [headDfn_withHead hvt] at hv0
      exact completed_withHead_of_ne (h.after.completed v hv hv0) hvt
  · rw [done_withHead]
    exact h.after.unplaced

theorem batch_withHead (h : Explored g b c t b' A P) (hh : HeadOf b' t (g.succs t) head)
    (hroot : head.1 ≠ b'.dfn t) : Batch g b c [t] (withHead b' t head.1) (A ++ [t]) P := by
  have hself : b'.Seen t := (h.after.mem_stack t |>.mp h.self_mem).1
  have hne : ∀ a ∈ A, a ≠ t := fun a ha hat => h.self_not_mem (hat ▸ ha)
  refine ⟨?_, ?_, h.num, ?_, ?_, ?_, ?_, ?_, ?_, ?_, h.nodup, ?_, h.forward, h.components,
    h.cycles, h.containing, h.placed, ?_, ?_⟩
  · intro v hv
    rw [data_setData, if_neg (h.ne_of_seen hv), h.data v hv]
  · rw [budget_congr dfn_withHead rfl]
    exact h.budget
  · show b'.stack = _
    rw [h.stack, List.append_assoc]
    rfl
  · intro a ha
    rw [seen_withHead]
    rcases List.mem_append.mp ha with ha | ha
    · rw [headDfn_withHead (hne a ha)]
      exact h.completed a ha
    · obtain ⟨y, hy, hyh⟩ := hh.from_succ.resolve_left hroot
      rw [List.mem_singleton.mp ha, headDfn_withHead_self, hyh]
      exact ⟨hself, minDfn_ne_zero (h.all y hy)⟩
  · intro v hv
    rw [List.mem_singleton.mp hv, seen_withHead]
    exact hself
  · rw [seen_withHead]
    intro v hv hv'
    by_cases hvt : v = t
    · rw [hvt]
      exact h.all
    · exact h.closed v hvt hv hv'
  · rw [done_withHead]
    exact h.done
  · intro a ha
    refine ⟨t, List.mem_singleton_self t, by simp, ?_⟩
    rcases List.mem_append.mp ha with ha | ha
    · rw [headDfn_withHead (hne a ha), headDfn_withHead_self]
      exact h.head_le hh ha
    · rw [List.mem_singleton.mp ha]
  · rw [seen_withHead]
    exact fun v hv hv' => ⟨t, List.mem_singleton_self t, h.reach v hv hv'⟩
  · rw [done_withHead]
    exact h.mem
  · intro t' _ _ hA
    exact absurd (List.append_eq_nil_iff.mp hA).2 (List.cons_ne_nil t [])
  · intro k hk
    obtain ⟨u, hpath, hu⟩ := h.looped k hk
    exact ⟨t, List.mem_singleton_self t, u, hpath, hu⟩

theorem active (h : Explored g b c t b' A P) (hh : HeadOf b' t (g.succs t) head)
    (hroot : head.1 ≠ b'.dfn t) :
    Inv g (b'.setData t { b'.data t with headDfn := head.1 }) ∧
      Batch g b c [t] (b'.setData t { b'.data t with headDfn := head.1 }) (A ++ [t]) P :=
  ⟨h.inv_withHead hh hroot, h.batch_withHead hh hroot⟩

end Explored

/-! ## A label that is done -/

/-- `t` is done, what was above it is new again. -/
structure Popped (b' : WtoBuilder) (A : List Label) (t : Label) (S : List Label)
    (b₃ : WtoBuilder) : Prop where
  self : b₃.Done t
  above : ∀ v ∈ A, b₃.data v = ⟨0, 0⟩
  data : ∀ v, v ≠ t → v ∉ A → b₃.data v = b'.data v
  num : b₃.num = b'.num
  stack : b₃.stack = S

namespace Popped

variable (hp : Popped b' A t b.stack b₃) (h : Explored g b c t b' A P)
include hp h

theorem data_of_seen (hv : b.Seen v) : b₃.data v = b.data v := by
  rw [hp.data v (h.ne_of_seen hv) fun hA => h.new_of_mem hA hv, h.data v hv]

theorem seen_of_seen (hv : b.Seen v) : b₃.Seen v :=
  (seen_of_data (hp.data_of_seen h hv)).mpr hv

omit h in
theorem not_seen_of_mem (hv : v ∈ A) : ¬ b₃.Seen v := by
  unfold Seen dfn
  rw [hp.above v hv]
  exact fun h0 => h0 rfl

omit h in
theorem not_mem_of_seen (hv : b₃.Seen v) : v ∉ A := fun hA => hp.not_seen_of_mem hA hv

theorem done_mono (hv : b'.Done v) : b₃.Done v := by
  by_cases hvt : v = t
  · exact hvt ▸ hp.self
  · exact (done_of_data (hp.data v hvt fun hA => h.not_done_of_mem hA hv)).mpr hv

/-- What is done is `t`, or was done before. -/
theorem done_iff : b₃.Done v ↔ v = t ∨ b'.Done v := by
  refine ⟨fun hd => or_iff_not_imp_left.mpr fun hvt => ?_, ?_⟩
  · exact (done_of_data (hp.data v hvt (hp.not_mem_of_seen hd.seen))).mp hd
  · rintro (rfl | hd)
    · exact hp.self
    · exact hp.done_mono h hd

/-- What was new is done, or it is new. -/
theorem done_or_not_seen (hv : ¬ b.Seen v) : b₃.Done v ∨ ¬ b₃.Seen v := by
  by_cases hs : b₃.Seen v
  · refine Or.inl ((hp.done_iff h).mpr (or_iff_not_imp_left.mpr fun hvt => ?_))
    have hA := hp.not_mem_of_seen hs
    rw [seen_of_data (hp.data v hvt hA)] at hs
    exact (h.done_or_mem hv hs).resolve_right fun hor => hor.elim hA hvt
  · exact Or.inr hs

theorem head_zero (hv : ¬ b₃.Seen v) : b₃.headDfn v = 0 := by
  by_cases hA : v ∈ A
  · unfold headDfn
    rw [hp.above v hA]
  · have hvt : v ≠ t := by
      rintro rfl
      exact hv hp.self.seen
    have hd := hp.data v hvt hA
    rw [seen_of_data hd] at hv
    rw [← h.after.head_new v hv]
    unfold headDfn
    rw [hd]

theorem inv (hwto : ∀ v, ¬ b₃.Done v →
    b₃.wto.containingCycle.find? v = none ∧ b₃.wto.cycles.find? v = none) : Inv g b₃ := by
  refine h.before.of_frame ?_ hp.stack (fun v => hp.data_of_seen h) ?_ ?_ hwto
  · intro v hv
    by_cases hvt : v = t
    · exact hvt ▸ h.label
    · exact h.after.label v ((seen_of_data (hp.data v hvt (hp.not_mem_of_seen hv))).mp hv)
  · exact fun v hv => (hp.done_or_not_seen h hv).imp_right fun hs => ⟨hs, hp.head_zero h hs⟩
  · rw [hp.num]
    exact h.num

theorem budget_le : b₃.budget g ≤ b'.budget g :=
  budget_le_of_done hp.num (fun _ => hp.done_mono h) h.label h.not_done_self hp.self

/-- The second visit of what was above `t` leaves nothing on the stack. -/
theorem eq_nil_of_batch (hroot : ∀ x, x ∈ A ∨ x = t → ∀ y ∈ g.succs x, y ∈ A ∨ y = t ∨ b'.Done y)
    (hts : ∀ y ∈ ts₄, y ∈ g.succs t) (hb₃ : Inv g b₃) (hb₄ : Inv g b₄)
    (h₄ : Batch g b₃ c₄ ts₄ b₄ A₄ P₄) : A₄ = [] := by
  by_contra hA
  have hnew : ∀ y, ¬ b₃.Seen y → y ∈ A ∨ y = t ∨ b'.Done y → y ∈ A := by
    rintro y hy (hyA | rfl | hd)
    · exact hyA
    · exact absurd hp.self.seen hy
    · exact absurd (hp.done_mono h hd).seen hy
  have hsub : ∀ x ∈ A₄, x ∈ A := by
    intro x hx
    have hxs : ¬ b₃.Seen x := h₄.new_of_mem hb₃ hb₄ hx
    obtain ⟨y, hy, hys, hpath⟩ := h₄.reach x hxs (h₄.completed x hx).1
    clear hx hxs
    induction hpath with
    | refl => exact hnew y hys (hroot t (Or.inr rfl) y (hts y hy))
    | tail _ hstep ih => exact hnew _ hstep.2 (hroot _ (Or.inl ih) _ hstep.1)
  obtain ⟨x, hx, z, hz, hxz⟩ :=
    hb₄.exists_cross h₄.stack hA fun a ha => (h₄.completed a ha).2
  rw [hp.stack] at hz
  obtain ⟨hzs, hzd⟩ := (h.before.mem_stack z).mp hz
  rcases hroot x (Or.inl (hsub x hx)) z hxz with hzA | rfl | hd
  · exact h.new_of_mem hzA hzs
  · exact h.new hzs
  · exact hzd ((h.done_iff hzs).mp hd)

section Batch

variable (hroot : ∀ x, x ∈ A ∨ x = t → ∀ y ∈ g.succs x, y ∈ A ∨ y = t ∨ b'.Done y)
  (hall : ∀ y ∈ g.succs t, ¬ b₃.Seen y → y ∈ ts₄) (hb₄ : Inv g b₄)
  (h₄ : Batch g b₃ c₄ ts₄ b₄ [] P₄)
include h₄

omit h in
theorem done_self : b₄.Done t := h₄.done_mono hp.self

include hb₄ in
/-- After the second visit everything that is seen is done. -/
theorem done_of_seen (hv : ¬ b.Seen v) (hs : b₄.Seen v) : b₄.Done v := by
  by_contra hd
  have hmem := (hb₄.mem_stack v).mpr ⟨hs, hd⟩
  rw [h₄.stack, hp.stack] at hmem
  exact hv ((h.before.mem_stack v).mp hmem).1

include hroot hall hb₄ in
/-- The successors of `t` are in its component, or they were done before. -/
theorem mem_or_done_self (hy : y ∈ g.succs t) : y ∈ t :: P₄.vertices ∨ b'.Done y := by
  rcases hroot t (Or.inr rfl) y hy with hA | rfl | hd
  · have hs : ¬ b₃.Seen y := hp.not_seen_of_mem hA
    have hd := hp.done_of_seen h hb₄ h₄ (h.new_of_mem hA) (h₄.all y (hall y hy hs))
    exact Or.inl (List.mem_cons_of_mem _ ((h₄.mem y).mpr ⟨hs, hd⟩))
  · exact Or.inl List.mem_cons_self
  · exact Or.inr hd

include hroot hall hb₄ in
/-- Edges from the component lead into it, or to what was done before. -/
theorem mem_or_done {u : Label} (hu : u ∈ t :: P₄.vertices) (hy : y ∈ g.succs u) :
    y ∈ t :: P₄.vertices ∨ b'.Done y := by
  rcases List.mem_cons.mp hu with rfl | hu
  · exact hp.mem_or_done_self h hroot hall hb₄ h₄ hy
  · rcases h₄.forward u hu y hy with hd | hf
    · rcases (hp.done_iff h).mp hd with rfl | hd
      · exact Or.inl List.mem_cons_self
      · exact Or.inr hd
    · exact Or.inl (List.mem_cons_of_mem _ hf.right_mem)

theorem mem_iff : v ∈ (t :: P₄.vertices) ++ P.vertices ↔ ¬ b.Seen v ∧ b₄.Done v := by
  rw [List.mem_append, List.mem_cons, h₄.mem, h.mem]
  constructor
  · rintro ((rfl | ⟨hs, hd⟩) | ⟨hs, hd⟩)
    · exact ⟨h.new, hp.done_self h₄⟩
    · exact ⟨fun hv => hs (hp.seen_of_seen h hv), hd⟩
    · exact ⟨hs, h₄.done_mono (hp.done_mono h hd)⟩
  · rintro ⟨hs, hd⟩
    by_cases hs₃ : b₃.Seen v
    · rcases (hp.done_iff h).mp ((h₄.done_iff hs₃).mp hd) with rfl | hd'
      · exact Or.inl (Or.inl rfl)
      · exact Or.inr ⟨hs, hd'⟩
    · exact Or.inl (Or.inr ⟨hs₃, hd⟩)

omit h in
theorem nodup_cons : (t :: P₄.vertices).Nodup :=
  List.nodup_cons.mpr ⟨fun ht => ((h₄.mem t).mp ht).1 hp.self.seen, h₄.nodup⟩

theorem nodup_append : ((t :: P₄.vertices) ++ P.vertices).Nodup := by
  refine (hp.nodup_cons h₄).append h.nodup fun v hv hv' => ?_
  obtain ⟨-, hd⟩ := (h.mem v).mp hv'
  rcases List.mem_cons.mp hv with rfl | hv
  · exact h.not_done_self hd
  · exact ((h₄.mem v).mp hv).1 (hp.done_mono h hd).seen

include hroot hall hb₄ in
/-- The component of `t` is new in the partition. -/
theorem batch {b₅ : WtoBuilder} (hts : ∀ y ∈ ts₄, y ∈ g.succs t)
    (hXv : X.vertices = t :: P₄.vertices)
    (hX : ∀ u ∈ X.vertices, ∀ y ∈ g.succs u, y ∈ X.vertices → X.Forward u y)
    (hdata : ∀ v, b₅.data v = b₄.data v) (hnum : b₅.num = b₄.num) (hstack : b₅.stack = b₄.stack)
    (hcomponents : b₅.wto.components = (b.wto.prepend c (X.append P)).components)
    (hcycles : ∀ v, b.Seen v →
      b₅.wto.cycles.find? v = (b.wto.prepend c (X.append P)).cycles.find? v)
    (hcontaining : ∀ v, b.Seen v →
      b₅.wto.containingCycle.find? v = b.wto.containingCycle.find? v)
    (hplaced : b₅.wto.Placed c (X.append P))
    (hlooped : ∀ k ∈ X.allHeads, k ∈ P₄.allHeads ∨ k = t ∧ ∃ u, NewPath g b t u ∧ t ∈ g.succs u) :
    Batch g b c [t] b₅ [] (X.append P) := by
  have hseen : ∀ v, b₅.Seen v ↔ b₄.Seen v := fun v => seen_of_data (hdata v)
  have hdone : ∀ v, b₅.Done v ↔ b₄.Done v := fun v => done_of_data (hdata v)
  have hdone_of : ∀ v, ¬ b.Seen v → b₄.Seen v → b₄.Done v := fun v =>
    hp.done_of_seen h hb₄ h₄
  have hdones : ∀ v, ¬ b.Seen v → b₄.Done v → ∀ y ∈ g.succs v, b₄.Done y := by
    intro v hv hd y hy
    have hup : y ∈ t :: P₄.vertices ∨ b'.Done y → b₄.Done y := by
      rintro (hmem | hd')
      · exact ((hp.mem_iff h h₄).mp (List.mem_append_left _ hmem)).2
      · exact h₄.done_mono (hp.done_mono h hd')
    rcases List.mem_append.mp ((hp.mem_iff h h₄).mpr ⟨hv, hd⟩) with hmem | hmem
    · exact hup (hp.mem_or_done h hroot hall hb₄ h₄ hmem hy)
    · exact hup (Or.inr (h.done v hv ((h.mem v).mp hmem).2 y hy))
  have hnodup : (X.append P).vertices.Nodup := by
    rw [WeakOrder.vertices_append, hXv]
    exact hp.nodup_append h h₄
  refine ⟨?_, ?_, ?_, ?_, by simp, ?_, ?_, ?_, by simp, ?_, hnodup, ?_, ?_, hcomponents, hcycles,
    hcontaining, hplaced, ?_, ?_⟩
  · intro v hv
    rw [hdata, h₄.data v (hp.seen_of_seen h hv), hp.data_of_seen h hv]
  · have hdfn : b₅.dfn = b₄.dfn := by
      funext v
      exact congrArg WtoVertexData.dfn (hdata v)
    rw [budget_congr hdfn hnum]
    exact h₄.budget.trans ((hp.budget_le h).trans h.budget)
  · rw [hnum]
    exact (hp.num ▸ h.num).trans h₄.num
  · rw [hstack, h₄.stack, hp.stack]
  · intro v hv
    rw [List.mem_singleton.mp hv, hseen]
    exact (hp.done_self h₄).seen
  · intro v hv hs y hy
    rw [hseen] at hs ⊢
    exact (hdones v hv (hdone_of v hv hs) y hy).seen
  · intro v hv hd y hy
    rw [hdone] at hd ⊢
    exact hdones v hv hd y hy
  · intro v hv hs
    rw [hseen] at hs
    refine ⟨t, List.mem_singleton_self t, ?_⟩
    by_cases hvt : v = t
    · subst hvt
      exact ⟨hv, .refl⟩
    by_cases hs₃ : b₃.Seen v
    · exact h.reach v hv ((seen_of_data (hp.data v hvt (hp.not_mem_of_seen hs₃))).mp hs₃)
    · obtain ⟨y, hy, hpath⟩ := h₄.reach v hs₃ hs
      exact (hpath.mono fun x hx hs => hx (hp.seen_of_seen h hs)).head h.new (hts y hy)
  · intro v
    rw [WeakOrder.vertices_append, hXv, hp.mem_iff h h₄, hdone]
  · intro u hu y hy
    have hacross : u ∈ X.vertices → b'.Done y → b.Done y ∨ (X.append P).Forward u y := by
      intro hu hd
      by_cases hs : b.Seen y
      · exact Or.inl ((h.done_iff hs).mp hd)
      · exact Or.inr (WeakOrder.forward_across hnodup hu ((h.mem y).mpr ⟨hs, hd⟩))
    rw [WeakOrder.vertices_append, List.mem_append] at hu
    rcases hu with hu | hu
    · rcases hp.mem_or_done h hroot hall hb₄ h₄ (hXv ▸ hu) hy with hmem | hd
      · exact Or.inr ((hX u hu y hy (hXv ▸ hmem)).append_left hnodup)
      · exact hacross hu hd
    · exact (h.forward u hu y hy).imp_right fun hf => hf.append_right hnodup
  · intro t' ht' _ _
    rw [WeakOrder.vertices_append, hXv, List.singleton_inj.mp ht']
    rfl
  · intro k hk
    refine ⟨t, List.mem_singleton_self t, ?_⟩
    rw [WeakOrder.allHeads_append, List.mem_append] at hk
    rcases hk with hk | hk
    · rcases hlooped k hk with hk | ⟨rfl, hu⟩
      · obtain ⟨y, hy, u, hpath, hu⟩ := h₄.looped k hk
        have hpath' := hpath.mono fun x hx hs => hx (hp.seen_of_seen h hs)
        exact ⟨u, hpath'.head h.new (hts y hy), hu⟩
      · exact hu
    · exact h.looped k hk

end Batch

end Popped

end WtoBuilder

end Prevail
