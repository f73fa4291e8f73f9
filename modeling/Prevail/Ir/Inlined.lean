import Prevail.Ir.CallsMade

/-!
# Inlining keeps a function when the walk only goes forward

The copy of a function in the frame of a call should be the function itself (`Inlined`): the same
edges between the copies, the return label of the call in place of the exit, and nothing else that
leads in or out but the call and the calls inside the copy.

A call is inlined in the graph that the calls before it have left. If the function holds none of
these calls, then its labels lead where they led after the first pass, and its copy is the function if
and only if no edge of it leads back in the order of the search (`Forward`). If it does hold one, then
the walk goes into the copy that was made for that call (`InlinedCopy.untouched`).
-/

namespace Prevail

namespace CfgBuilder

variable {O C : Type} {b b' b₀ b₁ b₂ : CfgBuilder O C} {insts done begun : InstructionSeq O C}
  {c t x y : Label} {f : Frame} {i : Instruction O C}

/-- The label is a local call of the graph. -/
def CallAt (b : CfgBuilder O C) (x t : Label) : Prop :=
  ∃ f, b.instructions.find? x = some (.callLocal t f)

/-- In `b`, the frame of the call `c` holds a copy of the function at `t` as it is in `b₀`: where the
call returned to in `b₁` takes the place of the exit, and calls inside the copy lead to copies of
their own. -/
structure Inlined (b₀ b₁ b : CfgBuilder O C) (c t : Label) : Prop where
  has : ∀ x, x.stackFramePrefix = c.frame →
    (b.Has x ↔ ∃ m, Callee b₀ t m ∧ x = m.inFrame c.frame)
  injective : ∀ m n, Callee b₀ t m → Callee b₀ t n → m.inFrame c.frame = n.inFrame c.frame → m = n
  instr : ∀ m i, Callee b₀ t m → (∀ t', ¬ CallAt b₀ m t') → b₀.instructions.find? m = some i →
    b.instructions.find? (m.inFrame c.frame) = some (cloneInstruction c.frame i)
  edge : ∀ m n, Callee b₀ t m → Callee b₀ t n → (∀ t', ¬ CallAt b₀ m t') →
    (b.Edge (m.inFrame c.frame) (n.inFrame c.frame) ↔ b₀.Edge m n)
  exit : ∀ m f, Callee b₀ t m → b₀.instructions.find? m = some (.exit f) →
    ∀ y, b.Edge (m.inFrame c.frame) y ↔ b₁.Edge c y
  call : ∀ m t', Callee b₀ t m → CallAt b₀ m t' →
    ∀ y, b.Edge (m.inFrame c.frame) y ↔ y = t'.inFrame (m.inFrame c.frame).frame
  callEdge : ∀ y, b.Edge c y ↔ y = t.inFrame c.frame
  leaves : ∀ m, Callee b₀ t m → (∀ t', ¬ CallAt b₀ m t') → ∀ y, b.Edge (m.inFrame c.frame) y →
    (∃ n, Callee b₀ t n ∧ y = n.inFrame c.frame) ∨ b₀.Edge m .exit ∧ b₁.Edge c y
  enters : ∀ x y, y.stackFramePrefix = c.frame → b.Edge x y → x = c ∨ x.stackFramePrefix = c.frame ∨
    ∃ m n t', Callee b₀ t m ∧ CallAt b₀ m t' ∧ Inside (m.inFrame c.frame) x ∧ b₀.Edge m n ∧
      y = n.inFrame c.frame

/-- No edge of the function leads back in the order of the search, no call in it, except at its
first label, is followed by the exit, and the walk takes nothing else for an edge of the function. -/
structure InOrder (b₀ b₁ : CfgBuilder O C) (c t : Label) (order : List Label) : Prop where
  search : SearchOrder b₀.Step t order
  forward : ∀ m ∈ order, ∀ n ∈ order, b₀.Edge m n → order.idxOf m ≤ order.idxOf n
  exit : ∀ m ∈ order, ∀ t', CallAt b₀ m t' → m ≠ t → ¬ b₀.Edge m .exit
  feeds : ∀ m ∈ order, ∀ n ∈ order, (∀ t', ¬ CallAt b₀ m t') → order.idxOf m ≤ order.idxOf n →
    ∀ r, b₁.Edge c r → b₁.Feeds c r m n → b₀.Edge m n

/-- The function holds no call that has been begun, and the walk goes forward only. -/
structure Forward (b₀ : CfgBuilder O C) (begun : InstructionSeq O C) (b₁ : CfgBuilder O C)
    (c t : Label) : Prop where
  untouched : ∀ k, IsCall begun k → ¬ Callee b₀ t k
  inOrder : ∃ order, InOrder b₀ b₁ c t order

/-- Where the function holds an earlier call and the function of that call, the search in the graph
as it is comes back from the call. -/
def Returning (b₀ : CfgBuilder O C) (begun : InstructionSeq O C) (b₁ : CfgBuilder O C)
    (c t : Label) : Prop :=
  ∀ k t' f, (k, .callLocal t' f) ∈ begun → k ≠ c → Callee b₀ t k → Callee b₀ t t' →
    ∀ r, b₀.Step k r → Callee b₁ t r

theorem callee_plain (hb : b.Consistent) (hplain : ∀ x, b.Has x → x.Plain) (ht : t.Plain) :
    ∀ m, Callee b t m → m.Plain := by
  intro m hm
  induction hm with
  | refl => exact ht
  | tail _ hmn _ => exact hplain _ (hb.target _ _ hmn.1)

/-! ## The copy, with the calls in it inlined -/

/-- The frame of the call `c` in `b`, seen from the graph `b₁` in which the call was made. -/
structure InlinedCopy (b₁ b : CfgBuilder O C) (c t exitTo : Label) (order : List Label)
    (st : Walk O C) : Prop extends CopyOf b₁ c t exitTo order st where
  child : ∀ y, b₁.Edge c y ↔ y = exitTo
  apart : ¬ Inside c exitTo
  hasKeep : ∀ x, x.stackFramePrefix = c.frame → (b.Has x ↔ st.builder.Has x)
  keep : ∀ p ∈ order, (∀ t', CallAt b₁ p t' → ¬ st.seenLabels.contains p) →
    (∀ y, b.Edge (p.inFrame c.frame) y ↔ st.builder.Edge (p.inFrame c.frame) y) ∧
    b.instructions.find? (p.inFrame c.frame) = st.builder.instructions.find? (p.inFrame c.frame)
  called : ∀ p ∈ order, ∀ t', CallAt b₁ p t' → st.seenLabels.contains p →
    ∀ y, b.Edge (p.inFrame c.frame) y ↔ y = t'.inFrame (p.inFrame c.frame).frame
  single : ∀ p ∈ order, ∀ t', CallAt b₁ p t' → st.seenLabels.contains p →
    ∃ ret, ∀ y, st.builder.Edge (p.inFrame c.frame) y ↔ y = ret
  callEdge : ∀ y, b.Edge c y ↔ y = t.inFrame c.frame
  enters : ∀ x y, y.stackFramePrefix = c.frame → b.Edge x y → x = c ∨ x.stackFramePrefix = c.frame ∨
    ∃ p t', p ∈ order ∧ CallAt b₁ p t' ∧ st.seenLabels.contains p ∧ Inside (p.inFrame c.frame) x ∧
      st.builder.Edge (p.inFrame c.frame) y

theorem calls_iff {exitTo : Label} {order : List Label} {st : Walk O C}
    (h : CopyOf b c t exitTo order st) {p t' : Label} (hp : p ∈ order) :
    Calls st (p.inFrame c.frame) t' ↔ CallAt b p t' := by
  obtain ⟨i, hi, hcopy⟩ := h.copy p hp
  unfold Calls CallAt
  rw [hi, hcopy]
  cases i <;> simp [cloneInstruction]

theorem inlinedCopy_of_nested {exitTo : Label} {order : List Label} {st : Walk O C}
    (h : CopyOf b₁ c t exitTo order st) (hb₁ : ∀ y, b₁.Edge c y ↔ y = exitTo)
    (hapart : ¬ Inside c exitTo) (hexp : Expanded b₁ c t exitTo b₂)
    (hnest : Nested c st st.seenLabels.keys b₂) (hkept : Kept c b₂ b) :
    InlinedCopy b₁ b c t exitTo order st := by
  have hin : ∀ p : Label, Inside c (p.inFrame c.frame) := inside_inFrame c
  have hseen : ∀ p ∈ order, ∀ l ∈ st.seenLabels.keys,
      p.inFrame c.frame = l.inFrame c.frame → l = p := by
    intro p hp l hl heq
    have hl := (h.seenWhy l (mem_set.mp hl)).1
    exact (List.inj_on_of_nodup_map h.nodup hp hl heq).symm
  refine ⟨h, hb₁, hapart, fun x hx => ?_, fun p hp hcall => ?_, fun p hp t' hcall hs y => ?_,
    fun p hp t' hcall hs => ?_, fun y => ?_, fun x y hy hxy => ?_⟩
  · rw [hkept.has x (inside_of_prefix_eq hx), hnest.has x hx]
  · have hnot : ∀ l ∈ st.seenLabels.keys, p.inFrame c.frame = l.inFrame c.frame →
        ∀ t', ¬ Calls st (p.inFrame c.frame) t' := by
      intro l hl heq t' ht'
      obtain rfl := hseen p hp l hl heq
      exact hcall t' ((calls_iff h hp).mp ht') (mem_set.mp hl)
    refine ⟨fun y => ?_, ?_⟩
    · rw [hkept.edge _ y (Or.inl (hin p)), hnest.edge _ y rfl hnot]
    · rw [hkept.instr _ (hin p), hnest.instr _ rfl hnot]
  · rw [hkept.edge _ y (Or.inl (hin p))]
    exact hnest.called p (mem_set.mpr hs) t' ((calls_iff h hp).mpr hcall) y
  · exact hnest.single p (mem_set.mpr hs) t' ((calls_iff h hp).mpr hcall)
  · rw [hkept.edge c y (Or.inr (Or.inr rfl)), hexp.edge_caller hb₁]
  · have hyc := inside_of_prefix_eq hy
    rw [hkept.edge x y (Or.inr (Or.inl hyc))] at hxy
    by_cases hx : Inside c x
    · rcases hnest.deep x hx hxy.source with hx | ⟨l, hl, ⟨t', ht'⟩, hx⟩
      · exact Or.inr (Or.inl hx)
      · have hs := mem_set.mp hl
        have hmem := (h.seenWhy l hs).1
        exact Or.inr (Or.inr ⟨l, t', hmem, (calls_iff h hmem).mp ht', hs, hx,
          hnest.back l hl x y hx hy hxy⟩)
    · exact Or.inl ((hexp.into x y hx hyc).mp hxy).1

/-- What the construction has made of a call. -/
theorem CallMade.inlinedCopy {fuel : ℕ} {bf : CfgBuilder O C} (hF : FirstPass insts b₀)
    (hplain : ∀ e ∈ insts, e.1.Plain) (h : CallMade insts b₀ begun fuel b₁ c t)
    (hok : insts.foldlM CfgBuilder.expandCall b₀ = .ok bf) :
    ∃ exitTo order st, InlinedCopy b₁ bf c t exitTo order st := by
  have hstate := h.state hF hplain
  obtain ⟨b₂, hadd, hkept⟩ := h.result hF hplain hok
  obtain ⟨exitTo, _, st, hst, hcl, hexp, hnest⟩ :=
    addCfgNodes_spec _ hadd hstate.consistent hstate.fresh
  obtain ⟨order, hcopy⟩ := cloneMacro_copyOf hst hstate.consistent hstate.fresh hcl.child
  refine ⟨exitTo, order, st, inlinedCopy_of_nested hcopy hcl.child (fun hin => ?_) hexp hnest hkept⟩
  exact hstate.fresh exitTo hin (hstate.consistent.target _ _ ((hcl.child exitTo).mpr rfl))

section

variable {exitTo : Label} {order : List Label} {st : Walk O C}
  (h : InlinedCopy b₁ b c t exitTo order st)

include h in
theorem InlinedCopy.mem_order {m : Label} : m ∈ order ↔ Callee b₁ t m := h.search.mem_iff

include h in
theorem InlinedCopy.eq_of_copy {p q : Label} (hp : p ∈ order) (hq : q ∈ order)
    (heq : p.inFrame c.frame = q.inFrame c.frame) : p = q :=
  List.inj_on_of_nodup_map h.nodup hp hq heq

include h in
/-- A call of the copy that leads where it should was seen. -/
theorem InlinedCopy.seen_of_called {p t' : Label} (hp : p ∈ order)
    (hcall : b.Edge (p.inFrame c.frame) (t'.inFrame (p.inFrame c.frame).frame)) :
    st.seenLabels.contains p := by
  by_contra hs
  have hin := inside_inFrame (p.inFrame c.frame) t'
  rw [(h.keep p hp fun _ _ => hs).1] at hcall
  rcases h.leaves p hp _ hcall with heq | ⟨n, -, heq⟩
  · rw [heq] at hin
    exact h.apart hin.of_inFrame
  · rw [heq] at hin
    exact not_inside_of_prefix_eq rfl hin

end

/-! ## The function before and after the calls that come first -/

/-- The graph in which a call is made, seen from the graph of the first pass. -/
theorem CallState.around (h : CallState insts b₀ begun b₁ c t) :
    ∃ done, Outer b₀ done b₁ ∧ done ⊆ begun ∧ ∀ e ∈ begun, e ∈ done ∨ e.1 = c := by
  rcases h.outer with ⟨before, f, rfl, hout⟩ | ⟨-, hout⟩
  · refine ⟨before, hout, List.subset_append_left _ _, fun e he => ?_⟩
    refine (List.mem_append.mp he).imp_right fun he => ?_
    rw [List.mem_singleton.mp he]
  · exact ⟨begun, hout, List.Subset.refl _, fun e he => Or.inl he⟩

/-- A label that is no call that has been begun leads where it led after the first pass. -/
theorem Outer.same (h : Outer b₀ done b₁) (hF : FirstPass insts b₀) (hplain : ∀ e ∈ insts, e.1.Plain)
    (hx : x.Plain) (hcall : ¬ IsCall done x) :
    (∀ y, b₁.Edge x y ↔ b₀.Edge x y) ∧ b₁.instructions.find? x = b₀.instructions.find? x := by
  refine ⟨fun y => ?_, h.instr x hx hcall⟩
  by_cases hy : y.Plain
  · rw [h.edge x y hx hy, and_iff_left hcall]
  · refine iff_of_false (fun hxy => hcall (h.into x y hx hy hxy)) fun hxy => hy ?_
    exact hF.plain hplain y (hF.consistent.target x y hxy)

section

variable {exitTo : Label} {order : List Label} {st : Walk O C}
  (h : InlinedCopy b₁ b c t exitTo order st) (hF : FirstPass insts b₀)
  (hplain : ∀ e ∈ insts, e.1.Plain) (hstate : CallState insts b₀ begun b₁ c t)
  (hp : ∀ m, Callee b₀ t m → m.Plain)

include h in
/-- A copy stands for a label of the function. -/
theorem Inlined.of_copy (hinl : Inlined b₀ b₁ b c t) {p : Label} (hmem : p ∈ order) :
    ∃ m, Callee b₀ t m ∧ m.inFrame c.frame = p.inFrame c.frame := by
  have hhas := (h.has (p.inFrame c.frame) rfl).mpr ⟨p, hmem, rfl⟩
  obtain ⟨m, hm, heq⟩ := (hinl.has _ rfl).mp ((h.hasKeep _ rfl).mpr hhas)
  exact ⟨m, hm, heq.symm⟩

include h hF hplain hstate hp in
/-- A function with an earlier call in it is not copied as it is: the walk goes into the copy that was
made for that call. -/
theorem InlinedCopy.untouched (htargets : ∀ l t f, (l, .callLocal t f) ∈ insts → t.Plain)
    (hreturn : Returning b₀ begun b₁ c t) (hinl : Inlined b₀ b₁ b c t) :
    ∀ k, IsCall begun k → ¬ Callee b₀ t k := by
  obtain ⟨done, hout, hsub, hdone⟩ := hstate.around
  have hother : ∀ {k}, k ∈ order → k ≠ c := fun hk hkc => h.notCaller (hkc ▸ hk)
  -- an earlier call of the function leads into its own copy
  have hnext : ∀ k t' f, (k, .callLocal t' f) ∈ begun → k ∈ order →
      t'.inFrame k.frame ∈ order := by
    intro k t' f hk hmem
    have hkd := (hdone _ hk).resolve_right (hother hmem)
    exact h.search.closed k hmem _ ⟨(hout.called k t' f hkd _).mpr rfl, t'.inFrame_frame_ne_exit k⟩
  have hall : ∀ m, Callee b₀ t m → m ∈ order := by
    intro m hm
    induction hm with
    | refl => exact h.search.visits.start_mem
    | @tail m n hm hmn ih =>
      by_cases hcall : IsCall begun m
      · obtain ⟨t', f, hk⟩ := hcall
        obtain ⟨m', hm', heq⟩ := Inlined.of_copy h hinl (hnext m t' f hk ih)
        obtain rfl := (hp m' hm').inFrame_inj (htargets m t' f (hstate.begins.subset hk)) heq
        exact h.mem_order.mpr (hreturn m m' f hk (hother ih) hm hm' n hmn)
      · have hnot : ¬ IsCall done m := by
          rintro ⟨t', f, hk⟩
          exact hcall ⟨t', f, hsub hk⟩
        exact h.search.closed m ih n ⟨((hout.same hF hplain (hp m hm) hnot).1 n).mpr hmn.1, hmn.2⟩
  rintro k ⟨t', f, hk⟩ hkc
  have hcopy := hnext k t' f hk (hall k hkc)
  obtain ⟨m, hm, heq⟩ := Inlined.of_copy h hinl hcopy
  -- the label itself and its copy for the earlier call would be copied to one label
  obtain rfl := h.eq_of_copy (hall m hm) hcopy heq
  exact copy_not_plain t' k (hp _ hm)

include hF hplain hstate hp in
/-- Without an earlier call in it the function is searched as it is after the first pass. -/
theorem CallState.same (hun : ∀ k, IsCall begun k → ¬ Callee b₀ t k) {m : Label}
    (hm : Callee b₀ t m) :
    (∀ y, b₁.Edge m y ↔ b₀.Edge m y) ∧ b₁.instructions.find? m = b₀.instructions.find? m := by
  obtain ⟨done, hout, hsub, -⟩ := hstate.around
  refine hout.same hF hplain (hp m hm) ?_
  rintro ⟨t', f, hk⟩
  exact hun m ⟨t', f, hsub hk⟩ hm

include hF hplain hstate hp in
theorem CallState.part (hun : ∀ k, IsCall begun k → ¬ Callee b₀ t k) {m : Label}
    (hm : Callee b₁ t m) : Callee b₀ t m := by
  induction hm with
  | refl => exact Relation.ReflTransGen.refl
  | @tail p n _ hpn ih =>
    exact ih.tail ⟨((hstate.same hF hplain hp hun ih).1 n).mp hpn.1, hpn.2⟩

end

/-! ## The copy and the function -/

section

variable {exitTo : Label} {order : List Label} {st : Walk O C}
  (h : InlinedCopy b₁ b c t exitTo order st) (hF : FirstPass insts b₀)
  (hsame : ∀ p ∈ order, (∀ y, b₁.Edge p y ↔ b₀.Edge p y) ∧
    b₁.instructions.find? p = b₀.instructions.find? p)

include hsame in
theorem callAt_same {p t' : Label} (hp : p ∈ order) : CallAt b₁ p t' ↔ CallAt b₀ p t' := by
  unfold CallAt
  rw [(hsame p hp).2]

include h hsame in
theorem InlinedCopy.search_same : SearchOrder b₀.Step t order :=
  h.search.congr fun p hp x => and_congr_left fun _ => (hsame p hp).1 x

include h hsame in
/-- A copy that is no call keeps its edges. -/
theorem InlinedCopy.keep_same {p : Label} (hp : p ∈ order) (hcall : ∀ t', ¬ CallAt b₀ p t') :
    (∀ y, b.Edge (p.inFrame c.frame) y ↔ st.builder.Edge (p.inFrame c.frame) y) ∧
    b.instructions.find? (p.inFrame c.frame) = st.builder.instructions.find? (p.inFrame c.frame) :=
  h.keep p hp fun t' ht' => absurd ((callAt_same hsame hp).mp ht') (hcall t')

include h hF hsame in
theorem InlinedCopy.inOrder (hinl : Inlined b₀ b₁ b c t) : InOrder b₀ b₁ c t order := by
  have hsearch := h.search_same hsame
  have hmem : ∀ {m}, m ∈ order → Callee b₀ t m := fun hm => hsearch.mem_iff.mp hm
  have hseen : ∀ m ∈ order, ∀ t', CallAt b₀ m t' → m = t ∨
      ∃ y, b₀.Step m y ∧ order.idxOf m < order.idxOf y := by
    intro m hm t' hcall
    have hedge := (hinl.call m t' (hmem hm) hcall _).mpr rfl
    refine (h.seenWhy m (h.seen_of_called hm hedge)).2.imp_right ?_
    rintro ⟨y, hmy, hlt⟩
    exact ⟨y, ⟨((hsame m hm).1 y).mp hmy.1, hmy.2⟩, hlt⟩
  have hfirst : order.idxOf t = 0 := by
    obtain ⟨rest, hrest⟩ := hsearch.visits.prefix_start
    rw [← hrest, List.singleton_append, List.idxOf_cons_self]
  refine ⟨hsearch, fun m hm n hn hmn => ?_, fun m hm t' hcall hne hexit => ?_,
    fun m hm n hn hcall hle r hr hfeeds => ?_⟩
  · by_cases hcall : ∃ t', CallAt b₀ m t'
    · obtain ⟨t', f', hm'⟩ := hcall
      obtain ⟨r, hr⟩ := hF.call m t' f' hm'
      rcases hseen m hm t' ⟨f', hm'⟩ with rfl | ⟨y, hmy, hlt⟩
      · rw [hfirst]
        exact Nat.zero_le _
      · rw [(hr n).mp hmn, ← (hr y).mp hmy.1]
        exact hlt.le
    · have hcall := not_exists.mp hcall
      have hedge := (hinl.edge m n (hmem hm) (hmem hn) hcall).mpr hmn
      rw [(h.keep_same hsame hm hcall).1, h.link m hm n hn] at hedge
      exact hedge.2
  · obtain ⟨f', hm'⟩ := hcall
    obtain ⟨r, hr⟩ := hF.call m t' f' hm'
    obtain ⟨y, hmy, -⟩ := (hseen m hm t' ⟨f', hm'⟩).resolve_left hne
    exact hmy.2 (((hr y).mp hmy.1).trans ((hr .exit).mp hexit).symm)
  · obtain rfl := (h.child r).mp hr
    rw [← hinl.edge m n (hmem hm) (hmem hn) hcall, (h.keep_same hsame hm hcall).1, h.link m hm n hn]
    exact ⟨hfeeds, hle⟩

include hF in
/-- Nothing follows the exit. -/
theorem eq_exit_of_callee_exit {m : Label} (he : Callee b₀ t .exit) (hm : Callee b₀ t m) :
    m = .exit := by
  rcases Relation.ReflTransGen.cases_tail he with heq | ⟨_, -, hstep⟩
  · rw [← heq] at hm
    rcases Relation.ReflTransGen.cases_head hm with rfl | ⟨y, hstep, -⟩
    · rfl
    · exact absurd hstep.1 (hF.last y)
  · exact absurd rfl hstep.2

include h hF hsame in
/-- Every call of the function was seen, if the walk only goes forward. -/
theorem InlinedCopy.seen_call (hord : InOrder b₀ b₁ c t order) {m t' : Label} (hm : m ∈ order)
    (hcall : CallAt b₀ m t') : st.seenLabels.contains m := by
  by_cases hmt : m = t
  · rw [hmt]
    exact h.seenEntry
  · obtain ⟨f', hf'⟩ := hcall
    obtain ⟨r, hr⟩ := hF.call m t' f' hf'
    have hmr := (hr r).mpr rfl
    have hstep : b₀.Step m r := by
      refine ⟨hmr, ?_⟩
      rintro rfl
      exact hord.exit m hm t' ⟨f', hf'⟩ hmt hmr
    exact h.seenOn m hm r ⟨((hsame m hm).1 r).mpr hmr, hstep.2⟩
      (hord.forward m hm r (hord.search.closed m hm r hstep) hmr)

include h hF hsame in
/-- A call in the copy returns to where the call that is copied returns. -/
theorem InlinedCopy.return_call (hord : InOrder b₀ b₁ c t order) {m n t' : Label} (hm : m ∈ order)
    (hn : n ∈ order) (hcall : CallAt b₀ m t')
    (hmn : st.builder.Edge (m.inFrame c.frame) (n.inFrame c.frame)) : b₀.Edge m n := by
  obtain ⟨ret, hret⟩ := h.single m hm t' ((callAt_same hsame hm).mpr hcall)
    (h.seen_call hF hsame hord hm hcall)
  have hrn := (hret _).mp hmn
  obtain ⟨f', hf'⟩ := hcall
  obtain ⟨r, hr⟩ := hF.call m t' f' hf'
  have hmr := (hr r).mpr rfl
  have hin := inside_inFrame c n
  by_cases hexit : r = .exit
  · -- the call returns where the call of the function returns
    rw [hrn, ← (hret exitTo).mp ((h.ret m hm).mpr (((hsame m hm).1 _).mpr (hexit ▸ hmr)))] at hin
    exact absurd hin h.apart
  · have hrm := hord.search.closed m hm r ⟨hmr, hexit⟩
    have hedge := (h.link m hm r hrm).mpr
      ⟨Or.inl ⟨m, ((hsame m hm).1 r).mpr hmr, rfl⟩, hord.forward m hm r hrm hmr⟩
    rwa [h.eq_of_copy hn hrm (hrn.trans ((hret _).mp hedge).symm)]

include h hF hsame in
theorem InlinedCopy.inlined (hord : InOrder b₀ b₁ c t order) : Inlined b₀ b₁ b c t := by
  have hmem : ∀ m, Callee b₀ t m → m ∈ order := fun m => hord.search.mem_iff.mpr
  have hkeep : ∀ m, Callee b₀ t m → (∀ t', ¬ CallAt b₀ m t') →
      (∀ y, b.Edge (m.inFrame c.frame) y ↔ st.builder.Edge (m.inFrame c.frame) y) ∧
      b.instructions.find? (m.inFrame c.frame) = st.builder.instructions.find? (m.inFrame c.frame) :=
    fun m hm hcall => h.keep_same hsame (hmem m hm) hcall
  -- an edge between copies of the function is an edge of the function
  have hlink : ∀ m ∈ order, ∀ n ∈ order, (∀ t', ¬ CallAt b₀ m t') →
      (st.builder.Edge (m.inFrame c.frame) (n.inFrame c.frame) ↔ b₀.Edge m n) := by
    intro m hm n hn hcall
    rw [h.link m hm n hn]
    refine ⟨fun hmn => ?_, fun hmn => ⟨Or.inl ⟨m, ((hsame m hm).1 n).mpr hmn, rfl⟩, ?_⟩⟩
    · exact hord.feeds m hm n hn hcall hmn.2 exitTo ((h.child _).mpr rfl) hmn.1
    · exact hord.forward m hm n hn hmn
  refine ⟨fun x hx => ?_, fun m n hm hn => ?_, fun m i hm hcall hi => ?_, fun m n hm hn hcall => ?_,
    fun m f' hm hi y => ?_, fun m t' hm hcall => ?_, h.callEdge, fun m hm hcall y hy => ?_,
    fun x y hy hxy => ?_⟩
  · rw [h.hasKeep x hx, h.has x hx]
    simp only [hord.search.mem_iff]
    rfl
  · exact h.eq_of_copy (hmem m hm) (hmem n hn)
  · obtain ⟨j, hj, hcopy⟩ := h.copy m (hmem m hm)
    rw [(hsame m (hmem m hm)).2] at hj
    rw [(hkeep m hm hcall).2, hcopy, Option.some.inj (hj.symm.trans hi)]
  · rw [(hkeep m hm hcall).1, hlink m (hmem m hm) n (hmem n hn) hcall]
  · have hcall : ∀ t', ¬ CallAt b₀ m t' := by
      rintro t' ⟨f'', hf⟩
      cases Option.some.inj (hi.symm.trans hf)
    rw [(hkeep m hm hcall).1, h.child]
    constructor
    · intro hy
      refine (h.leaves m (hmem m hm) y hy).resolve_right ?_
      rintro ⟨n, hn, rfl⟩
      have hmn := (hlink m (hmem m hm) n hn hcall).mp hy
      obtain rfl := (hF.exit m f' hi n).mp hmn
      rw [eq_exit_of_callee_exit hF (hord.search.mem_iff.mp hn) hm] at hmn
      exact hF.last _ hmn
    · rintro rfl
      rw [h.ret m (hmem m hm), (hsame m (hmem m hm)).1]
      exact (hF.exit m f' hi _).mpr rfl
  · exact h.called m (hmem m hm) t' ((callAt_same hsame (hmem m hm)).mpr hcall)
      (h.seen_call hF hsame hord (hmem m hm) hcall)
  · rw [(hkeep m hm hcall).1] at hy
    rcases h.leaves m (hmem m hm) y hy with rfl | ⟨n, hn, rfl⟩
    · rw [h.ret m (hmem m hm), (hsame m (hmem m hm)).1] at hy
      exact Or.inr ⟨hy, (h.child _).mpr rfl⟩
    · exact Or.inl ⟨n, hord.search.mem_iff.mp hn, rfl⟩
  · refine (h.enters x y hy hxy).imp_right fun henter => henter.imp_right ?_
    rintro ⟨p, t', hp, hcall, -, hx, hpy⟩
    have hcall := (callAt_same hsame hp).mp hcall
    rcases h.leaves p hp y hpy with rfl | ⟨n, hn, rfl⟩
    · exact absurd (inside_of_prefix_eq hy) h.apart
    · exact ⟨p, n, t', hord.search.mem_iff.mp hp, hcall, hx,
        h.return_call hF hsame hord hp hn hcall hpy, rfl⟩

end

theorem foldlM_of_instructionSeqToCfg {mustHaveExit : Bool}
    (hfirst : firstPass insts mustHaveExit = .ok b₀)
    (h : instructionSeqToCfg insts mustHaveExit = .ok b) :
    insts.foldlM CfgBuilder.expandCall b₀ = .ok b := by
  unfold instructionSeqToCfg at h
  rwa [hfirst] at h

/-- A function is copied faithfully when it holds no call that was begun before and the walk over it
only goes forward; and, unless it holds an earlier call that does not come back, only then. -/
theorem inlined_iff_forward {mustHaveExit : Bool} {fuel : ℕ}
    (hfirst : firstPass insts mustHaveExit = .ok b₀)
    (h : instructionSeqToCfg insts mustHaveExit = .ok b) (hplain : ∀ e ∈ insts, e.1.Plain)
    (htargets : ∀ l t f, (l, .callLocal t f) ∈ insts → t.Plain)
    (hmade : CallMade insts b₀ begun fuel b₁ c t) :
    (Forward b₀ begun b₁ c t → Inlined b₀ b₁ b c t) ∧
      (Returning b₀ begun b₁ c t → Inlined b₀ b₁ b c t → Forward b₀ begun b₁ c t) := by
  have hF := firstPass_spec hfirst
  have hok := foldlM_of_instructionSeqToCfg hfirst h
  have hstate := hmade.state hF hplain
  have hp := callee_plain hF.consistent (hF.plain hplain) (hmade.plain_target hF hplain htargets)
  obtain ⟨exitTo, order, st, hcopy⟩ := hmade.inlinedCopy hF hplain hok
  have hsame : (∀ k, IsCall begun k → ¬ Callee b₀ t k) → ∀ p ∈ order,
      (∀ y, b₁.Edge p y ↔ b₀.Edge p y) ∧ b₁.instructions.find? p = b₀.instructions.find? p := by
    intro hun p hpo
    have hpart := hstate.part hF hplain hp hun (hcopy.mem_order.mp hpo)
    exact hstate.same hF hplain hp hun hpart
  constructor
  · rintro ⟨hun, order', hord⟩
    obtain rfl := hord.search.unique (hcopy.search_same (hsame hun))
    exact hcopy.inlined hF (hsame hun) hord
  · intro hreturn hinl
    have hun := hcopy.untouched hF hplain hstate hp htargets hreturn hinl
    exact ⟨hun, order, hcopy.inOrder hF (hsame hun) hinl⟩

/-- A call of a function that calls another one. -/
def nestedSeq : InstructionSeq Unit Unit :=
  [(.ofIndex 0, .callLocal (.ofIndex 2) []), (.ofIndex 1, .exit []),
    (.ofIndex 2, .callLocal (.ofIndex 4) []), (.ofIndex 3, .exit []), (.ofIndex 4, .other ()),
    (.ofIndex 5, .exit [])]

/-- A search that goes through two labels. -/
theorem searchOrder_pair {a a' : Label} (ha : ∀ y, b.Edge a y ↔ y = a')
    (ha' : ∀ y, b.Edge a' y ↔ y = .exit) (hne : a' ≠ a) (hexit : a' ≠ .exit) :
    SearchOrder b.Step a [a, a'] := by
  have hstep : ∀ p ∈ [a, a'], ∀ x, b.Step p x → x = a' := by
    rintro p hp x ⟨hpx, hx⟩
    rcases List.mem_pair.mp hp with rfl | rfl
    · exact (ha x).mp hpx
    · exact absurd ((ha' x).mp hpx) hx
  refine ⟨?_, fun p hp x hpx => ?_⟩
  · refine Visits.step Visits.start ⟨by simpa using hne, ⟨a, by simp, (ha a').mpr rfl, hexit⟩, ?_⟩
    intro x _ p hp hpx
    rw [hstep p (List.mem_cons.mpr (Or.inl (List.mem_singleton.mp hp))) x hpx]
  · rw [hstep p hp x hpx]
    simp

theorem plain_nestedSeq : ∀ l t f, (l, .callLocal t f) ∈ nestedSeq → t.Plain := by
  intro l t f h
  simp only [nestedSeq, List.mem_cons, Prod.mk.injEq, Instruction.callLocal.injEq, reduceCtorEq,
    and_false, List.not_mem_nil, or_false, false_or] at h
  rcases h with ⟨-, rfl, -⟩ | ⟨-, rfl, -⟩
  · exact ⟨rfl, rfl⟩
  · exact ⟨rfl, rfl⟩

/-- The call in the copy of the function that is called first. -/
theorem inlined_nestedSeq : ∃ b₀ b begun fuel b₁,
    firstPass nestedSeq true = .ok b₀ ∧ instructionSeqToCfg nestedSeq true = .ok b ∧
    CallMade nestedSeq b₀ begun fuel b₁ ((Label.ofIndex 2).inFrame (Label.ofIndex 0).frame)
      (.ofIndex 4) ∧
    Inlined b₀ b₁ b ((Label.ofIndex 2).inFrame (Label.ofIndex 0).frame) (.ofIndex 4) := by
  let c : Label := (Label.ofIndex 2).inFrame (Label.ofIndex 0).frame
  obtain ⟨b₀, hfirst, hb₀⟩ := Except.exists_of_okWith (x := firstPass nestedSeq true)
    (p := fun b => b.succs (.ofIndex 4) = [.ofIndex 5] ∧ b.succs (.ofIndex 5) = [.exit] ∧
      b.instructions.find? (.ofIndex 4) = some (.other ()) ∧
      b.instructions.find? (.ofIndex 5) = some (.exit [])) (by decide)
  obtain ⟨b, hb, -⟩ := Except.exists_of_okWith (x := instructionSeqToCfg nestedSeq true)
    (p := fun _ => true) (by decide)
  obtain ⟨st, hst, hstate⟩ := Except.exists_of_okWith
    (x := firstPass nestedSeq true >>= fun b => b.cloneMacro (.ofIndex 0) (.ofIndex 2))
    (p := fun st => st.seenLabels.keys = [.ofIndex 2] ∧
      st.builder.instructions.find? c = some (.callLocal (.ofIndex 4) []) ∧
      st.builder.succs c = [(Label.ofIndex 3).inFrame (Label.ofIndex 0).frame] ∧
      st.builder.cfg.parentsOf (.ofIndex 4) = .ok [] ∧
      st.builder.cfg.parentsOf (.ofIndex 5) = .ok [.ofIndex 4]) (by decide)
  obtain ⟨h4, h5, hi4, hi5⟩ := of_decide_eq_true hb₀
  obtain ⟨hseen, hic, hc, hp4, hp5⟩ := of_decide_eq_true hstate
  rw [hfirst] at hst
  have houter : CallMade nestedSeq b₀ ([] ++ [(.ofIndex 0, .callLocal (.ofIndex 2) [])]) (7 + 1) b₀
      (.ofIndex 0) (.ofIndex 2) := CallMade.outer rfl rfl
  have hpre : [] ++ [Label.ofIndex 2] <+: st.seenLabels.keys := ⟨[], hseen.symm⟩
  have hmade := houter.nested hst hpre rfl hic (by decide)
  have hF := firstPass_spec hfirst
  have hone : ∀ (b : CfgBuilder Unit Unit) (x y : Label), b.succs x = [y] →
      ∀ z, b.Edge x z ↔ z = y := by
    intro b x y h z
    rw [← mem_succs, h, List.mem_singleton]
  have hsearch := searchOrder_pair (hone b₀ _ _ h4) (hone b₀ _ _ h5) (by decide) (by decide)
  have hmem : ∀ m, Callee b₀ (.ofIndex 4) m → m = .ofIndex 4 ∨ m = .ofIndex 5 := fun m hm => by
    simpa using hsearch.mem_iff.mpr hm
  have hcall : ∀ m ∈ [Label.ofIndex 4, .ofIndex 5], ∀ t', ¬ CallAt b₀ m t' := by
    rintro m hm t' ⟨f, hf⟩
    rcases List.mem_pair.mp hm with rfl | rfl
    · cases Option.some.inj (hi4.symm.trans hf)
    · cases Option.some.inj (hi5.symm.trans hf)
  -- what leads to the labels of the function in the graph in which the call is made
  have hparent := (hmade.state hF (by decide)).consistent.parent
  have hinto : ∀ n ∈ [Label.ofIndex 4, .ofIndex 5], ∀ x, st.builder.Edge x n →
      x = .ofIndex 4 ∧ n = .ofIndex 5 := by
    intro n hn x hx
    rw [← hparent] at hx
    rcases List.mem_pair.mp hn with rfl | rfl
    · exact absurd ((parentsOf_eq_ok hp4 x).mpr hx) (by simp)
    · exact ⟨by simpa using (parentsOf_eq_ok hp5 x).mpr hx, rfl⟩
  have hforward : Forward b₀ ([] ++ [(.ofIndex 0, .callLocal (.ofIndex 2) [])]) st.builder c
      (.ofIndex 4) := by
    refine ⟨?_, _, hsearch, fun m hm n hn hmn => ?_, fun m hm t' ht' => absurd ht' (hcall m hm t'),
      fun m hm n hn _ _ r hr hfeeds => ?_⟩
    · rintro k ⟨t', f, hk⟩ hkc
      obtain rfl : k = .ofIndex 0 := congrArg Prod.fst (List.mem_singleton.mp hk)
      exact absurd (hmem _ hkc) (by decide)
    · rcases List.mem_pair.mp hm with rfl | rfl
      · rw [(hone b₀ _ _ h4 n).mp hmn]
        decide
      · rw [(hone b₀ _ _ h5 n).mp hmn] at hn
        exact absurd hn (by decide)
    · obtain rfl := (hone st.builder _ _ hc r).mp hr
      rcases hfeeds with ⟨x, hx, hcopy⟩ | ⟨rfl, -⟩
      · obtain ⟨rfl, rfl⟩ := hinto n hn x hx
        rcases List.mem_pair.mp hm with rfl | rfl
        · exact (hone b₀ _ _ h4 _).mpr rfl
        · exact absurd hcopy (by decide)
      · exact absurd hn (by decide)
  exact ⟨b₀, b, _, _, _, hfirst, hb, hmade,
    (inlined_iff_forward hfirst hb (by decide) plain_nestedSeq hmade).1 hforward⟩

/-- A call of a function with a loop: its second instruction jumps back to the first. -/
def loopSeq : InstructionSeq Unit Unit :=
  [(.ofIndex 0, .callLocal (.ofIndex 2) []), (.ofIndex 1, .exit []), (.ofIndex 2, .other ()),
    (.ofIndex 3, .jmp (some ⟨.eq, 0, .inr 0, true⟩) (.ofIndex 2)), (.ofIndex 4, .exit [])]

theorem loopSeq_not_inlined : ∃ b₀ b begun fuel, firstPass loopSeq true = .ok b₀ ∧
    instructionSeqToCfg loopSeq true = .ok b ∧
    CallMade loopSeq b₀ begun fuel b₀ (.ofIndex 0) (.ofIndex 2) ∧
    ¬ Inlined b₀ b₀ b (.ofIndex 0) (.ofIndex 2) := by
  let jump := Label.makeJump (.ofIndex 3) (.ofIndex 2)
  obtain ⟨b₀, hfirst, hb₀⟩ := Except.exists_of_okWith (x := firstPass loopSeq true)
    (p := fun b => b.Edge (.ofIndex 2) (.ofIndex 3) ∧ b.Edge (.ofIndex 3) jump ∧
      b.Edge jump (.ofIndex 2) ∧
      b.instructions.find? jump = some (.assume ⟨.eq, 0, .inr 0, true⟩ true)) (by decide)
  obtain ⟨b, hb, hlost⟩ := Except.exists_of_okWith (x := instructionSeqToCfg loopSeq true)
    (p := fun b => !b.Edge (jump.inFrame (Label.ofIndex 0).frame)
      ((Label.ofIndex 2).inFrame (Label.ofIndex 0).frame)) (by decide)
  obtain ⟨h23, h3j, hj2, hinstr⟩ := of_decide_eq_true hb₀
  have hmade : CallMade loopSeq b₀ ([] ++ [(.ofIndex 0, .callLocal (.ofIndex 2) [])])
      maxCallStackFrames b₀ (.ofIndex 0) (.ofIndex 2) := CallMade.outer rfl rfl
  refine ⟨b₀, b, _, _, hfirst, hb, hmade, fun hinl => ?_⟩
  have hjump : Callee b₀ (.ofIndex 2) jump :=
    .tail (.tail .refl ⟨h23, by decide⟩) ⟨h3j, by decide⟩
  have hcall : ∀ t', ¬ CallAt b₀ jump t' := by
    rintro t' ⟨f, hf⟩
    cases Option.some.inj (hinstr.symm.trans hf)
  have hedge := (hinl.edge jump (.ofIndex 2) hjump .refl hcall).mpr hj2
  rw [decide_eq_true hedge] at hlost
  cases hlost

end CfgBuilder

end Prevail
