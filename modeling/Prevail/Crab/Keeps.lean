import Prevail.Crab.AddBottom

/-!
# Constraints that operations keep

`Keeps S d d'` says that `d'` still has the constraints of `d` between the variables in `S`, perhaps
sharper ones. Forgetting, setting and assigning a variable keep what is known about the others, and
adding a constraint keeps everything.

So the interval of a variable only shrinks under operations that leave the variable alone
(`Keeps.mem_getInterval`).
-/

namespace Prevail

open DiffSys GraphOps

namespace SplitDbm

variable {V : Type*} [LinearOrder V] {d d' d₁ d₂ : SplitDbm V} {P : ℕ → Prop} {S T : Option V → Prop}
  {v : V} {n : ℕ} {x y : Option V} {w : ℤ}

/-- What `d` says about the variables in `S` and zero is also said by `d'`. -/
def Keeps (S : Option V → Prop) (d d' : SplitDbm V) : Prop :=
  ∀ x y w, S x → S y → d.csts x y w → ∃ w' ≤ w, d'.csts x y w'

theorem Keeps.refl : Keeps S d d := fun _ _ w _ _ h => ⟨w, le_rfl, h⟩

theorem Keeps.mono (h : Keeps T d d') (hST : ∀ x, S x → T x) : Keeps S d d' :=
  fun x y w hx hy hw => h x y w (hST x hx) (hST y hy) hw

theorem Keeps.trans (h : Keeps S d d₁) (h' : Keeps S d₁ d₂) : Keeps S d d₂ := by
  intro x y w hx hy hw
  obtain ⟨w₁, hle₁, hw₁⟩ := h x y w hx hy hw
  obtain ⟨w₂, hle₂, hw₂⟩ := h' x y w₁ hx hy hw₁
  exact ⟨w₂, hle₂.trans hle₁, hw₂⟩

/-- The vertices stay and so do the edges between them. -/
theorem keeps_of_atMost (hv : ∀ x m, S x → d.vertOf x = some m → d'.vertOf x = some m)
    (hg : ∀ x y m n w, S x → S y → d.vertOf x = some m → d.vertOf y = some n →
      AtMost m n w d.g → AtMost m n w d'.g) : Keeps S d d' := by
  rintro x y w hx hy ⟨m, n, hm, hn, hw⟩
  exact exists_csts_of_atMost (hv x m hx hm) (hv y n hy hn) (hg x y m n w hx hy hm hn ⟨w, le_rfl, hw⟩)

theorem vertOf_of_extends (h : Extends d d') {m : ℕ} (hm : d.vertOf x = some m) :
    d'.vertOf x = some m := by
  cases x with
  | none => exact hm
  | some v => exact h v m hm

/-- A state that keeps all constraints of another admits no more. The variables that are not in use
have no constraints. -/
theorem Keeps.models (h : Keeps S d d') (hS : ∀ x m, d.vertOf x = some m → S x) (hd : d.WF)
    (hd' : d'.WF) {σ : V → ℤ} (hσ : d'.Models σ) : d.Models σ := by
  rw [models_iff hd] at *
  rw [models_iff hd'] at hσ
  intro x y w hw
  have ⟨m, n, hm, hn, _⟩ := hw
  obtain ⟨w', hle, hw'⟩ := h x y w (hS x m hm) (hS y n hn) hw
  exact (hσ x y w' hw').trans (Int.add_le_add_left hle _)

theorem Keeps.normalize (h : Keeps S d d') : Keeps S d d'.normalize :=
  h.trans (keeps_of_atMost (fun _ _ _ hm => vertOf_normalize.trans hm)
    fun _ _ _ _ _ _ _ _ _ => atMost_normalize)

/-! ## Vertices -/

theorem keeps_getVert (hd : d.WFWith P) (v : V) : Keeps S d (d.getVert v).2 := by
  have hg := getVert_spec hd v
  refine keeps_of_atMost (fun x m _ hm => ?_) fun x y m n w _ _ _ _ ⟨c, hc, he⟩ =>
    ⟨c, hc, (hg.edge m n c).mpr he⟩
  cases x with
  | none => exact hm
  | some u =>
    show (d.getVert v).2.vertMap.find? u = some m
    rw [hg.find?]
    split_ifs with huv
    · subst huv
      rw [getVert_of_some hm]
    · exact hm

/-- The variables other than `v`, and zero. -/
def Other (v : V) (x : Option V) : Prop := x ≠ some v

/-- An edge to or from the vertex of `v` does not matter to the others. -/
theorem ne_of_other (hd : d.WFWith P) (hv : d.vertMap.find? v = some n) {m : ℕ} (hx : Other v x)
    (hm : d.vertOf x = some m) : m ≠ n := by
  rintro rfl
  cases x with
  | none =>
    obtain rfl := Option.some.inj hm
    exact absurd (hd.vert v 0 hv).1 (lt_irrefl 0)
  | some u => exact hx (congrArg some (hd.inj u v m hm hv))

/-- The edges at the other vertices stay. -/
theorem atMost_havoc (hd : d.WFWith P) {m k : ℕ} (hm : d.vertMap.find? v ≠ some m)
    (hk : d.vertMap.find? v ≠ some k) (h : AtMost m k w d.g) : AtMost m k w (d.havoc v).g := by
  cases hv : d.vertMap.find? v with
  | none => rwa [havoc_of_none hv]
  | some n =>
    rw [havoc_of_some hv]
    obtain ⟨c, hc, he⟩ := h
    refine atMost_normalize ⟨c, hc, ?_⟩
    show (d.g.forget n).lookup m k = some c
    rw [AdaptGraph.lookup_forget_of_not_free (hd.vert v n hv).2.2, if_pos]
    · exact he
    · exact ⟨fun h => hm (h ▸ hv), fun h => hk (h ▸ hv)⟩

theorem keeps_havoc (hd : d.WFWith P) (v : V) : Keeps (Other v) d (d.havoc v) := by
  cases hv : d.vertMap.find? v with
  | none =>
    rw [havoc_of_none hv]
    exact .refl
  | some n =>
    have hne : ∀ {x : Option V} {m : ℕ}, Other v x → d.vertOf x = some m → m ≠ n :=
      fun hx hm => ne_of_other hd hv hx hm
    have hne' : ∀ {x : Option V} {m : ℕ}, Other v x → d.vertOf x = some m →
        d.vertMap.find? v ≠ some m :=
      fun hx hm h => hne hx hm (Option.some.inj (h.symm.trans hv))
    refine keeps_of_atMost (fun x m hx hm => ?_) fun x y m k w hx hy hm hk h =>
      atMost_havoc hd (hne' hx hm) (hne' hy hk) h
    rw [havoc_of_some hv]
    exact vertOf_normalize.trans ((vertOf_dropVert hv (hne hx hm)).mpr hm)

theorem keeps_withEdge (hd : d.WFWith P) (hv : d.vertMap.find? v = some n) {s t : ℕ}
    (hst : s = n ∨ t = n) (c : ℤ) (p : List ℤ) : Keeps (Other v) d (d.withEdge s c t p) := by
  refine keeps_of_atMost (fun _ _ _ hm => hm) ?_
  rintro x y m k w hx hy hm hk ⟨c', hc', he⟩
  refine ⟨c', hc', ?_⟩
  show (d.g.setEdge s c t).lookup m k = some c'
  rw [AdaptGraph.lookup_setEdge, if_neg]
  · exact he
  · rintro ⟨rfl, rfl⟩
    rcases hst with rfl | rfl
    · exact ne_of_other hd hv hx hm rfl
    · exact ne_of_other hd hv hy hk rfl

theorem keeps_setUb (hd : d.WFWith P) (hv : d.vertMap.find? v = some n) (ub : Bound) :
    Keeps (Other v) d (d.setUb n ub) := by
  unfold setUb
  cases ub.number with
  | some u => exact keeps_withEdge hd hv (Or.inr rfl) _ _
  | none => exact .refl

theorem keeps_setLb (hd : d.WFWith P) (hv : d.vertMap.find? v = some n) (lb : Bound) :
    Keeps (Other v) d (d.setLb n lb) := by
  unfold setLb
  cases lb.number with
  | some l => exact keeps_withEdge hd hv (Or.inl rfl) _ _
  | none => exact .refl

theorem keeps_set (hd : d.WF) (v : V) (i : Interval) : Keeps (Other v) d (d.set v i) := by
  have hh := wf_havoc hd v
  have hg := getVert_spec hh v
  have hlive : ((d.havoc v).getVert v).2.Live (fun _ => False) ((d.havoc v).getVert v).1 :=
    Or.inr (Or.inl ⟨v, hg.self⟩)
  obtain ⟨hu, hmap, -⟩ := setUb_spec hg.wf hlive i.ub
  have hself := hg.self
  rw [set_eq]
  split_ifs
  · exact keeps_havoc hd v
  · refine ((keeps_havoc hd v).trans ((keeps_getVert hh v).mono fun _ h => h)).trans ?_
    refine (keeps_setUb hg.wf hself i.ub).trans (Keeps.normalize (keeps_setLb hu ?_ i.lb))
    rw [hmap]
    exact hself

/-! ## Assignment -/

/-- The new edges all have the vertex `vert`. -/
def Incident (vert : ℕ) (delta : EdgeVector) : Prop := ∀ e ∈ delta, e.1 = vert ∨ e.2.1 = vert

theorem incident_assignDelta (d : SplitDbm V) (vert : ℕ) (diffsLb diffsUb : List (V × ℤ)) :
    Incident vert (d.assignDelta vert diffsLb diffsUb).1 := by
  have hsnoc : ∀ {l : EdgeVector} {e : ℕ × ℕ × ℤ}, Incident vert l → (e.1 = vert ∨ e.2.1 = vert) →
      Incident vert (l ++ [e]) := by
    intro l e hl he e' he'
    rcases List.mem_append.mp he' with he' | he'
    · exact hl e' he'
    · exact List.mem_singleton.mp he' ▸ he
  refine List.foldlRecOn (motive := fun acc : EdgeVector × SplitDbm V => Incident vert acc.1) _ _
    (List.foldlRecOn (motive := fun acc : EdgeVector × SplitDbm V => Incident vert acc.1) _ _ ?_ ?_) ?_
  · exact fun e he => absurd he List.not_mem_nil
  · exact fun acc hacc t _ => hsnoc hacc (Or.inl rfl)
  · exact fun acc hacc t _ => hsnoc hacc (Or.inr rfl)

theorem keeps_assignDelta (vert : ℕ) (hd : d.WFWith P) (diffsLb diffsUb : List (V × ℤ)) :
    Keeps S d (d.assignDelta vert diffsLb diffsUb).2 := by
  let Q (acc : EdgeVector × SplitDbm V) : Prop := acc.2.WFWith P ∧ Keeps S d acc.2
  have hstep : ∀ acc, Q acc → ∀ (t : V × ℤ) l, Q (l, (acc.2.getVert t.1).2) := fun acc hacc t l =>
    ⟨(getVert_spec hacc.1 t.1).wf, hacc.2.trans ((keeps_getVert hacc.1 t.1).mono fun _ h => h)⟩
  refine (List.foldlRecOn (motive := Q) _ _ (List.foldlRecOn (motive := Q) _ _ ⟨hd, .refl⟩ ?_) ?_).2
  · exact fun acc hacc t _ => hstep acc hacc t _
  · exact fun acc hacc t _ => hstep acc hacc t _

theorem atMost_applyDelta_of_incident {vert m k : ℕ} {g : AdaptGraph} {delta : EdgeVector}
    (hdelta : Incident vert delta) (hm : m ≠ vert) (hk : k ≠ vert) (h : AtMost m k w g) :
    AtMost m k w (applyDelta g delta) := by
  refine lookup_applyDelta_le (fun c hc => ?_) h
  rcases hdelta _ hc with heq | heq
  · exact absurd heq hm
  · exact absurd heq hk

/-- After the new edges come only sharper ones. -/
theorem atMost_assignGraph (hd : d.WF) {lhs : V} {eVal : ℤ} {diffsLb diffsUb : List (V × ℤ)}
    {acc : EdgeVector × SplitDbm V}
    (hacc : (setVert { d with g := d.g.newVertex.2 } d.g.newVertex.1 lhs
      (pot d.potential 0 + eVal)).assignDelta d.g.newVertex.1 diffsLb diffsUb = acc)
    (value : Interval) {m k : ℕ} (h : AtMost m k w (applyDelta acc.2.g acc.1)) :
    AtMost m k w (d.assignGraph lhs value eVal diffsLb diffsUb).g := by
  subst hacc
  have h₂ := fun p => h.applyDelta
    (sharper_closeAfterAssign_subGraph (p := p) (fresh_newVertex hd).pos.ne')
  have hlb : ∀ {g : AdaptGraph} (lb : Bound), AtMost m k w g →
      AtMost m k w (updateLb g d.g.newVertex.1 lb) := by
    intro g lb hg
    unfold updateLb
    cases lb.number with
    | some l => exact hg.updateEdge
    | none => exact hg
  have hub : ∀ {g : AdaptGraph} (ub : Bound), AtMost m k w g →
      AtMost m k w (updateUb g d.g.newVertex.1 ub) := by
    intro g ub hg
    unfold updateUb
    cases ub.number with
    | some l => exact hg.updateEdge
    | none => exact hg
  exact hub _ (hlb _ (h₂ _))

/-- The new vertex of an assignment takes nothing from the others. -/
theorem keeps_assignGraph (hd : d.WF) (lhs : V) (value : Interval) (eVal : ℤ)
    (diffsLb diffsUb : List (V × ℤ)) : Keeps S d (d.assignGraph lhs value eVal diffsLb diffsUb) := by
  have hf := fresh_newVertex hd
  have hwf := hf.wf_extra hd lhs (pot d.potential 0 + eVal)
  set d₀ := setVert { d with g := d.g.newVertex.2 } d.g.newVertex.1 lhs (pot d.potential 0 + eVal)
    with hd₀
  obtain ⟨hinv, -⟩ := assignDelta_spec (Or.inr rfl) hwf diffsLb diffsUb
  have hstart : Keeps S d d₀ := by
    refine keeps_of_atMost (fun x m _ hm => ?_) fun x y m k w _ _ _ _ ⟨c, hc, he⟩ => ⟨c, hc, ?_⟩
    · cases x with
      | none => exact hm
      | some u =>
        show d₀.vertMap.find? u = some m
        rw [hd₀, Fresh.setVert_vertMap]
        exact hm
    · rw [hd₀, Fresh.setVert_g]
      exact hf.edge_iff.mpr he
  refine (hstart.trans (keeps_assignDelta d.g.newVertex.1 hwf diffsLb diffsUb)).trans ?_
  set acc := d₀.assignDelta d.g.newVertex.1 diffsLb diffsUb with hacc
  have hne : ∀ {x : Option V} {m : ℕ}, acc.2.vertOf x = some m → m ≠ d.g.newVertex.1 := by
    rintro x m hm rfl
    cases x with
    | none =>
      have h0 := Option.some.inj hm
      exact hf.pos.ne h0
    | some u => exact hinv.wf.extraFresh u _ (Or.inr rfl) hm
  refine keeps_of_atMost (fun x m _ hm => by cases x <;> exact hm) fun x y m k w _ _ hm hk h => ?_
  exact atMost_assignGraph hd hacc.symm value
    (atMost_applyDelta_of_incident (incident_assignDelta d₀ _ diffsLb diffsUb) (hne hm) (hne hk) h)

theorem keeps_assign (hd : d.WF) (lhs : V) (e : LinearExpression V) :
    Keeps (Other lhs) d (d.assign lhs e) := by
  have hset := (keeps_set hd lhs (d.evalInterval e)).normalize
  unfold assign
  simp only
  split_ifs
  · exact hset
  · exact hset
  · rw [assignDiffs_eq]
    set d₁ := d.assignGraph lhs (d.evalInterval e) (d.evalExpression e) (d.diffcstsOfAssign e false)
      (d.diffcstsOfAssign e true) with hd₁
    have hg : d₁.WFWith fun m => False ∨ m = d.g.newVertex.1 := (assignGraph_spec hd _ _ _ _ _).1
    refine (keeps_assignGraph hd lhs _ _ _ _).trans ((keeps_havoc hg lhs).trans (Keeps.normalize ?_))
    refine keeps_of_atMost (fun x m hx hm => ?_) fun _ _ _ _ _ _ _ _ _ h => h
    cases x with
    | none => exact hm
    | some u =>
      show ((d₁.havoc lhs).vertMap.emplace lhs d.g.newVertex.1).find? u = some m
      rw [OrdMap.find?_emplace, if_neg fun heq => hx (congrArg some heq)]
      exact hm

/-! ## Constraints -/

/-- `Keeps` for a state that may become empty. -/
def KeepsOpt (S : Option V → Prop) (d : SplitDbm V) (r : Option (SplitDbm V)) : Prop :=
  ∀ d' ∈ r, d'.WF ∧ Keeps S d d'

theorem KeepsOpt.refl (hd : d.WF) : KeepsOpt S d (some d) := by
  rintro d' hd'
  obtain rfl := Option.some.inj hd'
  exact ⟨hd, .refl⟩

theorem KeepsOpt.bind {r : Option (SplitDbm V)} {f : SplitDbm V → Option (SplitDbm V)}
    (h : KeepsOpt S d r) (hf : ∀ d', d'.WF → KeepsOpt S d' (f d')) : KeepsOpt S d (r.bind f) := by
  intro d' hd'
  obtain ⟨d₁, hd₁, hd'⟩ := Option.bind_eq_some_iff.mp hd'
  obtain ⟨hwf, hk⟩ := h d₁ hd₁
  obtain ⟨hwf', hk'⟩ := hf d₁ hwf d' hd'
  exact ⟨hwf', hk.trans hk'⟩

theorem KeepsOpt.foldlM {α : Type*} {l : List α} {f : SplitDbm V → α → Option (SplitDbm V)}
    (hd : d.WF) (hf : ∀ a d', d'.WF → KeepsOpt S d' (f d' a)) : KeepsOpt S d (l.foldlM f d) := by
  induction l generalizing d with
  | nil => exact .refl hd
  | cons a l ih =>
    rw [List.foldlM_cons]
    exact (hf a d hd).bind fun d' hd' => ih hd'

/-- A sharper edge with a repaired potential. -/
theorem keepsOpt_repair {g : AdaptGraph} {s t : ℕ} {Q : (V → ℤ) → Prop}
    (hn : Narrows Q d (repairPotential { d with g := g } s t))
    (hg : ∀ m n w, AtMost m n w d.g → AtMost m n w g) :
    KeepsOpt S d (repairPotential { d with g := g } s t) := by
  intro d' hd'
  refine ⟨hn.wf d' hd', keeps_of_atMost (fun _ _ _ hm => vertOf_of_extends (hn.extend d' hd') hm) ?_⟩
  obtain ⟨p', -, rfl⟩ := Option.map_eq_some_iff.mp hd'
  exact fun _ _ m n w _ _ _ _ h => hg m n w h

theorem atMost_setEdge {g : AdaptGraph} {s t m k : ℕ} {c : ℤ}
    (hc : ∀ w, g.lookup s t = some w → c ≤ w) (h : AtMost m k w g) :
    AtMost m k w (g.setEdge s c t) := by
  obtain ⟨w', hle, hw'⟩ := h
  unfold AtMost
  rw [AdaptGraph.lookup_setEdge]
  split_ifs with heq
  · obtain ⟨rfl, rfl⟩ := heq
    exact ⟨c, (hc w' hw').trans hle, rfl⟩
  · exact ⟨w', hle, hw'⟩

theorem KeepsOpt.of_getVert {r : Option (SplitDbm V)} (hd : d.WF) (v : V)
    (h : KeepsOpt S (d.getVert v).2 r) : KeepsOpt S d r := fun d' hd' =>
  ⟨(h d' hd').1, ((keeps_getVert hd v).mono fun _ hx => hx).trans (h d' hd').2⟩

theorem keepsOpt_addLb (hd : d.WF) (c : V × ℤ) : KeepsOpt S d (d.addLb c) := by
  have hg := getVert_spec hd c.1
  have hedge : (∀ w, (d.getVert c.1).2.g.lookup (d.getVert c.1).1 0 = some w → -c.2 ≤ w) →
      KeepsOpt S (d.getVert c.1).2 (repairPotential { (d.getVert c.1).2 with
        g := (d.getVert c.1).2.g.setEdge (d.getVert c.1).1 (-c.2) 0 } (d.getVert c.1).1 0) := by
    intro hle
    refine keepsOpt_repair (narrows_setEdge (Q := fun σ => c.2 ≤ σ c.1) hg.wf
      (live_of_find? hg.self) (Or.inl rfl) fun σ ν hν hσ => ?_) fun _ _ _ => atMost_setEdge hle
    rw [hν.zero, hν.agree _ _ hg.self]
    omega
  unfold addLb
  apply KeepsOpt.of_getVert hd c.1
  simp only
  split
  · next w hw =>
    split_ifs with hle
    · exact .refl hg.wf
    · refine hedge fun w' hw' => ?_
      obtain rfl := Option.some.inj (hw.symm.trans hw')
      omega
  · next hw => exact hedge fun w' hw' => absurd (hw.symm.trans hw') (by simp)

theorem keepsOpt_addUb (hd : d.WF) (c : V × ℤ) : KeepsOpt S d (d.addUb c) := by
  have hg := getVert_spec hd c.1
  have hedge : (∀ w, (d.getVert c.1).2.g.lookup 0 (d.getVert c.1).1 = some w → c.2 ≤ w) →
      KeepsOpt S (d.getVert c.1).2 (repairPotential { (d.getVert c.1).2 with
        g := (d.getVert c.1).2.g.setEdge 0 c.2 (d.getVert c.1).1 } 0 (d.getVert c.1).1) := by
    intro hle
    refine keepsOpt_repair (narrows_setEdge (Q := fun σ => σ c.1 ≤ c.2) hg.wf (Or.inl rfl)
      (live_of_find? hg.self) fun σ ν hν hσ => ?_) fun _ _ _ => atMost_setEdge hle
    rw [hν.zero, hν.agree _ _ hg.self, zero_add]
    exact hσ
  unfold addUb
  apply KeepsOpt.of_getVert hd c.1
  simp only
  split
  · next w hw =>
    split_ifs with hle
    · exact .refl hg.wf
    · refine hedge fun w' hw' => ?_
      obtain rfl := Option.some.inj (hw.symm.trans hw')
      omega
  · next hw => exact hedge fun w' hw' => absurd (hw.symm.trans hw') (by simp)

theorem atMost_closeOverEdge {g : AdaptGraph} {s t m k : ℕ} (h : AtMost m k w g) :
    AtMost m k w (closeOverEdge g s t) := by
  refine closeOverEdge_induction (AtMost m k w) g s t h fun {h₁ h₂ a b c} hh ht => ?_
  rw [tighten_eq_some ht]
  refine atMost_setEdge (fun w' hw' => ?_) hh
  unfold tighten at ht
  simp only [hw'] at ht
  split_ifs at ht
  omega

theorem keepsOpt_addDiff (hd : d.WF) (c : (V × V) × ℤ) : KeepsOpt S d (d.addDiff c) := by
  have hg := getVert_spec hd c.1.2
  have hg' := getVert_spec hg.wf c.1.1
  have hnarrow := narrows_addDiff hd c (Q := fun σ => σ c.1.1 ≤ σ c.1.2 + c.2) fun _ hσ => hσ
  have hs := find?_getVert_of_some hg.wf c.1.1 hg.self
  intro d' hd'
  refine ⟨hnarrow.wf d' hd', ?_⟩
  obtain ⟨d₁, hd₁, rfl⟩ := Option.map_eq_some_iff.mp hd'
  have hedge := keepsOpt_repair (S := S) (narrows_updateEdge (Q := fun σ => σ c.1.1 ≤ σ c.1.2 + c.2)
    hg'.wf (live_of_find? hs) (live_of_find? hg'.self) fun σ ν hν hσ => by
      rw [hν.agree _ _ hs, hν.agree _ _ hg'.self]
      exact hσ) fun _ _ _ h => h.updateEdge
  have hget : Keeps S d ((d.getVert c.1.2).2.getVert c.1.1).2 :=
    ((keeps_getVert hd c.1.2).mono fun _ h => h).trans ((keeps_getVert hg.wf c.1.1).mono fun _ h => h)
  refine (hget.trans (hedge d₁ hd₁).2).trans (keeps_of_atMost ?_ ?_)
  · exact fun x m _ hm => by cases x <;> exact hm
  · exact fun _ _ _ _ _ _ _ _ _ h => atMost_closeOverEdge h

theorem keepsOpt_addLinearLeq (hd : d.WF) (e : LinearExpression V) :
    KeepsOpt S d (d.addLinearLeq e) := by
  unfold addLinearLeq
  refine (KeepsOpt.foldlM hd fun c d' hd' => keepsOpt_addLb hd' c).bind fun d₁ hd₁ => ?_
  refine (KeepsOpt.foldlM hd₁ fun c d' hd' => keepsOpt_addUb hd' c).bind fun d₂ hd₂ => ?_
  refine (KeepsOpt.foldlM hd₂ fun c d' hd' => keepsOpt_addDiff hd' c).bind fun d₃ hd₃ => ?_
  have hs := sharper_closeAfterAssign (g := d₃.g) (p := pot d₃.potential) 0
  have he := entails_of_sharper hd₃ hs d₃.unstable
  rintro d' hd'
  obtain rfl := Option.some.inj hd'
  refine ⟨(entails_normalize (he.wf hd₃)).wf (he.wf hd₃), Keeps.normalize (keeps_of_atMost ?_ ?_)⟩
  · exact fun x m _ hm => by cases x <;> exact hm
  · exact fun _ _ _ _ _ _ _ _ _ h => h.applyDelta hs

/-- Adding a constraint keeps all others. -/
theorem keepsOpt_addConstraint (hd : d.WF) {c : LinearConstraint V} (hc : c.kind ≠ .notZero) :
    KeepsOpt S d (d.addConstraint c) := by
  have hnormalize : ∀ {r : Option (SplitDbm V)}, KeepsOpt S d r →
      KeepsOpt S d (SplitDbm.normalize <$> r) := by
    intro r hr d' hd'
    obtain ⟨d₁, hd₁, rfl⟩ := Option.map_eq_some_iff.mp hd'
    obtain ⟨hwf, hk⟩ := hr d₁ hd₁
    exact ⟨(entails_normalize hwf).wf hwf, hk.normalize⟩
  unfold addConstraint
  split_ifs
  · exact .refl hd
  · intro d' hd'
    cases hd'
  · apply hnormalize
    split
    · exact keepsOpt_addLinearLeq hd _
    · exact keepsOpt_addLinearLeq hd _
    · exact (keepsOpt_addLinearLeq hd _).bind fun d' hd' => keepsOpt_addLinearLeq hd' _
    · next hkind => exact absurd hkind hc

/-! ## Intervals -/

/-- The interval of a variable is what the constraints with zero say. -/
theorem mem_getInterval_iff {k : ℤ} : k ∈ d.getInterval v ↔
    (∀ w, d.csts none (some v) w → k ≤ w) ∧ ∀ w, d.csts (some v) none w → -w ≤ k := by
  unfold getInterval
  rw [Interval.mem_ofBounds, and_comm]
  cases hv : d.vertMap.find? v with
  | none =>
    have hno : ∀ {x y : Option V} {w : ℤ}, x = some v ∨ y = some v → ¬ d.csts x y w := by
      rintro x y w (rfl | rfl) ⟨m, n, hm, hn, -⟩
      · exact absurd (hm.symm.trans hv) (by simp)
      · exact absurd (hn.symm.trans hv) (by simp)
    exact iff_of_true ⟨Bound.le_posInf _, Bound.negInf_le _⟩
      ⟨fun w h => absurd h (hno (Or.inr rfl)), fun w h => absurd h (hno (Or.inl rfl))⟩
  | some n =>
    have hub : ∀ w, d.csts none (some v) w ↔ d.g.Edge 0 n w := fun w => csts_iff_edge rfl hv
    have hlb : ∀ w, d.csts (some v) none w ↔ d.g.Edge n 0 w := fun w => csts_iff_edge hv rfl
    simp only [hub, hlb, AdaptGraph.Edge, getLb, getUb]
    refine and_congr ?_ ?_
    · cases d.g.lookup 0 n with
      | none => simp [Bound.le_posInf]
      | some w => simp [Bound.fin_le_fin]
    · cases d.g.lookup n 0 with
      | none => simp [Bound.negInf_le]
      | some w => simp [Bound.fin_le_fin]

/-- In normal form the interval of a variable has only the values that are possible. -/
theorem NormalForm.exists_models_of_mem (h : d.NormalForm) (hd : d.WF) {k : ℤ}
    (hk : k ∈ d.getInterval v) : ∃ σ, d.Models σ ∧ σ v = k := by
  rw [mem_getInterval_iff] at hk
  -- otherwise the state would show a bound that rules out the value
  have hle : ∃ σ, d.Models σ ∧ σ v ≤ k := by
    by_contra hno
    push Not at hno
    have himp : d.csts.Implies (some v) none (-(k + 1)) := by
      refine (implies_csts_iff hd).mpr fun σ hσ => ?_
      have hlt := hno σ hσ
      show (0 : ℤ) ≤ σ v + -(k + 1)
      omega
    obtain ⟨w, hw, hcst⟩ | ⟨-, hne, -⟩ := h.short hd (by simp) himp
    · have := hk.2 w hcst
      omega
    · exact hne rfl
  have hge : ∃ σ, d.Models σ ∧ k ≤ σ v := by
    by_contra hno
    push Not at hno
    have himp : d.csts.Implies none (some v) (k - 1) := by
      refine (implies_csts_iff hd).mpr fun σ hσ => ?_
      have hlt := hno σ hσ
      show σ v ≤ 0 + (k - 1)
      omega
    obtain ⟨w, hw, hcst⟩ | ⟨hne, -⟩ := h.short hd (by simp) himp
    · have := hk.1 w hcst
      omega
    · exact hne rfl
  obtain ⟨σ, hσ, hσk⟩ := hle
  obtain ⟨ρ, hρ, hρk⟩ := hge
  obtain ⟨φ, hφ, heq⟩ := exists_sat_of_between (s := none) (d := some v) (k := k)
    ((models_iff hd).mp hσ) (by rwa [ext, ext, zero_add]) ((models_iff hd).mp hρ)
    (by rwa [ext, ext, zero_add])
  refine ⟨fun u => φ (some u) - φ none, (models_iff hd).mpr ?_, sub_eq_of_eq_add' heq⟩
  convert hφ.sub_const (φ none) using 1
  funext u
  cases u with
  | none => exact (sub_self _).symm
  | some u => rfl

theorem Keeps.mem_getInterval (h : Keeps S d d') (hv : S (some v)) (h0 : S none) {k : ℤ}
    (hk : k ∈ d'.getInterval v) : k ∈ d.getInterval v := by
  rw [mem_getInterval_iff] at hk ⊢
  constructor
  · intro w hw
    obtain ⟨w', hle, hw'⟩ := h _ _ w h0 hv hw
    exact (hk.1 w' hw').trans hle
  · intro w hw
    obtain ⟨w', hle, hw'⟩ := h _ _ w hv h0 hw
    have := hk.2 w' hw'
    omega

theorem mem_evalInterval_var {k : ℤ} : k ∈ d.evalInterval (.var v) ↔ k ∈ d.getInterval v := by
  have hterms : (LinearExpression.var v).variableTerms.entries = [(v, 1)] := rfl
  have heval : d.evalInterval (.var v) =
      (Interval.const 0).add ((Interval.const 1).mul (d.getInterval v)) := by
    unfold evalInterval
    rw [hterms, List.foldl_cons, List.foldl_nil]
    rfl
  rw [heval]
  constructor
  · exact fun h => Interval.mem_const_one_mul (Interval.mem_const_zero_add h)
  · intro h
    have hmul := Interval.mem_mul (Interval.mem_const.mpr (rfl : (1 : ℤ) = 1)) h
    have hadd := Interval.mem_add (Interval.mem_const.mpr (rfl : (0 : ℤ) = 0)) hmul
    rwa [zero_add, one_mul] at hadd

/-- A variable that is set to an interval has no other values. -/
theorem between_of_mem_getInterval_set (hd : d.WF) {l u k : ℤ}
    (h : k ∈ (d.set v ⟨.fin l, .fin u⟩).getInterval v) : l ≤ k ∧ k ≤ u := by
  have hh := wf_havoc hd v
  have hg := getVert_spec hh v
  set n := ((d.havoc v).getVert v).1
  have hne : n ≠ 0 := (hg.wf.vert v n hg.self).1.ne'
  set d₁ := (((d.havoc v).getVert v).2.setUb n (.fin u)).setLb n (.fin l) with hd₁
  have heq : d.set v ⟨.fin l, .fin u⟩ = d₁.normalize := by
    rw [set_eq]
    rfl
  have hv : d₁.normalize.vertOf (some v) = some n := vertOf_normalize.trans hg.self
  have hlower : d₁.g.lookup n 0 = some (-l) := by
    show ((((d.havoc v).getVert v).2.g.setEdge 0 u n).setEdge n (-l) 0).lookup n 0 = _
    rw [AdaptGraph.lookup_setEdge, if_pos ⟨rfl, rfl⟩]
  have hupper : d₁.g.lookup 0 n = some u := by
    show ((((d.havoc v).getVert v).2.g.setEdge 0 u n).setEdge n (-l) 0).lookup 0 n = _
    rw [AdaptGraph.lookup_setEdge, if_neg fun h => hne h.2, AdaptGraph.lookup_setEdge,
      if_pos ⟨rfl, rfl⟩]
  obtain ⟨hu, hl⟩ := mem_getInterval_iff.mp (heq ▸ h)
  have h0 : d₁.normalize.vertOf none = some 0 := rfl
  obtain ⟨w, hw, hcst⟩ := exists_csts_of_atMost h0 hv (atMost_normalize ⟨u, le_rfl, hupper⟩)
  obtain ⟨w', hw', hcst'⟩ := exists_csts_of_atMost hv h0 (atMost_normalize ⟨-l, le_rfl, hlower⟩)
  have h1 := hu w hcst
  have h2 := hl w' hcst'
  omega

theorem eq_of_mem_getInterval_set (hd : d.WF) {c k : ℤ} (h : k ∈ (d.set v (.const c)).getInterval v) :
    k = c := by
  obtain ⟨hl, hu⟩ := between_of_mem_getInterval_set hd h
  omega

/-- A variable that is assigned a number has no other value. -/
theorem eq_of_mem_getInterval_assign (hd : d.WF) {c k : ℤ}
    (h : k ∈ (d.assign v (.const c)).getInterval v) : k = c := by
  have heq : d.assign v (.const c) = (d.set v (.const c)).normalize := by
    have hval : d.evalInterval (.const c) = .const c := rfl
    unfold assign
    rw [hval]
    simp only
    rw [if_pos (by simp [Interval.isSingleton, Interval.const])]
  rw [heq] at h
  have hk : Keeps (fun _ => True) (d.set v (.const c)) (d.set v (.const c)).normalize :=
    Keeps.normalize .refl
  exact eq_of_mem_getInterval_set hd (hk.mem_getInterval trivial trivial h)

end SplitDbm

namespace AddBottom

variable {V : Type*} [LinearOrder V] {x y z : AddBottom V} {S : Option V → Prop} {v : V} {k : ℤ}

/-- What `x` says about the variables in `S` and zero is also said by `y`. -/
def Keeps (S : Option V → Prop) (x y : AddBottom V) : Prop := ∀ b ∈ y, ∃ a ∈ x, a.Keeps S b

theorem Keeps.refl : Keeps S x x := fun b hb => ⟨b, hb, .refl⟩

theorem Keeps.trans (h : Keeps S x y) (h' : Keeps S y z) : Keeps S x z := by
  intro c hc
  obtain ⟨b, hb, hbc⟩ := h' c hc
  obtain ⟨a, ha, hab⟩ := h b hb
  exact ⟨a, ha, hab.trans hbc⟩

theorem Keeps.mono {T : Option V → Prop} (h : Keeps T x y) (hST : ∀ v, S v → T v) : Keeps S x y := by
  intro b hb
  obtain ⟨a, ha, hab⟩ := h b hb
  exact ⟨a, ha, hab.mono hST⟩

theorem keeps_map {f : SplitDbm V → SplitDbm V} (h : ∀ a ∈ x, a.Keeps S (f a)) :
    Keeps S x (x.map f) := by
  intro b hb
  obtain ⟨a, ha, rfl⟩ := Option.map_eq_some_iff.mp hb
  exact ⟨a, ha, h a ha⟩

theorem keeps_havoc (hx : x.WF) {u : V} (hS : ∀ y, S y → y ≠ some u) : Keeps S x (x.havoc u) :=
  keeps_map fun a ha => (SplitDbm.keeps_havoc (hx a ha) u).mono hS

theorem keeps_assign (hx : x.WF) {u : V} (e : LinearExpression V) (hS : ∀ y, S y → y ≠ some u) :
    Keeps S x (x.assign u e) :=
  keeps_map fun a ha => (SplitDbm.keeps_assign (hx a ha) u e).mono hS

theorem keeps_assignInt (hx : x.WF) {u : V} (n : ℤ) (hS : ∀ y, S y → y ≠ some u) :
    Keeps S x (x.assignInt u n) :=
  keeps_map fun a ha => (SplitDbm.keeps_set (hx a ha) u _).mono hS

theorem keeps_addConstraint (hx : x.WF) {c : LinearConstraint V} (hc : c.kind ≠ .notZero) :
    Keeps S x (x.addConstraint c) := by
  intro b hb
  obtain ⟨a, ha, hab⟩ := Option.bind_eq_some_iff.mp hb
  exact ⟨a, ha, (SplitDbm.keepsOpt_addConstraint (hx a ha) hc b hab).2⟩

/-- A constraint only removes valuations. -/
theorem models_of_addConstraint (hx : x.WF) {c : LinearConstraint V} (hc : c.kind ≠ .notZero)
    {σ : V → ℤ} (hσ : (x.addConstraint c).Models σ) : x.Models σ := by
  obtain ⟨b, hb, hσ⟩ := hσ
  obtain ⟨a, ha, hab⟩ := Option.bind_eq_some_iff.mp hb
  obtain ⟨hwf, hk⟩ := SplitDbm.keepsOpt_addConstraint (S := fun _ => True) (hx a ha) hc b hab
  exact ⟨a, ha, hk.models (fun _ _ _ => trivial) (hx a ha) hwf hσ⟩

theorem eq_of_mem_assignInt (hx : x.WF) {c : ℤ} (hk : k ∈ (x.assignInt v c).evalInterval (.var v)) :
    k = c := by
  cases x with
  | none => exact absurd hk (Interval.not_mem_bottom k)
  | some d =>
    exact SplitDbm.eq_of_mem_getInterval_set (hx d rfl) (SplitDbm.mem_evalInterval_var.mp hk)

theorem eq_of_mem_assign (hx : x.WF) {c : ℤ}
    (hk : k ∈ (x.assign v (.const c)).evalInterval (.var v)) : k = c := by
  cases x with
  | none => exact absurd hk (Interval.not_mem_bottom k)
  | some d =>
    exact SplitDbm.eq_of_mem_getInterval_assign (hx d rfl) (SplitDbm.mem_evalInterval_var.mp hk)

theorem exists_models_of_mem (hx : x.WF) (hn : x.NormalForm) (hk : k ∈ x.evalInterval (.var v)) :
    ∃ σ, x.Models σ ∧ σ v = k := by
  cases x with
  | none => exact absurd hk (Interval.not_mem_bottom k)
  | some d =>
    obtain ⟨σ, hσ, heq⟩ := (hn d rfl).exists_models_of_mem (hx d rfl)
      (SplitDbm.mem_evalInterval_var.mp hk)
    exact ⟨σ, ⟨d, rfl, hσ⟩, heq⟩

/-- The interval of a variable that is kept only shrinks. -/
theorem Keeps.mem_evalInterval (h : Keeps S x y) (hv : S (some v)) (h0 : S none)
    (hk : k ∈ y.evalInterval (.var v)) : k ∈ x.evalInterval (.var v) := by
  cases y with
  | none => exact absurd hk (Interval.not_mem_bottom k)
  | some b =>
    obtain ⟨a, rfl, hab⟩ := h b rfl
    exact SplitDbm.mem_evalInterval_var.mpr
      (hab.mem_getInterval hv h0 (SplitDbm.mem_evalInterval_var.mp hk))

end AddBottom

end Prevail
