import Mathlib.Data.Finite.Prod
import Mathlib.Data.Int.LeastGreatest
import Mathlib.Data.Set.Finite.Lattice
import Prevail.Lib.DiffSys

/-!
# Paths of difference constraints

A path adds up the constraints along it, so that the system implies its total weight. Over finitely
many constraints with a solution this is all that the system implies (`derives_of_implies`): the
smallest weights of the paths from one unknown, continued by a solution that is raised out of
their way, are a solution themselves.

A system is split closed at `z` when each path is matched by a single constraint or by one
constraint into `z` and one out of it, and each path that starts or ends in `z` by a single
constraint. Two steps at a time are enough (`splitClosed_of_triangle`).
-/

namespace DiffSys

variable {V : Type*} {E F : DiffSys V} {σ : V → ℤ} {s d e z : V} {w w' : ℤ}

/-! ## Paths -/

/-- A path from `s`, with its end and its total weight. -/
inductive Path (E : DiffSys V) (s : V) : V → ℤ → Prop
  | nil : Path E s s 0
  | snoc {d e : V} {w w' : ℤ} (h : Path E s d w) (he : E d e w') : Path E s e (w + w')

theorem Path.of_edge (h : E s d w) : Path E s d w := by
  have hp := Path.snoc .nil h
  rwa [zero_add] at hp

theorem Path.trans (h : Path E s d w) (h' : Path E d e w') : Path E s e (w + w') := by
  induction h' with
  | nil => rwa [add_zero]
  | snoc _ he ih =>
    rw [← add_assoc]
    exact ih.snoc he

theorem Path.implies (h : Path E s d w) : Implies E s d w := by
  induction h with
  | nil => exact Implies.refl E s
  | snoc _ he ih => exact ih.snoc he

/-- The system has a path from `s` to `d` of weight at most `w`. -/
def Derives (E : DiffSys V) (s d : V) (w : ℤ) : Prop := ∃ w' ≤ w, Path E s d w'

theorem Derives.of_edge (h : E s d w) : Derives E s d w := ⟨w, le_rfl, .of_edge h⟩

theorem Derives.trans (h : Derives E s d w) (h' : Derives E d e w') : Derives E s e (w + w') := by
  obtain ⟨a, ha, hpa⟩ := h
  obtain ⟨b, hb, hpb⟩ := h'
  exact ⟨a + b, add_le_add ha hb, hpa.trans hpb⟩

theorem Derives.weaken (h : Derives E s d w) (hw : w ≤ w') : Derives E s d w' :=
  let ⟨a, ha, hp⟩ := h
  ⟨a, ha.trans hw, hp⟩

theorem Derives.implies (h : Derives E s d w) : Implies E s d w :=
  let ⟨_, ha, hp⟩ := h
  hp.implies.weaken ha

/-- A path over constraints that `F` derives is derived by `F`. -/
theorem Path.derives (h : Path E s d w) (hF : ∀ a b c, E a b c → Derives F a b c) :
    Derives F s d w := by
  induction h with
  | nil => exact ⟨0, le_rfl, .nil⟩
  | snoc _ he ih => exact ih.trans (hF _ _ _ he)

theorem Derives.mono (h : Derives E s d w) (hF : ∀ a b c, E a b c → Derives F a b c) :
    Derives F s d w :=
  let ⟨_, ha, hp⟩ := h
  (hp.derives hF).weaken ha

theorem Path.reach (h : Path E s d w) : Reach E s d := by
  induction h with
  | nil => exact .refl
  | snoc _ he ih => exact ih.tail ⟨_, he⟩

theorem Reach.of_derives (h : Reach E s d) (hF : ∀ a b c, E a b c → Derives F a b c) :
    Reach F s d := by
  induction h with
  | refl => exact .refl
  | tail _ he ih =>
    obtain ⟨c, hc⟩ := he
    obtain ⟨_, -, hp⟩ := hF _ _ c hc
    exact ih.trans hp.reach

/-- With a solution the path weights between two unknowns have a least one. -/
theorem exists_least_path (hσ : Sat E σ) (h : Path E s d w) :
    ∃ c, Path E s d c ∧ ∀ c', Path E s d c' → c ≤ c' := by
  obtain ⟨c, hc, hleast⟩ := Int.exists_least_of_bdd (P := Path E s d)
    ⟨σ d - σ s, fun c hc => by have := hc.implies σ hσ; omega⟩ ⟨w, h⟩
  exact ⟨c, hc, hleast⟩

/-- Finitely many constraints with a solution imply no more than their paths do. -/
theorem derives_of_implies (hfin : {c : V × V × ℤ | E c.1 c.2.1 c.2.2}.Finite) (hσ : Sat E σ)
    (h : Implies E s d w) : Derives E s d w := by
  classical
  by_contra hno
  -- the distances from `s`
  have hdist : ∀ v, ∃ c, (∃ c', Path E s v c') → Path E s v c ∧ ∀ c', Path E s v c' → c ≤ c' := by
    intro v
    by_cases hv : ∃ c', Path E s v c'
    · obtain ⟨c', hc'⟩ := hv
      obtain ⟨c, hc⟩ := exists_least_path hσ hc'
      exact ⟨c, fun _ => hc⟩
    · exact ⟨0, fun hv' => absurd hv' hv⟩
  choose δ hδ using hdist
  -- a lift that takes the unknowns out of reach above everything they constrain
  obtain ⟨M, hM⟩ := (hfin.image fun c => δ c.2.1 - σ c.1 - c.2.2).bddAbove
  have hM : ∀ a b c, E a b c → δ b - σ a - c ≤ M := fun a b c hc => hM ⟨(a, b, c), hc, rfl⟩
  let τ : V → ℤ := fun v => if ∃ c, Path E s v c then δ v else σ v + max M (w - σ d + 1)
  have hτ : Sat E τ := by
    intro a b c hc
    simp only [τ]
    by_cases ha : ∃ c', Path E s a c'
    · have hpath := (hδ a ha).1.snoc hc
      rw [if_pos ha, if_pos ⟨_, hpath⟩]
      exact (hδ b ⟨_, hpath⟩).2 _ hpath
    · rw [if_neg ha]
      split_ifs
      · have := hM a b c hc
        omega
      · have := hσ a b c hc
        omega
  have hs : ∃ c, Path E s s c := ⟨0, .nil⟩
  have hle := h τ hτ
  have hs0 : δ s ≤ 0 := (hδ s hs).2 0 .nil
  simp only [τ, if_pos hs] at hle
  split_ifs at hle with hd
  · exact hno ⟨δ d, by omega, (hδ d hd).1⟩
  · omega

theorem Path.exists_edge (h : Path E s d w) : s = d ∨ ∃ e c, E s e c := by
  induction h with
  | nil => exact Or.inl rfl
  | snoc _ he ih =>
    rcases ih with rfl | h
    · exact Or.inr ⟨_, _, he⟩
    · exact Or.inr h

/-- Values for some unknowns that respect all paths between them extend to a solution: every other
unknown takes the least value that a path from them leaves, or a solution raised out of the way. -/
theorem exists_extension (hfin : {c : V × V × ℤ | E c.1 c.2.1 c.2.2}.Finite) (hσ : Sat E σ)
    {M : Set V} {φ : V → ℤ} (hφ : ∀ x ∈ M, ∀ y ∈ M, ∀ w, Path E x y w → φ y ≤ φ x + w) :
    ∃ ψ, Sat E ψ ∧ ∀ x ∈ M, ψ x = φ x := by
  classical
  obtain ⟨K, hK⟩ := (hfin.image fun c => φ c.2.1 - σ c.1 - c.2.2).bddAbove
  have hK : ∀ a b c, E a b c → φ b - σ a - c ≤ K := fun a b c hc => hK ⟨(a, b, c), hc, rfl⟩
  obtain ⟨L, hL⟩ := (hfin.image fun c => φ c.1 - σ c.1).bddBelow
  have hL : ∀ a b c, E a b c → L ≤ φ a - σ a := fun a b c hc => hL ⟨(a, b, c), hc, rfl⟩
  let Offer : V → ℤ → Prop := fun v n => n = σ v + K ∨ ∃ x ∈ M, ∃ c, Path E x v c ∧ n = φ x + c
  have hleast : ∀ v, ∃ n, v ∉ M → Offer v n ∧ ∀ n', Offer v n' → n ≤ n' := by
    intro v
    by_cases hv : v ∈ M
    · exact ⟨0, fun h => absurd hv h⟩
    · obtain ⟨n, hn, hmin⟩ := Int.exists_least_of_bdd (P := Offer v) ⟨min (σ v + K) (σ v + L), by
        rintro n (rfl | ⟨x, hx, c, hp, rfl⟩)
        · exact min_le_left _ _
        · rcases hp.exists_edge with rfl | ⟨e, c', he⟩
          · exact absurd hx hv
          · have h1 := hL x e c' he
            have h2 := hp.implies σ hσ
            exact (min_le_right _ _).trans (by omega)⟩ ⟨_, Or.inl rfl⟩
      exact ⟨n, fun _ => ⟨hn, hmin⟩⟩
  choose δ hδ using hleast
  refine ⟨fun v => if v ∈ M then φ v else δ v, fun a b c hc => ?_, fun x hx => if_pos hx⟩
  dsimp only
  by_cases ha : a ∈ M
  · rw [if_pos ha]
    split_ifs with hb
    · exact hφ a ha b hb c (.of_edge hc)
    · exact (hδ b hb).2 _ (Or.inr ⟨a, ha, c, .of_edge hc, rfl⟩)
  · rw [if_neg ha]
    rcases (hδ a ha).1 with hn | ⟨x, hx, c', hp, hn⟩
    · split_ifs with hb
      · have := hK a b c hc
        omega
      · have h1 := (hδ b hb).2 _ (Or.inl rfl)
        have h2 := hσ a b c hc
        omega
    · split_ifs with hb
      · have := hφ x hx b hb _ (hp.snoc hc)
        omega
      · have := (hδ b hb).2 _ (Or.inr ⟨x, hx, c' + c, hp.snoc hc, rfl⟩)
        omega

/-! ## Negative cycles -/

theorem Path.mono (h : Path E s d w) (hF : ∀ a b c, E a b c → F a b c) : Path F s d w := by
  induction h with
  | nil => exact .nil
  | snoc _ he ih => exact ih.snoc (hF _ _ _ he)

/-- A constraint that closes no negative cycle can be added. -/
theorem exists_sat_insert (hfin : {c : V × V × ℤ | E c.1 c.2.1 c.2.2}.Finite) (hσ : Sat E σ)
    (h : ∀ c, Path E d s c → 0 ≤ c + w) : ∃ τ, Sat E τ ∧ τ d ≤ τ s + w := by
  classical
  have hcycle : ∀ x c, Path E x x c → 0 ≤ c := fun x c hc => by
    have := hc.implies σ hσ
    omega
  let φ : V → ℤ := fun v => if v = s then 0 else min w (σ d - σ s)
  have hs : φ s = 0 := if_pos rfl
  have hd : φ d ≤ w ∧ φ d ≤ σ d - σ s ∧ (φ d = w ∨ φ d = σ d - σ s) := by
    by_cases hds : d = s
    · have := h 0 (hds ▸ .nil)
      rw [hds, hs]
      omega
    · rw [show φ d = min w (σ d - σ s) from if_neg hds]
      omega
  obtain ⟨τ, hτ, heq⟩ := @exists_extension _ _ _ hfin hσ {s, d} φ fun x hx y hy c hc => by
    have hle := hc.implies σ hσ
    rcases hx with hx | hx <;> rcases hy with hy | hy <;> rw [hx, hy] at hc hle ⊢
    · have := hcycle _ _ hc
      omega
    · omega
    · have := h c hc
      omega
    · have := hcycle _ _ hc
      omega
  refine ⟨τ, hτ, ?_⟩
  rw [heq d (Set.mem_insert_of_mem _ rfl), heq s (Set.mem_insert _ _), hs]
  omega

/-- The constraints have a cycle of negative weight. -/
def NegativeCycle (E : DiffSys V) : Prop := ∃ v c, Path E v v c ∧ c < 0

theorem not_negativeCycle_of_sat (hσ : Sat E σ) : ¬ E.NegativeCycle := by
  rintro ⟨v, c, hc, hneg⟩
  exact not_sat_of_implies_neg hc.implies hneg hσ

/-- Finitely many constraints without a negative cycle have a solution: it is kept while they are added
one by one. -/
theorem exists_sat_of_not_negativeCycle (hfin : {c : V × V × ℤ | E c.1 c.2.1 c.2.2}.Finite)
    (h : ¬ E.NegativeCycle) : ∃ σ, Sat E σ := by
  have hnonneg : ∀ v c, Path E v v c → 0 ≤ c := fun v c hc => not_lt.mp fun hneg => h ⟨v, c, hc, hneg⟩
  suffices key : ∀ S : Set (V × V × ℤ), S.Finite → (∀ c ∈ S, E c.1 c.2.1 c.2.2) →
      ∃ σ, Sat (fun s d w => (s, d, w) ∈ S) σ by
    exact key {c | E c.1 c.2.1 c.2.2} hfin fun _ hc => hc
  intro S hS
  induction S, hS using Set.Finite.induction_on with
  | empty => exact fun _ => ⟨fun _ => 0, fun _ _ _ hc => hc.elim⟩
  | @insert e S _ hS ih =>
    obtain ⟨s, d, w⟩ := e
    intro hsub
    have hsubS : ∀ c ∈ S, E c.1 c.2.1 c.2.2 := fun c hc => hsub c (Set.mem_insert_of_mem _ hc)
    obtain ⟨σ, hσ⟩ := ih hsubS
    have hE : E s d w := hsub (s, d, w) (Set.mem_insert _ _)
    obtain ⟨τ, hτ, hnew⟩ := exists_sat_insert (E := fun s d w => (s, d, w) ∈ S) hS hσ
      (fun c hc => hnonneg d (c + w) ((hc.mono fun a b k hk => hsubS (a, b, k) hk).snoc hE))
    refine ⟨τ, fun a b k hk => ?_⟩
    rcases Set.mem_insert_iff.mp hk with heq | hk
    · obtain ⟨rfl, rfl, rfl⟩ := Prod.mk.inj heq |>.imp id Prod.mk.inj
      exact hnew
    · exact hτ a b k hk

theorem exists_sat_iff (hfin : {c : V × V × ℤ | E c.1 c.2.1 c.2.2}.Finite) :
    (∃ σ, Sat E σ) ↔ ¬ E.NegativeCycle :=
  ⟨fun ⟨_, hσ⟩ => not_negativeCycle_of_sat hσ, exists_sat_of_not_negativeCycle hfin⟩

/-! ## Projections -/

/-- What a system says about the unknowns in `M`. -/
def shadow (E : DiffSys V) (M : Set V) : DiffSys V := fun s d w => s ∈ M ∧ d ∈ M ∧ Implies E s d w

/-- The constraints of both systems. -/
def and (E F : DiffSys V) : DiffSys V := fun s d w => E s d w ∨ F s d w

theorem sat_and : Sat (E.and F) σ ↔ Sat E σ ∧ Sat F σ :=
  ⟨fun h => ⟨fun s d w hw => h s d w (Or.inl hw), fun s d w hw => h s d w (Or.inr hw)⟩,
    fun h s d w hw => hw.elim (h.1 s d w) (h.2 s d w)⟩

/-- A system without a solution says so about every unknown. -/
theorem exists_sat_of_not_implies {z : V} (h : ¬ Implies E z z (-1)) : ∃ σ, Sat E σ := by
  by_contra hno
  exact h fun σ hσ => absurd ⟨σ, hσ⟩ hno

/-- The shadow on `M` has the solutions of the system, seen on `M`. -/
theorem sat_shadow_iff (hfin : {c : V × V × ℤ | E c.1 c.2.1 c.2.2}.Finite) {M : Set V}
    (hz : z ∈ M) : Sat (shadow E M) σ ↔ ∃ ψ, Sat E ψ ∧ ∀ x ∈ M, ψ x = σ x := by
  constructor
  · intro h
    obtain ⟨ρ, hρ⟩ := exists_sat_of_not_implies (E := E) (z := z) fun himp => by
      have := h z z (-1) ⟨hz, hz, himp⟩
      omega
    exact exists_extension hfin hρ fun x hx y hy w hp => h x y w ⟨hx, hy, hp.implies⟩
  · rintro ⟨ψ, hψ, heq⟩ s d w ⟨hs, hd, himp⟩
    rw [← heq s hs, ← heq d hd]
    exact himp ψ hψ

/-- What `E` says about `M` is kept by `F`: unless `F` contradicts itself, `E` has no negative cycle,
and each of its paths between unknowns of `M` is matched by a path of `F`. -/
def Kept (E F : DiffSys V) (M : Set V) : Prop :=
  ¬ F.NegativeCycle → ¬ E.NegativeCycle ∧
    ∀ s ∈ M, ∀ d ∈ M, ∀ w, Path E s d w → Derives F s d w

variable {M : Set V} {ρ φ : V → ℤ}

/-- The solutions of a system that keeps what is said about `M` are solutions there. -/
theorem Kept.exists_sat (h : Kept E F M) (hE : {c : V × V × ℤ | E c.1 c.2.1 c.2.2}.Finite)
    (hφ : Sat F φ) : ∃ ψ, Sat E ψ ∧ ∀ x ∈ M, ψ x = φ x := by
  obtain ⟨hcycle, hpaths⟩ := h (not_negativeCycle_of_sat hφ)
  obtain ⟨τ, hτ⟩ := exists_sat_of_not_negativeCycle hE hcycle
  exact exists_extension hE hτ fun s hs d hd w hp => (hpaths s hs d hd w hp).implies φ hφ

theorem kept_of_exists_sat (hF : {c : V × V × ℤ | F c.1 c.2.1 c.2.2}.Finite)
    (h : ∀ φ, Sat F φ → ∃ ψ, Sat E ψ ∧ ∀ x ∈ M, ψ x = φ x) : Kept E F M := by
  intro hno
  obtain ⟨φ, hφ⟩ := exists_sat_of_not_negativeCycle hF hno
  obtain ⟨ψ, hψ, -⟩ := h φ hφ
  refine ⟨not_negativeCycle_of_sat hψ, fun s hs d hd w hp =>
    derives_of_implies hF hφ fun φ' hφ' => ?_⟩
  obtain ⟨ψ', hψ', heq⟩ := h φ' hφ'
  rw [← heq s hs, ← heq d hd]
  exact hp.implies ψ' hψ'

theorem kept_of_no_constraints (h : ∀ s d w, ¬ E s d w) : Kept E F M := by
  have hnil : ∀ {s d w}, Path E s d w → s = d ∧ w = 0 := fun hp => by
    cases hp with
    | nil => exact ⟨rfl, rfl⟩
    | snoc _ he => exact absurd he (h _ _ _)
  refine fun _ => ⟨fun ⟨v, c, hc, hneg⟩ => ?_, fun s _ d _ w hp => ?_⟩
  · rw [(hnil hc).2] at hneg
    omega
  · obtain ⟨rfl, rfl⟩ := hnil hp
    exact ⟨0, le_rfl, .nil⟩

theorem Kept.mono {G : DiffSys V} (h : Kept E F M) (hFG : ∀ a b c, F a b c → Derives G a b c) :
    Kept E G M := by
  intro hno
  have hnoF : ¬ F.NegativeCycle := by
    rintro ⟨v, c, hc, hneg⟩
    obtain ⟨c', hle, hp⟩ := hc.derives hFG
    exact hno ⟨v, c', hp, by omega⟩
  obtain ⟨hcycle, hpaths⟩ := h hnoF
  exact ⟨hcycle, fun s hs d hd w hp => (hpaths s hs d hd w hp).mono hFG⟩

/-- The ways between unknowns of `M` that stay within one of the two systems. -/
def legs (E F : DiffSys V) (M : Set V) : DiffSys V := fun s d w =>
  s ∈ M ∧ d ∈ M ∧ (Path E s d w ∨ Path F s d w)

/-- The two systems do not mix off `M`: what both say together about `M` their legs say. -/
def Unmixed (E F : DiffSys V) (M : Set V) : Prop := Kept (E.and F) (legs E F M) M

/-- The lightest leg between two unknowns. -/
def leastLegs (E F : DiffSys V) (M : Set V) : DiffSys V := fun s d w =>
  s ≠ d ∧ legs E F M s d w ∧ ∀ w', legs E F M s d w' → w ≤ w'

theorem Path.exists_edge_into (h : Path E s d w) : s = d ∨ ∃ e c, E e d c := by
  cases h with
  | nil => exact Or.inl rfl
  | snoc _ he => exact Or.inr ⟨_, _, he⟩

theorem exists_leastLeg (hσ : Sat E σ) (hρ : Sat F ρ) (hsd : s ≠ d) (h : legs E F M s d w) :
    ∃ c ≤ w, leastLegs E F M s d c := by
  obtain ⟨c, hc, hleast⟩ := Int.exists_least_of_bdd (P := legs E F M s d)
    ⟨min (σ d - σ s) (ρ d - ρ s), fun c hc => by
      rcases hc.2.2 with hp | hp
      · have := hp.implies σ hσ
        omega
      · have := hp.implies ρ hρ
        omega⟩ ⟨w, h⟩
  exact ⟨c, hleast w h, hsd, hc, hleast⟩

/-- The lightest legs join end points of constraints, two of them at a time. -/
theorem finite_leastLegs (hE : {c : V × V × ℤ | E c.1 c.2.1 c.2.2}.Finite)
    (hF : {c : V × V × ℤ | F c.1 c.2.1 c.2.2}.Finite) :
    {c : V × V × ℤ | leastLegs E F M c.1 c.2.1 c.2.2}.Finite := by
  have hS := hE.union hF
  refine Set.Finite.of_injOn (f := fun c : V × V × ℤ => (c.1, c.2.1)) ?_ ?_
    ((hS.image Prod.fst).prod (hS.image fun c => c.2.1))
  · rintro ⟨s, d, w⟩ ⟨hsd, ⟨-, -, hp⟩, -⟩
    have hfrom : ∃ e c, E s e c ∨ F s e c := by
      rcases hp with hp | hp
      · obtain ⟨e, c, he⟩ := hp.exists_edge.resolve_left hsd
        exact ⟨e, c, Or.inl he⟩
      · obtain ⟨e, c, he⟩ := hp.exists_edge.resolve_left hsd
        exact ⟨e, c, Or.inr he⟩
    have hinto : ∃ e c, E e d c ∨ F e d c := by
      rcases hp with hp | hp
      · obtain ⟨e, c, he⟩ := hp.exists_edge_into.resolve_left hsd
        exact ⟨e, c, Or.inl he⟩
      · obtain ⟨e, c, he⟩ := hp.exists_edge_into.resolve_left hsd
        exact ⟨e, c, Or.inr he⟩
    obtain ⟨e, c, he⟩ := hfrom
    obtain ⟨e', c', he'⟩ := hinto
    exact ⟨⟨(s, e, c), he, rfl⟩, ⟨(e', d, c'), he', rfl⟩⟩
  · rintro ⟨s, d, w⟩ ⟨-, hw, hleast⟩ ⟨s', d', w'⟩ ⟨-, hw', hleast'⟩ heq
    obtain ⟨rfl, rfl⟩ := Prod.mk.inj heq
    have hww : w = w' := le_antisymm (hleast w' hw') (hleast' w hw)
    rw [hww]

theorem derives_leastLegs (hσ : Sat E σ) (hρ : Sat F ρ) (hno : ¬ (legs E F M).NegativeCycle)
    (h : legs E F M s d w) : Derives (leastLegs E F M) s d w := by
  by_cases hsd : s = d
  · subst hsd
    exact ⟨0, not_lt.mp fun hneg => hno ⟨s, w, .of_edge h, hneg⟩, .nil⟩
  · obtain ⟨c, hc, hleast⟩ := exists_leastLeg hσ hρ hsd h
    exact (Derives.of_edge hleast).weaken hc

/-- The legs say what the shadows say. -/
theorem sat_legs_iff (hE : {c : V × V × ℤ | E c.1 c.2.1 c.2.2}.Finite)
    (hF : {c : V × V × ℤ | F c.1 c.2.1 c.2.2}.Finite) (hσ : Sat E σ) (hρ : Sat F ρ) :
    Sat (legs E F M) φ ↔ Sat (shadow E M) φ ∧ Sat (shadow F M) φ := by
  constructor
  · intro h
    refine ⟨fun s d w hw => ?_, fun s d w hw => ?_⟩
    · obtain ⟨c, hc, hp⟩ := derives_of_implies hE hσ hw.2.2
      have hle := h s d c ⟨hw.1, hw.2.1, Or.inl hp⟩
      omega
    · obtain ⟨c, hc, hp⟩ := derives_of_implies hF hρ hw.2.2
      have hle := h s d c ⟨hw.1, hw.2.1, Or.inr hp⟩
      omega
  · rintro ⟨hφE, hφF⟩ s d w ⟨hs, hd, hp | hp⟩
    · exact hφE s d w ⟨hs, hd, hp.implies⟩
    · exact hφF s d w ⟨hs, hd, hp.implies⟩

/-- Systems with a solution each do not mix off `M` exactly when solutions that agree on `M` can be
merged. -/
theorem unmixed_iff (hE : {c : V × V × ℤ | E c.1 c.2.1 c.2.2}.Finite)
    (hF : {c : V × V × ℤ | F c.1 c.2.1 c.2.2}.Finite) (hσ : Sat E σ) (hρ : Sat F ρ) :
    Unmixed E F M ↔ ∀ φ, Sat (shadow E M) φ → Sat (shadow F M) φ →
      ∃ ψ, Sat (E.and F) ψ ∧ ∀ x ∈ M, ψ x = φ x := by
  have hlegs : ∀ {φ : V → ℤ}, Sat (legs E F M) φ ↔ Sat (shadow E M) φ ∧ Sat (shadow F M) φ :=
    sat_legs_iff hE hF hσ hρ
  constructor
  · exact fun h φ hφE hφF => h.exists_sat ((hE.union hF).subset fun c hc => hc)
      (hlegs.mpr ⟨hφE, hφF⟩)
  · intro h hno
    have hkept : Kept (E.and F) (leastLegs E F M) M := by
      refine kept_of_exists_sat (finite_leastLegs hE hF) fun φ hφ => ?_
      obtain ⟨hφE, hφF⟩ := hlegs.mp fun s d w hw => (derives_leastLegs hσ hρ hno hw).implies φ hφ
      exact h φ hφE hφF
    exact hkept.mono (fun _ _ _ hc => .of_edge hc.2.1) hno

/-! ## Split closure -/

/-- The weight `w` from `s` to `d` is kept by one constraint, or, off `z`, by two through `z`. -/
def Short (E : DiffSys V) (z s d : V) (w : ℤ) : Prop :=
  (∃ w' ≤ w, E s d w') ∨ s ≠ z ∧ d ≠ z ∧ ∃ a b, E s z a ∧ E z d b ∧ a + b ≤ w

/-- Every path between two unknowns is matched by one constraint, or by two through `z`. -/
def SplitClosed (z : V) (E : DiffSys V) : Prop :=
  ∀ s d w, s ≠ d → Path E s d w → Short E z s d w

theorem Short.weaken (h : Short E z s d w) (hw : w ≤ w') : Short E z s d w' := by
  rcases h with ⟨c, hc, he⟩ | ⟨hs, hd, a, b, ha, hb, hab⟩
  · exact Or.inl ⟨c, hc.trans hw, he⟩
  · exact Or.inr ⟨hs, hd, a, b, ha, hb, hab.trans hw⟩

theorem Short.derives (h : Short E z s d w) : Derives E s d w := by
  rcases h with ⟨c, hc, he⟩ | ⟨-, -, a, b, ha, hb, hab⟩
  · exact (Derives.of_edge he).weaken hc
  · exact ((Derives.of_edge ha).trans (.of_edge hb)).weaken hab

/-- Out of `z` only single constraints count. -/
theorem Short.from_base (h : Short E z z d w) : ∃ w' ≤ w, E z d w' :=
  h.resolve_right fun h => h.1 rfl

/-- The same when the constraints of `E` are at most those of `F`. -/
theorem Short.mono (h : Short E z s d w) (hF : ∀ a b c, E a b c → ∃ c' ≤ c, F a b c') :
    Short F z s d w := by
  rcases h with ⟨c, hc, he⟩ | ⟨hs, hd, a, b, ha, hb, hab⟩
  · obtain ⟨c', hc', he'⟩ := hF s d c he
    exact Or.inl ⟨c', hc'.trans hc, he'⟩
  · obtain ⟨a', ha', hea⟩ := hF s z a ha
    obtain ⟨b', hb', heb⟩ := hF z d b hb
    exact Or.inr ⟨hs, hd, a', b', hea, heb, by omega⟩

theorem SplitClosed.short_of_derives (h : SplitClosed z E) (hsd : s ≠ d) (hw : Derives E s d w) :
    Short E z s d w :=
  let ⟨_, ha, hp⟩ := hw
  (h s d _ hsd hp).weaken ha

/-- What a split closed system implies is kept by one constraint, or by two through `z`. -/
theorem SplitClosed.short_of_implies (h : SplitClosed z E)
    (hfin : {c : V × V × ℤ | E c.1 c.2.1 c.2.2}.Finite) (hσ : Sat E σ) (hsd : s ≠ d)
    (hw : Implies E s d w) : Short E z s d w :=
  h.short_of_derives hsd (derives_of_implies hfin hσ hw)

/-- Sharpening or adding derived constraints keeps a system split closed. -/
theorem SplitClosed.sharpen (h : SplitClosed z E) (hle : ∀ a b c, E a b c → ∃ c' ≤ c, F a b c')
    (hF : ∀ a b c, F a b c → Derives E a b c) : SplitClosed z F := fun _ _ _ hsd hp =>
  (h.short_of_derives hsd (hp.derives hF)).mono hle

/-! ## Dropping an unknown -/

/-- The constraints that mention no unknown of `N`. -/
def off (E : DiffSys V) (N : Set V) : DiffSys V := fun s d w => E s d w ∧ s ∉ N ∧ d ∉ N

/-- The constraints that do not mention `v`. -/
def without (E : DiffSys V) (v : V) : DiffSys V := fun s d w => E s d w ∧ s ≠ v ∧ d ≠ v

theorem Path.of_without {v : V} (h : Path (E.without v) s d w) :
    Path E s d w ∧ (s = d ∨ s ≠ v ∧ d ≠ v) := by
  induction h with
  | nil => exact ⟨.nil, Or.inl rfl⟩
  | snoc _ he ih =>
    refine ⟨ih.1.snoc he.1, Or.inr ⟨?_, he.2.2⟩⟩
    rcases ih.2 with rfl | h
    · exact he.2.1
    · exact h.1

theorem Short.without {v : V} (h : Short E z s d w) (hz : v ≠ z) (hs : s ≠ v) (hd : d ≠ v) :
    Short (E.without v) z s d w := by
  rcases h with ⟨c, hc, he⟩ | ⟨hsz, hdz, a, b, ha, hb, hab⟩
  · exact Or.inl ⟨c, hc, he, hs, hd⟩
  · exact Or.inr ⟨hsz, hdz, a, b, ⟨ha, hs, hz.symm⟩, ⟨hb, hz.symm, hd⟩, hab⟩

theorem SplitClosed.without {v : V} (h : SplitClosed z E) (hz : v ≠ z) :
    SplitClosed z (E.without v) := by
  intro s d w hsd hp
  obtain ⟨hp, hsv⟩ := hp.of_without
  obtain ⟨hs, hd⟩ := hsv.resolve_left hsd
  exact (h s d w hsd hp).without hz hs hd

/-- The constraints of a split closed system on some unknowns say nothing about the others. -/
theorem SplitClosed.kept_off {N : Set V} (h : SplitClosed z E) (hz : z ∉ N) (hσ : Sat E σ)
    (hM : ∀ x ∈ M, x ∉ N) : Kept E (E.off N) M := by
  refine fun _ => ⟨not_negativeCycle_of_sat hσ, fun s hs d hd w hp => ?_⟩
  by_cases hsd : s = d
  · subst hsd
    exact ⟨0, not_lt.mp fun hneg => not_sat_of_implies_neg hp.implies hneg hσ, .nil⟩
  · rcases h s d w hsd hp with ⟨c, hc, he⟩ | ⟨-, -, a, b, ha, hb, hab⟩
    · exact ⟨c, hc, .of_edge ⟨he, hM s hs, hM d hd⟩⟩
    · have hout : Path (E.off N) s z a := .of_edge ⟨ha, hM s hs, hz⟩
      exact ⟨a + b, hab, hout.snoc ⟨hb, hz, hM d hd⟩⟩

/-- What is dropped with an unknown of a split closed system says nothing about the others. -/
theorem SplitClosed.exists_sat_of_without {v : V} {φ : V → ℤ} (h : SplitClosed z E) (hz : v ≠ z)
    (hfin : {c : V × V × ℤ | E c.1 c.2.1 c.2.2}.Finite) (hσ : Sat E σ)
    (hφ : Sat (E.without v) φ) : ∃ ψ, Sat E ψ ∧ ∀ x, x ≠ v → ψ x = φ x := by
  refine exists_extension hfin hσ (M := {x | x ≠ v}) fun x hx y hy w hp => ?_
  by_cases hxy : x = y
  · subst hxy
    have := hp.implies σ hσ
    omega
  · exact ((h x y w hxy hp).without hz hx hy).derives.implies φ hφ

/-- A system with a solution is split closed when all paths of two constraints are matched. -/
theorem splitClosed_of_triangle (hσ : Sat E σ)
    (h : ∀ a m b c c', E a m c → E m b c' → a ≠ b → Short E z a b (c + c')) :
    SplitClosed z E := by
  intro s d w hsd hp
  have hmain : s ≠ d → Short E z s d w := by
    clear hsd
    induction hp with
    | nil => exact fun hne => absurd rfl hne
    | @snoc d e w c hp he ih =>
      intro hse
      by_cases hsd : s = d
      · subst hsd
        have hw := hp.implies σ hσ
        exact Or.inl ⟨c, by omega, he⟩
      · rcases ih hsd with ⟨a, ha, hea⟩ | ⟨hs, hd, a, b, hea, heb, hab⟩
        · exact (h s d e a c hea he hse).weaken (by omega)
        · by_cases hez : e = z
          · subst hez
            -- the detour from `z` and back has no negative weight
            have h1 := hσ e d b heb
            have h2 := hσ d e c he
            exact Or.inl ⟨a, by omega, hea⟩
          · obtain ⟨c', hc', hec⟩ := (h z d e b c heb he (Ne.symm hez)).from_base
            exact Or.inr ⟨hs, hez, a, c', hea, hec, by omega⟩
  exact hmain hsd

end DiffSys
