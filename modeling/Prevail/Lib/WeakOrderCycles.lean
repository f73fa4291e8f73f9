import Prevail.Lib.WeakOrder

/-!
# The components of a weak order

Two vertices of an order are compared by the heads around them, from the outermost one (`outer`). For
the head of a component, the vertices with more heads around them are those inside the component, and
those inside another one that stands beside it.
-/

namespace WeakOrder

variable {α : Type*} {P Q B B' : WeakOrder α} {u v h : α}

/-- The bodies of the components in the list, without those inside them. -/
def components : WeakOrder α → List (WeakOrder α)
  | nil => []
  | vertex _ rest => rest.components
  | component body rest => body :: rest.components

/-- `B` is the body of a component at some depth. -/
inductive Cycle (B : WeakOrder α) : WeakOrder α → Prop
  | here {P : WeakOrder α} (hB : B ∈ P.components) : Cycle B P
  | inside {P B' : WeakOrder α} (hB' : B' ∈ P.components) (h : Cycle B B') : Cycle B P

/-- `v` is behind the head of a component that stands beside the component with the body `B`. -/
inductive Beside (B : WeakOrder α) (v : α) : WeakOrder α → Prop
  | here {P B' : WeakOrder α} (hB : B ∈ P.components) (hB' : B' ∈ P.components) (hne : B' ≠ B)
      (hv : v ∈ B'.vertices) (hhead : B'.first? ≠ some v) : Beside B v P
  | inside {P B' : WeakOrder α} (hB' : B' ∈ P.components) (h : Beside B v B') : Beside B v P

theorem Beside.cycle (h : Beside B v P) : Cycle B P := by
  induction h with
  | here hB => exact .here hB
  | inside hB' _ ih => exact .inside hB' ih

theorem mem_of_mem_components (hB : B ∈ P.components) (hv : v ∈ B.vertices) : v ∈ P.vertices := by
  induction P with
  | nil => cases hB
  | vertex a P ih => exact List.mem_cons_of_mem _ (ih hB)
  | component body P _ ih =>
    rcases List.mem_cons.mp hB with rfl | hB
    · exact List.mem_append_left _ hv
    · exact List.mem_append_right _ (ih hB)

theorem Cycle.mem (h : Cycle B P) (hv : v ∈ B.vertices) : v ∈ P.vertices := by
  induction h with
  | here hB => exact mem_of_mem_components hB hv
  | inside hB' _ ih => exact mem_of_mem_components hB' ih

theorem Beside.mem (h : Beside B v P) : v ∈ P.vertices := by
  induction h with
  | here _ hB' _ hv => exact mem_of_mem_components hB' hv
  | inside hB' _ ih => exact mem_of_mem_components hB' ih

theorem nodup_of_mem_components (hn : P.vertices.Nodup) (hB : B ∈ P.components) :
    B.vertices.Nodup := by
  induction P with
  | nil => cases hB
  | vertex a P ih => exact ih (List.nodup_cons.mp hn).2 hB
  | component body P _ ih =>
    rcases List.mem_cons.mp hB with rfl | hB
    · exact hn.of_append_left
    · exact ih hn.of_append_right hB

theorem Headed.of_mem_components (hP : P.Headed) (hB : B ∈ P.components) :
    B.first?.isSome ∧ B.Headed := by
  induction P with
  | nil => cases hB
  | vertex a P ih => exact ih hP hB
  | component body P _ ih =>
    rcases List.mem_cons.mp hB with rfl | hB
    · exact ⟨hP.1, hP.2.1⟩
    · exact ih hP.2.2 hB

/-- No vertex is in two components of a list. -/
theorem components_unique (hn : P.vertices.Nodup) (hB : B ∈ P.components) (hB' : B' ∈ P.components)
    (hv : v ∈ B.vertices) (hv' : v ∈ B'.vertices) : B = B' := by
  induction P with
  | nil => cases hB
  | vertex a P ih => exact ih (List.nodup_cons.mp hn).2 hB hB'
  | component body P _ ih =>
    have hdisj := List.disjoint_of_nodup_append (show (body.vertices ++ P.vertices).Nodup from hn)
    rcases List.mem_cons.mp hB with rfl | hmem <;> rcases List.mem_cons.mp hB' with rfl | hmem'
    · rfl
    · exact (hdisj hv (mem_of_mem_components hmem' hv')).elim
    · exact (hdisj hv' (mem_of_mem_components hmem hv)).elim
    · exact ih hn.of_append_right hmem hmem'

/-- The vertex at the start of a list is in no component. -/
theorem not_mem_of_first? (hn : P.vertices.Nodup) (hP : P.first? = some h) (hB : B ∈ P.components) :
    h ∉ B.vertices := by
  cases P with
  | nil => cases hP
  | vertex a P =>
    obtain rfl := Option.some.inj hP
    exact fun hh => (List.nodup_cons.mp hn).1 (mem_of_mem_components (P := P) hB hh)
  | component body P => cases hP

theorem Cycle.head_not_mem (hcyc : Cycle B P) (hn : P.vertices.Nodup) (hP : P.first? = some h) :
    h ∉ B.vertices := by
  intro hh
  cases hcyc with
  | here hB => exact not_mem_of_first? hn hP hB hh
  | inside hB' hcyc => exact not_mem_of_first? hn hP hB' (hcyc.mem hh)

theorem Beside.head_ne (hside : Beside B v P) (hn : P.vertices.Nodup) : P.first? ≠ some v := by
  intro hP
  cases hside with
  | here _ hB' _ hv => exact not_mem_of_first? hn hP hB' hv
  | inside hB' hside => exact not_mem_of_first? hn hP hB' hside.mem

/-- A vertex beside a component is not in it. -/
theorem Beside.not_mem (hside : Beside B v P) (hn : P.vertices.Nodup) : v ∉ B.vertices := by
  induction hside with
  | here hB hB' hne hv _ => exact fun hv' => hne (components_unique hn hB' hB hv hv')
  | inside hB' _ ih => exact ih (nodup_of_mem_components hn hB')

/-! ## Heads from the outermost -/

variable [DecidableEq α]

theorem length_heads_le (P : WeakOrder α) (u : α) : (P.heads u).length ≤ P.allHeads.length := by
  induction P with
  | nil => exact le_rfl
  | vertex a P ih => exact ih
  | component B P ihB ih =>
    rw [heads_component, allHeads, List.length_append, List.length_append, List.length_append,
      List.length_append]
    refine Nat.add_le_add (Nat.add_le_add ?_ ihB) ih
    split_ifs
    · exact le_rfl
    · exact Nat.zero_le _

/-- The heads of the components around `u` other than `u`, the outermost first. -/
def outer (P : WeakOrder α) (u : α) : List α := (P.heads u).filter (· ≠ u)

theorem nesting_eq (P : WeakOrder α) (u : α) : P.nesting u = (P.outer u).reverse := rfl

theorem heads_of_mem_components (hn : P.vertices.Nodup) (hB : B ∈ P.components)
    (hu : u ∈ B.vertices) : P.heads u = B.first?.toList ++ B.heads u := by
  induction P with
  | nil => cases hB
  | vertex a P ih => exact ih (List.nodup_cons.mp hn).2 hB
  | component body P _ ih =>
    have hdisj := List.disjoint_of_nodup_append (show (body.vertices ++ P.vertices).Nodup from hn)
    rw [heads_component]
    rcases List.mem_cons.mp hB with rfl | hB
    · rw [if_pos hu, heads_eq_nil (hdisj hu), List.append_nil]
    · have hbody : u ∉ body.vertices := fun hu' => hdisj hu' (mem_of_mem_components hB hu)
      rw [if_neg hbody, heads_eq_nil hbody, ih hn.of_append_right hB]
      rfl

theorem heads_of_not_mem (hu : ∀ B ∈ P.components, u ∉ B.vertices) : P.heads u = [] := by
  induction P with
  | nil => rfl
  | vertex a P ih => exact ih hu
  | component body P _ ih =>
    have hbody := hu body List.mem_cons_self
    rw [heads_component, if_neg hbody, heads_eq_nil hbody,
      ih fun B hB => hu B (List.mem_cons_of_mem _ hB)]
    rfl

/-- The head of a component has the heads around the component. -/
theorem outer_head (hn : P.vertices.Nodup) (hB : B ∈ P.components) (hh : B.first? = some h) :
    P.outer h = [] := by
  have hnil : B.heads h = [] :=
    heads_of_not_mem fun B' hB' => not_mem_of_first? (nodup_of_mem_components hn hB) hh hB'
  unfold outer
  rw [heads_of_mem_components hn hB (mem_of_first? hh), hh, hnil]
  simp

theorem outer_of_mem (hn : P.vertices.Nodup) (hB : B ∈ P.components) (hh : B.first? = some h)
    (hu : u ∈ B.vertices) (hne : u ≠ h) : P.outer u = h :: B.outer u := by
  unfold outer
  rw [heads_of_mem_components hn hB hu, hh]
  exact List.filter_cons_of_pos (by simpa using hne.symm)

/-- More heads are around `v` than around `u`, and among them are those around `u`. -/
def Deeper (P : WeakOrder α) (v u : α) : Prop :=
  (P.outer u).length < (P.outer v).length ∧ P.outer u <+: P.outer v

theorem deeper_of_mem (hn : P.vertices.Nodup) (hB : B ∈ P.components) (hh : B.first? = some h)
    (hu : u ∈ B.vertices) (hv : v ∈ B.vertices) (hune : u ≠ h) (hvne : v ≠ h) :
    P.Deeper v u ↔ B.Deeper v u := by
  unfold Deeper
  rw [outer_of_mem hn hB hh hu hune, outer_of_mem hn hB hh hv hvne, List.length_cons,
    List.length_cons, Nat.add_lt_add_iff_right, List.cons_prefix_cons]
  exact and_congr_right' (and_iff_right rfl)

/-- Only vertices behind the head of a component are deeper than a vertex behind it. -/
theorem mem_of_deeper (hn : P.vertices.Nodup) (hB : B ∈ P.components) (hh : B.first? = some h)
    (hu : u ∈ B.vertices) (hune : u ≠ h) (hdeep : P.Deeper v u) : v ∈ B.vertices ∧ v ≠ h := by
  obtain ⟨hlt, hprefix⟩ := hdeep
  rw [outer_of_mem hn hB hh hu hune] at hlt hprefix
  have hmem : h ∈ P.outer v := hprefix.subset List.mem_cons_self
  obtain ⟨hmem, hne⟩ := List.mem_filter.mp hmem
  refine ⟨?_, fun hvh => of_decide_eq_true hne hvh.symm⟩
  -- a component with `h` among the heads in it is `B`
  by_contra hvB
  by_cases hex : ∃ B' ∈ P.components, v ∈ B'.vertices
  · obtain ⟨B', hB', hv⟩ := hex
    rw [heads_of_mem_components hn hB' hv] at hmem
    have hhB' : h ∈ B'.vertices := by
      rcases List.mem_append.mp hmem with hmem | hmem
      · exact mem_of_first? (Option.mem_toList.mp hmem)
      · exact mem_of_mem_heads hmem
    exact hvB (components_unique hn hB' hB hhB' (mem_of_first? hh) ▸ hv)
  · push Not at hex
    rw [heads_of_not_mem hex] at hmem
    cases hmem

/-- Deeper than the head of a component are the other vertices in it, and those beside it. -/
theorem deeper_head_iff (hcyc : Cycle B P) (hP : P.Headed) (hn : P.vertices.Nodup)
    (hh : B.first? = some h) (hne : v ≠ h) :
    P.Deeper v h ↔ v ∈ B.vertices ∨ Beside B v P := by
  have hhB := mem_of_first? hh
  induction hcyc with
  | @here P hB =>
    have hnil := outer_head hn hB hh
    have hdeeper : P.Deeper v h ↔ P.outer v ≠ [] := by
      unfold Deeper
      rw [hnil]
      exact ⟨fun h => List.ne_nil_of_length_pos h.1,
        fun h => ⟨List.length_pos_iff.mpr h, List.nil_prefix⟩⟩
    rw [hdeeper]
    constructor
    · intro hv
      have hex : ∃ B' ∈ P.components, v ∈ B'.vertices := by
        by_contra hno
        push Not at hno
        refine hv ?_
        unfold outer
        rw [heads_of_not_mem hno]
        rfl
      obtain ⟨B', hB', hvB'⟩ := hex
      rcases eq_or_ne B' B with rfl | hB'ne
      · exact Or.inl hvB'
      · exact Or.inr (.here hB hB' hB'ne hvB' fun hv' => hv (outer_head hn hB' hv'))
    · rintro (hvB | hside)
      · rw [outer_of_mem hn hB hh hvB hne]
        exact List.cons_ne_nil _ _
      · cases hside with
        | @here _ B' _ hB' _ hv hhead =>
          obtain ⟨h', hh'⟩ := Option.isSome_iff_exists.mp (hP.of_mem_components hB').1
          rw [outer_of_mem hn hB' hh' hv fun hvh' => hhead (hvh' ▸ hh')]
          exact List.cons_ne_nil _ _
        | @inside _ B' hB' hside =>
          -- the component would be inside itself
          obtain rfl := components_unique hn hB' hB (hside.cycle.mem hhB) hhB
          exact absurd hhB (hside.cycle.head_not_mem (nodup_of_mem_components hn hB') hh)
  | @inside P B' hB' hcyc ih =>
    have hn' := nodup_of_mem_components hn hB'
    obtain ⟨hsome, hP'⟩ := hP.of_mem_components hB'
    obtain ⟨h', hh'⟩ := Option.isSome_iff_exists.mp hsome
    have hhB' := hcyc.mem hhB
    have hhne : h ≠ h' := by
      rintro rfl
      exact hcyc.head_not_mem hn' hh' hhB
    have hbeside : Beside B v P ↔ Beside B v B' := by
      refine ⟨fun hside => ?_, .inside hB'⟩
      cases hside with
      | here hB =>
        obtain rfl := components_unique hn hB hB' hhB hhB'
        exact absurd hhB (hcyc.head_not_mem hn' hh)
      | inside hB'' hside => exact components_unique hn hB'' hB' (hside.cycle.mem hhB) hhB' ▸ hside
    rw [hbeside]
    constructor
    · intro hdeep
      obtain ⟨hv, hvne⟩ := mem_of_deeper hn hB' hh' hhB' hhne hdeep
      exact (ih hP' hn').mp ((deeper_of_mem hn hB' hh' hhB' hv hhne hvne).mp hdeep)
    · intro hv
      have hmem : v ∈ B'.vertices ∧ v ≠ h' := by
        rcases hv with hv | hside
        · exact ⟨hcyc.mem hv, fun hvh => hcyc.head_not_mem hn' hh' (hvh ▸ hv)⟩
        · exact ⟨hside.mem, fun hvh => hside.head_ne hn' (hvh ▸ hh')⟩
      exact (deeper_of_mem hn hB' hh' hhB' hmem.1 hhne hmem.2).mpr ((ih hP' hn').mpr hv)

end WeakOrder
