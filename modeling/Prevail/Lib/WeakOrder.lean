import Mathlib.Data.List.Nodup
import Mathlib.Data.List.Sublists

/-!
# Weak topological orders

A weak order lists vertices and components, and a component is again such a list; its head is the
vertex it begins with. An edge is in order (`Forward`) when it leads forward and not to the head of
a component around its source, or when it leads back to such a head. `append` composes orders, and
the lemmas on `Forward` say what an edge of a part is in the whole.
-/

/-- A list of vertices and of components. -/
inductive WeakOrder (α : Type*)
  | nil
  | vertex (a : α) (rest : WeakOrder α)
  | component (body rest : WeakOrder α)
  deriving DecidableEq

namespace WeakOrder

variable {α : Type*}

/-- The vertices in the order. -/
def vertices : WeakOrder α → List α
  | nil => []
  | vertex a rest => a :: rest.vertices
  | component body rest => body.vertices ++ rest.vertices

/-- The vertex at the start, when the list does not start with a component. -/
def first? : WeakOrder α → Option α
  | vertex a _ => some a
  | _ => none

/-- Every component begins with a vertex. -/
def Headed : WeakOrder α → Prop
  | nil => True
  | vertex _ rest => rest.Headed
  | component body rest => body.first?.isSome ∧ body.Headed ∧ rest.Headed

def append : WeakOrder α → WeakOrder α → WeakOrder α
  | nil, Q => Q
  | vertex a rest, Q => vertex a (rest.append Q)
  | component body rest, Q => component body (rest.append Q)

@[simp] theorem nil_append (Q : WeakOrder α) : nil.append Q = Q := rfl

@[simp] theorem vertex_append (a : α) (P Q : WeakOrder α) :
    (vertex a P).append Q = vertex a (P.append Q) := rfl

@[simp] theorem component_append (B P Q : WeakOrder α) :
    (component B P).append Q = component B (P.append Q) := rfl

@[simp] theorem append_nil (P : WeakOrder α) : P.append nil = P := by
  induction P with
  | nil => rfl
  | vertex a P ih => rw [vertex_append, ih]
  | component B P _ ih => rw [component_append, ih]

theorem append_assoc (P Q R : WeakOrder α) : (P.append Q).append R = P.append (Q.append R) := by
  induction P with
  | nil => rfl
  | vertex a P ih => rw [vertex_append, vertex_append, vertex_append, ih]
  | component B P _ ih => rw [component_append, component_append, component_append, ih]

@[simp] theorem vertices_nil : (nil : WeakOrder α).vertices = [] := rfl

@[simp] theorem vertices_vertex (a : α) (P : WeakOrder α) :
    (vertex a P).vertices = a :: P.vertices := rfl

@[simp] theorem vertices_component (B P : WeakOrder α) :
    (component B P).vertices = B.vertices ++ P.vertices := rfl

@[simp] theorem vertices_append (P Q : WeakOrder α) :
    (P.append Q).vertices = P.vertices ++ Q.vertices := by
  induction P with
  | nil => rfl
  | vertex a P ih => rw [vertex_append, vertices_vertex, ih, vertices_vertex, List.cons_append]
  | component B P _ ih =>
    rw [component_append, vertices_component, ih, vertices_component, List.append_assoc]

theorem mem_of_first? {P : WeakOrder α} {h : α} (hP : P.first? = some h) : h ∈ P.vertices := by
  cases P with
  | nil => cases hP
  | vertex a P =>
    obtain rfl := Option.some.inj hP
    exact List.mem_cons_self
  | component B P => cases hP

/-! ## Heads -/

/-- The heads of all components. -/
def allHeads : WeakOrder α → List α
  | nil => []
  | vertex _ rest => rest.allHeads
  | component body rest => body.first?.toList ++ body.allHeads ++ rest.allHeads

@[simp] theorem allHeads_append (P Q : WeakOrder α) :
    (P.append Q).allHeads = P.allHeads ++ Q.allHeads := by
  induction P with
  | nil => rfl
  | vertex a P ih => exact ih
  | component B P _ ih =>
    rw [component_append, allHeads, ih, allHeads, List.append_assoc _ _ Q.allHeads]

variable [DecidableEq α] {P Q B : WeakOrder α} {u v h : α}

/-- The heads of the components around `u`, the outermost first. -/
def heads (u : α) : WeakOrder α → List α
  | nil => []
  | vertex _ rest => rest.heads u
  | component body rest =>
    (if u ∈ body.vertices then body.first?.toList else []) ++ body.heads u ++ rest.heads u

/-- The heads of the components around `u` other than `u`, the innermost first. -/
def nesting (P : WeakOrder α) (u : α) : List α := ((P.heads u).filter (· ≠ u)).reverse

@[simp] theorem heads_nil : (nil : WeakOrder α).heads u = [] := rfl

@[simp] theorem heads_vertex : (vertex h P).heads u = P.heads u := rfl

theorem heads_component : (component B P).heads u =
    (if u ∈ B.vertices then B.first?.toList else []) ++ B.heads u ++ P.heads u := rfl

@[simp] theorem heads_append : (P.append Q).heads u = P.heads u ++ Q.heads u := by
  induction P with
  | nil => rfl
  | vertex a P ih => exact ih
  | component B P _ ih =>
    rw [component_append, heads_component, ih, heads_component, List.append_assoc _ _ (Q.heads u)]

theorem heads_eq_nil (hu : u ∉ P.vertices) : P.heads u = [] := by
  induction P with
  | nil => rfl
  | vertex a P ih => exact ih fun h => hu (List.mem_cons_of_mem _ h)
  | component B P ihB ih =>
    rw [vertices_component, List.mem_append, not_or] at hu
    rw [heads_component, if_neg hu.1, ihB hu.1, ih hu.2]
    rfl

theorem mem_of_mem_heads (hv : v ∈ P.heads u) : v ∈ P.vertices := by
  induction P with
  | nil => cases hv
  | vertex a P ih => exact List.mem_cons_of_mem _ (ih hv)
  | component B P ihB ih =>
    rw [heads_component, List.mem_append, List.mem_append] at hv
    rw [vertices_component, List.mem_append]
    rcases hv with (hv | hv) | hv
    · split_ifs at hv
      · exact Or.inl (mem_of_first? (Option.mem_toList.mp hv))
      · cases hv
    · exact Or.inl (ihB hv)
    · exact Or.inr (ih hv)

theorem mem_of_mem_heads_left (hv : v ∈ P.heads u) : u ∈ P.vertices := by
  by_contra hu
  rw [heads_eq_nil hu] at hv
  cases hv

/-- The heads around a vertex of a single component. -/
theorem heads_component_of_mem (hu : u ∈ (vertex h B).vertices) :
    (component (vertex h B) nil).heads u = h :: B.heads u := by
  rw [heads_component, if_pos hu, heads_nil, List.append_nil]
  rfl

/-! ## Edges in order -/

/-- An edge from `u` to `v` is in order: it leads forward, and not to the head of a component
    around `u`, or it leads to such a head. -/
def Forward (P : WeakOrder α) (u v : α) : Prop :=
  ([u, v].Sublist P.vertices ∧ v ∉ P.heads u) ∨ v ∈ P.heads u

instance : Decidable (P.Forward u v) := inferInstanceAs (Decidable (_ ∨ _))

theorem Forward.left_mem (hf : P.Forward u v) : u ∈ P.vertices := by
  rcases hf with ⟨hs, -⟩ | hv
  · exact hs.subset List.mem_cons_self
  · exact mem_of_mem_heads_left hv

theorem Forward.right_mem (hf : P.Forward u v) : v ∈ P.vertices := by
  rcases hf with ⟨hs, -⟩ | hv
  · exact hs.subset (List.mem_cons_of_mem _ (List.mem_singleton_self v))
  · exact mem_of_mem_heads hv

omit [DecidableEq α] in
theorem not_mem_right (hn : (P.append Q).vertices.Nodup) (hu : u ∈ P.vertices) :
    u ∉ Q.vertices := by
  rw [vertices_append] at hn
  exact fun h => (List.disjoint_of_nodup_append hn) hu h

theorem Forward.append_left (hf : P.Forward u v) (hn : (P.append Q).vertices.Nodup) :
    (P.append Q).Forward u v := by
  have hu : Q.heads u = [] := heads_eq_nil (not_mem_right hn hf.left_mem)
  unfold Forward
  rw [heads_append, hu, List.append_nil, vertices_append]
  exact hf.imp_left fun h => ⟨h.1.trans (List.sublist_append_left _ _), h.2⟩

theorem Forward.append_right (hf : Q.Forward u v) (hn : (P.append Q).vertices.Nodup) :
    (P.append Q).Forward u v := by
  have hu : P.heads u = [] := heads_eq_nil fun h => not_mem_right hn h hf.left_mem
  unfold Forward
  rw [heads_append, hu, List.nil_append, vertices_append]
  exact hf.imp_left fun h => ⟨h.1.trans (List.sublist_append_right _ _), h.2⟩

/-- An edge from the first part to the second one. -/
theorem forward_across (hn : (P.append Q).vertices.Nodup) (hu : u ∈ P.vertices)
    (hv : v ∈ Q.vertices) : (P.append Q).Forward u v := by
  refine Or.inl ⟨?_, ?_⟩
  · rw [vertices_append]
    exact (List.singleton_sublist.mpr hu).append (List.singleton_sublist.mpr hv)
  · rw [heads_append, heads_eq_nil (not_mem_right hn hu), List.append_nil]
    exact fun h => not_mem_right hn (mem_of_mem_heads h) hv

/-- An edge inside the body of a component. -/
theorem Forward.component (hf : B.Forward u v) (hn : (vertex h B).vertices.Nodup) :
    (component (vertex h B) nil).Forward u v := by
  have hv : v ≠ h := by
    rintro rfl
    exact (List.nodup_cons.mp hn).1 hf.right_mem
  unfold Forward
  rw [heads_component_of_mem (List.mem_cons_of_mem _ hf.left_mem), vertices_component,
    vertices_vertex, vertices_nil, List.append_nil, List.mem_cons]
  rcases hf with ⟨hs, hnot⟩ | hmem
  · exact Or.inl ⟨hs.trans (List.sublist_cons_self h _), fun h => h.elim hv hnot⟩
  · exact Or.inr (Or.inr hmem)

/-- An edge back to the head. -/
theorem forward_head (hu : u ∈ (vertex h B).vertices) :
    (WeakOrder.component (vertex h B) nil).Forward u h := by
  refine Or.inr ?_
  rw [heads_component_of_mem hu]
  exact List.mem_cons_self

/-- An edge from the head into the body. -/
theorem forward_body (hn : (vertex h B).vertices.Nodup) (hv : v ∈ B.vertices) :
    (WeakOrder.component (vertex h B) nil).Forward h v := by
  have hh : h ∉ B.vertices := (List.nodup_cons.mp hn).1
  refine Or.inl ⟨?_, ?_⟩
  · rw [vertices_component, vertices_nil, List.append_nil, vertices_vertex]
    exact (List.singleton_sublist.mpr hv).cons_cons h
  · rw [heads_component_of_mem List.mem_cons_self, heads_eq_nil hh, List.mem_singleton]
    rintro rfl
    exact hh hv

/-! ## Edges of a part -/

/-- An edge of the whole from the second part does not lead to the first one. -/
theorem not_forward_back (hn : (P.append Q).vertices.Nodup) (hu : u ∈ Q.vertices)
    (hv : v ∈ P.vertices) : ¬ (P.append Q).Forward u v := by
  have huP : u ∉ P.vertices := fun h => not_mem_right hn h hu
  rintro (⟨hs, -⟩ | hh)
  · rw [vertices_append] at hs
    obtain ⟨l₁, l₂, hl, h₁, h₂⟩ := List.sublist_append_iff.mp hs
    cases l₁ with
    | nil =>
      rw [List.nil_append] at hl
      exact not_mem_right hn hv (h₂.subset (hl ▸ by simp))
    | cons a l₁ =>
      rw [List.cons_append, List.cons.injEq] at hl
      exact huP (h₁.subset (hl.1 ▸ List.mem_cons_self))
  · rw [heads_append, heads_eq_nil huP, List.nil_append] at hh
    exact not_mem_right hn hv (mem_of_mem_heads hh)

theorem Forward.of_append_right (hf : (P.append Q).Forward u v)
    (hn : (P.append Q).vertices.Nodup) (hu : u ∈ Q.vertices) : Q.Forward u v := by
  have huP : u ∉ P.vertices := fun h => not_mem_right hn h hu
  unfold Forward at hf ⊢
  rw [heads_append, heads_eq_nil huP, List.nil_append, vertices_append] at hf
  refine hf.imp_left fun ⟨hs, hnot⟩ => ⟨?_, hnot⟩
  obtain ⟨l₁, l₂, hl, h₁, h₂⟩ := List.sublist_append_iff.mp hs
  cases l₁ with
  | nil => rwa [hl]
  | cons a l₁ =>
    rw [List.cons_append, List.cons.injEq] at hl
    exact absurd (h₁.subset (hl.1 ▸ List.mem_cons_self)) huP

/-- An edge of a component inside its body. -/
theorem Forward.of_component (hf : ((WeakOrder.component (vertex h B) nil).append Q).Forward u v)
    (hn : ((WeakOrder.component (vertex h B) nil).append Q).vertices.Nodup)
    (hu : u ∈ B.vertices) (hv : v ∈ B.vertices) : B.Forward u v := by
  have hmem : ∀ x ∈ B.vertices, x ∈ (WeakOrder.component (vertex h B) nil).vertices := fun x hx =>
    List.mem_append_left _ (List.mem_cons_of_mem _ hx)
  have hvQ : v ∉ Q.vertices := not_mem_right hn (hmem v hv)
  have hvh : v ≠ h := by
    rintro rfl
    rw [vertices_append, vertices_component, vertices_vertex] at hn
    exact (List.nodup_cons.mp hn.of_append_left.of_append_left).1 hv
  unfold Forward at hf ⊢
  rw [heads_append, heads_eq_nil (not_mem_right hn (hmem u hu)), List.append_nil,
    heads_component_of_mem (List.mem_cons_of_mem _ hu), List.mem_cons, vertices_append,
    vertices_component, vertices_nil, List.append_nil, vertices_vertex] at hf
  rcases hf with ⟨hs, hnot⟩ | hh
  · refine Or.inl ⟨?_, fun hv' => hnot (Or.inr hv')⟩
    have huh : u ≠ h := by
      rintro rfl
      rw [vertices_append, vertices_component, vertices_vertex] at hn
      exact (List.nodup_cons.mp hn.of_append_left.of_append_left).1 hu
    obtain ⟨l₁, l₂, hl, h₁, h₂⟩ := List.sublist_append_iff.mp
      (List.Sublist.of_cons_of_ne huh hs)
    rcases List.eq_nil_or_concat' l₂ with rfl | ⟨l₂, a, rfl⟩
    · rwa [hl, List.append_nil]
    · rw [← List.append_assoc] at hl
      have hva : v = a := by
        have := congrArg List.getLast? hl
        simpa using this
      exact absurd (h₂.subset (hva ▸ by simp)) hvQ
  · exact Or.inr (hh.resolve_left hvh)

/-- The order by its structure: no edge leads back, except to the head of a component. -/
inductive Ordered (E : α → α → Prop) : WeakOrder α → Prop
  | nil : Ordered E nil
  | vertex {a : α} {rest : WeakOrder α} (ha : ∀ u ∈ a :: rest.vertices, ¬ E u a)
      (hrest : Ordered E rest) : Ordered E (vertex a rest)
  | component {h : α} {body rest : WeakOrder α}
      (hc : ∀ u ∈ rest.vertices, ∀ v ∈ h :: body.vertices, ¬ E u v) (hbody : Ordered E body)
      (hrest : Ordered E rest) : Ordered E (component (vertex h body) rest)

theorem ordered_of_forward {E : α → α → Prop} : ∀ {P : WeakOrder α}, P.Headed →
    P.vertices.Nodup → (∀ u ∈ P.vertices, ∀ v ∈ P.vertices, E u v → P.Forward u v) → P.Ordered E
  | nil, _, _, _ => .nil
  | vertex a rest, hH, hn, hf => by
    have hn' : ((vertex a nil).append rest).vertices.Nodup := hn
    refine .vertex (fun u hu he => ?_) (ordered_of_forward hH (List.nodup_cons.mp hn).2
      fun u hu v hv he => ?_)
    · rcases List.mem_cons.mp hu with rfl | hur
      · rcases hf u hu u hu he with ⟨hs, -⟩ | hh
        · exact absurd (hn.sublist hs) (by simp)
        · exact (List.nodup_cons.mp hn).1 (mem_of_mem_heads (P := rest) hh)
      · exact not_forward_back hn' hur (List.mem_singleton_self a) (hf u hu a List.mem_cons_self he)
    · exact (hf u (List.mem_cons_of_mem _ hu) v (List.mem_cons_of_mem _ hv) he).of_append_right
        (P := vertex a nil) hn' hu
  | component (vertex h body) rest, hH, hn, hf => by
    have hn' : ((component (vertex h body) nil).append rest).vertices.Nodup := by
      rw [vertices_append, vertices_component, vertices_nil, List.append_nil]
      exact hn
    have hleft : ∀ v ∈ h :: body.vertices,
        v ∈ (component (vertex h body) nil).vertices := fun v hv => List.mem_append_left _ hv
    have hmem : ∀ v ∈ h :: body.vertices, v ∈ (component (vertex h body) rest).vertices :=
      fun v hv => List.mem_append_left _ hv
    have hmem' : ∀ v ∈ rest.vertices, v ∈ (component (vertex h body) rest).vertices :=
      fun v hv => List.mem_append_right _ hv
    refine .component (fun u hu v hv he => ?_)
      (ordered_of_forward hH.2.1 (List.nodup_cons.mp hn.of_append_left).2 fun u hu v hv he => ?_)
      (ordered_of_forward hH.2.2 hn.of_append_right fun u hu v hv he => ?_)
    · exact not_forward_back hn' hu (hleft v hv) (hf u (hmem' u hu) v (hmem v hv) he)
    · exact Forward.of_component (Q := rest) (hf u (hmem u (List.mem_cons_of_mem _ hu)) v
        (hmem v (List.mem_cons_of_mem _ hv)) he) hn' hu hv
    · exact (hf u (hmem' u hu) v (hmem' v hv) he).of_append_right
        (P := component (vertex h body) nil) hn' hu

end WeakOrder
