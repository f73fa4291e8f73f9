import Mathlib.Data.Char
import Mathlib.Data.Finset.Insert
import Mathlib.Data.List.Lex
import Mathlib.Logic.Embedding.Basic
import Prevail.Crab.RegisterTypes
import Prevail.Crab.RevMap
import Prevail.Crab.SplitNormal
import Prevail.Crab.VarRegistry

/-!
# What a printed state says

`to_set` prints the constraints of a state. A variable with edges of weight zero is printed as equal to the
first of their ends by name, and only the variables that are first themselves get differences and bounds.
An edge of weight zero is one inequality, though, so that too much is said when the edge does not go back,
and too little when both ends are first. What the lines say together is `toSet_spec`.
-/

namespace Prevail

open DiffSys GraphOps

/-- A line of the printed state, as what it says: `x=y`, `x=y+k`, `x-y<=k`, an interval, a type or a range
of types. -/
inductive Printed (V : Type*) where
  | eq (x y : V)
  | eqPlus (x y : V) (k : ℤ)
  | diffLe (x y : V) (k : ℤ)
  | value (x : V) (i : Interval)
  | typeIs (x : V) (type : ℤ)
  | typeIn (x : V) (lb ub : ℤ)
  deriving DecidableEq

/-- The line, read literally. -/
def Printed.Holds {V : Type*} (σ : V → ℤ) : Printed V → Prop
  | eq x y => σ x = σ y
  | eqPlus x y k => σ x = σ y + k
  | diffLe x y k => σ x - σ y ≤ k
  | value x i => σ x ∈ i
  | typeIs x type => σ x = type
  | typeIn x lb ub => lb ≤ σ x ∧ σ x ≤ ub

namespace SplitDbm

variable {V : Type*} [LinearOrder V] (N : V ↪ List Char)

/-- `to_string` of a difference. -/
def diffToString (vd vs : V) (w : ℤ) (eq : Bool) : Printed V :=
  if eq then
    if 0 < w then .eqPlus vd vs w
    else if w < 0 then .eqPlus vs vd (-w)
    else if N vd < N vs then .eq vd vs else .eq vs vd
  else .diffLe vd vs w

/-- The classes of equal variables and the other differences. -/
structure EdgeClasses (V : Type*) [LinearOrder V] where
  equivalenceClasses : OrdMap V V
  diffCsts : OrdMap (V ×ₗ V ×ₗ ℤ) Unit

/-- The variable of a vertex. -/
def varAt (d : SplitDbm V) (n : ℕ) : Option V := (d.revMap[n]?).join

/-- One edge from the vertex of `vs`: the least variable so far and the differences. -/
def classifyEdge (d : SplitDbm V) (vs : V) (acc : V × OrdMap (V ×ₗ V ×ₗ ℤ) Unit) (e : ℕ × ℤ) :
    V × OrdMap (V ×ₗ V ×ₗ ℤ) Unit :=
  match d.varAt e.1 with
  | none => acc
  | some vd =>
    if e.2 = 0 then (if N vd < N acc.1 then vd else acc.1, acc.2)
    else (acc.1, acc.2.insert (toLex (vd, toLex (vs, e.2))) ())

/-- The edges from one vertex. -/
def classifyVertex (d : SplitDbm V) (acc : EdgeClasses V) (s : ℕ) : EdgeClasses V :=
  match d.varAt s with
  | none => acc
  | some vs =>
    let (least, diffCsts) :=
      ((d.g.view.subGraph 0).eSuccs s).foldl (d.classifyEdge N vs) (vs, acc.diffCsts)
    ⟨acc.equivalenceClasses.insert vs least, diffCsts⟩

def classify (d : SplitDbm V) : EdgeClasses V :=
  (d.g.view.subGraph 0).verts.foldl (d.classifyVertex N) ⟨∅, ∅⟩

/-- Two dual differences are merged into an equality. -/
def printDiff (representatives : Finset V) (result : Finset (Printed V)) (c : V × V × ℤ) :
    Finset (Printed V) :=
  let (vd, vs, w) := c
  if vd ∉ representatives ∨ vs ∉ representatives then result
  else
    let dual := diffToString N vs vd (-w) false
    if dual ∈ result then insert (diffToString N vd vs w true) (result.erase dual)
    else insert (diffToString N vd vs w false) result

/-- `is_type`. -/
def isTypeName (v : V) : Bool := ".type".toList.isSuffixOf (N v)

/-- `is_in_stack`. -/
def isInStackName (v : V) : Bool := (N v).head? = some 's'

/-- The bounds of a variable; `none` when a type is outside the types. -/
def printInterval (d : SplitDbm V) (reps : Finset V) (result : Finset (Printed V)) (v : ℕ) :
    Option (Finset (Printed V)) :=
  match d.varAt v with
  | none => some result
  | some x =>
    if x ∉ reps then some result
    else if !d.g.elem 0 v && !d.g.elem v 0 then some result
    else
      let out := Interval.ofBounds (d.getLb (some v)) (d.getUb (some v))
      if isTypeName N x then
        match out.bound TypeEncoding.uninit.toInt TypeEncoding.shared.toInt with
        | none => none
        | some (lb, ub) =>
          if lb = ub then
            if isInStackName N x && decide (lb = TypeEncoding.num.toInt) then some result
            else some (insert (.typeIs x lb) result)
          else some (insert (.typeIn x lb ub) result)
      else some (insert (.value x out) result)

/-- The variables that are the least of their classes. -/
def representatives (classes : OrdMap V V) : Finset V :=
  ((classes.entries.filter fun e => e.1 = e.2).map Prod.fst).toFinset

/-- `to_set`. -/
def toSet (d : SplitDbm V) : Option (Finset (Printed V)) :=
  if d.isTop then some ∅
  else
    let classes := d.classify N
    let reps := representatives classes.equivalenceClasses
    let equalities := ((classes.equivalenceClasses.entries.filter fun e => e.1 ≠ e.2).map
      fun e => Printed.eq e.1 e.2).toFinset
    let result := (classes.diffCsts.keys.map fun c => ((ofLex c).1, ofLex (ofLex c).2)).foldl
      (printDiff N reps) equalities
    (d.g.view.subGraph 0).verts.foldlM (d.printInterval N reps) result

/-! ## The first of a class -/

variable {N} {d : SplitDbm V} {x y z : V} {w : ℤ} {σ : V → ℤ} {n : ℕ}

/-- An edge of weight zero. -/
def ZeroEdge (d : SplitDbm V) (x y : V) : Prop := d.csts (some x) (some y) 0

/-- The first by name of a set of variables. -/
def IsFirst (N : V ↪ List Char) (S : Set V) (y : V) : Prop := y ∈ S ∧ ∀ z ∈ S, ¬ N z < N y

/-- The variable that a variable is printed as equal to. -/
def First (N : V ↪ List Char) (d : SplitDbm V) (x : V) : V → Prop :=
  IsFirst N {y | y = x ∨ d.ZeroEdge x y}

omit [LinearOrder V] in
theorem IsFirst.unique {S : Set V} (h : IsFirst N S y) (h' : IsFirst N S z) : y = z := by
  have hyz : N y = N z := le_antisymm (not_lt.mp (h.2 z h'.1)) (not_lt.mp (h'.2 y h.1))
  exact N.injective hyz

omit [LinearOrder V] in
theorem IsFirst.insert {S T : Set V} (h : IsFirst N S y) (hT : ∀ x, x ∈ T ↔ x ∈ S ∨ x = z) :
    IsFirst N T (if N z < N y then z else y) := by
  split_ifs with hlt
  · refine ⟨(hT z).mpr (Or.inr rfl), fun x hx hxz => ?_⟩
    rcases (hT x).mp hx with hS | rfl
    · exact h.2 x hS (hxz.trans hlt)
    · exact lt_irrefl _ hxz
  · refine ⟨(hT y).mpr (Or.inl h.1), fun x hx hxy => ?_⟩
    rcases (hT x).mp hx with hS | rfl
    · exact h.2 x hS hxy
    · exact hlt hxy

theorem First.zeroEdge (h : First N d x y) (hxy : x ≠ y) : d.ZeroEdge x y :=
  h.1.resolve_left hxy.symm

theorem First.lt (h : First N d x y) (hxy : x ≠ y) : N y < N x :=
  lt_of_le_of_ne (not_lt.mp (h.2 x (Or.inl rfl))) fun heq => hxy (N.injective heq).symm

/-! ## The classes -/

theorem varAt_iff (hi : d.Inverse) : d.varAt n = some x ↔ d.vertMap.find? x = some n := by
  rw [hi x n not_false]
  unfold varAt
  exact Option.join_eq_some_iff

theorem mem_verts_of_find? (hd : d.WF) (hx : d.vertMap.find? x = some n) :
    n ∈ (d.g.view.subGraph 0).verts := by
  obtain ⟨hpos, hsize, hfree⟩ := hd.vert x n hx
  refine List.mem_filter.mpr ⟨List.mem_filter.mpr ⟨List.mem_range.mpr hsize, ?_⟩, ?_⟩
  · simpa using hfree
  · simpa using hpos.ne'

/-- The edges from the vertex of a variable. -/
theorem exists_mem_eSuccs_iff (hd : d.WF) (hi : d.Inverse) (hx : d.vertMap.find? x = some n) :
    (∃ e ∈ (d.g.view.subGraph 0).eSuccs n, d.varAt e.1 = some y ∧ e.2 = w) ↔
      d.csts (some x) (some y) w := by
  constructor
  · rintro ⟨⟨m, c⟩, he, hy, rfl⟩
    exact ⟨n, m, hx, (varAt_iff hi).mp hy, (edge_subGraph.mp he).1⟩
  · rintro ⟨n', m, hx', hy, he⟩
    obtain rfl := Option.some.inj (hx.symm.trans hx')
    exact ⟨(m, w), edge_subGraph.mpr ⟨he, (hd.vert y m hy).1.ne'⟩, (varAt_iff hi).mpr hy, rfl⟩

/-- What some edges of `x` add to the differences. -/
def Added (d : SplitDbm V) (x : V) (es : List (ℕ × ℤ)) (c : V ×ₗ V ×ₗ ℤ) : Prop :=
  ∃ e ∈ es, e.2 ≠ 0 ∧ ∃ y, d.varAt e.1 = some y ∧ c = toLex (y, toLex (x, e.2))

theorem foldl_classifyEdge (es : List (ℕ × ℤ)) (acc : V × OrdMap (V ×ₗ V ×ₗ ℤ) Unit) {S : Set V}
    (hacc : IsFirst N S acc.1) :
    IsFirst N {y | y ∈ S ∨ ∃ e ∈ es, d.varAt e.1 = some y ∧ e.2 = 0}
        (es.foldl (d.classifyEdge N x) acc).1 ∧
      ∀ c, c ∈ (es.foldl (d.classifyEdge N x) acc).2.keys ↔ c ∈ acc.2.keys ∨ Added d x es c := by
  induction es generalizing acc S with
  | nil => simpa [Added] using hacc
  | cons e es ih =>
    have hstep : IsFirst N {y | y ∈ S ∨ d.varAt e.1 = some y ∧ e.2 = 0} (d.classifyEdge N x acc e).1 ∧
        ∀ c, c ∈ (d.classifyEdge N x acc e).2.keys ↔ c ∈ acc.2.keys ∨ Added d x [e] c := by
      unfold classifyEdge
      cases hv : d.varAt e.1 with
      | none => simpa [Added, hv] using hacc
      | some y =>
        by_cases h0 : e.2 = 0
        · simp only [h0, if_true]
          refine ⟨hacc.insert fun x => ?_, fun c => ?_⟩
          · simp [eq_comm]
          · simp [Added, h0]
        · simp only [if_neg h0]
          refine ⟨by simpa [h0] using hacc, fun c => ?_⟩
          simp only [OrdMap.mem_keys, OrdMap.find?_insert]
          by_cases hc : c = toLex (y, toLex (x, e.2))
          · simp [Added, hc, h0, hv]
          · simp [Added, hc, hv]
    obtain ⟨hleast, hkeys⟩ := ih _ hstep.1
    refine ⟨?_, fun c => ?_⟩
    · rw [List.foldl_cons]
      convert hleast using 1
      ext y
      simp [or_assoc]
    · rw [List.foldl_cons, hkeys, hstep.2]
      simp [Added, or_assoc]

/-- What is known of the classes when some vertices have been visited. -/
structure Classified (N : V ↪ List Char) (d : SplitDbm V) (seen : List ℕ) (acc : EdgeClasses V) : Prop where
  class_iff : ∀ x y, acc.equivalenceClasses.find? x = some y ↔
    (∃ n ∈ seen, d.varAt n = some x) ∧ First N d x y
  diff_iff : ∀ c, c ∈ acc.diffCsts.keys ↔
    (∃ n ∈ seen, d.varAt n = some (ofLex (ofLex c).2).1) ∧
      d.csts (some (ofLex (ofLex c).2).1) (some (ofLex c).1) (ofLex (ofLex c).2).2 ∧
        (ofLex (ofLex c).2).2 ≠ 0

theorem added_iff (hd : d.WF) (hi : d.Inverse) (hx : d.vertMap.find? x = some n) (c : V ×ₗ V ×ₗ ℤ) :
    Added d x ((d.g.view.subGraph 0).eSuccs n) c ↔ (ofLex (ofLex c).2).1 = x ∧
      d.csts (some x) (some (ofLex c).1) (ofLex (ofLex c).2).2 ∧ (ofLex (ofLex c).2).2 ≠ 0 := by
  constructor
  · rintro ⟨e, he, h0, y, hy, rfl⟩
    exact ⟨rfl, (exists_mem_eSuccs_iff hd hi hx).mp ⟨e, he, hy, rfl⟩, h0⟩
  · rintro ⟨rfl, hc, h0⟩
    obtain ⟨e, he, hy, hw⟩ := (exists_mem_eSuccs_iff hd hi hx).mpr hc
    refine ⟨e, he, hw ▸ h0, _, hy, ?_⟩
    rw [hw]
    rfl

theorem Classified.classifyVertex {seen : List ℕ} {acc : EdgeClasses V} (hd : d.WF) (hi : d.Inverse)
    (h : Classified N d seen acc) (n : ℕ) : Classified N d (seen ++ [n]) (d.classifyVertex N acc n) := by
  unfold SplitDbm.classifyVertex
  cases hv : d.varAt n with
  | none =>
    have hseen : ∀ x, (∃ m ∈ seen ++ [n], d.varAt m = some x) ↔ ∃ m ∈ seen, d.varAt m = some x := by
      simp [or_and_right, exists_or, hv]
    exact ⟨fun x y => by rw [hseen]; exact h.class_iff x y, fun c => by rw [hseen]; exact h.diff_iff c⟩
  | some x =>
    have hx : d.vertMap.find? x = some n := (varAt_iff hi).mp hv
    have hseen : ∀ z, (∃ m ∈ seen ++ [n], d.varAt m = some z) ↔
        (∃ m ∈ seen, d.varAt m = some z) ∨ z = x := by
      simp [or_and_right, exists_or, hv, eq_comm]
    obtain ⟨hfirst, hkeys⟩ := foldl_classifyEdge (N := N) (d := d) (x := x)
      ((d.g.view.subGraph 0).eSuccs n) (x, acc.diffCsts) (S := {x}) ⟨rfl, fun z hz => by simp_all⟩
    have hleast : First N d x (((d.g.view.subGraph 0).eSuccs n).foldl (d.classifyEdge N x)
        (x, acc.diffCsts)).1 := by
      have hset : {y | y ∈ ({x} : Set V) ∨ ∃ e ∈ (d.g.view.subGraph 0).eSuccs n,
          d.varAt e.1 = some y ∧ e.2 = 0} = {y | y = x ∨ d.ZeroEdge x y} := by
        ext y
        exact or_congr Iff.rfl (exists_mem_eSuccs_iff hd hi hx)
      rwa [hset] at hfirst
    refine ⟨fun z y => ?_, fun c => ?_⟩
    · rw [hseen]
      simp only [OrdMap.find?_insert]
      by_cases hz : z = x
      · subst hz
        simp only [if_true, Option.some.injEq, or_true, true_and]
        exact ⟨fun heq => heq ▸ hleast, fun hy => hleast.unique hy⟩
      · simp only [or_false, hz]
        exact h.class_iff z y
    · rw [hseen]
      show c ∈ (((d.g.view.subGraph 0).eSuccs n).foldl (d.classifyEdge N x) (x, acc.diffCsts)).2.keys ↔ _
      rw [hkeys, h.diff_iff, added_iff hd hi hx]
      constructor
      · rintro (⟨hs, hc⟩ | ⟨heq, hc⟩)
        · exact ⟨Or.inl hs, hc⟩
        · exact ⟨Or.inr heq, heq ▸ hc⟩
      · rintro ⟨hs | heq, hc⟩
        · exact Or.inl ⟨hs, hc⟩
        · exact Or.inr ⟨heq, heq ▸ hc⟩

theorem classified_foldl {seen : List ℕ} {acc : EdgeClasses V} (hd : d.WF) (hi : d.Inverse)
    (h : Classified N d seen acc) (ns : List ℕ) :
    Classified N d (seen ++ ns) (ns.foldl (d.classifyVertex N) acc) := by
  induction ns generalizing seen acc with
  | nil => simpa using h
  | cons n ns ih =>
    have hstep := ih (h.classifyVertex hd hi n)
    rwa [List.append_assoc, List.singleton_append] at hstep

/-- The variables of a state. -/
def Mapped (d : SplitDbm V) (x : V) : Prop := ∃ n, d.vertMap.find? x = some n

theorem classified_classify (hd : d.WF) (hi : d.Inverse) :
    Classified N d (d.g.view.subGraph 0).verts (d.classify N) := by
  have hempty : Classified N d [] ⟨∅, ∅⟩ :=
    ⟨fun _ _ => by simp, fun _ => by simp [OrdMap.mem_keys]⟩
  exact classified_foldl hd hi hempty _

theorem exists_varAt_iff (hd : d.WF) (hi : d.Inverse) :
    (∃ n ∈ (d.g.view.subGraph 0).verts, d.varAt n = some x) ↔ d.Mapped x := by
  constructor
  · rintro ⟨n, -, hn⟩
    exact ⟨n, (varAt_iff hi).mp hn⟩
  · rintro ⟨n, hn⟩
    exact ⟨n, mem_verts_of_find? hd hn, (varAt_iff hi).mpr hn⟩

theorem find?_classify (hd : d.WF) (hi : d.Inverse) :
    (d.classify N).equivalenceClasses.find? x = some y ↔ d.Mapped x ∧ First N d x y := by
  rw [(classified_classify hd hi).class_iff, exists_varAt_iff hd hi]

theorem mapped_of_csts (h : d.csts (some x) (some y) w) : d.Mapped x := (vertOf_of_csts h).1

theorem mem_keys_classify (hd : d.WF) (hi : d.Inverse) (c : V ×ₗ V ×ₗ ℤ) :
    c ∈ (d.classify N).diffCsts.keys ↔
      d.csts (some (ofLex (ofLex c).2).1) (some (ofLex c).1) (ofLex (ofLex c).2).2 ∧
        (ofLex (ofLex c).2).2 ≠ 0 := by
  rw [(classified_classify hd hi).diff_iff, exists_varAt_iff hd hi]
  exact ⟨And.right, fun h => ⟨mapped_of_csts h.1, h⟩⟩

theorem mem_representatives (hd : d.WF) (hi : d.Inverse) :
    x ∈ representatives (d.classify N).equivalenceClasses ↔ d.Mapped x ∧ First N d x x := by
  rw [← find?_classify hd hi, ← OrdMap.mem_entries]
  simp [representatives]

/-! ## What the lines say -/

omit [LinearOrder V] in
/-- Two dual differences say together what the equality says. -/
theorem holds_diffToString_eq : (diffToString N x y w true).Holds σ ↔
    (diffToString N y x (-w) false).Holds σ ∧ (diffToString N x y w false).Holds σ := by
  unfold diffToString
  rw [if_pos rfl]
  simp only [Bool.false_eq_true, if_false, Printed.Holds]
  split_ifs <;> simp only <;> omega

/-- All lines hold. -/
def AllHold (σ : V → ℤ) (result : Finset (Printed V)) : Prop := ∀ c ∈ result, c.Holds σ

omit [LinearOrder V] in
theorem allHold_insert [DecidableEq V] {c : Printed V} {result : Finset (Printed V)} :
    AllHold σ (insert c result) ↔ c.Holds σ ∧ AllHold σ result := by
  simp [AllHold]

theorem allHold_printDiff {reps : Finset V} {result : Finset (Printed V)} {c : V × V × ℤ} :
    AllHold σ (printDiff N reps result c) ↔
      AllHold σ result ∧ (c.1 ∈ reps → c.2.1 ∈ reps → σ c.1 - σ c.2.1 ≤ c.2.2) := by
  obtain ⟨vd, vs, w⟩ := c
  unfold printDiff
  simp only
  split_ifs with hreps hdual
  · exact ⟨fun h => ⟨h, fun hd hs => absurd hreps (by simp [hd, hs])⟩, And.left⟩
  · -- the dual difference is taken out and comes back within the equality
    have hold : AllHold σ result ↔ (diffToString N vs vd (-w) false).Holds σ ∧
        AllHold σ (result.erase (diffToString N vs vd (-w) false)) := by
      rw [← allHold_insert, Finset.insert_erase hdual]
    simp only [not_or, not_not] at hreps
    rw [allHold_insert, hold, holds_diffToString_eq]
    simp only [diffToString, Printed.Holds, hreps]
    tauto
  · simp only [not_or, not_not] at hreps
    rw [allHold_insert]
    simp only [diffToString, Printed.Holds, hreps]
    tauto

theorem allHold_foldl_printDiff {reps : Finset V} (cs : List (V × V × ℤ)) (result : Finset (Printed V)) :
    AllHold σ (cs.foldl (printDiff N reps) result) ↔
      AllHold σ result ∧ ∀ c ∈ cs, c.1 ∈ reps → c.2.1 ∈ reps → σ c.1 - σ c.2.1 ≤ c.2.2 := by
  induction cs generalizing result with
  | nil => simp
  | cons c cs ih => rw [List.foldl_cons, ih, allHold_printDiff, List.forall_mem_cons, and_assoc]

/-- The bounds of a variable. -/
def Bounded (d : SplitDbm V) (σ : V → ℤ) (x : V) : Prop :=
  (∀ w, d.csts (some x) none w → 0 ≤ σ x + w) ∧ ∀ w, d.csts none (some x) w → σ x ≤ w

theorem mem_ofBounds_iff (hx : d.vertMap.find? x = some n) :
    σ x ∈ Interval.ofBounds (d.getLb (some n)) (d.getUb (some n)) ↔ d.Bounded σ x := by
  rw [Interval.mem_ofBounds]
  refine and_congr ?_ ?_
  · simp only [csts_iff_edge (x := some x) (y := none) hx rfl, AdaptGraph.Edge]
    cases hw : d.g.lookup n 0 with
    | none => simp [getLb, hw]
    | some w =>
      simp [getLb, hw]
      omega
  · simp only [csts_iff_edge (x := none) (y := some x) rfl hx, AdaptGraph.Edge]
    cases hw : d.g.lookup 0 n with
    | none => simp [getUb, hw]
    | some w => simp [getUb, hw]

theorem bounded_of_not_elem (hx : d.vertMap.find? x = some n)
    (h : (!d.g.elem 0 n && !d.g.elem n 0) = true) : d.Bounded σ x := by
  simp only [AdaptGraph.elem, Bool.and_eq_true, Bool.not_eq_true', Option.isSome_eq_false_iff,
    Option.isNone_iff_eq_none] at h
  constructor
  · intro w hw
    rw [csts_iff_edge (x := some x) (y := none) hx rfl, AdaptGraph.Edge, h.2] at hw
    cases hw
  · intro w hw
    rw [csts_iff_edge (x := none) (y := some x) rfl hx, AdaptGraph.Edge, h.1] at hw
    cases hw

/-- No variable of the state is a type. -/
def NoTypes (N : V ↪ List Char) (d : SplitDbm V) : Prop := ∀ x, d.Mapped x → isTypeName N x = false

theorem printInterval_spec (hi : d.Inverse) (ht : d.NoTypes N) (reps : Finset V)
    (result : Finset (Printed V)) (n : ℕ) : ∃ out, d.printInterval N reps result n = some out ∧
      ∀ σ, AllHold σ out ↔
        AllHold σ result ∧ ∀ x, d.varAt n = some x → x ∈ reps → d.Bounded σ x := by
  unfold printInterval
  cases hv : d.varAt n with
  | none => exact ⟨result, rfl, fun σ => by simp⟩
  | some x =>
    have hx : d.vertMap.find? x = some n := (varAt_iff hi).mp hv
    simp only [ht x ⟨n, hx⟩, Bool.false_eq_true, if_false]
    split_ifs with hreps hedges
    · refine ⟨result, rfl, fun σ => ⟨fun h => ⟨h, fun y hy _ => ?_⟩, And.left⟩⟩
      obtain rfl := Option.some.inj hy
      exact bounded_of_not_elem hx hedges
    · refine ⟨_, rfl, fun σ => ?_⟩
      rw [allHold_insert, and_comm]
      refine and_congr Iff.rfl ((mem_ofBounds_iff hx).trans ⟨fun h y hy _ => ?_, fun h => ?_⟩)
      · exact Option.some.inj hy ▸ h
      · exact h x rfl hreps
    · exact ⟨result, rfl, fun σ => ⟨fun h => ⟨h, fun y hy hm => absurd (Option.some.inj hy ▸ hm) hreps⟩,
        And.left⟩⟩

theorem foldlM_printInterval (hi : d.Inverse) (ht : d.NoTypes N) (reps : Finset V) (ns : List ℕ)
    (result : Finset (Printed V)) : ∃ out, ns.foldlM (d.printInterval N reps) result = some out ∧
      ∀ σ, AllHold σ out ↔
        AllHold σ result ∧ ∀ n ∈ ns, ∀ x, d.varAt n = some x → x ∈ reps → d.Bounded σ x := by
  induction ns generalizing result with
  | nil => exact ⟨result, rfl, fun σ => by simp⟩
  | cons n ns ih =>
    obtain ⟨mid, hmid, hmeans⟩ := printInterval_spec hi ht reps result n
    obtain ⟨out, hout, hall⟩ := ih mid
    refine ⟨out, ?_, fun σ => ?_⟩
    · rw [List.foldlM_cons, hmid]
      exact hout
    · rw [hall, hmeans, List.forall_mem_cons, and_assoc]

/-! ## Zero and the edges that are printed as they stand -/

/-- The edges that are printed as they stand: bounds and differences other than zero, of variables that
are first themselves. -/
def printedCsts (N : V ↪ List Char) (d : SplitDbm V) : DiffSys (Option V) := fun u v w =>
  d.csts u v w ∧ (u = none ∨ v = none ∨ w ≠ 0) ∧ (∀ x ∈ u, First N d x x) ∧ ∀ y ∈ v, First N d y y

/-- Every variable is equal to the first of its class. -/
def Equalities (N : V ↪ List Char) (d : SplitDbm V) (σ : V → ℤ) : Prop :=
  ∀ x y, First N d x y → σ x = σ y

theorem First.mapped (h : First N d x y) (hxy : x ≠ y) : d.Mapped x := mapped_of_csts (h.zeroEdge hxy)

theorem allHold_equalities (hd : d.WF) (hi : d.Inverse) :
    AllHold σ (((d.classify N).equivalenceClasses.entries.filter fun e => e.1 ≠ e.2).map
      fun e => Printed.eq e.1 e.2).toFinset ↔ Equalities N d σ := by
  have hentry : ∀ x y, (x, y) ∈ (d.classify N).equivalenceClasses.entries ↔
      d.Mapped x ∧ First N d x y := fun x y => by
    rw [OrdMap.mem_entries, find?_classify hd hi]
  constructor
  · intro h x y hf
    by_cases hxy : x = y
    · rw [hxy]
    · refine h (.eq x y) ?_
      simp only [List.mem_toFinset, List.mem_map, List.mem_filter]
      exact ⟨(x, y), ⟨(hentry x y).mpr ⟨hf.mapped hxy, hf⟩, by simpa using hxy⟩, rfl⟩
  · intro h c hc
    simp only [List.mem_toFinset, List.mem_map, List.mem_filter] at hc
    obtain ⟨⟨x, y⟩, ⟨hmem, -⟩, rfl⟩ := hc
    exact h x y ((hentry x y).mp hmem).2

theorem mem_map_diffCsts (hd : d.WF) (hi : d.Inverse) (c : V × V × ℤ) :
    c ∈ (d.classify N).diffCsts.keys.map (fun c => ((ofLex c).1, ofLex (ofLex c).2)) ↔
      d.csts (some c.2.1) (some c.1) c.2.2 ∧ c.2.2 ≠ 0 := by
  rw [List.mem_map]
  constructor
  · rintro ⟨c, hc, rfl⟩
    exact (mem_keys_classify hd hi c).mp hc
  · intro hc
    exact ⟨toLex (c.1, toLex c.2), (mem_keys_classify hd hi _).mpr hc, rfl⟩

theorem sat_printedCsts_iff (hnf : d.NormalForm) (hd : d.WF) :
    (d.printedCsts N).Sat (ext σ) ↔
      (∀ x y w, First N d x x → First N d y y → d.csts (some x) (some y) w → w ≠ 0 → σ y - σ x ≤ w) ∧
        ∀ x, First N d x x → d.Bounded σ x := by
  constructor
  · intro h
    refine ⟨fun x y w hx hy hw h0 => ?_, fun x hx => ⟨fun w hw => ?_, fun w hw => ?_⟩⟩
    · have hle : σ y ≤ σ x + w := h (some x) (some y) w ⟨hw, Or.inr (Or.inr h0), by simpa using hx,
        by simpa using hy⟩
      omega
    · exact h (some x) none w ⟨hw, Or.inr (Or.inl rfl), by simpa using hx, by simp⟩
    · have hle : σ x ≤ 0 + w := h none (some x) w ⟨hw, Or.inl rfl, by simp, by simpa using hx⟩
      omega
  · rintro ⟨hdiff, hbound⟩ u v w ⟨hw, h0, hu, hv⟩
    cases u with
    | none =>
      cases v with
      | none =>
        -- an edge from zero to itself holds since there is a solution
        obtain ⟨μ, hμ⟩ := hnf.models
        exact (models_iff hd).mp hμ none none w hw
      | some y =>
        have hle : σ y ≤ w := (hbound y (hv y rfl)).2 w hw
        show σ y ≤ 0 + w
        omega
    | some x =>
      cases v with
      | none => exact (hbound x (hu x rfl)).1 w hw
      | some y =>
        have hle := hdiff x y w (hu x rfl) (hv y rfl) hw (by simpa using h0)
        show σ y ≤ σ x + w
        omega

theorem bounded_of_not_mapped (h : ¬ d.Mapped x) : d.Bounded σ x :=
  ⟨fun _ hw => absurd (vertOf_of_csts hw).1 h, fun _ hw => absurd (vertOf_of_csts hw).2 h⟩

/-- What the printed lines say together. -/
theorem toSet_spec (hd : d.WF) (hi : d.Inverse) (hnf : d.NormalForm) (ht : d.NoTypes N) :
    ∃ printed, d.toSet N = some printed ∧
      ∀ σ, AllHold σ printed ↔ Equalities N d σ ∧ (d.printedCsts N).Sat (ext σ) := by
  unfold toSet
  by_cases htop : d.isTop = true
  · rw [if_pos htop]
    refine ⟨∅, rfl, fun σ => ⟨fun _ => ⟨fun x y hf => ?_, fun u v w hw => ?_⟩, fun _ => by simp [AllHold]⟩⟩
    · by_contra hne
      exact not_csts_of_isTop htop (hf.zeroEdge fun hxy => hne (by rw [hxy]))
    · exact absurd hw.1 (not_csts_of_isTop htop)
  · rw [if_neg htop]
    obtain ⟨out, hout, hall⟩ := foldlM_printInterval hi ht
      (representatives (d.classify N).equivalenceClasses) (d.g.view.subGraph 0).verts
      ((((d.classify N).diffCsts.keys.map fun c => ((ofLex c).1, ofLex (ofLex c).2)).foldl
        (printDiff N (representatives (d.classify N).equivalenceClasses))
        (((d.classify N).equivalenceClasses.entries.filter fun e => e.1 ≠ e.2).map
          fun e => Printed.eq e.1 e.2).toFinset))
    refine ⟨out, hout, fun σ => ?_⟩
    rw [hall, allHold_foldl_printDiff, allHold_equalities hd hi, sat_printedCsts_iff hnf hd, and_assoc]
    refine and_congr Iff.rfl (and_congr ?_ ?_)
    · constructor
      · intro h x y w hx hy hw h0
        exact h (y, x, w) ((mem_map_diffCsts hd hi _).mpr ⟨hw, h0⟩)
          ((mem_representatives hd hi).mpr ⟨(vertOf_of_csts hw).2, hy⟩)
          ((mem_representatives hd hi).mpr ⟨mapped_of_csts hw, hx⟩)
      · rintro h ⟨y, x, w⟩ hc hy hx
        obtain ⟨hw, h0⟩ := (mem_map_diffCsts hd hi _).mp hc
        exact h x y w ((mem_representatives hd hi).mp hx).2 ((mem_representatives hd hi).mp hy).2 hw h0
    · constructor
      · intro h x hx
        by_cases hm : d.Mapped x
        · obtain ⟨n, hn, hv⟩ := (exists_varAt_iff hd hi).mpr hm
          exact h n hn x hv ((mem_representatives hd hi).mpr ⟨hm, hx⟩)
        · exact bounded_of_not_mapped hm
      · intro h n _ x _ hx
        exact h x ((mem_representatives hd hi).mp hx).2

end SplitDbm

end Prevail
