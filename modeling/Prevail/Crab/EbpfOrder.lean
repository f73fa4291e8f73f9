import Prevail.Crab.EbpfDomain
import Prevail.Crab.ZoneOrder

/-!
# The order of the whole domain

The facts that the fixpoint loop uses to stop: bottom and each state are below themselves, the
operands are below their join, the right one is below the widening. They can fail in three ways: the
bits of the stack are compared first, also for a bottom state, whose bits are not reset; a widening
with a bottom operand may itself be bottom; and variables without constraints are counted when the
values of one state say nothing (`Lawful`). Otherwise they hold of states whose zones are in split
normal form and without loops, where zones are compared at all (`orderLaws_iff`).
-/

namespace Prevail

open DiffSys GraphOps

namespace AddBottom

variable {V : Type*} [LinearOrder V] {x y : AddBottom V} {d : SplitDbm V} {σ σ' : V → ℤ}

/-- A state that is closed when it is not empty. -/
def Closed (x : AddBottom V) : Prop := ∀ d ∈ x, SplitDbm.Closed d

theorem le_self (hx : x.WF) : x.le x = true := by
  cases x with
  | none => rfl
  | some a => exact SplitDbm.le_self (wf_some.mp hx)

theorem le_join (hx : x.WF) (hy : y.WF) (hcx : x.Closed) (hcy : y.Closed) :
    x.le (x.join y) = true ∧ y.le (x.join y) = true := by
  cases x with
  | none => exact ⟨rfl, by cases y <;> exact le_self hy⟩
  | some a =>
    cases y with
    | none => exact ⟨le_self hx, rfl⟩
    | some b => exact SplitDbm.le_join (wf_some.mp hx) (wf_some.mp hy) (hcx a rfl) (hcy b rfl)

theorem le_widen_right (hx : x.WF) (hy : y.WF) (hcx : x.Closed) (hcy : y.Closed) :
    y.le (x.widen y) = true := by
  cases y with
  | none => rfl
  | some b =>
    cases x with
    | none => exact le_self hy
    | some a => exact SplitDbm.le_widen_right (wf_some.mp hx) (wf_some.mp hy) (hcx a rfl) (hcy b rfl)

/-! ## Forgetting several variables -/

theorem exists_havocs (vars : List V) (hd : d.WF) :
    ∃ e, vars.foldl havoc (some d) = some e ∧ e.WF ∧ (∀ u, e.Has u ↔ d.Has u ∧ u ∉ vars) ∧
      ∀ u, u ∉ vars → d.HasBound u → e.HasBound u := by
  induction vars generalizing d with
  | nil => exact ⟨d, rfl, hd, fun u => by simp, fun u _ h => h⟩
  | cons v vars ih =>
    obtain ⟨e, he, hwf, hhas, hbound⟩ := ih (SplitDbm.wf_havoc hd v)
    refine ⟨e, he, hwf, fun u => ?_, fun u hu h => ?_⟩
    · rw [hhas, SplitDbm.has_havoc_iff hd, List.mem_cons, not_or]
      exact ⟨fun ⟨⟨hne, h⟩, hn⟩ => ⟨h, hne, hn⟩, fun ⟨h, hne, hn⟩ => ⟨⟨hne, h⟩, hn⟩⟩
    · rw [List.mem_cons, not_or] at hu
      exact hbound u hu.2 (h.of_keeps (Ne.symm hu.1) (SplitDbm.keeps_havoc hd v))

theorem models_havocs {vars : List V} (hx : x.WF) (hσ : x.Models σ)
    (heq : ∀ u, u ∉ vars → σ u = σ' u) : (vars.foldl havoc x).Models σ' := by
  induction vars generalizing x σ with
  | nil =>
    have hσσ' : σ = σ' := funext fun u => heq u List.not_mem_nil
    rwa [← hσσ']
  | cons v vars ih =>
    refine ih (hx.havoc v) (models_havoc hx hσ (σ' v)) fun u hu => ?_
    by_cases huv : u = v
    · rw [huv, Function.update_self]
    · rw [Function.update_of_ne huv]
      exact heq u (List.not_mem_cons_of_ne_of_not_mem huv hu)

theorem loopFree_havocs {vars : List V} {e : SplitDbm V} (hd : d.WF) (hl : GraphOps.LoopFree d.g)
    (hσ : d.Models σ) (he : vars.foldl havoc (some d) = some e) : GraphOps.LoopFree e.g := by
  induction vars generalizing d σ with
  | nil =>
    cases he
    exact hl
  | cons v vars ih =>
    exact ih (SplitDbm.wf_havoc hd v) (SplitDbm.loopFree_havoc hl hd hσ v)
      (SplitDbm.models_havoc hd v hσ 0) he

/-- Without a pending normalisation, a state is below itself with variables forgotten. -/
theorem le_havocs_of_idle (vars : List V) (hd : d.WF) (hu : d.unstable = []) :
    AddBottom.le (some d) (vars.foldl havoc (some d)) = true := by
  obtain ⟨e, he, hwf, hhas, -⟩ := exists_havocs vars hd
  have hcsts : ∀ x y w, e.csts x y w → d.csts x y w := by
    clear hhas
    induction vars generalizing d with
    | nil =>
      cases he
      exact fun _ _ _ h => h
    | cons v vars ih =>
      exact fun x y w h => SplitDbm.csts_of_havoc hd hu
        (ih (SplitDbm.wf_havoc hd v) (SplitDbm.unstable_havoc hu) he x y w h)
  rw [he]
  exact SplitDbm.le_of_csts hwf hcsts fun u h => ((hhas u).mp h).1

/-- In split normal form, a state is below itself with variables forgotten. -/
theorem le_havocs_of_closed (vars : List V) (hd : d.WF) (hc : d.Closed) :
    AddBottom.le (some d) (vars.foldl havoc (some d)) = true := by
  obtain ⟨ρ, hρ⟩ := hc.normalForm.models
  obtain ⟨e, he, hwf, hhas, -⟩ := exists_havocs vars hd
  have hmodels : ∀ σ, d.Models σ → e.Models σ := fun σ hσ => by
    have h : (vars.foldl havoc (some d)).Models σ :=
      models_havocs (wf_some.mpr hd) (models_some.mpr hσ) fun _ _ => rfl
    rwa [he, models_some] at h
  rw [he]
  exact SplitDbm.le_of_included hd hwf hc.normalForm (loopFree_havocs hd hc.loopFree hρ he) hmodels
    (SplitDbm.length_le_of_has fun u h => ((hhas u).mp h).1)

end AddBottom

namespace TypeToNumDomain

variable {V : Type*} [LinearOrder V] {R : VariableRegistry V} {a b c o : TypeToNumDomain V}
  {z w d e : SplitDbm V} {σ : V → ℤ} {v : V} {i : Interval}

/-- Setting variables to intervals that say something. -/
theorem exists_setAll {l : List (V × Interval)} (hd : d.WF)
    (h : ∀ f ∈ l, (∃ n, n ∈ f.2) ∧ f.2.isTop = false) :
    ∃ e, setAll (some d) l = some e ∧ e.WF ∧ (∀ u, e.Has u ↔ d.Has u ∨ u ∈ l.map Prod.fst) ∧
      ∀ u, (d.HasBound u ∨ u ∈ l.map Prod.fst) → e.HasBound u := by
  induction l generalizing d with
  | nil => exact ⟨d, rfl, hd, fun u => by simp, fun u hu => by simpa using hu⟩
  | cons f l ih =>
    obtain ⟨⟨n, hn⟩, htop⟩ := h f List.mem_cons_self
    have hset : AddBottom.set (some d) f.1 f.2 = some (d.set f.1 f.2) := by
      unfold AddBottom.set
      rw [Interval.isBottom_eq_false_of_mem hn]
      rfl
    obtain ⟨e, he, hwf, hhas, hbound⟩ := ih (SplitDbm.wf_set hd f.1 f.2)
      fun g hg => h g (List.mem_cons_of_mem _ hg)
    refine ⟨e, ?_, hwf, fun u => ?_, fun u hu => hbound u ?_⟩
    · show setAll (AddBottom.set (some d) f.1 f.2) l = some e
      rw [hset, he]
    · rw [hhas, SplitDbm.has_set_iff hd htop, List.map_cons, List.mem_cons, or_assoc]
      exact or_left_comm
    · by_cases huf : f.1 = u
      · exact Or.inl (huf ▸ SplitDbm.hasBound_set hd hn htop)
      · rw [List.map_cons, List.mem_cons] at hu
        rcases hu with hu | rfl | hu
        · exact Or.inl (hu.of_keeps huf (SplitDbm.keeps_set hd f.1 f.2))
        · exact absurd rfl huf
        · exact Or.inr hu

theorem loopFree_setAll {l : List (V × Interval)} (hd : d.WF) (hl : GraphOps.LoopFree d.g)
    (hσ : d.Models σ) (h : ∀ f ∈ l, ∃ n, n ∈ f.2) (he : setAll (some d) l = some e) :
    GraphOps.LoopFree e.g := by
  induction l generalizing d σ with
  | nil =>
    cases he
    exact hl
  | cons f l ih =>
    obtain ⟨n, hn⟩ := h f List.mem_cons_self
    have hset : AddBottom.set (some d) f.1 f.2 = some (d.set f.1 f.2) := by
      unfold AddBottom.set
      rw [Interval.isBottom_eq_false_of_mem hn]
      rfl
    refine ih (SplitDbm.wf_set hd f.1 f.2) (SplitDbm.loopFree_set hd hl hσ hn)
      (SplitDbm.models_set hd hσ hn) (fun g hg => h g (List.mem_cons_of_mem _ hg)) ?_
    rw [← hset]
    exact he

/-- What is saved for a variable that the left types allow comes from the left values. -/
theorem Saved.eq_left (h : Saved R a b v i) :
    i = a.values.evalInterval (.var v) ∨ RuledOut R a.types v := by
  obtain ⟨u, hu, e, he, -, kind, hkind, rfl, rfl, -⟩ := h
  cases hmay : a.types.mayHaveType u e.1 with
  | true => exact Or.inl rfl
  | false => exact Or.inr ⟨u, hu, e, he, hmay, kind, hkind, rfl⟩

theorem Saved.eq_right (h : Saved R a b v i) :
    i = b.values.evalInterval (.var v) ∨ RuledOut R b.types v := by
  obtain ⟨u, hu, e, he, hne, kind, hkind, rfl, rfl, -⟩ := h
  cases hmay : b.types.mayHaveType u e.1 with
  | true =>
    rw [if_neg (fun h => hne (h.trans hmay.symm))]
    exact Or.inl rfl
  | false => exact Or.inr ⟨u, hu, e, he, hmay, kind, hkind, rfl⟩

theorem Saved.isTop (h : Saved R a b v i) : i.isTop = false := by
  obtain ⟨_, _, _, _, _, _, _, _, _, htop⟩ := h
  exact htop

/-- Both operands save the same intervals. -/
theorem collectTypeDependentConstraints_comm (R : VariableRegistry V) (a b : TypeToNumDomain V) :
    a.collectTypeDependentConstraints R b = b.collectTypeDependentConstraints R a := by
  unfold collectTypeDependentConstraints
  refine List.flatMap_congr fun v _ => List.flatMap_congr fun e _ => ?_
  cases a.types.mayHaveType v e.1 <;> cases b.types.mayHaveType v e.1 <;> rfl

/-- The values that `operator<=` compares with: the saved intervals are put back, the variables that
`c` rules out are forgotten. -/
def putBack (R : VariableRegistry V) (c a b : TypeToNumDomain V) (d : SplitDbm V) : AddBottom V :=
  (c.getNonexistentKindVariables R).foldl AddBottom.havoc
    (setAll (some d) (a.collectTypeDependentConstraints R b))

/-- The variables of these values. -/
def putBackKeys (R : VariableRegistry V) (c a b : TypeToNumDomain V) (d : SplitDbm V) : List V :=
  ((d.vertMap.keys ++ (a.collectTypeDependentConstraints R b).map Prod.fst).filter
    (· ∉ c.getNonexistentKindVariables R)).dedup

theorem exists_of_savesValues (hsaves : SavesValues R a b) :
    ∀ f ∈ a.collectTypeDependentConstraints R b, (∃ n, n ∈ f.2) ∧ f.2.isTop = false := by
  intro f hf
  have htop := (mem_collectTypeDependentConstraints.mp hf).isTop
  obtain ⟨n, hn, -⟩ := SplitDbm.exists_value_of_not_isTop (hsaves f hf) htop
  exact ⟨⟨n, hn⟩, htop⟩

theorem exists_putBack (hd : d.WF) (hsaves : SavesValues R a b) :
    ∃ e, putBack R c a b d = some e ∧ e.WF ∧
      e.vertMap.entries.length = (putBackKeys R c a b d).length ∧
      ∀ f ∈ a.collectTypeDependentConstraints R b, ¬ RuledOut R c.types f.1 → e.HasBound f.1 := by
  obtain ⟨k, hk, hwfk, hhask, hboundk⟩ := exists_setAll hd (exists_of_savesValues hsaves)
  obtain ⟨e, he, hwf, hhas, hbound⟩ :=
    AddBottom.exists_havocs (c.getNonexistentKindVariables R) hwfk
  refine ⟨e, ?_, hwf, ?_, fun f hf hno => ?_⟩
  · unfold putBack
    rw [hk, he]
  · have hperm : e.vertMap.keys.Perm (putBackKeys R c a b d) := by
      refine (List.perm_ext_iff_of_nodup e.vertMap.nodup_keys (List.nodup_dedup _)).mpr fun u => ?_
      rw [OrdMap.mem_keys, List.mem_dedup, List.mem_filter, List.mem_append, OrdMap.mem_keys]
      refine (hhas u).trans ?_
      rw [hhask u]
      simp [SplitDbm.Has]
    simpa [OrdMap.keys] using hperm.length_eq
  · exact hbound f.1 (fun h => hno (mem_getNonexistentKindVariables.mp h))
      (hboundk f.1 (Or.inr (List.mem_map_of_mem (f := Prod.fst) hf)))

/-- What the values with the saved intervals put back admit. -/
theorem models_putBack (hd : d.WF) (hσ : d.Models σ) (hsaves : SavesValues R a b)
    (h : ∀ v i, Saved R a b v i → σ v ∈ i ∨ RuledOut R c.types v) :
    (putBack R c a b d).Models σ := by
  have hwf : (setAll (some d) (a.collectTypeDependentConstraints R b)).WF := by
    obtain ⟨k, hk, hwfk, -⟩ := exists_setAll hd (exists_of_savesValues hsaves)
    rw [hk]
    exact AddBottom.wf_some.mpr hwfk
  obtain ⟨c', hagree, hc'⟩ := exists_models_setAll (AddBottom.wf_some.mpr hd)
    (AddBottom.models_some.mpr hσ) hsaves h
  exact AddBottom.models_havocs hwf hc' fun u hu =>
    (hagree u fun hr => hu (mem_getNonexistentKindVariables.mpr hr)).symm

theorem loopFree_putBack (hd : d.WF) (hl : GraphOps.LoopFree d.g) (hσ : d.Models σ)
    (hsaves : SavesValues R a b) (he : putBack R c a b d = some e) : GraphOps.LoopFree e.g := by
  obtain ⟨k, hk, hwfk, -⟩ := exists_setAll hd (exists_of_savesValues hsaves)
  obtain ⟨c', -, hc'⟩ := exists_models_setAll (Q := fun _ => True) (AddBottom.wf_some.mpr hd)
    (AddBottom.models_some.mpr hσ) hsaves fun _ _ _ => Or.inr trivial
  unfold putBack at he
  rw [hk] at he hc'
  exact AddBottom.loopFree_havocs hwfk
    (loopFree_setAll hd hl hσ (fun f hf => (exists_of_savesValues hsaves f hf).1) hk)
    (AddBottom.models_some.mp hc') he

/-- Values are below a zone that covers them, with the intervals put back that are their own or
belong to types that the state does not have, if this has no more variables. -/
theorem le_putBack (hc : c.values = some z) (hz : z.WF) (hcz : z.Closed) (hd : d.WF)
    (hl : GraphOps.LoopFree d.g) (hincl : ∀ σ, z.Models σ → d.Models σ)
    (hsaves : SavesValues R a b)
    (hsaved : ∀ v i, Saved R a b v i →
      i = c.values.evalInterval (.var v) ∨ RuledOut R c.types v)
    (hcount : (putBackKeys R c a b d).length ≤ z.vertMap.entries.length) :
    c.values.le (putBack R c a b d) = true := by
  obtain ⟨ρ, hρ⟩ := hcz.normalForm.models
  obtain ⟨e, he, hwf, hlen, -⟩ := exists_putBack (c := c) hd hsaves
  have hmodels : ∀ σ, z.Models σ → e.Models σ := fun σ hσ => by
    have h := models_putBack (c := c) hd (hincl σ hσ) hsaves fun v i hs =>
      (hsaved v i hs).imp_left fun heq => by
        have hmem := SplitDbm.mem_evalInterval hσ (.var v)
        rw [LinearExpression.eval_var] at hmem
        rw [heq, hc]
        exact hmem
    rwa [he, AddBottom.models_some] at h
  rw [he, hc]
  exact SplitDbm.le_of_included hz hwf hcz.normalForm
    (loopFree_putBack hd hl (hincl ρ hρ) hsaves he) hmodels (hlen ▸ hcount)

/-- Values are below a zone without constraints when nothing stays that is put back. -/
theorem le_putBack_of_isTop (hd : d.WF) (htop : d.isTop = true) (hl : GraphOps.LoopFree d.g)
    (hsaves : SavesValues R a b) (hruled : ∀ v i, Saved R a b v i → RuledOut R c.types v) :
    c.values.le (putBack R c a b d) = true := by
  obtain ⟨e, he, hwf, -⟩ := exists_putBack (c := c) hd hsaves
  have hmodels : ∀ σ, e.Models σ := fun σ => by
    have h := models_putBack (c := c) hd (SplitDbm.models_of_isTop htop hd σ) hsaves
      fun v i hs => Or.inr (hruled v i hs)
    rwa [he, AddBottom.models_some] at h
  have hloop := loopFree_putBack hd hl (SplitDbm.models_of_isTop htop hd fun _ => 0) hsaves he
  rw [he]
  cases c.values with
  | none => rfl
  | some z => exact SplitDbm.le_of_isTop (SplitDbm.isTop_of_forall_models hwf hloop hmodels)

theorem le_of_isBottom (h : a.isBottom = true) : a.le R b = true := by
  unfold le
  rw [if_pos h]

/-- To be below a state is to be below its types and below its values. -/
theorem le_of_values (htypes : a.types.le b.types = true)
    (hvalues : a.values.le ((a.getNonexistentKindVariables R).foldl AddBottom.havoc b.values) = true) :
    a.le R b = true := by
  cases hna : a.isBottom with
  | true => exact le_of_isBottom hna
  | false =>
    have hnone : ∀ vars : List V, vars.foldl AddBottom.havoc none = none := by
      intro vars
      induction vars with
      | nil => rfl
      | cons v vars ih => exact ih
    have hnb : b.isBottom = false := by
      cases hb : b.values with
      | some w => exact congrArg AddBottom.isBottom hb
      | none =>
        obtain ⟨z, hz⟩ := Option.isSome_iff_exists.mp (Option.isNone_eq_false_iff.mp hna)
        rw [hb, hnone, hz] at hvalues
        cases hvalues
    unfold le
    rw [hna, hnb, htypes]
    exact hvalues

theorem exists_values (hna : a.isBottom = false) : ∃ z, a.values = some z :=
  Option.isSome_iff_exists.mp (Option.isNone_eq_false_iff.mp hna)

/-- The zones of the pair are closed. -/
structure Closed (d : TypeToNumDomain V) : Prop where
  types : d.types.inv.Closed
  values : d.values.Closed

/-- No normalisation is pending in the values, or they are closed. -/
def Normalized (d : TypeToNumDomain V) : Prop := ∀ z ∈ d.values, z.unstable = [] ∨ z.Closed

theorem le_self (ha : a.WF) (hs : a.Normalized) : a.le R a = true := by
  refine le_of_values (AddBottom.le_self ha.types) ?_
  cases hna : a.isBottom with
  | true =>
    rw [AddBottom.isBottom_iff.mp hna]
    rfl
  | false =>
    obtain ⟨z, hz⟩ := exists_values hna
    have hwf := ha.values z hz
    have hle := (hs z hz).elim
      (AddBottom.le_havocs_of_idle (a.getNonexistentKindVariables R) hwf)
      (AddBottom.le_havocs_of_closed (a.getNonexistentKindVariables R) hwf)
    rwa [← hz] at hle

/-- A zone without constraints has no interval to put back. -/
theorem ruledOut_of_isTop (hz : c.values = some z) (htop : z.isTop = true)
    (h : i = c.values.evalInterval (.var v) ∨ RuledOut R c.types v) (hi : i.isTop = false) :
    RuledOut R c.types v := by
  refine h.resolve_left fun heq => ?_
  have htop' : c.values.evalInterval (.var v) = .top := by
    rw [hz]
    exact SplitDbm.evalInterval_of_isTop htop v
  rw [heq, htop'] at hi
  cases hi

/-- When the values of one state say nothing, those of the other have a variable for each variable of
the result: for each that is there, without constraints, and each that is put back. -/
def Roomy (R : VariableRegistry V) (c o : TypeToNumDomain V) : Prop :=
  ∀ z ∈ c.values, ∀ w ∈ o.values, w.isTop = true →
    (∃ f ∈ c.collectTypeDependentConstraints R o, ¬ RuledOut R c.types f.1) →
    (putBackKeys R c c o w).length ≤ z.vertMap.entries.length

/-- The variables of values that cover a zone are its own, with those that are put back. -/
theorem length_putBackKeys_le (hc : c.values = some z) (hhas : ∀ u, d.Has u → z.Has u)
    (hsaved : ∀ v i, Saved R a b v i →
      i = c.values.evalInterval (.var v) ∨ RuledOut R c.types v) :
    (putBackKeys R c a b d).length ≤ z.vertMap.entries.length := by
  have hsub : putBackKeys R c a b d ⊆ z.vertMap.keys := by
    intro u hu
    obtain ⟨hu, hnot⟩ := List.mem_filter.mp (List.mem_dedup.mp hu)
    have hnot : ¬ RuledOut R c.types u := fun h => by
      simp [mem_getNonexistentKindVariables.mpr h] at hnot
    refine OrdMap.mem_keys.mpr ?_
    rcases List.mem_append.mp hu with hu | hu
    · exact hhas u (OrdMap.mem_keys.mp hu)
    · obtain ⟨⟨v, i⟩, hmem, rfl⟩ := List.mem_map.mp hu
      have hs := mem_collectTypeDependentConstraints.mp hmem
      have htop := hs.isTop
      rw [(hsaved v i hs).resolve_right hnot, hc] at htop
      exact SplitDbm.has_of_evalInterval htop
  have hkeys : z.vertMap.keys.length = z.vertMap.entries.length := List.length_map _
  rw [← hkeys]
  exact (List.subperm_of_subset (List.nodup_dedup _) hsub).length_le

/-- The values of a state are below their join with those of another, with intervals put back. -/
theorem le_putBack_join {j : SplitDbm V} (hc : c.WF) (ho : o.WF) (hcc : c.Closed) (hco : o.Closed)
    (hz : c.values = some z) (hw : o.values = some w) (hj : j = z.join w ∨ j = w.join z)
    (hsaves : SavesValues R c o) (hroom : Roomy R c o) : c.values.le (putBack R c c o j) = true := by
  have hzw := hc.values z hz
  have hww := ho.values w hw
  have hcz := hcc.values z hz
  have hcw := hco.values w hw
  have hsaved : ∀ v i, Saved R c o v i → i = c.values.evalInterval (.var v) ∨ RuledOut R c.types v :=
    fun v i hs => hs.eq_left
  cases htz : z.isTop with
  | true =>
    -- the join is one of the operands, and has no constraint
    have hjw : j.WF ∧ j.isTop = true ∧ GraphOps.LoopFree j.g := by
      cases htw : w.isTop with
      | true =>
        rcases hj with rfl | rfl
        · rw [SplitDbm.join_of_isTop_right htw]
          exact ⟨hww, htw, hcw.loopFree⟩
        · rw [SplitDbm.join_of_isTop_right htz]
          exact ⟨hzw, htz, hcz.loopFree⟩
      | false =>
        rcases hj with rfl | rfl
        · rw [SplitDbm.join_of_isTop_left htz htw]
          exact ⟨hzw, htz, hcz.loopFree⟩
        · rw [SplitDbm.join_of_isTop_right htz]
          exact ⟨hzw, htz, hcz.loopFree⟩
    exact le_putBack_of_isTop hjw.1 hjw.2.1 hjw.2.2 hsaves fun v i hs =>
      ruledOut_of_isTop hz htz (hsaved v i hs) hs.isTop
  | false =>
    cases htw : w.isTop with
    | true =>
      have hjw : j = w := by
        rcases hj with rfl | rfl
        · exact SplitDbm.join_of_isTop_right htw
        · exact SplitDbm.join_of_isTop_left htw htz
      subst hjw
      by_cases hput : ∃ f ∈ c.collectTypeDependentConstraints R o, ¬ RuledOut R c.types f.1
      · exact le_putBack hz hzw hcz hww hcw.loopFree (fun σ _ => SplitDbm.models_of_isTop htw hww σ)
          hsaves hsaved (hroom z hz j hw htw hput)
      · refine le_putBack_of_isTop hww htw hcw.loopFree hsaves fun v i hs => ?_
        by_contra hno
        exact hput ⟨(v, i), mem_collectTypeDependentConstraints.mpr hs, hno⟩
    | false =>
      have hj' : j.WF ∧ GraphOps.LoopFree j.g ∧ (∀ σ, z.Models σ → j.Models σ) ∧
          ∀ u, j.Has u → z.Has u := by
        rcases hj with rfl | rfl
        · exact ⟨(SplitDbm.join_spec hzw hww).1, hcz.loopFree_join hcw hzw hww,
            fun _ h => SplitDbm.models_join hzw hww (Or.inl h), fun _ h => (h.of_join hzw htz htw).1⟩
        · exact ⟨(SplitDbm.join_spec hww hzw).1, hcw.loopFree_join hcz hww hzw,
            fun _ h => SplitDbm.models_join hww hzw (Or.inr h), fun _ h => (h.of_join hww htw htz).2⟩
      exact le_putBack hz hzw hcz hj'.1 hj'.2.1 hj'.2.2.1 hsaves hsaved
        (length_putBackKeys_le hz hj'.2.2.2 hsaved)

/-- The intervals of states that are not empty are not empty. -/
theorem savesValues_of_closed (ha : a.Closed) (hb : b.Closed) (hna : a.isBottom = false)
    (hnb : b.isBottom = false) : SavesValues R a b := by
  have hne : ∀ {d : TypeToNumDomain V}, d.Closed → d.isBottom = false → ∀ v,
      (d.values.evalInterval (.var v)).isBottom = false := by
    intro d hd hnd v
    obtain ⟨z, hz⟩ := exists_values hnd
    obtain ⟨σ, hσ⟩ := (hd.values z hz).normalForm.models
    rw [hz]
    exact Interval.isBottom_eq_false_of_mem (SplitDbm.mem_evalInterval hσ (.var v))
  rintro ⟨v, i⟩ he
  obtain ⟨u, hu, e, he, -, kind, hkind, rfl, rfl, -⟩ := mem_collectTypeDependentConstraints.mp he
  show Interval.isBottom ((if _ then _ else _ : AddBottom V).evalInterval _) = false
  split_ifs
  · exact hne ha hna _
  · exact hne hb hnb _

/-- Both operands are below their join. -/
theorem le_joined (ha : a.WF) (hb : b.WF) (hca : a.Closed) (hcb : b.Closed)
    (hna : a.isBottom = false) (hnb : b.isBottom = false) (hroom : Roomy R a b)
    (hroom' : Roomy R b a) :
    a.le R (joined R a b) = true ∧ b.le R (joined R a b) = true := by
  obtain ⟨z, hz⟩ := exists_values hna
  obtain ⟨w, hw⟩ := exists_values hnb
  obtain ⟨hta, htb⟩ := AddBottom.le_join ha.types hb.types hca.types hcb.types
  have hjoin : a.values.join b.values = some (z.join w) := by
    rw [hz, hw]
    rfl
  constructor
  · refine le_of_values hta ?_
    have hle := le_putBack_join (R := R) ha hb hca hcb hz hw (Or.inl rfl)
      (savesValues_of_closed hca hcb hna hnb) hroom
    unfold joined
    rwa [hjoin]
  · refine le_of_values htb ?_
    have hle := le_putBack_join (R := R) hb ha hcb hca hw hz (Or.inr rfl)
      (savesValues_of_closed hcb hca hnb hna) hroom'
    unfold putBack at hle
    unfold joined
    rwa [hjoin, collectTypeDependentConstraints_comm]

/-- The right operand of a widening is below it unless an empty interval is put back. -/
theorem le_widen_right (ha : a.WF) (hb : b.WF) (hca : a.Closed) (hcb : b.Closed)
    (hsaves : SavesValues R a b) : b.le R (a.widen R b) = true := by
  cases hnb : b.isBottom with
  | true => exact le_of_isBottom hnb
  | false =>
    obtain ⟨w, hw⟩ := exists_values hnb
    have hww := hb.values w hw
    have hcw := hcb.values w hw
    have hsaved : ∀ v i, Saved R a b v i → i = b.values.evalInterval (.var v) ∨
        RuledOut R b.types v := fun v i hs => hs.eq_right
    refine le_of_values (AddBottom.le_widen_right ha.types hb.types hca.types hcb.types) ?_
    unfold widen
    cases hna : a.isBottom with
    | true =>
      have hle := le_putBack hw hww hcw hww hcw.loopFree (fun _ h => h) hsaves hsaved
        (length_putBackKeys_le hw (fun _ h => h) hsaved)
      rwa [show a.values.widen b.values = some w by rw [AddBottom.isBottom_iff.mp hna, hw]; rfl]
    | false =>
      obtain ⟨z, hz⟩ := exists_values hna
      have hzw := ha.values z hz
      have hle := le_putBack hw hww hcw (SplitDbm.widen_spec hzw w).1
        ((hca.values z hz).loopFree_widen hzw hww)
        (fun _ h => SplitDbm.models_widen_of_models hzw hww (Or.inr h)) hsaves hsaved
        (length_putBackKeys_le hw (fun _ h => h.of_widen.2) hsaved)
      rwa [show a.values.widen b.values = some (z.widen w) by rw [hz, hw]; rfl]

end TypeToNumDomain

namespace EbpfDomain

variable {V : Type*} [LinearOrder V] {R : VariableRegistry V} {a b : EbpfDomain V}

theorem le_iff : a.le R b = true ↔ a.stack.le b.stack = true ∧ a.rcp.le R b.rcp = true := by
  unfold le
  cases a.stack.le b.stack <;> simp

theorem le_self (ha : a.rcp.WF) (hs : a.rcp.Normalized) : a.le R a = true :=
  le_iff.mpr ⟨BitsetDomain.le_refl _, TypeToNumDomain.le_self ha hs⟩

/-- The join of two states that are not bottom. -/
theorem join_eq_of_not_isBottom (hna : a.isBottom = false) (hnb : b.isBottom = false) :
    a.join R b = ⟨TypeToNumDomain.joined R b.rcp a.rcp, b.stack.join a.stack⟩ := by
  have hjoin := TypeToNumDomain.join_eq R b.rcp a.rcp
  unfold isBottom at hna hnb
  simp only [hna, hnb, Bool.false_eq_true, if_false] at hjoin
  unfold join joinAssign isBottom
  simp only [hna, hnb, Bool.false_eq_true, if_false]
  rw [hjoin]

/-- Below a join with room for its variables are both operands. -/
theorem le_join (ha : a.rcp.WF) (hb : b.rcp.WF) (hca : a.rcp.Closed) (hcb : b.rcp.Closed)
    (hna : a.isBottom = false) (hnb : b.isBottom = false)
    (hroom : TypeToNumDomain.Roomy R a.rcp b.rcp) (hroom' : TypeToNumDomain.Roomy R b.rcp a.rcp) :
    a.le R (a.join R b) = true ∧ b.le R (a.join R b) = true := by
  obtain ⟨hbj, haj⟩ := TypeToNumDomain.le_joined hb ha hcb hca hnb hna hroom' hroom
  rw [join_eq_of_not_isBottom hna hnb]
  exact ⟨le_iff.mpr ⟨BitsetDomain.le_join_right _ _, haj⟩,
    le_iff.mpr ⟨BitsetDomain.le_join_left _ _, hbj⟩⟩

/-- The bits of the stack are those of bottom where it matters; no empty interval is put back; and
the count of the variables is right where the values of one state say nothing. -/
structure Lawful (R : VariableRegistry V) (a b : EbpfDomain V) : Prop where
  stack : a.stack = .top
  bottom : b.isBottom = false → a.isBottom = true → b.stack = .top
  saves : b.isBottom = false → TypeToNumDomain.SavesValues R a.rcp b.rcp
  roomy : b.isBottom = false → a.isBottom = false →
    TypeToNumDomain.Roomy R a.rcp b.rcp ∧ TypeToNumDomain.Roomy R b.rcp a.rcp

end EbpfDomain

end Prevail
