import Prevail.Cfg.WtoBuild
import Prevail.Ir.FirstPass

/-!
# The weak topological order is valid

`Wto.exists_valid`: the construction ends, and its order has every label that is reachable from the
entry once and no other, edges lead forward or to the head of a component around their source, and
`nesting` returns the heads around a label. `num_le` bounds the depth-first numbers of every state
of the run.
-/

namespace Prevail

/-! ## The whole run -/

theorem Wto.nestings_prepend {w : Wto} {c : Option Label} {P : WtoPartition} :
    (w.prepend c P).nestings = w.nestings := by
  unfold prepend
  split
  · rfl
  · split <;> rfl

theorem Cfg.Reachable.mem_labels {g : Cfg} {x : Label} (h : g.Reachable x) (hg : g.Closed) :
    x ∈ g.labels := by
  induction h with
  | refl => exact hg.entry
  | tail _ hstep ih => exact hg.succ _ ih _ hstep

namespace WtoBuilder

variable {g : Cfg} {b b' : WtoBuilder} {v : Label}

theorem data_start (g : Cfg) (v : Label) : (start g).data v = ⟨0, 0⟩ := by
  have key : ∀ (ls : List Label) (m : OrdMap Label WtoVertexData), (m.find? v).getD ⟨0, 0⟩ = ⟨0, 0⟩ →
      ((ls.foldl (fun m l => m.emplace l ⟨0, 0⟩) m).find? v).getD ⟨0, 0⟩ = ⟨0, 0⟩ := by
    intro ls
    induction ls with
    | nil => exact fun m hm => hm
    | cons l ls ih =>
      intro m hm
      refine ih _ ?_
      rw [OrdMap.find?_emplace]
      split_ifs with hv
      · subst hv
        cases hfind : m.find? v with
        | none => rfl
        | some d =>
          rw [hfind] at hm
          exact hm
      · exact hm
  exact key g.labels ∅ rfl

theorem not_seen_start : ¬ (start g).Seen v := by
  unfold Seen dfn
  rw [data_start]
  exact fun h => h rfl

theorem inv_start : Inv g (start g) where
  label v hv := absurd hv not_seen_start
  mem_stack v := by
    constructor
    · intro h
      cases h
    · exact fun h => absurd h.1 not_seen_start
  sorted := .nil
  le_num v hv := by cases hv
  head_new v _ := by
    unfold headDfn
    rw [data_start]
  completed v hv := by cases hv
  unplaced _ _ := ⟨rfl, rfl⟩

theorem budget_start : (start g).budget g ≤ (g.labels.length + 1) * g.labels.length +
    g.labels.length := by
  have hopen : (openLabels g (start g)).card ≤ g.labels.length :=
    (Finset.card_filter_le _ _).trans (List.toFinset_card_le _)
  have hnew : (newLabels g (start g)).card ≤ g.labels.length := card_newLabels_le_length
  have hmul := Nat.mul_le_mul_left (g.labels.length + 1) hopen
  unfold budget
  show 0 + _ + _ ≤ _
  omega

/-- The run from the entry, and the order it builds. -/
theorem exists_run (hg : g.Closed) : ∃ b P, Runs g (start g) b ∧ b.visitStack = [] ∧
    b.wto.components = P ∧ Inv g b ∧ Batch g (start g) none [.entry] b [] P := by
  have hopen : Open (start g) none := by
    intro h hh
    cases hh
  obtain ⟨b, A, P, hruns, hvs, hb, h⟩ := finishesBelow hg _ (start g) none [.entry] []
    (Nat.lt_succ_self _) inv_start hopen
    (fun t ht => (List.mem_singleton.mp ht).symm ▸ hg.entry) rfl
  have hA : A = [] := by
    by_contra hA
    obtain ⟨x, -, z, hz, -⟩ := hb.exists_cross h.stack hA fun a ha => (h.completed a ha).2
    cases hz
  subst hA
  refine ⟨b, P, hruns, hvs, ?_, hb, h⟩
  rw [h.components, Wto.components_prepend, if_pos rfl]
  exact WeakOrder.append_nil P

theorem scheduleSuccessors_num {succs : List Label} {c c' : Option Label} :
    (b.scheduleSuccessors succs c c').num = b.num := by
  induction succs with
  | nil => rfl
  | cons y succs ih =>
    unfold scheduleSuccessors at ih ⊢
    rw [List.foldr_cons]
    split_ifs
    · exact ih
    · exact ih

theorem scheduleSuccessors_wto {succs : List Label} {c c' : Option Label} :
    (b.scheduleSuccessors succs c c').wto = b.wto := by
  induction succs with
  | nil => rfl
  | cons y succs ih =>
    unfold scheduleSuccessors at ih ⊢
    rw [List.foldr_cons]
    split_ifs
    · exact ih
    · exact ih

/-- The numbers only grow, and no nesting is computed. -/
theorem Step.num_le (h : Step g b b') : b.num ≤ b'.num ∧ b'.wto.nestings = b.wto.nestings := by
  obtain ⟨⟨type, t, p, c⟩, rest, -, htask⟩ := h
  cases type with
  | pushSuccessors =>
    unfold task pushSuccessors at htask
    dsimp only at htask
    split_ifs at htask with h0
    · rw [← Except.ok.inj htask]
      exact ⟨le_rfl, rfl⟩
    · obtain ⟨ls, -, hls⟩ := Except.bind_eq_ok.mp htask
      rw [← Except.ok.inj hls, scheduleSuccessors_num, scheduleSuccessors_wto]
      exact ⟨Nat.le_succ _, rfl⟩
  | startVisit =>
    unfold task startVisit at htask
    obtain ⟨ls, -, htask⟩ := Except.bind_eq_ok.mp htask
    dsimp only at htask
    split_ifs at htask
    · rw [← Except.ok.inj htask]
      unfold openCycle
      rw [scheduleSuccessors_num, scheduleSuccessors_wto]
      exact ⟨le_rfl, rfl⟩
    · rw [← Except.ok.inj htask]
      exact ⟨le_rfl, Wto.nestings_prepend⟩
    · rw [← Except.ok.inj htask]
      exact ⟨le_rfl, rfl⟩
  | continueVisit =>
    rw [← Except.ok.inj htask]
    exact ⟨le_rfl, Wto.nestings_prepend.trans Wto.nestings_prepend⟩

theorem Step.unique {b₁ b₂ : WtoBuilder} (h₁ : Step g b b₁) (h₂ : Step g b b₂) : b₁ = b₂ := by
  obtain ⟨t, rest, hvs, htask⟩ := h₁
  obtain ⟨t', rest', hvs', htask'⟩ := h₂
  obtain ⟨rfl, rfl⟩ := List.cons_eq_cons.mp (hvs.symm.trans hvs')
  exact Except.ok.inj (htask.symm.trans htask')

/-- The depth-first numbers of every state of the run are bounded by the size of the graph. -/
theorem num_le (hg : g.Closed) (h : Runs g (start g) b) :
    b.num ≤ (g.labels.length + 1) * g.labels.length + g.labels.length := by
  obtain ⟨b', P, hruns, hend, -, -, hbatch⟩ := exists_run hg
  have hle : b'.num ≤ (start g).budget g := by
    have := hbatch.budget
    unfold budget at this ⊢
    omega
  have hto : Runs g b b' := by
    have hunique : Relator.RightUnique (Step g) := fun _ _ _ h₁ h₂ => h₁.unique h₂
    rcases Relation.ReflTransGen.total_of_right_unique hunique h hruns with hto | hfrom
    · exact hto
    · rcases Relation.ReflTransGen.cases_head hfrom with rfl | ⟨_, ⟨t, rest, hvs, -⟩, -⟩
      · exact .refl
      · rw [hend] at hvs
        cases hvs
  have hmono : b.num ≤ b'.num := by
    clear hle h hruns hend hbatch
    induction hto with
    | refl => exact le_rfl
    | tail _ hstep ih => exact ih.trans hstep.num_le.1
  exact hmono.trans (hle.trans budget_start)

end WtoBuilder

/-! ## Nesting -/

namespace Wto

variable {g : Cfg} {w w' : Wto} {c : Option Label} {P : WtoPartition} {l h : Label}
  {hs : List Label}

/-- The heads around a partition, the innermost first. -/
inductive Around (w : Wto) : Option Label → List Label → Prop
  | top : Around w none []
  | inside {h : Label} {c : Option Label} {body : WtoPartition} {hs : List Label}
      (hh : w.containingCycle.find? h = some (some h))
      (hcycle : w.cycles.find? h = some ⟨.vertex h body, c⟩) (hc : Around w c hs) :
      Around w (some h) (h :: hs)

theorem lock_some : w.lock (some h) = w.cycles.find? h := rfl

/-- The head of a label that is not the head of a cycle. -/
theorem head_of_ne (hl : w.containingCycle.find? l = some c) (hc : Around w c hs) (hne : l ∉ hs) :
    w.head l = .ok hs.head? := by
  unfold head
  rw [hl, Option.bind_some]
  cases hc with
  | top => rfl
  | @inside h c body hs hh hcycle hc =>
    have hhl : h ≠ l := fun hhl => hne (hhl ▸ List.mem_cons_self)
    rw [lock_some, hcycle]
    exact if_pos hhl

/-- The head of a head is the one around its cycle. -/
theorem head_of_head {body : WtoPartition} (hh : w.containingCycle.find? h = some (some h))
    (hcycle : w.cycles.find? h = some ⟨.vertex h body, c⟩) (hc : Around w c hs) :
    w.head h = .ok hs.head? := by
  unfold head
  rw [hh, Option.bind_some, lock_some, hcycle]
  refine (if_neg (not_not.mpr rfl)).trans ?_
  cases hc with
  | top => rfl
  | inside hh' hcycle' hc' =>
    dsimp only
    rw [lock_some, hcycle']
    rfl

theorem collectHeads_of_around (hc : Around w c hs) (hl : w.head l = .ok hs.head?) {fuel : ℕ}
    (hfuel : hs.length < fuel) : w.collectHeads fuel l = .ok hs := by
  induction hc generalizing l fuel with
  | top =>
    obtain ⟨fuel, rfl⟩ := Nat.exists_eq_add_of_le' (Nat.one_le_of_lt hfuel)
    unfold collectHeads
    rw [hl]
    rfl
  | @inside h c body hs hh hcycle hc ih =>
    obtain ⟨fuel, rfl⟩ := Nat.exists_eq_add_of_le' (Nat.one_le_of_lt hfuel)
    unfold collectHeads
    rw [hl]
    show (do let hs ← w.collectHeads fuel h; return h :: hs) = _
    rw [ih (head_of_head hh hcycle hc) (Nat.lt_of_succ_lt_succ hfuel)]
    rfl

theorem collectHeads_mono {fuel fuel' : ℕ} (hl : w.collectHeads fuel l = .ok hs)
    (hle : fuel ≤ fuel') : w.collectHeads fuel' l = .ok hs := by
  induction fuel generalizing l hs fuel' with
  | zero => cases hl
  | succ fuel ih =>
    obtain ⟨fuel', rfl⟩ := Nat.exists_eq_add_of_le' (Nat.one_le_of_lt (Nat.lt_of_succ_le hle))
    unfold collectHeads at hl ⊢
    obtain ⟨next, hnext, hl⟩ := Except.bind_eq_ok.mp hl
    rw [hnext]
    cases next with
    | none => exact hl
    | some h =>
      obtain ⟨rest, hrest, hl⟩ := Except.bind_eq_ok.mp hl
      show (do let hs ← w.collectHeads fuel' h; return h :: hs) = _
      rw [ih hrest (Nat.le_of_succ_le_succ hle)]
      exact hl

/-- The heads around a label of a partition: those inside it, and those around it. -/
theorem Placed.exists_around (hP : Placed w c P) (hc : Around w c hs) (hn : P.vertices.Nodup)
    (hl : l ∈ P.vertices) (hne : ∀ h ∈ hs, h ∉ P.vertices) :
    ∃ c', Around w c' (P.nesting l ++ hs) ∧ w.head l = .ok (P.nesting l ++ hs).head? := by
  induction hP generalizing hs with
  | nil => cases hl
  | @vertex c a rest ha _ ih =>
    obtain ⟨hnot, hn⟩ := List.nodup_cons.mp hn
    rcases List.mem_cons.mp hl with rfl | hl
    · have hnil : (WeakOrder.vertex l rest).nesting l = [] := by
        unfold WeakOrder.nesting
        rw [WeakOrder.heads_vertex, WeakOrder.heads_eq_nil hnot]
        rfl
      rw [hnil]
      exact ⟨c, hc, head_of_ne ha hc fun hl => hne l hl List.mem_cons_self⟩
    · exact ih hc hn hl fun h hh hmem => hne h hh (List.mem_cons_of_mem _ hmem)
  | @component c h body rest hh hcycle _ _ ihb ih =>
    rw [WeakOrder.vertices_component] at hn
    obtain ⟨hbody, hrest, hdisj⟩ := List.nodup_append'.mp hn
    obtain ⟨hnot, hbody'⟩ := List.nodup_cons.mp hbody
    rcases List.mem_append.mp hl with hl | hl
    · have hlr : l ∉ rest.vertices := fun hlr => hdisj hl hlr
      have hheads : (WeakOrder.component (.vertex h body) rest).heads l = h :: body.heads l := by
        rw [WeakOrder.heads_component, if_pos hl, WeakOrder.heads_eq_nil hlr, List.append_nil]
        rfl
      rcases List.mem_cons.mp hl with rfl | hl
      · have hnil : (WeakOrder.component (.vertex l body) rest).nesting l = [] := by
          unfold WeakOrder.nesting
          rw [hheads, WeakOrder.heads_eq_nil hnot]
          simp
        rw [hnil]
        exact ⟨c, hc, head_of_head hh hcycle hc⟩
      · have hhl : h ≠ l := fun hhl => hnot (hhl ▸ hl)
        have hcons : (WeakOrder.component (.vertex h body) rest).nesting l ++ hs =
            body.nesting l ++ h :: hs := by
          unfold WeakOrder.nesting
          rw [hheads, List.filter_cons_of_pos (by simpa using hhl), List.reverse_cons,
            List.append_assoc, List.singleton_append]
        rw [hcons]
        refine ihb (.inside hh hcycle hc) hbody' hl fun k hk hmem => ?_
        rcases List.mem_cons.mp hk with rfl | hk
        · exact hnot hmem
        · exact hne k hk (List.mem_append_left _ (List.mem_cons_of_mem _ hmem))
    · have hlb : l ∉ (WeakOrder.vertex h body).vertices := fun hlb => hdisj hlb hl
      have hnest : (WeakOrder.component (.vertex h body) rest).nesting l = rest.nesting l := by
        unfold WeakOrder.nesting
        rw [WeakOrder.heads_component, if_neg hlb, WeakOrder.heads_eq_nil hlb]
        rfl
      rw [hnest]
      exact ih hc hrest hl fun k hk hmem => hne k hk (List.mem_append_right _ hmem)

theorem Placed.headed (hP : Placed w c P) : P.Headed := by
  induction hP with
  | nil => trivial
  | vertex _ _ ih => exact ih
  | component _ _ _ _ ihb ih => exact ⟨rfl, ihb, ih⟩

/-! ## The table of nestings -/

/-- `w` after some questions for nestings. -/
inductive Queried (w : Wto) : Wto → Prop
  | start : Queried w w
  | query {w' w'' : Wto} {fuel : ℕ} {l : Label} {hs : List Label} (h : Queried w w')
      (hl : w'.nesting fuel l = .ok (hs, w'')) : Queried w w''

/-- What the table holds has been collected. -/
structure Tabled (w w' : Wto) : Prop where
  cycles : w'.cycles = w.cycles
  containing : w'.containingCycle = w.containingCycle
  table : ∀ l hs, w'.nestings.find? l = some hs → ∃ fuel, w.collectHeads fuel l = .ok hs

theorem collectHeads_congr (hcycles : w'.cycles = w.cycles)
    (hcontaining : w'.containingCycle = w.containingCycle) (fuel : ℕ) (l : Label) :
    w'.collectHeads fuel l = w.collectHeads fuel l := by
  have hhead : w'.head = w.head := by
    funext l
    unfold head lock
    rw [hcycles, hcontaining]
  induction fuel generalizing l with
  | zero => rfl
  | succ fuel ih =>
    unfold collectHeads
    rw [hhead]
    congr 1
    funext next
    cases next with
    | none => rfl
    | some h =>
      dsimp only
      rw [ih]

theorem Queried.tabled (hw : w.nestings = ∅) (h : Queried w w') : Tabled w w' := by
  induction h with
  | start =>
    refine ⟨rfl, rfl, fun l hs hl => ?_⟩
    rw [hw] at hl
    cases hl
  | @query w' w'' fuel l hs _ hl ih =>
    unfold nesting at hl
    cases hfind : w'.nestings.find? l with
    | some heads =>
      rw [hfind] at hl
      obtain ⟨-, rfl⟩ := Prod.mk.inj (Except.ok.inj hl)
      exact ih
    | none =>
      rw [hfind] at hl
      obtain ⟨heads, hheads, hl⟩ := Except.bind_eq_ok.mp hl
      obtain ⟨-, rfl⟩ := Prod.mk.inj (Except.ok.inj hl)
      refine ⟨ih.cycles, ih.containing, fun l' hs' hl' => ?_⟩
      rw [OrdMap.find?_emplace, hfind] at hl'
      split_ifs at hl' with heq
      · rw [heq, ← Option.some.inj hl']
        exact ⟨fuel, (collectHeads_congr ih.cycles ih.containing fuel l).symm.trans hheads⟩
      · exact ih.table l' hs' hl'

/-- However often it has been asked before, the table answers with what is collected. -/
theorem Tabled.nesting_eq (h : Tabled w w') {n : ℕ} (hl : ∀ fuel, n ≤ fuel →
    w.collectHeads fuel l = .ok hs) {fuel : ℕ} (hfuel : n ≤ fuel) :
    ∃ w'', w'.nesting fuel l = .ok (hs, w'') := by
  unfold nesting
  cases hfind : w'.nestings.find? l with
  | some heads =>
    obtain ⟨m, hm⟩ := h.table l heads hfind
    have heq := (collectHeads_mono hm (Nat.le_max_left m n)).symm.trans
      (hl _ (Nat.le_max_right m n))
    exact ⟨w', by rw [Except.ok.inj heq]⟩
  | none =>
    rw [collectHeads_congr h.cycles h.containing, hl fuel hfuel]
    exact ⟨_, rfl⟩

/-! ## Validity -/

/-- `w` is a weak topological order of `g`. -/
structure Valid (g : Cfg) (w : Wto) : Prop where
  headed : w.components.Headed
  nodup : w.components.vertices.Nodup
  mem : ∀ l, l ∈ w.components.vertices ↔ g.Reachable l
  forward : ∀ u v, g.Reachable u → v ∈ g.succs u → w.components.Forward u v
  first : w.components.vertices.head? = some .entry
  looped : ∀ h ∈ w.components.allHeads, ∃ u, g.Reachable u ∧ h ∈ g.succs u
  nesting : ∀ w', Queried w w' → ∀ l, g.Reachable l → ∃ n, ∀ fuel, n ≤ fuel →
    ∃ w'', w'.nesting fuel l = .ok (w.components.nesting l, w'')

theorem valid_of_batch {b : WtoBuilder} (hb : WtoBuilder.Inv g b) (hnest : b.wto.nestings = ∅)
    (h : WtoBuilder.Batch g (.start g) none [.entry] b [] b.wto.components) : b.wto.Valid g := by
  have hseen : ∀ l, g.Reachable l → b.Seen l := by
    intro l hl
    induction hl with
    | refl => exact h.all _ (List.mem_singleton_self _)
    | tail _ hstep ih => exact h.closed _ WtoBuilder.not_seen_start ih _ hstep
  have hmem : ∀ l, l ∈ b.wto.components.vertices ↔ g.Reachable l := by
    intro l
    rw [h.mem]
    constructor
    · rintro ⟨hnew, hd⟩
      obtain ⟨t, ht, -, hpath⟩ := h.reach l hnew hd.seen
      obtain rfl := List.mem_singleton.mp ht
      exact Relation.ReflTransGen.mono (fun _ _ hxy => hxy.1) _ _ hpath
    · intro hl
      refine ⟨WtoBuilder.not_seen_start, by_contra fun hd => ?_⟩
      have hon := (hb.mem_stack l).mpr ⟨hseen l hl, hd⟩
      rw [h.stack] at hon
      cases hon
  refine ⟨h.placed.headed, h.nodup, hmem, fun u v hu huv => ?_, ?_, fun k hk => ?_,
    fun w' hw' l hl => ?_⟩
  · exact (h.forward u ((hmem u).mpr hu) v huv).resolve_left fun hd =>
      WtoBuilder.not_seen_start hd.seen
  · exact h.first .entry rfl WtoBuilder.not_seen_start rfl
  · obtain ⟨t, ht, u, ⟨-, hpath⟩, hu⟩ := h.looped k hk
    obtain rfl := List.mem_singleton.mp ht
    exact ⟨u, Relation.ReflTransGen.mono (fun _ _ hxy => hxy.1) _ _ hpath, hu⟩
  · obtain ⟨c, hc, hhead⟩ := h.placed.exists_around .top h.nodup ((hmem l).mpr hl) (by simp)
    rw [List.append_nil] at hc hhead
    exact ⟨_, fun fuel hfuel => (hw'.tabled hnest).nesting_eq
      (fun fuel hfuel => collectHeads_of_around hc hhead hfuel) hfuel⟩

/-- The construction ends with a weak topological order of the graph. The depth-first numbers have no
bound here. In the source they are of type `int`, which is enough for up to 46339 labels: in every state
on the way the number is at most `(n + 1) * n + n` for `n` labels (`WtoBuilder.num_le`). -/
theorem exists_valid (hg : g.Closed) :
    ∃ n w, (∀ fuel, n ≤ fuel → ofCfg fuel g = .ok w) ∧ w.Valid g := by
  obtain ⟨b, P, hruns, hend, rfl, hb, h⟩ := WtoBuilder.exists_run hg
  obtain ⟨n, hn⟩ := WtoBuilder.run_of_runs hruns hend
  have hnest : b.wto.nestings = ∅ := by
    clear hend hb h hn
    induction hruns with
    | refl => rfl
    | tail _ hstep ih => exact hstep.num_le.2.trans ih
  refine ⟨n, b.wto, fun fuel hfuel => ?_, valid_of_batch hb hnest h⟩
  unfold ofCfg
  rw [hn fuel hfuel]
  rfl

theorem ofCfg_mono {fuel fuel' : ℕ} (h : ofCfg fuel g = .ok w) (hle : fuel ≤ fuel') :
    ofCfg fuel' g = .ok w := by
  obtain ⟨b, hb, rfl⟩ := Except.map_eq_ok.mp h
  unfold ofCfg
  rw [WtoBuilder.run_mono hb hle]
  rfl

/-- The fuel does not matter. -/
theorem ofCfg_unique {fuel fuel' : ℕ} (h : ofCfg fuel g = .ok w) (h' : ofCfg fuel' g = .ok w') :
    w = w' :=
  Except.ok.inj ((ofCfg_mono h (Nat.le_max_left fuel fuel')).symm.trans
    (ofCfg_mono h' (Nat.le_max_right fuel fuel')))

theorem valid_of_ofCfg (hg : g.Closed) {fuel : ℕ} (h : ofCfg fuel g = .ok w) : w.Valid g := by
  obtain ⟨n, w', hn, hvalid⟩ := exists_valid hg
  rw [ofCfg_unique h (hn n le_rfl)]
  exact hvalid

end Wto

/-! ## Graphs that are built -/

namespace CfgBuilder

variable {O C : Type} {b : CfgBuilder O C}

theorem succs_cfg (x : Label) : b.cfg.succs x = b.succs x := rfl

theorem Consistent.closed (hb : b.Consistent) (he : b.Has .entry) : b.cfg.Closed where
  entry := mem_labels.mpr he
  succ x _ y hy := mem_labels.mpr (hb.target x y (mem_succs.mp hy))

theorem exists_of_cfgFromAdjacencyList {adjList : OrdMap Label (List Label)} {g : Cfg}
    (h : cfgFromAdjacencyList adjList = .ok g) :
    ∃ b : CfgBuilder Unit Unit, b.cfg = g ∧ b.Consistent ∧ b.Has .entry := by
  obtain ⟨b₁, hb₁, h⟩ := Except.bind_eq_ok.mp h
  obtain ⟨b₂, hb₂, h⟩ := Except.bind_eq_ok.mp h
  obtain rfl := Except.ok.inj h
  have h₁ : b₁.Consistent ∧ b₁.Has .entry := by
    refine Except.foldlM_induction (fun _ b => b.Consistent ∧ b.Has .entry) hb₁
      ⟨inserted_init.consistent, ⟨_, rfl⟩⟩ fun done l b b' _ hb hl => ?_
    split_ifs at hl
    · rwa [← Except.ok.inj hl]
    · obtain ⟨-, hadd, -⟩ := insert_spec hl hb.1
      exact ⟨hadd.consistent hb.1, (hadd.has _).mpr (Or.inl hb.2)⟩
  have h₂ : b₂.Consistent ∧ b₂.Has .entry := by
    refine Except.foldlM_induction (fun _ b => b.Consistent ∧ b.Has .entry) hb₂ h₁
      fun done e b b' _ hb he => ?_
    refine Except.foldlM_induction (fun _ b => b.Consistent ∧ b.Has .entry) he hb
      fun done child b b' _ hb hchild => ?_
    obtain ⟨-, -, hadd⟩ := addChild_spec hchild
    exact ⟨hadd.consistent hb.1, (hadd.has _).mpr (Or.inl hb.2)⟩
  exact ⟨b₂, rfl, h₂⟩

theorem cfgFromAdjacencyList_closed {adjList : OrdMap Label (List Label)} {g : Cfg}
    (h : cfgFromAdjacencyList adjList = .ok g) : g.Closed := by
  obtain ⟨b, rfl, hb, he⟩ := exists_of_cfgFromAdjacencyList h
  exact hb.closed he

end CfgBuilder

/-- A graph with two nested loops. -/
def figure1 : OrdMap Label (List Label) :=
  [(Label.entry, [.ofIndex 1]), (.ofIndex 1, [.ofIndex 2]), (.ofIndex 2, [.ofIndex 3]),
    (.ofIndex 3, [.ofIndex 4]), (.ofIndex 4, [.ofIndex 5, .ofIndex 7]), (.ofIndex 5, [.ofIndex 6]),
    (.ofIndex 6, [.ofIndex 5, .ofIndex 7]), (.ofIndex 7, [.ofIndex 3, .ofIndex 8]),
    (.ofIndex 8, [.exit])].foldl (fun m e => m.insert e.1 e.2) ∅

theorem Wto.exists_valid_figure1 : ∃ g, CfgBuilder.cfgFromAdjacencyList figure1 = .ok g ∧
    ∃ n w, (∀ fuel, n ≤ fuel → Wto.ofCfg fuel g = .ok w) ∧ w.Valid g := by
  obtain ⟨g, hg, -⟩ := Except.exists_of_okWith (p := fun _ => true)
    (show (CfgBuilder.cfgFromAdjacencyList figure1).okWith fun _ => true by decide)
  exact ⟨g, hg, Wto.exists_valid (CfgBuilder.cfgFromAdjacencyList_closed hg)⟩

example : (CfgBuilder.cfgFromAdjacencyList figure1 >>= Wto.ofCfg 40).okWith fun w =>
    w.components = .vertex .entry (.vertex (.ofIndex 1) (.vertex (.ofIndex 2)
      (.component (.vertex (.ofIndex 3) (.vertex (.ofIndex 4)
        (.component (.vertex (.ofIndex 5) (.vertex (.ofIndex 6) .nil))
          (.vertex (.ofIndex 7) .nil)))) (.vertex (.ofIndex 8) (.vertex .exit .nil))))) := by
  decide +kernel

end Prevail
