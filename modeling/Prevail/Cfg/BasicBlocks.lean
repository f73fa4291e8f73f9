import Mathlib.Data.List.Chain
import Prevail.Cfg.WtoValid

/-!
# Basic blocks

`BasicBlock::collect_basic_blocks`: the labels of the graph, in label order, each start a block that
grows as long as there is one way on and one way in. A label that is the only child of its only
parent is left to the block of that parent.

It is left out of all blocks when the parent comes later: the block of the parent stops at a label
that was seen. `collectBasicBlocks_spec` says which labels are in a block: those that a chain of only
children leads to from a label that is no only child and that comes before all others of the chain.
-/

namespace Prevail

namespace Cfg

/-- The parents of a label. -/
def preds (g : Cfg) (x : Label) : List Label :=
  match g.neighbours.find? x with
  | some n => n.parents.keys
  | none => []

/-- The edges of the graph join labels, and parents and children agree. -/
structure Matched (g : Cfg) : Prop extends g.Closed where
  pred : ∀ x y, x ∈ g.preds y ↔ y ∈ g.succs x

/-! ## Degrees

An exception of the source, for an unknown label or one without a single neighbour, is `none`. -/

def inDegree (g : Cfg) (l : Label) : Option ℕ :=
  (g.neighbours.find? l).map fun n => n.parents.keys.length

def outDegree (g : Cfg) (l : Label) : Option ℕ :=
  (g.neighbours.find? l).map fun n => n.children.keys.length

/-- `get_child`. -/
def singleChild (g : Cfg) (l : Label) : Option Label := do
  let n ← g.neighbours.find? l
  match n.children.keys with
  | [c] => some c
  | _ => none

/-- `get_parent`. -/
def singleParent (g : Cfg) (l : Label) : Option Label := do
  let n ← g.neighbours.find? l
  match n.parents.keys with
  | [c] => some c
  | _ => none

def numSiblings (g : Cfg) (l : Label) : Option ℕ := do g.outDegree (← g.singleParent l)

end Cfg

/-- `BasicBlock`. -/
structure BasicBlock where
  labels : List Label
  labels_ne_nil : labels ≠ []

namespace BasicBlock

def firstLabel (b : BasicBlock) : Label := b.labels.head b.labels_ne_nil

def lastLabel (b : BasicBlock) : Label := b.labels.getLast b.labels_ne_nil

def single (l : Label) : BasicBlock := ⟨[l], by simp⟩

/-- The block with another label. "Entry instruction is Undefined. We want to start with 0". -/
def push (b : BasicBlock) (l : Label) : BasicBlock :=
  if b.firstLabel = .entry then single l else ⟨b.labels ++ [l], by simp⟩

/-- The labels that are left and those that were seen. -/
structure Worklist where
  left : List Label
  seen : List Label

/-- Take a label from the worklist. -/
def Worklist.take (st : Worklist) (l : Label) : Worklist := ⟨st.left.erase l, l :: st.seen⟩

/-- The inner loop: let the block grow behind `label`. -/
def grow (g : Cfg) : ℕ → Label → BasicBlock → Worklist → Option (BasicBlock × Worklist)
  | 0, _, _, _ => none
  | fuel + 1, label, bb, st => do
    if (← g.outDegree label) = 1 then
      let next ← g.singleChild bb.lastLabel
      if next ∈ st.seen ∨ next = .exit then some (bb, st)
      else if (← g.inDegree next) = 1 then grow g fuel next (bb.push next) (st.take next)
      else some (bb, st)
    else some (bb, st)

/-- The only child of its only parent: such a label starts no block. -/
def follows (g : Cfg) (label : Label) : Option Bool := do
  if (← g.inDegree label) = 1 then return (← g.numSiblings label) = 1 else return false

/-- The outer loop. The set of blocks is a map from their first labels, by which they are ordered. -/
def collect (g : Cfg) : ℕ → Worklist → OrdMap Label BasicBlock → Option (OrdMap Label BasicBlock)
  | _, ⟨[], _⟩, res => some res
  | 0, _, _ => none
  | fuel + 1, ⟨label :: left, seen⟩, res => do
    if label ∈ seen then collect g fuel ⟨left, seen⟩ res
    else if ← follows g label then collect g fuel ⟨left, label :: seen⟩ res
    else
      let (bb, st) ← grow g (left.length + 1) label (single label) ⟨left, label :: seen⟩
      collect g fuel st (res.emplace bb.firstLabel bb)

/-- `collect_basic_blocks`. The labels of the graph are given in label order; the order of labels in
different frames is that of the printed frames there, and of no account here. -/
def collectBasicBlocks (g : Cfg) (order : List Label) (simplify : Bool) : Option (List BasicBlock) :=
  if simplify then (collect g order.length ⟨order, []⟩ ∅).map fun res => res.entries.map Prod.snd
  else
    let labels := order.filter fun l => l ≠ .entry ∧ l ≠ .exit
    let res : OrdMap Label BasicBlock := labels.foldl (fun res l => res.emplace l (single l)) ∅
    some (res.entries.map Prod.snd)

/-! ## One way on and one way in -/

variable {g : Cfg} {order : List Label} {h l p x y : Label}

/-- The only edge out of `x` is the only edge into `y`. -/
def Joined (g : Cfg) (x y : Label) : Prop := g.succs x = [y] ∧ g.preds y = [x]

theorem Joined.mem_labels (hj : Joined g x y) : x ∈ g.labels := by
  have hsucc := hj.1
  unfold Cfg.succs at hsucc
  split at hsucc
  · next n hn => exact OrdMap.mem_keys.mpr ⟨n, hn⟩
  · cases hsucc

theorem inDegree_eq (hl : l ∈ g.labels) : g.inDegree l = some (g.preds l).length := by
  obtain ⟨n, hn⟩ := OrdMap.mem_keys.mp hl
  unfold Cfg.inDegree Cfg.preds
  rw [hn]
  rfl

theorem outDegree_eq (hl : l ∈ g.labels) : g.outDegree l = some (g.succs l).length := by
  obtain ⟨n, hn⟩ := OrdMap.mem_keys.mp hl
  unfold Cfg.outDegree Cfg.succs
  rw [hn]
  rfl

theorem singleChild_eq (hl : g.succs l = [x]) : g.singleChild l = some x := by
  unfold Cfg.succs at hl
  unfold Cfg.singleChild
  split at hl
  · next n hn =>
    rw [hn]
    simp only [Option.bind_eq_bind, Option.bind_some, hl]
  · cases hl

theorem singleParent_eq (hl : g.preds l = [x]) : g.singleParent l = some x := by
  unfold Cfg.preds at hl
  unfold Cfg.singleParent
  split at hl
  · next n hn =>
    rw [hn]
    simp only [Option.bind_eq_bind, Option.bind_some, hl]
  · cases hl

theorem follows_eq (hg : g.Matched) (hl : l ∈ g.labels) :
    ∃ b, follows g l = some b ∧ (b = true ↔ ∃ p, Joined g p l) := by
  unfold follows
  rw [inDegree_eq hl]
  by_cases hone : (g.preds l).length = 1
  · obtain ⟨p, hp⟩ := List.length_eq_one_iff.mp hone
    have hmem : l ∈ g.succs p := (hg.pred p l).mp (hp ▸ List.mem_singleton_self p)
    have hlabel : p ∈ g.labels := by
      unfold Cfg.succs at hmem
      split at hmem
      · next n hn => exact OrdMap.mem_keys.mpr ⟨n, hn⟩
      · cases hmem
    refine ⟨decide ((g.succs p).length = 1), ?_, ?_⟩
    · simp only [Option.bind_eq_bind, Option.bind_some, hone, if_true, Cfg.numSiblings,
        singleParent_eq hp, outDegree_eq hlabel]
      rfl
    · rw [decide_eq_true_eq, List.length_eq_one_iff]
      constructor
      · rintro ⟨c, hc⟩
        rw [hc, List.mem_singleton] at hmem
        exact ⟨p, hc.trans (by rw [hmem]), hp⟩
      · rintro ⟨q, hq, hql⟩
        rw [hp] at hql
        obtain rfl := List.singleton_inj.mp hql
        exact ⟨l, hq⟩
  · refine ⟨false, ?_, ?_⟩
    · simp only [Option.bind_eq_bind, Option.bind_some, hone, if_false]
      rfl
    · exact iff_of_false Bool.false_ne_true fun ⟨p, hp⟩ => hone (by rw [hp.2]; rfl)

/-- A chain of only children leads from `h` to the label. It starts at a label that is no only child,
passes by the exit and comes back to no label before `h`. -/
inductive Led (g : Cfg) (order : List Label) (h : Label) : Label → Prop
  | head : (¬ ∃ p, Joined g p h) → Led g order h h
  | step {p l : Label} : Led g order h p → Joined g p l → l ≠ .exit →
      order.idxOf h < order.idxOf l → Led g order h l

theorem Led.not_follows (hl : Led g order h l) : ¬ ∃ p, Joined g p h := by
  induction hl with
  | head hno => exact hno
  | step _ _ _ _ ih => exact ih

theorem Led.eq_or_mem (hl : Led g order h l) : l = h ∨ h ∈ g.labels := by
  induction hl with
  | head _ => exact Or.inl rfl
  | step _ hj _ _ ih => exact Or.inr (ih.elim (fun heq => heq ▸ hj.mem_labels) id)

/-! ## The inner loop -/

/-- The block has grown along `path` and could not go on. -/
structure Grown (g : Cfg) (label : Label) (path : List Label) (st st' : Worklist) : Prop where
  chain : (label :: path).IsChain (Joined g)
  fresh : ∀ l ∈ path, l ∈ g.labels ∧ l ∉ st.seen ∧ l ≠ .exit
  nodup : path.Nodup
  seen : ∀ l, l ∈ st'.seen ↔ l ∈ path ∨ l ∈ st.seen
  left : st'.left.Sublist st.left
  left_iff : ∀ l ∈ g.labels, l ∈ st'.left ↔ l ∉ st'.seen
  stops : ∀ l, Joined g ((label :: path).getLast (by simp)) l → l ∈ st'.seen ∨ l = .exit

theorem Grown.cons {label next : Label} {path : List Label} {st st' : Worklist}
    (h : Grown g next path (st.take next) st') (hj : Joined g label next) (hmem : next ∈ g.labels)
    (hunseen : next ∉ st.seen) (hexit : next ≠ .exit) : Grown g label (next :: path) st st' where
  chain := List.isChain_cons_cons.mpr ⟨hj, h.chain⟩
  fresh := by
    intro l hl
    rcases List.mem_cons.mp hl with rfl | hl
    · exact ⟨hmem, hunseen, hexit⟩
    · obtain ⟨hlabel, hnot, hne⟩ := h.fresh l hl
      exact ⟨hlabel, fun hseen => hnot (List.mem_cons_of_mem next hseen), hne⟩
  nodup := List.nodup_cons.mpr ⟨fun hl => (h.fresh next hl).2.1 List.mem_cons_self, h.nodup⟩
  seen := by
    intro l
    rw [h.seen, Worklist.take, List.mem_cons, List.mem_cons]
    tauto
  left := h.left.trans (List.erase_sublist ..)
  left_iff := h.left_iff
  stops := by
    intro l hl
    rw [List.getLast_cons (by simp)] at hl
    exact h.stops l hl

theorem lastLabel_push (b : BasicBlock) (l : Label) : (b.push l).lastLabel = l := by
  unfold push
  split_ifs
  · rfl
  · simp [lastLabel]

theorem grow_spec (hg : g.Matched) (fuel : ℕ) (label : Label) (bb : BasicBlock) (st : Worklist)
    (hlabel : label ∈ g.labels) (hlast : bb.lastLabel = label) (hnodup : st.left.Nodup)
    (hleft : ∀ l ∈ g.labels, l ∈ st.left ↔ l ∉ st.seen) (hfuel : st.left.length < fuel) :
    ∃ path st', grow g fuel label bb st = some (path.foldl push bb, st') ∧
      Grown g label path st st' := by
  induction fuel generalizing label bb st with
  | zero => omega
  | succ fuel ih =>
    -- the block stops at `label`
    have hstop (hstops : ∀ l, Joined g label l → l ∈ st.seen ∨ l = .exit) : Grown g label [] st st :=
      ⟨.singleton _, by simp, List.nodup_nil, by simp, List.Sublist.refl _, hleft, hstops⟩
    unfold grow
    rw [outDegree_eq hlabel]
    simp only [Option.bind_eq_bind, Option.bind_some]
    by_cases hone : (g.succs label).length = 1
    · obtain ⟨next, hnext⟩ := List.length_eq_one_iff.mp hone
      have hmem : next ∈ g.labels := hg.succ label hlabel next (hnext ▸ List.mem_singleton_self next)
      rw [if_pos hone, hlast, singleChild_eq hnext, Option.bind_some]
      by_cases hseen : next ∈ st.seen ∨ next = .exit
      · rw [if_pos hseen]
        refine ⟨[], st, rfl, hstop fun l hl => ?_⟩
        obtain rfl := List.singleton_inj.mp (hnext.symm.trans hl.1)
        exact hseen
      · rw [if_neg hseen, inDegree_eq hmem, Option.bind_some]
        obtain ⟨hunseen, hexit⟩ := not_or.mp hseen
        have hin : next ∈ st.left := (hleft next hmem).mpr hunseen
        by_cases hone' : (g.preds next).length = 1
        · obtain ⟨q, hq⟩ := List.length_eq_one_iff.mp hone'
          have hlabelq : label ∈ g.preds next :=
            (hg.pred label next).mpr (hnext ▸ List.mem_singleton_self next)
          obtain rfl := List.mem_singleton.mp (hq ▸ hlabelq)
          rw [if_pos hone']
          have hleft' : ∀ l ∈ g.labels, l ∈ (st.take next).left ↔ l ∉ (st.take next).seen := by
            intro l hl
            unfold Worklist.take
            rw [hnodup.mem_erase_iff, hleft l hl, List.mem_cons, not_or]
          have hlen : (st.take next).left.length < fuel := by
            unfold Worklist.take
            rw [List.length_erase_of_mem hin]
            have := List.length_pos_of_mem hin
            omega
          obtain ⟨path, st', heq, hgrown⟩ := ih next (bb.push next) (st.take next) hmem
            (lastLabel_push bb next) (hnodup.erase next) hleft' hlen
          exact ⟨next :: path, st', heq, hgrown.cons ⟨hnext, hq⟩ hmem hunseen hexit⟩
        · rw [if_neg hone']
          refine ⟨[], st, rfl, hstop fun l hl => ?_⟩
          obtain rfl := List.singleton_inj.mp (hnext.symm.trans hl.1)
          exact absurd (by rw [hl.2]; rfl) hone'
    · rw [if_neg hone]
      exact ⟨[], st, rfl, hstop fun l hl => absurd (by rw [hl.1]; rfl) hone⟩

/-! ### The labels of the block -/

theorem labels_foldl_push (path : List Label) (b : BasicBlock) (hfirst : b.firstLabel ≠ .entry) :
    (path.foldl push b).labels = b.labels ++ path := by
  induction path generalizing b with
  | nil => rw [List.append_nil]; rfl
  | cons x path ih =>
    have hpush : (b.push x).labels = b.labels ++ [x] := by rw [push, if_neg hfirst]
    have hfirst' : (b.push x).firstLabel ≠ .entry := by
      unfold firstLabel
      simp only [hpush]
      rwa [List.head_append_of_ne_nil b.labels_ne_nil]
    rw [List.foldl_cons, ih _ hfirst', hpush, List.append_assoc]
    rfl

/-- The block of the entry begins behind it, when it has grown. -/
theorem labels_block {label : Label} {path : List Label} (hnot : label ∉ path) :
    (path.foldl push (single label)).labels = label :: path ∨
      label = .entry ∧ (path.foldl push (single label)).labels = path := by
  by_cases he : label = .entry
  · cases path with
    | nil => exact Or.inl rfl
    | cons x path =>
      have hx : x ≠ .entry := fun hx => hnot (he.trans hx.symm ▸ List.mem_cons_self)
      refine Or.inr ⟨he, ?_⟩
      have hpush : (single label).push x = single x := if_pos he
      rw [List.foldl_cons, hpush]
      exact labels_foldl_push path (single x) hx
  · exact Or.inl (labels_foldl_push path (single label) he)

/-! ## The outer loop -/

theorem idxOf_lt_of_sublist {left : List Label} (horder : order.Nodup)
    (hsub : (l :: left).Sublist order) (hx : x ∈ left) : order.idxOf l < order.idxOf x := by
  have hpair : order.Pairwise fun a b => order.idxOf a < order.idxOf b := by
    rw [List.pairwise_iff_getElem]
    intro i j hi hj hij
    rwa [horder.idxOf_getElem, horder.idxOf_getElem]
  exact List.rel_of_pairwise_cons (hpair.sublist hsub) hx

/-- What is known between two rounds. A label that was seen comes before those that are left, unless
it was taken into the block of its parent. The chains from the labels seen are seen, and the labels
seen that such a chain leads to are those in the blocks. -/
structure Inv (g : Cfg) (order : List Label) (st : Worklist) (res : OrdMap Label BasicBlock) :
    Prop where
  left : st.left.Sublist order
  left_iff : ∀ l ∈ g.labels, l ∈ st.left ↔ l ∉ st.seen
  before : ∀ l ∈ st.seen, (∀ w ∈ st.left, order.idxOf l < order.idxOf w) ∨ ∃ p ∈ st.seen, Joined g p l
  led_seen : ∀ h ∈ st.seen, ∀ l, Led g order h l → l ∈ st.seen
  key : ∀ k b, res.find? k = some b → k = b.firstLabel
  block : ∀ k b, res.find? k = some b →
    b.labels.IsChain (Joined g) ∧ b.labels.Nodup ∧ ∀ l ∈ b.labels, l ∈ st.seen
  disjoint : ∀ k k' b b' l, res.find? k = some b → res.find? k' = some b' → l ∈ b.labels →
    l ∈ b'.labels → k = k'
  blocks : ∀ l ∈ st.seen, l ≠ .entry →
    ((∃ k b, res.find? k = some b ∧ l ∈ b.labels) ↔ ∃ h, Led g order h l)

variable {st st' : Worklist} {res : OrdMap Label BasicBlock} {left seen path : List Label}

theorem inv_init (horder : ∀ l, l ∈ order ↔ l ∈ g.labels) : Inv g order ⟨order, []⟩ ∅ where
  left := List.Sublist.refl _
  left_iff l hl := iff_of_true ((horder l).mpr hl) List.not_mem_nil
  before := nofun
  led_seen := nofun
  key := nofun
  block := nofun
  disjoint := nofun
  blocks := nofun

theorem Inv.mem_seen_of_lt (hi : Inv g order ⟨l :: left, seen⟩ res) (hnodup : order.Nodup)
    (hh : h ∈ g.labels) (hlt : order.idxOf h < order.idxOf l) : h ∈ seen := by
  by_contra hunseen
  rcases List.mem_cons.mp ((hi.left_iff h hh).mpr hunseen) with rfl | hmem
  · exact hlt.false
  · exact (hlt.trans (idxOf_lt_of_sublist hnodup hi.left hmem)).false

/-- A chain to the label that is next would have been followed already. -/
theorem Inv.not_led (hi : Inv g order ⟨l :: left, seen⟩ res) (hnodup : order.Nodup) (hl : l ∈ g.labels)
    (hfollows : ∃ p, Joined g p l) (hled : Led g order h l) : False := by
  have hunseen : l ∉ seen := (hi.left_iff l hl).mp List.mem_cons_self
  cases hled with
  | head hno => exact hno hfollows
  | step hp hj hexit hlt =>
    have hh : h ∈ g.labels := (Led.step hp hj hexit hlt).eq_or_mem.elim (fun heq => heq ▸ hl) id
    exact hunseen (hi.led_seen h (hi.mem_seen_of_lt hnodup hh hlt) l (.step hp hj hexit hlt))

theorem Inv.not_mem_block (hi : Inv g order st res) (hl : l ∉ st.seen) :
    ¬ ∃ k b, res.find? k = some b ∧ l ∈ b.labels :=
  fun ⟨k, b, hb, hmem⟩ => hl ((hi.block k b hb).2.2 l hmem)

theorem Inv.left_iff_take (hi : Inv g order ⟨l :: left, seen⟩ res) (hnodup : order.Nodup)
    (hx : x ∈ g.labels) : x ∈ left ↔ x ∉ l :: seen := by
  have hnot : l ∉ left := (List.nodup_cons.mp (hnodup.sublist hi.left)).1
  have hiff := hi.left_iff x hx
  rw [List.mem_cons] at hiff ⊢
  by_cases hxl : x = l
  · subst hxl
    exact iff_of_false hnot fun hno => hno (Or.inl rfl)
  · simpa [hxl] using hiff

/-- An only child is left to the block of its parent, or to none. -/
theorem Inv.follow (hi : Inv g order ⟨l :: left, seen⟩ res) (hnodup : order.Nodup) (hl : l ∈ g.labels)
    (hfollows : ∃ p, Joined g p l) : Inv g order ⟨left, l :: seen⟩ res := by
  have hunseen : l ∉ seen := (hi.left_iff l hl).mp List.mem_cons_self
  refine ⟨(List.sublist_cons_self l left).trans hi.left, fun w hw => hi.left_iff_take hnodup hw,
    fun w hw => ?_, fun h hh w hled => ?_, hi.key, fun k b hb => ?_, hi.disjoint, fun w hw hne => ?_⟩
  · rcases List.mem_cons.mp hw with rfl | hw
    · exact Or.inl fun x hx => idxOf_lt_of_sublist hnodup hi.left hx
    · refine (hi.before w hw).imp (fun hlt x hx => hlt x (List.mem_cons_of_mem l hx)) ?_
      exact fun ⟨p, hp, hj⟩ => ⟨p, List.mem_cons_of_mem l hp, hj⟩
  · rcases List.mem_cons.mp hh with rfl | hh
    · exact absurd hfollows hled.not_follows
    · exact List.mem_cons_of_mem l (hi.led_seen h hh w hled)
  · obtain ⟨hchain, hnodupb, hmem⟩ := hi.block k b hb
    exact ⟨hchain, hnodupb, fun x hx => List.mem_cons_of_mem l (hmem x hx)⟩
  · rcases List.mem_cons.mp hw with rfl | hw
    · exact iff_of_false (hi.not_mem_block hunseen) fun ⟨h, hled⟩ => hi.not_led hnodup hl hfollows hled
    · exact hi.blocks w hw hne

theorem exists_joined_of_chain {c : List Label} (hc : c.IsChain (Joined g)) (hne : c ≠ [])
    (hx : x ∈ c) : x = c.getLast hne ∨ ∃ y ∈ c, Joined g x y := by
  induction c with
  | nil => exact absurd rfl hne
  | cons a c ih =>
    cases c with
    | nil => exact Or.inl (List.mem_singleton.mp hx)
    | cons b c =>
      obtain ⟨hab, hc⟩ := List.isChain_cons_cons.mp hc
      rcases List.mem_cons.mp hx with rfl | hx
      · exact Or.inr ⟨b, List.mem_cons_of_mem _ List.mem_cons_self, hab⟩
      · refine (ih hc (by simp) hx).imp (fun heq => ?_) fun ⟨y, hy, hj⟩ =>
          ⟨y, List.mem_cons_of_mem a hy, hj⟩
        rw [heq]
        exact (List.getLast_cons (by simp)).symm

theorem exists_parent_of_chain (hc : (l :: path).IsChain (Joined g)) (hx : x ∈ path) :
    ∃ p ∈ l :: path, Joined g p x := by
  induction path generalizing l with
  | nil => cases hx
  | cons a path ih =>
    obtain ⟨hla, hc⟩ := List.isChain_cons_cons.mp hc
    rcases List.mem_cons.mp hx with rfl | hx
    · exact ⟨l, List.mem_cons_self, hla⟩
    · obtain ⟨p, hp, hj⟩ := ih hc hx
      exact ⟨p, List.mem_cons_of_mem l hp, hj⟩

theorem led_of_chain (hled : Led g order h l) (hc : (l :: path).IsChain (Joined g))
    (hpath : ∀ x ∈ path, x ≠ .exit ∧ order.idxOf h < order.idxOf x) (hx : x ∈ path) :
    Led g order h x := by
  induction path generalizing l with
  | nil => cases hx
  | cons a path ih =>
    obtain ⟨hla, hc⟩ := List.isChain_cons_cons.mp hc
    obtain ⟨hexit, hlt⟩ := hpath a List.mem_cons_self
    have hleda : Led g order h a := .step hled hla hexit hlt
    rcases List.mem_cons.mp hx with rfl | hx
    · exact hleda
    · exact ih hleda hc (fun y hy => hpath y (List.mem_cons_of_mem a hy)) hx

/-- The block that starts at `l` takes every label that a chain from `l` leads to. -/
theorem Inv.led_grown (hi : Inv g order ⟨l :: left, seen⟩ res) (hl : l ∈ g.labels)
    (hgrown : Grown g l path ⟨left, l :: seen⟩ st') (hled : Led g order l x) :
    x ∈ l :: path := by
  have hunseen : l ∉ seen := (hi.left_iff l hl).mp List.mem_cons_self
  induction hled with
  | head _ => exact List.mem_cons_self
  | @step p x hled hj hexit hlt ih =>
    rcases exists_joined_of_chain hgrown.chain (by simp) ih with hlast | ⟨y, hy, hjy⟩
    · rcases hgrown.stops x (hlast ▸ hj) with hseen | hx
      · rcases (hgrown.seen x).mp hseen with hpath | hmem
        · exact List.mem_cons_of_mem l hpath
        · rcases List.mem_cons.mp hmem with rfl | hmem
          · exact List.mem_cons_self
          · -- `x` was seen before `l`: it came first, or its parent was seen as well
            rcases hi.before x hmem with hfirst | ⟨q, hq, hjq⟩
            · exact absurd (hfirst l List.mem_cons_self) hlt.asymm
            · obtain rfl := List.singleton_inj.mp (hj.2.symm.trans hjq.2)
              rcases List.mem_cons.mp ih with rfl | hp
              · exact absurd hq hunseen
              · exact absurd (List.mem_cons_of_mem l hq) (hgrown.fresh p hp).2.1
      · exact absurd hx hexit
    · obtain rfl := List.singleton_inj.mp (hj.1.symm.trans hjy.1)
      exact hy

/-! ### A new block -/

theorem Grown.mem_seen (hgrown : Grown g l path ⟨left, l :: seen⟩ st') :
    x ∈ st'.seen ↔ x ∈ l :: path ∨ x ∈ seen := by
  rw [hgrown.seen, List.mem_cons, List.mem_cons]
  tauto

/-- The block `b` has the labels of a chain that are in no other block, and `res'` is `res` with `b`. -/
structure Emplaced (l : Label) (path seen : List Label) (res res' : OrdMap Label BasicBlock)
    (b : BasicBlock) : Prop where
  labels : b.labels = l :: path ∨ l = .entry ∧ b.labels = path
  fresh : ∀ x ∈ l :: path, x ∉ seen
  absent : res.find? b.firstLabel = none
  find : ∀ k, res'.find? k = if k = b.firstLabel then some b else res.find? k

theorem Emplaced.mem_path {res' : OrdMap Label BasicBlock} {b : BasicBlock}
    (h : Emplaced l path seen res res' b) (hx : x ∈ b.labels) : x ∈ l :: path := by
  rcases h.labels with heq | ⟨-, heq⟩
  · exact heq ▸ hx
  · exact List.mem_cons_of_mem l (heq ▸ hx)

theorem Emplaced.cases {res' : OrdMap Label BasicBlock} {b c : BasicBlock} {k : Label}
    (h : Emplaced l path seen res res' b) (hc : res'.find? k = some c) :
    (k = b.firstLabel ∧ c = b) ∨ res.find? k = some c := by
  rw [h.find] at hc
  split_ifs at hc with hk
  · exact Or.inl ⟨hk, (Option.some.inj hc).symm⟩
  · exact Or.inr hc

theorem Emplaced.find_old {res' : OrdMap Label BasicBlock} {b c : BasicBlock} {k : Label}
    (h : Emplaced l path seen res res' b) (hc : res.find? k = some c) : res'.find? k = some c := by
  rw [h.find, if_neg fun hk => ?_, hc]
  rw [hk, h.absent] at hc
  cases hc

theorem Inv.emplaced (hi : Inv g order ⟨l :: left, seen⟩ res) (hl : l ∈ g.labels)
    (hgrown : Grown g l path ⟨left, l :: seen⟩ st') :
    Emplaced l path seen res
      (res.emplace (path.foldl push (single l)).firstLabel (path.foldl push (single l)))
      (path.foldl push (single l)) := by
  have hfresh : ∀ x ∈ l :: path, x ∉ seen := by
    intro x hx hseen
    rcases List.mem_cons.mp hx with rfl | hx
    · exact (hi.left_iff _ hl).mp List.mem_cons_self hseen
    · exact (hgrown.fresh x hx).2.1 (List.mem_cons_of_mem l hseen)
  have hblock := labels_block fun hmem => (hgrown.fresh l hmem).2.1 List.mem_cons_self
  generalize path.foldl push (single l) = b at hblock ⊢
  have hfirst : b.firstLabel ∈ l :: path := by
    rcases hblock with heq | ⟨-, heq⟩
    · exact heq ▸ List.head_mem b.labels_ne_nil
    · exact List.mem_cons_of_mem l (heq ▸ List.head_mem b.labels_ne_nil)
  have hnone : res.find? b.firstLabel = none := by
    rw [Option.eq_none_iff_forall_ne_some]
    intro b' hb'
    refine hi.not_mem_block (hfresh _ hfirst) ⟨_, b', hb', ?_⟩
    rw [hi.key _ b' hb']
    exact List.head_mem b'.labels_ne_nil
  refine ⟨hblock, hfresh, hnone, fun k => ?_⟩
  rw [OrdMap.find?_emplace, hnone]
  rfl

/-- The labels of a chain are left to its head. -/
theorem Inv.led_path (hi : Inv g order ⟨l :: left, seen⟩ res) (hnodup : order.Nodup)
    (hhead : ¬ ∃ p, Joined g p l) (hgrown : Grown g l path ⟨left, l :: seen⟩ st') (hx : x ∈ l :: path) :
    Led g order l x := by
  rcases List.mem_cons.mp hx with rfl | hx
  · exact .head hhead
  · refine led_of_chain (.head hhead) hgrown.chain (fun y hy => ?_) hx
    obtain ⟨hlabel, hnot, hexit⟩ := hgrown.fresh y hy
    have hleft : y ∈ l :: left :=
      (hi.left_iff y hlabel).mpr fun hseen => hnot (List.mem_cons_of_mem l hseen)
    refine ⟨hexit, idxOf_lt_of_sublist hnodup hi.left
      ((List.mem_cons.mp hleft).resolve_left fun heq => ?_)⟩
    exact hnot (heq ▸ List.mem_cons_self)

theorem Inv.before_grown (hi : Inv g order ⟨l :: left, seen⟩ res) (hnodup : order.Nodup)
    (hgrown : Grown g l path ⟨left, l :: seen⟩ st') (hx : x ∈ st'.seen) :
    (∀ w ∈ st'.left, order.idxOf x < order.idxOf w) ∨ ∃ p ∈ st'.seen, Joined g p x := by
  rcases hgrown.mem_seen.mp hx with hx | hx
  · rcases List.mem_cons.mp hx with rfl | hx
    · exact Or.inl fun w hw => idxOf_lt_of_sublist hnodup hi.left (hgrown.left.subset hw)
    · obtain ⟨p, hp, hj⟩ := exists_parent_of_chain hgrown.chain hx
      exact Or.inr ⟨p, hgrown.mem_seen.mpr (Or.inl hp), hj⟩
  · refine (hi.before x hx).imp (fun hlt w hw => hlt w ?_) fun ⟨p, hp, hj⟩ =>
      ⟨p, hgrown.mem_seen.mpr (Or.inr hp), hj⟩
    exact List.mem_cons_of_mem l (hgrown.left.subset hw)

theorem Inv.led_seen_grown (hi : Inv g order ⟨l :: left, seen⟩ res) (hl : l ∈ g.labels)
    (hgrown : Grown g l path ⟨left, l :: seen⟩ st') (hh : h ∈ st'.seen) (hled : Led g order h x) :
    x ∈ st'.seen := by
  rcases hgrown.mem_seen.mp hh with hh | hh
  · rcases List.mem_cons.mp hh with rfl | hh
    · exact hgrown.mem_seen.mpr (Or.inl (hi.led_grown hl hgrown hled))
    · obtain ⟨p, -, hj⟩ := exists_parent_of_chain hgrown.chain hh
      exact absurd ⟨p, hj⟩ hled.not_follows
  · exact hgrown.mem_seen.mpr (Or.inr (hi.led_seen h hh x hled))

/-- The labels of the new block are joined, and each is there once. -/
theorem Emplaced.block {res' : OrdMap Label BasicBlock} {b : BasicBlock}
    (h : Emplaced l path seen res res' b) (hgrown : Grown g l path ⟨left, l :: seen⟩ st') :
    b.labels.IsChain (Joined g) ∧ b.labels.Nodup := by
  rcases h.labels with heq | ⟨-, heq⟩
  · have hlpath : l ∉ path := fun hmem => (hgrown.fresh l hmem).2.1 List.mem_cons_self
    exact ⟨heq ▸ hgrown.chain, heq ▸ List.nodup_cons.mpr ⟨hlpath, hgrown.nodup⟩⟩
  · exact ⟨heq ▸ hgrown.chain.tail, heq ▸ hgrown.nodup⟩

/-- A label other than the entry is in a block if it is in the new one or was in a block before. -/
theorem Emplaced.exists_block_iff {res' : OrdMap Label BasicBlock} {b : BasicBlock}
    (h : Emplaced l path seen res res' b) (hne : x ≠ .entry) :
    (∃ k c, res'.find? k = some c ∧ x ∈ c.labels) ↔
      x ∈ l :: path ∨ ∃ k c, res.find? k = some c ∧ x ∈ c.labels := by
  constructor
  · rintro ⟨k, c, hc, hx⟩
    rcases h.cases hc with ⟨-, rfl⟩ | hc
    · exact Or.inl (h.mem_path hx)
    · exact Or.inr ⟨k, c, hc, hx⟩
  · rintro (hx | ⟨k, c, hc, hx⟩)
    · refine ⟨b.firstLabel, b, by rw [h.find, if_pos rfl], ?_⟩
      rcases h.labels with heq | ⟨he, heq⟩
      · exact heq ▸ hx
      · exact heq ▸ (List.mem_cons.mp hx).resolve_left fun hxl => hne (hxl.trans he)
    · exact ⟨k, c, h.find_old hc, hx⟩

theorem Inv.grow (hi : Inv g order ⟨l :: left, seen⟩ res) (hnodup : order.Nodup) (hl : l ∈ g.labels)
    (hhead : ¬ ∃ p, Joined g p l) (hgrown : Grown g l path ⟨left, l :: seen⟩ st') :
    Inv g order st'
      (res.emplace (path.foldl push (single l)).firstLabel (path.foldl push (single l))) := by
  have hb := hi.emplaced hl hgrown
  have hseen : ∀ x ∈ seen, x ∈ st'.seen := fun x hx => hgrown.mem_seen.mpr (Or.inr hx)
  have hnew : ∀ x ∈ (path.foldl push (single l)).labels, x ∈ st'.seen := fun x hx =>
    hgrown.mem_seen.mpr (Or.inl (hb.mem_path hx))
  -- a label of the new block is in no other one
  have hapart : ∀ k c, res.find? k = some c → ∀ x ∈ c.labels,
      x ∉ (path.foldl push (single l)).labels := fun k c hc x hx hxb =>
    hb.fresh x (hb.mem_path hxb) ((hi.block k c hc).2.2 x hx)
  refine ⟨hgrown.left.trans ((List.sublist_cons_self l left).trans hi.left), hgrown.left_iff,
    fun x => hi.before_grown hnodup hgrown, fun h hh x => hi.led_seen_grown hl hgrown hh,
    fun k c hc => ?_, fun k c hc => ?_, fun k k' c c' x hc hc' hx hx' => ?_, fun x hx hne => ?_⟩
  · rcases hb.cases hc with ⟨hk, rfl⟩ | hc
    · exact hk
    · exact hi.key k c hc
  · rcases hb.cases hc with ⟨-, rfl⟩ | hc
    · exact ⟨(hb.block hgrown).1, (hb.block hgrown).2, hnew⟩
    · obtain ⟨hchain, hnodupc, hold⟩ := hi.block k c hc
      exact ⟨hchain, hnodupc, fun x hx => hseen x (hold x hx)⟩
  · rcases hb.cases hc with ⟨hk, rfl⟩ | hc <;> rcases hb.cases hc' with ⟨hk', rfl⟩ | hc'
    · exact hk.trans hk'.symm
    · exact absurd hx (hapart k' c' hc' x hx')
    · exact absurd hx' (hapart k c hc x hx)
    · exact hi.disjoint k k' c c' x hc hc' hx hx'
  · rw [hb.exists_block_iff hne]
    rcases hgrown.mem_seen.mp hx with hx | hx
    · exact iff_of_true (Or.inl hx) ⟨l, hi.led_path hnodup hhead hgrown hx⟩
    · rw [← hi.blocks x hx hne]
      exact or_iff_right fun hpath => hb.fresh x hpath hx

theorem collect_spec (hg : g.Matched) (hnodup : order.Nodup) (horder : ∀ l, l ∈ order ↔ l ∈ g.labels)
    (fuel : ℕ) (st : Worklist) (res : OrdMap Label BasicBlock) (hi : Inv g order st res)
    (hfuel : st.left.length ≤ fuel) :
    ∃ res' seen, collect g fuel st res = some res' ∧ Inv g order ⟨[], seen⟩ res' := by
  induction fuel generalizing st res with
  | zero =>
    obtain ⟨left, seen⟩ := st
    obtain rfl : left = [] := List.eq_nil_of_length_eq_zero (Nat.le_zero.mp hfuel)
    exact ⟨res, seen, by unfold collect; rfl, hi⟩
  | succ fuel ih =>
    obtain ⟨_ | ⟨l, left⟩, seen⟩ := st
    · exact ⟨res, seen, by unfold collect; rfl, hi⟩
    · have hl : l ∈ g.labels := (horder l).mp (hi.left.subset List.mem_cons_self)
      have hunseen : l ∉ seen := (hi.left_iff l hl).mp List.mem_cons_self
      have hlen : left.length ≤ fuel := Nat.le_of_succ_le_succ hfuel
      obtain ⟨b, hb, hiff⟩ := follows_eq hg hl
      unfold collect
      rw [if_neg hunseen, hb]
      simp only [Option.bind_eq_bind, Option.bind_some]
      cases b with
      | true =>
        rw [if_pos rfl]
        exact ih _ _ (hi.follow hnodup hl (hiff.mp rfl)) hlen
      | false =>
        rw [if_neg Bool.false_ne_true]
        have hhead : ¬ ∃ p, Joined g p l := fun hj => Bool.false_ne_true (hiff.mpr hj)
        obtain ⟨path, st', heq, hgrown⟩ := grow_spec hg (left.length + 1) l (single l)
          ⟨left, l :: seen⟩ hl rfl (List.nodup_cons.mp (hnodup.sublist hi.left)).2
          (fun w hw => hi.left_iff_take hnodup hw) (Nat.lt_succ_self _)
        rw [heq, Option.bind_some]
        exact ih _ _ (hi.grow hnodup hl hhead hgrown) (hgrown.left.length_le.trans hlen)

/-- A partition of the labels into chains: every label but the entry and the exit is in one block,
and the labels of a block follow each other along edges with no other way on or in. -/
structure Blocks (g : Cfg) (bs : List BasicBlock) : Prop where
  once : ∀ l ∈ g.labels, l ≠ .entry → l ≠ .exit → ∃! b, b ∈ bs ∧ l ∈ b.labels
  nodup : ∀ b ∈ bs, b.labels.Nodup
  joined : ∀ b ∈ bs, b.labels.IsChain (Joined g)

theorem Inv.blocks_iff (hi : Inv g order ⟨[], seen⟩ res) :
    Blocks g (res.entries.map Prod.snd) ↔
      ∀ l ∈ g.labels, l ≠ .entry → l ≠ .exit → ∃ h, Led g order h l := by
  have hmem : ∀ b, b ∈ res.entries.map Prod.snd ↔ ∃ k, res.find? k = some b := by
    intro b
    simp [List.mem_map, OrdMap.mem_entries]
  have hseen : ∀ l ∈ g.labels, l ∈ seen := fun l hl => by
    by_contra hunseen
    exact List.not_mem_nil ((hi.left_iff l hl).mpr hunseen)
  constructor
  · intro hb l hl hentry hexit
    obtain ⟨b, ⟨hbs, hlb⟩, -⟩ := hb.once l hl hentry hexit
    obtain ⟨k, hk⟩ := (hmem b).mp hbs
    exact (hi.blocks l (hseen l hl) hentry).mp ⟨k, b, hk, hlb⟩
  · intro hled
    refine ⟨fun l hl hentry hexit => ?_, fun b hb => ?_, fun b hb => ?_⟩
    · obtain ⟨k, b, hk, hlb⟩ := (hi.blocks l (hseen l hl) hentry).mpr (hled l hl hentry hexit)
      refine ⟨b, ⟨(hmem b).mpr ⟨k, hk⟩, hlb⟩, fun b' ⟨hb', hlb'⟩ => ?_⟩
      obtain ⟨k', hk'⟩ := (hmem b').mp hb'
      obtain rfl := hi.disjoint k' k b' b l hk' hk hlb' hlb
      exact Option.some.inj (hk'.symm.trans hk)
    · obtain ⟨k, hk⟩ := (hmem b).mp hb
      exact (hi.block k b hk).2.1
    · obtain ⟨k, hk⟩ := (hmem b).mp hb
      exact (hi.block k b hk).1

/-! ## Single labels -/

theorem find?_singles (ls : List Label) (res : OrdMap Label BasicBlock)
    (hres : ∀ k b, res.find? k = some b → b = single k) (k : Label) :
    (ls.foldl (fun res l => res.emplace l (single l)) res).find? k =
      if k ∈ ls then some (single k) else res.find? k := by
  induction ls generalizing res with
  | nil => simp
  | cons l ls ih =>
    have hemplace : ∀ k, (res.emplace l (single l)).find? k =
        if k = l then some (single k) else res.find? k := by
      intro k
      rw [OrdMap.find?_emplace]
      by_cases hk : k = l
      · subst hk
        rw [if_pos rfl, if_pos rfl]
        cases hfind : res.find? k with
        | none => rfl
        | some b => rw [hres k b hfind]; rfl
      · rw [if_neg hk, if_neg hk]
    rw [List.foldl_cons, ih _ fun k b hb => ?_, hemplace]
    · by_cases hk : k = l <;> simp [hk]
    · rw [hemplace] at hb
      split_ifs at hb
      · exact (Option.some.inj hb).symm
      · exact hres k b hb

/-- Without simplification every block is one label. With it, the blocks are what they should be
exactly when every label is led to by a chain. -/
theorem collectBasicBlocks_spec (hg : g.Matched) (hnodup : order.Nodup)
    (horder : ∀ l, l ∈ order ↔ l ∈ g.labels) :
    (∃ bs, collectBasicBlocks g order true = some bs ∧
      (Blocks g bs ↔ ∀ l ∈ g.labels, l ≠ .entry → l ≠ .exit → ∃ h, Led g order h l)) ∧
    ∃ bs, collectBasicBlocks g order false = some bs ∧ Blocks g bs ∧ ∀ b ∈ bs, b.labels.length = 1 := by
  constructor
  · obtain ⟨res, seen, heq, hi⟩ :=
      collect_spec hg hnodup horder order.length ⟨order, []⟩ ∅ (inv_init horder) le_rfl
    refine ⟨_, ?_, hi.blocks_iff⟩
    unfold collectBasicBlocks
    rw [if_pos rfl, heq]
    rfl
  · have hmem : ∀ b, b ∈ ((order.filter fun l => l ≠ .entry ∧ l ≠ .exit).foldl
        (fun res l => res.emplace l (single l)) (∅ : OrdMap Label BasicBlock)).entries.map Prod.snd ↔
        ∃ l ∈ g.labels, l ≠ .entry ∧ l ≠ .exit ∧ b = single l := by
      intro b
      simp only [List.mem_map, Prod.exists, exists_eq_right, OrdMap.mem_entries]
      refine exists_congr fun l => ?_
      rw [find?_singles _ ∅ (fun _ _ hb => by cases hb), OrdMap.find?_empty]
      split_ifs with hl
      · obtain ⟨hord, hne⟩ := List.mem_filter.mp hl
        rw [decide_eq_true_eq] at hne
        exact ⟨fun heq => ⟨(horder l).mp hord, hne.1, hne.2, (Option.some.inj heq).symm⟩,
          fun ⟨_, _, _, heq⟩ => congrArg some heq.symm⟩
      · refine iff_of_false nofun fun ⟨hlabel, hentry, hexit, _⟩ => hl ?_
        exact List.mem_filter.mpr ⟨(horder l).mpr hlabel, decide_eq_true ⟨hentry, hexit⟩⟩
    refine ⟨_, rfl, ⟨fun l hl hentry hexit => ?_, fun b hb => ?_, fun b hb => ?_⟩, fun b hb => ?_⟩
    · refine ⟨single l, ⟨(hmem _).mpr ⟨l, hl, hentry, hexit, rfl⟩, List.mem_singleton_self l⟩, ?_⟩
      rintro b ⟨hb, hlb⟩
      obtain ⟨l', -, -, -, rfl⟩ := (hmem b).mp hb
      rw [List.mem_singleton.mp hlb]
    · obtain ⟨l, -, -, -, rfl⟩ := (hmem b).mp hb
      exact List.nodup_singleton l
    · obtain ⟨l, -, -, -, rfl⟩ := (hmem b).mp hb
      exact .singleton l
    · obtain ⟨l, -, -, -, rfl⟩ := (hmem b).mp hb
      rfl

end BasicBlock

theorem CfgBuilder.Consistent.matched {O C : Type} {b : CfgBuilder O C} (hb : b.Consistent)
    (he : b.Has .entry) : b.cfg.Matched where
  toClosed := hb.closed he
  pred x y := by
    rw [succs_cfg, mem_succs, ← hb.parent]
    unfold Cfg.preds Parent
    split
    · next n hn => simp [hn, mem_set]
    · next hn => simp [hn]

namespace BasicBlock

/-- Instruction 4, which two labels lead to, jumps back to instruction 2. -/
def jumpBack : OrdMap Label (List Label) :=
  [(Label.entry, [.ofIndex 0]), (.ofIndex 0, [.makeJump (.ofIndex 0) (.ofIndex 1),
      .makeJump (.ofIndex 0) (.ofIndex 4)]),
    (.makeJump (.ofIndex 0) (.ofIndex 1), [.ofIndex 1]),
    (.makeJump (.ofIndex 0) (.ofIndex 4), [.ofIndex 4]), (.ofIndex 1, [.ofIndex 4]),
    (.ofIndex 2, [.ofIndex 3]), (.ofIndex 3, [.exit]), (.ofIndex 4, [.ofIndex 2])].foldl
    (fun m e => m.insert e.1 e.2) ∅

/-- The instructions behind the jump are in no block. -/
theorem exists_lost_label : ∃ g, CfgBuilder.cfgFromAdjacencyList jumpBack = .ok g ∧ g.Matched ∧
    .ofIndex 2 ∈ g.labels ∧ ∃ bs, collectBasicBlocks g g.labels true = some bs ∧
      ∀ b ∈ bs, .ofIndex 2 ∉ b.labels := by
  have hrun : (CfgBuilder.cfgFromAdjacencyList jumpBack).okWith fun g =>
      decide (Label.ofIndex 2 ∈ g.labels) && (collectBasicBlocks g g.labels true).any fun bs =>
        bs.all fun b => decide (Label.ofIndex 2 ∉ b.labels) := by decide +kernel
  obtain ⟨g, hg, hlost⟩ := Except.exists_of_okWith hrun
  obtain ⟨b, hb, hcons, hentry⟩ := CfgBuilder.exists_of_cfgFromAdjacencyList hg
  rw [Bool.and_eq_true, decide_eq_true_eq, Option.any_eq_true] at hlost
  obtain ⟨hmem, bs, hbs, hall⟩ := hlost
  refine ⟨g, hg, hb ▸ hcons.matched hentry, hmem, bs, hbs, fun b hb => ?_⟩
  simpa using List.all_eq_true.mp hall b hb

theorem collectBasicBlocks_figure1 : ∃ g, CfgBuilder.cfgFromAdjacencyList figure1 = .ok g ∧
    (∃ bs, collectBasicBlocks g g.labels true = some bs ∧
      (Blocks g bs ↔ ∀ l ∈ g.labels, l ≠ .entry → l ≠ .exit → ∃ h, Led g g.labels h l)) ∧
    ∃ bs, collectBasicBlocks g g.labels false = some bs ∧ Blocks g bs ∧
      ∀ b ∈ bs, b.labels.length = 1 := by
  obtain ⟨g, hg, -⟩ := Except.exists_of_okWith (p := fun _ => true)
    (show (CfgBuilder.cfgFromAdjacencyList figure1).okWith fun _ => true by decide)
  obtain ⟨b, hb, hcons, hentry⟩ := CfgBuilder.exists_of_cfgFromAdjacencyList hg
  exact ⟨g, hg, collectBasicBlocks_spec (hb ▸ hcons.matched hentry) (OrdMap.nodup_keys _)
    fun _ => Iff.rfl⟩

end BasicBlock

end Prevail
