import Prevail.Crab.SelectPotentials
import Prevail.Lib.Stamps

/-!
# The scratch space of the searches

All searches of `GraphOps` share the arrays `dists`, `dist_ts` and `vert_marks`, which are never
cleared: a distance is current when its time stamp is, and a sliding index keeps old stamps from
matching again once the stamp has wrapped around.

`Scratch.Reachable` is what any history of calls leaves behind: growth, the start of a search, the
stamped writes of a search, complete or not, and the writes of the other algorithms, which do not
touch the stamps. `start_settles` states that the two searches never see what an earlier call
left behind: they are the searches on fresh maps of `GraphOps`.
-/

namespace Prevail

/-- `at` on the left of an assignment. -/
def setAt {α : Type*} (l : List α) (i : ℕ) (x : α) : Option (List α) :=
  if i < l.length then some (l.set i x) else none

theorem setAt_eq_some {α : Type*} {l l' : List α} {i : ℕ} {x : α} :
    setAt l i x = some l' ↔ i < l.length ∧ l.set i x = l' := by
  unfold setAt
  split_ifs with h
  · simp [h]
  · simp [h]

/-- The scratch arrays with their size, the time stamp and the index that slides. -/
structure Scratch where
  scratchSz : ℕ
  dists : List ℤ
  distTs : List (BitVec 32)
  ts : BitVec 32
  tsIdx : BitVec 32

namespace Scratch

/-- `clear_thread_local_state`. -/
def clear : Scratch := ⟨0, [], [], 0, 0⟩

/-- Double the size until `sz` vertices fit. `sz` steps are enough. -/
def doubled (sz : ℕ) : ℕ → ℕ → ℕ
  | 0, newSz => newSz
  | fuel + 1, newSz => if newSz < sz then doubled sz fuel (newSz * 2) else newSz

/-- `grow_scratch`. The table of edge marks has one byte for each pair of vertices, and `resize`
throws beyond the largest size of a vector. -/
def growScratch (st : Scratch) (sz : ℕ) : Option Scratch :=
  if sz ≤ st.scratchSz then some st
  else
    let newSz := doubled sz sz (if st.scratchSz = 0 then 10 else st.scratchSz)
    if newSz * newSz % 2 ^ 64 < 2 ^ 63 then
      some { st with
        scratchSz := newSz
        dists := st.dists ++ List.replicate (newSz - st.dists.length) 0
        distTs := st.distTs ++ List.replicate (newSz - st.dists.length) (st.ts - 1) }
    else none

/-- "Reset all vertices to infty": the source alone gets a current distance. -/
def start (st : Scratch) (src : ℕ) : Option Scratch := do
  let distTs ← setAt st.distTs st.tsIdx.toNat st.ts
  let ts := st.ts + 1
  let tsIdx := BitVec.ofNat 32 ((st.tsIdx + 1).toNat % st.dists.length)
  let dists ← setAt st.dists src 0
  let distTs ← setAt distTs src ts
  some { st with dists := dists, distTs := distTs, ts := ts, tsIdx := tsIdx }

/-- Give a vertex a current distance. -/
def write (st : Scratch) (d : ℕ) (v : ℤ) : Option Scratch := do
  let dists ← setAt st.dists d v
  let distTs ← setAt st.distTs d st.ts
  some { st with dists := dists, distTs := distTs }

/-- `dists_compare`. -/
def distsCompare (st : Scratch) (x y : ℕ) : Bool := decide (st.dists.getD x 0 < st.dists.getD y 0)

/-- What the calls of a thread leave behind. A graph has at most `2 ^ 32` vertices, as many as
there are `VertId`s. -/
inductive Reachable : Scratch → Prop
  | clear : Reachable clear
  | grow {st st' : Scratch} {sz : ℕ} :
      Reachable st → sz ≤ 2 ^ 32 → st.growScratch sz = some st' → Reachable st'
  | start {st st' : Scratch} {src : ℕ} : Reachable st → st.start src = some st' → Reachable st'
  | write {st st' : Scratch} {d : ℕ} {v : ℤ} : Reachable st → st.write d v = some st' → Reachable st'
  | other {st : Scratch} {dists : List ℤ} :
      Reachable st → dists.length = st.dists.length → Reachable { st with dists := dists }

/-! ## Old stamps never match -/

theorem doubled_spec (sz fuel newSz : ℕ) (hpos : 0 < newSz) (hfuel : sz ≤ newSz + fuel) :
    sz ≤ doubled sz fuel newSz ∧
      ∃ j, doubled sz fuel newSz = newSz * 2 ^ j ∧ (j = 0 ∨ doubled sz fuel newSz < 2 * sz) := by
  induction fuel generalizing newSz with
  | zero => exact ⟨hfuel, 0, by rw [pow_zero, mul_one]; rfl, Or.inl rfl⟩
  | succ fuel ih =>
    unfold doubled
    split_ifs with hlt
    · obtain ⟨hle, j, hj, hup⟩ := ih (newSz * 2) (by omega) (by omega)
      refine ⟨hle, j + 1, by rw [hj, pow_succ', mul_assoc], Or.inr ?_⟩
      rcases hup with rfl | hup
      · rw [hj]
        omega
      · exact hup
    · exact ⟨by omega, 0, by rw [pow_zero, mul_one], Or.inl rfl⟩

/-- The sizes the scratch arrays can have. -/
def Size (n : ℕ) : Prop := n = 0 ∨ ∃ k ≤ 28, n = 10 * 2 ^ k

theorem Size.lt {n : ℕ} (h : Size n) : n < 2 ^ 32 := by
  rcases h with rfl | ⟨k, hk, rfl⟩
  · omega
  · have : 2 ^ k ≤ 2 ^ 28 := Nat.pow_le_pow_right (by omega) hk
    omega

/-- The table of edge marks keeps the size below the number of stamps. -/
theorem Size.grow {n sz : ℕ} (h : Size n) (hsz : sz ≤ 2 ^ 32)
    (hfit : doubled sz sz (if n = 0 then 10 else n) * doubled sz sz (if n = 0 then 10 else n) %
      2 ^ 64 < 2 ^ 63) : Size (doubled sz sz (if n = 0 then 10 else n)) := by
  obtain ⟨k, hk, hn⟩ : ∃ k ≤ 28, (if n = 0 then 10 else n) = 10 * 2 ^ k := by
    rcases h with rfl | ⟨k, hk, rfl⟩
    · exact ⟨0, by omega, rfl⟩
    · exact ⟨k, hk, if_neg (by positivity)⟩
  obtain ⟨-, j, hj, hup⟩ := doubled_spec sz sz (10 * 2 ^ k) (by positivity) (by omega)
  rw [hn] at hfit ⊢
  have hkj : doubled sz sz (10 * 2 ^ k) = 10 * 2 ^ (k + j) := by rw [hj, pow_add, mul_assoc]
  rcases hup with rfl | hup
  · exact Or.inr ⟨k, hk, by simpa using hkj⟩
  · rw [hkj] at hup hfit ⊢
    have h29 : k + j ≤ 29 := by
      by_contra hlt
      have : 2 ^ 30 ≤ 2 ^ (k + j) := Nat.pow_le_pow_right (by omega) (by omega)
      omega
    have hne : k + j ≠ 29 := by
      intro heq
      rw [heq] at hfit
      exact absurd hfit (by decide)
    exact Or.inr ⟨k + j, by omega, rfl⟩

/-- The arrays have their size, and every stamp is among the last ones. -/
structure Sound (st : Scratch) : Prop where
  dists : st.dists.length = st.scratchSz
  distTs : st.distTs.length = st.scratchSz
  size : Size st.scratchSz
  idx : st.tsIdx.toNat < st.scratchSz ∨ st.tsIdx.toNat = 0
  aged : Stamps.Aged st.distTs st.ts st.tsIdx.toNat

theorem sound_clear : Sound clear :=
  ⟨rfl, rfl, Or.inl rfl, Or.inr rfl, Stamps.aged_nil⟩

theorem Sound.grow {st st' : Scratch} {sz : ℕ} (h : st.Sound) (hsz : sz ≤ 2 ^ 32)
    (hgrow : st.growScratch sz = some st') : st'.Sound ∧ sz ≤ st'.scratchSz := by
  unfold growScratch at hgrow
  by_cases hle : sz ≤ st.scratchSz
  · rw [if_pos hle] at hgrow
    exact Option.some.inj hgrow ▸ ⟨h, hle⟩
  · rw [if_neg hle] at hgrow
    obtain ⟨hfit, hgrow⟩ := Option.ite_none_right_eq_some.mp hgrow
    obtain rfl := Option.some.inj hgrow
    have hsize := h.size.grow hsz hfit
    obtain ⟨hfits, j, hj, -⟩ := doubled_spec sz sz
      (if st.scratchSz = 0 then 10 else st.scratchSz) (by split_ifs <;> omega) (by omega)
    have hmono : st.scratchSz ≤ doubled sz sz (if st.scratchSz = 0 then 10 else st.scratchSz) :=
      (not_le.mp hle).le.trans hfits
    have hidx : st.tsIdx.toNat ≤ st.distTs.length := by
      rw [h.distTs]
      exact h.idx.elim (fun hlt => hlt.le) fun h0 => h0 ▸ Nat.zero_le _
    have hd := h.dists
    have ht := h.distTs
    refine ⟨⟨?_, ?_, hsize, ?_, h.aged.append hidx _⟩, hfits⟩
    · rw [List.length_append, List.length_replicate, hd]
      exact Nat.add_sub_cancel' hmono
    · rw [List.length_append, List.length_replicate, hd, ht]
      exact Nat.add_sub_cancel' hmono
    · exact h.idx.imp_left fun hlt => hlt.trans_le hmono

theorem start_eq_some {st st' : Scratch} {src : ℕ} : st.start src = some st' ↔
    st.tsIdx.toNat < st.distTs.length ∧ src < st.dists.length ∧ src < st.distTs.length ∧
      st' = { st with
        dists := st.dists.set src 0
        distTs := (st.distTs.set st.tsIdx.toNat st.ts).set src (st.ts + 1)
        ts := st.ts + 1
        tsIdx := BitVec.ofNat 32 ((st.tsIdx + 1).toNat % st.dists.length) } := by
  unfold start
  simp only [Option.bind_eq_bind, Option.bind_eq_some_iff, setAt_eq_some]
  constructor
  · rintro ⟨_, ⟨hidx, rfl⟩, _, ⟨hsrc, rfl⟩, _, ⟨hsrc', rfl⟩, heq⟩
    exact ⟨hidx, hsrc, by simpa using hsrc', (Option.some.inj heq).symm⟩
  · rintro ⟨hidx, hsrc, hsrc', rfl⟩
    exact ⟨_, ⟨hidx, rfl⟩, _, ⟨hsrc, rfl⟩, _, ⟨by simpa using hsrc', rfl⟩, rfl⟩

theorem Sound.start {st st' : Scratch} {src : ℕ} (h : st.Sound) (hstart : st.start src = some st') :
    st'.Sound ∧ st'.scratchSz = st.scratchSz ∧
      ∀ v < st'.distTs.length, st'.distTs.getD v 0 = st'.ts ↔ v = src := by
  obtain ⟨hidx, hsrc, hsrc', rfl⟩ := start_eq_some.mp hstart
  have hlt := h.size.lt
  have hlen := h.dists.trans h.distTs.symm
  have hnext : (BitVec.ofNat 32 ((st.tsIdx + 1).toNat % st.dists.length)).toNat =
      (st.tsIdx.toNat + 1) % st.distTs.length := by
    have hmod : (st.tsIdx.toNat + 1) % st.distTs.length < st.distTs.length :=
      Nat.mod_lt _ (by omega)
    have hsucc : (st.tsIdx + 1).toNat = st.tsIdx.toNat + 1 := by
      rw [BitVec.toNat_add]
      exact Nat.mod_eq_of_lt ((Nat.succ_le_of_lt hidx).trans_lt (h.distTs ▸ hlt))
    rw [hsucc, hlen, BitVec.toNat_ofNat, Nat.mod_eq_of_lt (hmod.trans (h.distTs ▸ hlt))]
  refine ⟨⟨?_, ?_, h.size, ?_, ?_⟩, rfl, fun v hv => ?_⟩
  · rw [List.length_set, h.dists]
  · rw [List.length_set, List.length_set, h.distTs]
  · refine Or.inl ?_
    rw [hnext, h.distTs]
    exact Nat.mod_lt _ (by have := h.distTs; omega)
  · rw [hnext]
    exact (h.aged.reset hidx).mark (by simpa using hsrc')
  · simp only [List.length_set] at hv
    rw [getD_set (by simpa using hsrc')]
    split_ifs with hvs
    · exact iff_of_true rfl hvs
    · exact iff_of_false (h.aged.reset_ne hidx (h.distTs ▸ hlt) hv) hvs

theorem write_eq_some {st st' : Scratch} {d : ℕ} {v : ℤ} : st.write d v = some st' ↔
    d < st.dists.length ∧ d < st.distTs.length ∧
      st' = { st with dists := st.dists.set d v, distTs := st.distTs.set d st.ts } := by
  unfold write
  simp only [Option.bind_eq_bind, Option.bind_eq_some_iff, setAt_eq_some]
  constructor
  · rintro ⟨_, ⟨hd, rfl⟩, _, ⟨ht, rfl⟩, heq⟩
    exact ⟨hd, ht, (Option.some.inj heq).symm⟩
  · rintro ⟨hd, ht, rfl⟩
    exact ⟨_, ⟨hd, rfl⟩, _, ⟨ht, rfl⟩, rfl⟩

theorem Reachable.sound {st : Scratch} (h : Reachable st) : st.Sound := by
  induction h with
  | clear => exact sound_clear
  | grow _ hsz hgrow ih => exact (ih.grow hsz hgrow).1
  | start _ hstart ih => exact (ih.start hstart).1
  | write _ hwrite ih =>
    obtain ⟨hd, ht, rfl⟩ := write_eq_some.mp hwrite
    exact ⟨by simpa using ih.dists, by simpa using ih.distTs, ih.size, ih.idx, ih.aged.mark ht⟩
  | other _ hlen ih => exact ⟨hlen.trans ih.dists, ih.distTs, ih.size, ih.idx, ih.aged⟩

end Scratch

/-! ## The search on the scratch arrays -/

/-- A search: the scratch arrays, `vert_marks`, which the searches share as well, and the heap. -/
structure ScratchSearch (M : Type) where
  scratch : Scratch
  vertMarks : List M
  heap : List ℕ

namespace ScratchSearch

open GraphOps (DijkstraState improvement)

section Search

variable {M : Type}

/-- Give `d` the distance `v` and the mark `m`, and put it in its place in the heap. -/
def setDist (s : ScratchSearch M) (d : ℕ) (v : ℤ) (m : M) : Option (ScratchSearch M) := do
  let scratch ← s.scratch.write d v
  let vertMarks ← setAt s.vertMarks d m
  some ⟨scratch, vertMarks,
    if d ∈ s.heap then Heap.decrease scratch.distsCompare d s.heap
    else Heap.insert scratch.distsCompare d s.heap⟩

variable (join : M → M → M) (p : ℕ → ℤ)

/-- Relax the edge to `e.1` of weight `e.2.1` from a vertex at distance `esCost`. The distance is
read under a current stamp only. -/
def relaxEdge (esCost : ℤ) (s : ScratchSearch M) (e : ℕ × ℤ × M) : Option (ScratchSearch M) := do
  let v := esCost + e.2.1 - p e.1
  let stamp ← s.scratch.distTs[e.1]?
  if stamp ≠ s.scratch.ts then s.setDist e.1 v e.2.2
  else
    let old ← s.scratch.dists[e.1]?
    if v < old then s.setDist e.1 v e.2.2
    else if v = old then
      let m ← s.vertMarks[e.1]?
      some { s with vertMarks := s.vertMarks.set e.1 (join m e.2.2) }
    else some s

variable (g : GraphView) (expand : ℕ → M → List (ℕ × ℤ × M)) (src : ℕ)

/-- The main loop, with the state it stops in. -/
def loop : ℕ → ScratchSearch M → List (ℕ × ℤ) → Option (ScratchSearch M × List (ℕ × ℤ))
  | 0, s, out => some (s, out)
  | fuel + 1, s, out =>
    match Heap.removeMin s.scratch.distsCompare s.heap with
    | none => some (s, out)
    | some (es, heap) => do
      let d ← s.scratch.dists[es]?
      let m ← s.vertMarks[es]?
      let s' ← (expand es m).foldlM (relaxEdge join p (d + p es)) { s with heap := heap }
      loop fuel s' (out ++ improvement g src es (d + p es - p src))

/-- The search before the main loop: the successors of `src` in the heap. -/
def init (mark : ℕ → M) (st : Scratch) (vertMarks : List M) : Option (ScratchSearch M) :=
  (g.eSuccs src).foldlM (fun s e => s.setDist e.1 (p src + e.2 - p e.1) (mark e.1)) ⟨st, vertMarks, []⟩

/-- The search from the scratch arrays that `start` left, for at most `fuel` rounds. -/
def dijkstra (mark : ℕ → M) (fuel : ℕ) (st : Scratch) (vertMarks : List M) :
    Option (ScratchSearch M × List (ℕ × ℤ)) := do
  let s ← init p g src mark st vertMarks
  loop join p g expand src fuel s []

end Search

/-! ## The search sees only its own distances -/

variable {M : Type} {n : ℕ} {stamp : BitVec 32} {s : ScratchSearch M} {a : DijkstraState M}

/-- A search on the scratch arrays and one on fresh maps: the distances under the stamp of the
search are those of the map, and the heap, which is the same, holds marked vertices under it. -/
structure Simulates (n : ℕ) (stamp : BitVec 32) (s : ScratchSearch M) (a : DijkstraState M) :
    Prop where
  reachable : s.scratch.Reachable
  ts : s.scratch.ts = stamp
  size : s.scratch.scratchSz = n
  vertMarks : s.vertMarks.length = n
  dists : ∀ v, a.dists.find? v = if s.scratch.distTs[v]? = some stamp then s.scratch.dists[v]? else none
  heap : s.heap = a.heap
  queued : ∀ v ∈ a.heap, s.scratch.distTs[v]? = some stamp ∧ a.vertMarks.find? v = s.vertMarks[v]?

theorem agreeOn_distsCompare {st : Scratch} {dists : OrdMap ℕ ℤ} {heap : List ℕ}
    (h : ∀ v ∈ heap, dists.find? v = st.dists[v]?) :
    Heap.AgreeOn st.distsCompare (GraphOps.distsCompare dists) heap := by
  intro x hx y hy
  unfold Scratch.distsCompare GraphOps.distsCompare
  rw [h x hx, h y hy, List.getD_eq_getElem?_getD, List.getD_eq_getElem?_getD]

theorem Simulates.find?_queued (h : Simulates n stamp s a) {v : ℕ} (hv : v ∈ a.heap) :
    a.dists.find? v = s.scratch.dists[v]? := by
  rw [h.dists v, if_pos (h.queued v hv).1]

theorem Simulates.length_dists (h : Simulates n stamp s a) : s.scratch.dists.length = n :=
  h.reachable.sound.dists.trans h.size

theorem Simulates.length_distTs (h : Simulates n stamp s a) : s.scratch.distTs.length = n :=
  h.reachable.sound.distTs.trans h.size

theorem Simulates.lt (h : Simulates n stamp s a) {v : ℕ} (hv : s.scratch.distTs[v]? = some stamp) :
    v < n :=
  h.length_distTs ▸ (List.getElem?_eq_some_iff.mp hv).1

theorem Simulates.setDist (h : Simulates n stamp s a) {d : ℕ} (hd : d < n) (v : ℤ) (m : M) :
    ∃ s', s.setDist d v m = some s' ∧ Simulates n stamp s' (GraphOps.setDist a d v m) := by
  have hdd : d < s.scratch.dists.length := h.length_dists ▸ hd
  have hdt : d < s.scratch.distTs.length := h.length_distTs ▸ hd
  have hdm : d < s.vertMarks.length := h.vertMarks ▸ hd
  obtain ⟨st, hwrite, hst⟩ : ∃ st, s.scratch.write d v = some st ∧ st = { s.scratch with
      dists := s.scratch.dists.set d v, distTs := s.scratch.distTs.set d s.scratch.ts } :=
    ⟨_, Scratch.write_eq_some.mpr ⟨hdd, hdt, rfl⟩, rfl⟩
  have hdists : st.dists = s.scratch.dists.set d v := by rw [hst]
  have hdistTs : st.distTs = s.scratch.distTs.set d stamp := by rw [hst, h.ts]
  have hread : ∀ u, (a.dists.insert d v).find? u =
      if st.distTs[u]? = some stamp then st.dists[u]? else none := by
    intro u
    rw [OrdMap.find?_insert, hdists, hdistTs, List.getElem?_set, List.getElem?_set, if_pos hdt,
      if_pos hdd, h.dists u]
    by_cases hu : d = u
    · simp [hu]
    · simp [hu, Ne.symm hu]
  have hqueued : ∀ u ∈ d :: a.heap, st.distTs[u]? = some stamp ∧
      (a.vertMarks.insert d m).find? u = (s.vertMarks.set d m)[u]? := by
    intro u hu
    rw [OrdMap.find?_insert, hdistTs, List.getElem?_set, List.getElem?_set, if_pos hdt, if_pos hdm]
    by_cases hud : d = u
    · simp [hud]
    · have hq := h.queued u ((List.mem_cons.mp hu).resolve_left (Ne.symm hud))
      simp [hud, Ne.symm hud, hq]
  have hagree : Heap.AgreeOn st.distsCompare (GraphOps.distsCompare (a.dists.insert d v))
      (d :: a.heap) :=
    agreeOn_distsCompare fun u hu => by rw [hread u, if_pos (hqueued u hu).1]
  have hheap : (if d ∈ s.heap then Heap.decrease st.distsCompare d s.heap
      else Heap.insert st.distsCompare d s.heap) = (GraphOps.setDist a d v m).heap := by
    unfold GraphOps.setDist
    rw [h.heap]
    split_ifs with hmem
    · exact Heap.decrease_congr (hagree.mono fun y => List.mem_cons_of_mem d) hmem
    · exact Heap.insert_congr hagree
  have hmem : ∀ u ∈ (GraphOps.setDist a d v m).heap, u ∈ d :: a.heap := by
    unfold GraphOps.setDist
    intro u hu
    simp only at hu
    split_ifs at hu with hmem
    · exact List.mem_cons_of_mem d (Heap.mem_decrease hmem hu)
    · exact List.mem_cons.mpr (Heap.mem_insert hu)
  refine ⟨⟨st, s.vertMarks.set d m, (GraphOps.setDist a d v m).heap⟩, ?_, ?_⟩
  · unfold ScratchSearch.setDist
    simp only [Option.bind_eq_bind, Option.bind_eq_some_iff]
    exact ⟨st, hwrite, _, setAt_eq_some.mpr ⟨hdm, rfl⟩, by rw [hheap]⟩
  · exact ⟨.write h.reachable hwrite, by rw [hst]; exact h.ts, by rw [hst]; exact h.size,
      by rw [List.length_set, h.vertMarks], hread, rfl, fun u hu => hqueued u (hmem u hu)⟩

/-- A loop over edges whose steps keep the relation keeps it. -/
theorem Simulates.foldlM {E : Type} {f : ScratchSearch M → E → Option (ScratchSearch M)}
    {f' : DijkstraState M → E → DijkstraState M} {l : List E}
    (hf : ∀ e ∈ l, ∀ s a, Simulates n stamp s a →
      ∃ s', f s e = some s' ∧ Simulates n stamp s' (f' a e))
    (h : Simulates n stamp s a) :
    ∃ s', l.foldlM f s = some s' ∧ Simulates n stamp s' (l.foldl f' a) := by
  induction l generalizing s a with
  | nil => exact ⟨s, rfl, h⟩
  | cons e l ih =>
    obtain ⟨s₁, h₁, hs₁⟩ := hf e List.mem_cons_self s a h
    obtain ⟨s₂, h₂, hs₂⟩ := ih (fun e he => hf e (List.mem_cons_of_mem _ he)) hs₁
    exact ⟨s₂, by rw [List.foldlM_cons, h₁]; exact h₂, hs₂⟩

/-- The arrays that `start` leaves hold the distance of the source only. -/
theorem simulates_start {st st' : Scratch} {src : ℕ} {vertMarks : List M} (h : st.Reachable)
    (hstart : st.start src = some st') (hlen : vertMarks.length = st'.scratchSz) :
    Simulates st'.scratchSz st'.ts ⟨st', vertMarks, []⟩ ⟨(∅ : OrdMap ℕ ℤ).insert src 0, ∅, []⟩ := by
  refine ⟨.start h hstart, rfl, rfl, hlen, fun v => ?_, rfl, by simp⟩
  obtain ⟨-, -, hcur⟩ := h.sound.start hstart
  have hiff : st'.distTs[v]? = some st'.ts ↔ v = src := by
    rw [List.getElem?_eq_some_iff]
    constructor
    · rintro ⟨hv, heq⟩
      exact (hcur v hv).mp (by rw [List.getD_eq_getElem _ _ hv, heq])
    · rintro rfl
      obtain ⟨-, -, hsrc, rfl⟩ := Scratch.start_eq_some.mp hstart
      exact ⟨by simpa using hsrc, by simp⟩
  rw [OrdMap.find?_insert, OrdMap.find?_empty]
  split_ifs with hv hts hts
  · obtain ⟨-, hsrc, -, rfl⟩ := Scratch.start_eq_some.mp hstart
    simp [hv, hsrc]
  · exact absurd (hiff.mpr hv) hts
  · exact absurd (hiff.mp hts) hv
  · rfl

variable [Inhabited M] {join : M → M → M} {p : ℕ → ℤ}

theorem Simulates.joinMark (h : Simulates n stamp s a) {d : ℕ} (hd : d < s.vertMarks.length) (m : M) :
    Simulates n stamp { s with vertMarks := s.vertMarks.set d (join s.vertMarks[d] m) }
      { a with vertMarks := a.vertMarks.insert d (join ((a.vertMarks.find? d).getD default) m) } := by
  refine ⟨h.reachable, h.ts, h.size, by rw [List.length_set, h.vertMarks], h.dists, h.heap,
    fun u hu => ⟨(h.queued u hu).1, ?_⟩⟩
  have hq := (h.queued u hu).2
  rw [OrdMap.find?_insert, List.getElem?_set, if_pos hd]
  by_cases hud : d = u
  · subst hud
    rw [if_pos rfl, if_pos rfl, hq, List.getElem?_eq_getElem hd, Option.getD_some]
  · rw [if_neg (Ne.symm hud), if_neg hud, hq]

theorem Simulates.relaxEdge (h : Simulates n stamp s a) (esCost : ℤ) {e : ℕ × ℤ × M} (he : e.1 < n) :
    ∃ s', s.relaxEdge join p esCost e = some s' ∧
      Simulates n stamp s' (GraphOps.relaxEdge join p esCost a e) := by
  have hdd : e.1 < s.scratch.dists.length := h.length_dists ▸ he
  have hdt : e.1 < s.scratch.distTs.length := h.length_distTs ▸ he
  have hdm : e.1 < s.vertMarks.length := h.vertMarks ▸ he
  have hdist := h.dists e.1
  unfold ScratchSearch.relaxEdge GraphOps.relaxEdge
  rw [List.getElem?_eq_getElem hdt, List.getElem?_eq_getElem hdd, List.getElem?_eq_getElem hdm]
  rw [List.getElem?_eq_getElem hdt, List.getElem?_eq_getElem hdd] at hdist
  by_cases hts : s.scratch.distTs[e.1] = stamp
  · rw [if_pos (congrArg some hts)] at hdist
    simp only [Option.bind_eq_bind, Option.bind_some, hdist, h.ts, hts, ne_eq, not_true_eq_false,
      if_false]
    split_ifs with hlt heq
    · exact h.setDist he _ _
    · exact ⟨_, rfl, h.joinMark hdm _⟩
    · exact ⟨s, rfl, h⟩
  · rw [if_neg fun heq => hts (Option.some.inj heq)] at hdist
    simp only [Option.bind_eq_bind, Option.bind_some, hdist, h.ts, ne_eq, hts, not_false_eq_true,
      if_true]
    exact h.setDist he _ _

variable {g : GraphView} {expand : ℕ → M → List (ℕ × ℤ × M)} {src : ℕ}

theorem Simulates.loop (hexpand : ∀ es m, ∀ e ∈ expand es m, e.1 < n) (fuel : ℕ)
    (h : Simulates n stamp s a) (out : List (ℕ × ℤ)) :
    ∃ s', loop join p g expand src fuel s out =
        some (s', GraphOps.dijkstraLoop join p g expand src fuel a out) ∧
      ∃ a', Simulates n stamp s' a' := by
  induction fuel generalizing s a out with
  | zero => exact ⟨s, rfl, a, h⟩
  | succ fuel ih =>
    unfold ScratchSearch.loop GraphOps.dijkstraLoop
    rw [h.heap, Heap.removeMin_congr (agreeOn_distsCompare fun v hv => h.find?_queued hv)]
    cases hmin : Heap.removeMin (GraphOps.distsCompare a.dists) a.heap with
    | none => exact ⟨s, rfl, a, h⟩
    | some r =>
      obtain ⟨es, heap⟩ := r
      obtain ⟨hes, hsub⟩ := Heap.mem_of_removeMin hmin
      have hlt := h.lt (h.queued es hes).1
      have hdd : es < s.scratch.dists.length := h.length_dists ▸ hlt
      have hdm : es < s.vertMarks.length := h.vertMarks ▸ hlt
      have hpop : Simulates n stamp { s with heap := heap } { a with heap := heap } :=
        ⟨h.reachable, h.ts, h.size, h.vertMarks, h.dists, rfl, fun v hv => h.queued v (hsub v hv)⟩
      obtain ⟨s₁, h₁, hs₁⟩ := hpop.foldlM
        (f := ScratchSearch.relaxEdge join p (s.scratch.dists[es] + p es))
        (l := expand es s.vertMarks[es])
        fun e he s a hs => hs.relaxEdge _ (hexpand _ _ e he)
      obtain ⟨s', h', hs'⟩ := ih hs₁
        (out ++ improvement g src es (s.scratch.dists[es] + p es - p src))
      refine ⟨s', ?_, hs'⟩
      simp only [List.getElem?_eq_getElem hdd, List.getElem?_eq_getElem hdm, Option.bind_eq_bind,
        Option.bind_some, h₁, h', h.find?_queued hes, (h.queued es hes).2, Option.getD_some]

/-- After any number of rounds a search found what the search on fresh maps finds. It read no
distance but those it wrote: what it has queued carries its stamp. -/
def Settles (st : Scratch) (run : ℕ → Scratch → List M → Option (ScratchSearch M × List (ℕ × ℤ)))
    (fresh : ℕ → List (ℕ × ℤ)) : Prop :=
  ∀ fuel vertMarks, vertMarks.length = st.scratchSz →
    ∃ s, run fuel st vertMarks = some (s, fresh fuel) ∧ s.scratch.Reachable ∧
      s.scratch.ts = st.ts ∧ ∀ v ∈ s.heap, s.scratch.distTs[v]? = some st.ts

theorem settles_dijkstra {st st' : Scratch} (mark : ℕ → M) (h : st.Reachable)
    (hstart : st.start src = some st') (hg : ∀ e ∈ g.eSuccs src, e.1 < st'.scratchSz)
    (hexpand : ∀ es m, ∀ e ∈ expand es m, e.1 < st'.scratchSz) :
    Settles st' (dijkstra join p g expand src mark) fun fuel =>
      GraphOps.dijkstraLoop join p g expand src fuel (GraphOps.dijkstraInit p g src mark) [] := by
  intro fuel vertMarks hlen
  obtain ⟨s₁, h₁, hs₁⟩ := (simulates_start h hstart hlen).foldlM
    (f := fun s e => s.setDist e.1 (p src + e.2 - p e.1) (mark e.1)) (l := g.eSuccs src)
    fun e he s a hs => hs.setDist (hg e he) _ _
  obtain ⟨s₂, h₂, a', hs₂⟩ := hs₁.loop hexpand fuel []
  refine ⟨s₂, ?_, hs₂.reachable, hs₂.ts, fun v hv => (hs₂.queued v (hs₂.heap ▸ hv)).1⟩
  unfold dijkstra init
  rw [h₁]
  exact h₂

section Searches

open GraphOps

variable (g : GraphView) (p : ℕ → ℤ) (src fuel : ℕ) (st : Scratch)

/-- `chrome_dijkstra` after its scratch space has been started. -/
def chromeDijkstra (l r : GraphView) (vertMarks : List CMark) :
    Option (ScratchSearch CMark × List (ℕ × ℤ)) :=
  dijkstra CMark.or p g (chromeExpand g l r) src (edgeMark g l r src) fuel st vertMarks

/-- `dijkstra_recover` after its scratch space has been started. -/
def dijkstraRecover (isStable : ℕ → Bool) (vertMarks : List SMark) :
    Option (ScratchSearch SMark × List (ℕ × ℤ)) :=
  dijkstra SMark.or p g (recoverExpand g isStable) src (fun _ => .unstable) fuel st vertMarks

end Searches

open GraphOps in
/-- Whatever the scratch arrays went through, a run starts with the source alone under its stamp,
and its search is the one on fresh maps. -/
theorem start_settles {g : GraphView} {src : ℕ} {st st₁ : Scratch} (p : ℕ → ℤ) (l r : GraphView)
    (isStable : ℕ → Bool) (hst : st.Reachable) (hsz : g.size ≤ 2 ^ 32) (hsrc : src < g.size)
    (hg : ∀ s, ∀ e ∈ g.eSuccs s, e.1 < g.size) (hgrow : st.growScratch g.size = some st₁) :
    ∃ st₂, st₁.start src = some st₂ ∧
      (∀ v < st₂.distTs.length, st₂.distTs.getD v 0 = st₂.ts ↔ v = src) ∧
      Settles st₂ (fun fuel st => chromeDijkstra g p src fuel st l r) (fun fuel =>
        dijkstraLoop CMark.or p g (chromeExpand g l r) src fuel
          (dijkstraInit p g src (edgeMark g l r src)) []) ∧
      Settles st₂ (fun fuel st => dijkstraRecover g p src fuel st isStable) (fun fuel =>
        dijkstraLoop SMark.or p g (recoverExpand g isStable) src fuel
          (dijkstraInit p g src fun _ => .unstable) []) := by
  have hst₁ : st₁.Reachable := .grow hst hsz hgrow
  obtain ⟨hsound, hle⟩ := hst.sound.grow hsz hgrow
  have hidx : st₁.tsIdx.toNat < st₁.scratchSz := hsound.idx.elim id fun h0 => by omega
  obtain ⟨st₂, hstart⟩ : ∃ st₂, st₁.start src = some st₂ :=
    ⟨_, Scratch.start_eq_some.mpr ⟨hsound.distTs ▸ hidx, by have := hsound.dists; omega,
      by have := hsound.distTs; omega, rfl⟩⟩
  obtain ⟨-, hsize, hcur⟩ := hsound.start hstart
  have hsucc : ∀ s, ∀ e ∈ g.eSuccs s, e.1 < st₂.scratchSz := fun s e he => by
    have := hg s e he
    omega
  refine ⟨st₂, hstart, hcur, settles_dijkstra _ hst₁ hstart (hsucc src) fun es m e he => ?_,
    settles_dijkstra _ hst₁ hstart (hsucc src) fun es m e he => ?_⟩
  · unfold chromeExpand at he
    split_ifs at he
    · cases he
    all_goals
      obtain ⟨d, hd, rfl⟩ := List.mem_map.mp he
      obtain ⟨e', he', rfl⟩ := List.mem_map.mp (List.mem_filter.mp hd).1
      exact hsucc es e' he'
  · unfold recoverExpand at he
    split_ifs at he
    · cases he
    all_goals
      obtain ⟨e', he', rfl⟩ := List.mem_map.mp he
      exact hsucc es e' he'

/-- Twelve vertices with an edge from the first one to the last one. -/
def twelve : GraphView := ((AdaptGraph.grow 12).setEdge 0 5 11).view

theorem lt_twelve (s : ℕ) (e : ℕ × ℤ) (he : e ∈ twelve.eSuccs s) : e.1 < twelve.size := by
  have hlook : ((AdaptGraph.grow 12).setEdge 0 5 11).lookup s e.1 = some e.2 := AdaptGraph.mem_eSuccs.mp he
  rw [AdaptGraph.lookup_setEdge] at hlook
  split_ifs at hlook with h
  · rw [h.2]
    decide
  · cases hlook

/-- A search from the fourth of ten vertices has given the first one a distance. -/
def searched : Scratch :=
  ⟨10, [7, 0, 0, 0, 0, 0, 0, 0, 0, 0], [1, -1, -1, 1, -1, -1, -1, -1, -1, -1], 1, 1⟩

theorem reachable_searched : searched.Reachable := by
  have hgrow : Scratch.Reachable ⟨10, List.replicate 10 0, List.replicate 10 (-1), 0, 0⟩ :=
    @Scratch.Reachable.grow _ _ 10 .clear (by decide) rfl
  have hstart : Scratch.Reachable
      ⟨10, List.replicate 10 0, [0, -1, -1, 1, -1, -1, -1, -1, -1, -1], 1, 1⟩ :=
    @Scratch.Reachable.start _ _ 3 hgrow rfl
  exact @Scratch.Reachable.write _ _ 0 7 hstart rfl

open GraphOps in
/-- The next search needs more room, and starts at the vertex that has an old distance. -/
theorem start_settles_regrown : ∃ st₂,
    Scratch.start ⟨20, searched.dists ++ List.replicate 10 0, searched.distTs ++ List.replicate 10 0, 1, 1⟩
      0 = some st₂ ∧
      (∀ v < st₂.distTs.length, st₂.distTs.getD v 0 = st₂.ts ↔ v = 0) ∧
      Settles st₂ (fun fuel st => ScratchSearch.chromeDijkstra twelve (fun _ => 0) 0 fuel st twelve twelve)
        (fun fuel => dijkstraLoop CMark.or (fun _ => 0) twelve (chromeExpand twelve twelve twelve) 0 fuel
          (dijkstraInit (fun _ => 0) twelve 0 (edgeMark twelve twelve twelve 0)) []) ∧
      Settles st₂
        (fun fuel st => ScratchSearch.dijkstraRecover twelve (fun _ => 0) 0 fuel st fun _ => false)
        (fun fuel => dijkstraLoop SMark.or (fun _ => 0) twelve (recoverExpand twelve fun _ => false) 0 fuel
          (dijkstraInit (fun _ => 0) twelve 0 fun _ => .unstable) []) :=
  start_settles (fun _ => 0) twelve twelve (fun _ => false) reachable_searched (by decide) (by decide)
    lt_twelve rfl

end ScratchSearch

end Prevail
