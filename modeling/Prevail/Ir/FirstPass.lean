import Prevail.Ir.InlineOrder

/-!
# The graph before calls are inlined

The first pass gives every instruction that is not undefined a node of its own, so that two of them
never share a label. An `Exit` leads to the exit only, a local call leads to one label only, and the
nodes that are added for the sides of a jump assume its condition.
-/

namespace Prevail

namespace CfgBuilder

variable {O C : Type} {b b' : CfgBuilder O C} {insts done : InstructionSeq O C} {l x y ft : Label}
  {i : Instruction O C}

/-- The instruction gets a node. -/
def Live (i : Instruction O C) : Prop := ∀ n, i ≠ .undefined n

/-- Instructions with a node have labels of their own. -/
def Distinct (insts : InstructionSeq O C) : Prop :=
  insts.Pairwise fun e e' => Live e.2 → Live e'.2 → e.1 ≠ e'.1

theorem Distinct.ne_last {e : Label × Instruction O C} (h : Distinct insts)
    (hpre : done ++ [e] <+: insts) : ∀ a ∈ done, Live a.2 → Live e.2 → a.1 ≠ e.1 := by
  intro a ha
  have hpair := List.Pairwise.sublist hpre.sublist h
  exact (List.pairwise_append.mp hpair).2.2 a ha e (List.mem_singleton_self e)

/-! ## The nodes -/

/-- The graph after the instructions `done` are put into it. -/
structure Inserted (done : InstructionSeq O C) (b : CfgBuilder O C) : Prop where
  consistent : b.Consistent
  noEdge : ∀ x y, ¬ b.Edge x y
  instr : ∀ x i, b.instructions.find? x = some i ↔
    ((x, i) ∈ done ∧ Live i) ∨ (x = .entry ∨ x = .exit) ∧ i = .undefined 0
  distinct : Distinct done

theorem Inserted.find_entry (h : Inserted done b) :
    b.instructions.find? .entry = some (.undefined 0) :=
  (h.instr _ _).mpr (Or.inr ⟨Or.inl rfl, rfl⟩)

theorem Inserted.find_exit (h : Inserted done b) :
    b.instructions.find? .exit = some (.undefined 0) :=
  (h.instr _ _).mpr (Or.inr ⟨Or.inr rfl, rfl⟩)

theorem inserted_init : Inserted [] (init : CfgBuilder O C) := by
  have hnode : ∀ x n, (init : CfgBuilder O C).cfg.neighbours.find? x = some n ↔
      (x = .entry ∨ x = .exit) ∧ n = ⟨∅, ∅⟩ := by
    intro x n
    simp only [init, Cfg.init, OrdMap.find?_insert]
    split_ifs with h₁ h₂ <;> simp_all [eq_comm]
  have hinstr : ∀ x i, (init : CfgBuilder O C).instructions.find? x = some i ↔
      (x = .entry ∨ x = .exit) ∧ i = .undefined 0 := by
    intro x i
    simp only [init, OrdMap.find?_insert]
    split_ifs with h₁ h₂ <;> simp_all [eq_comm]
  have hempty : ∀ x, ¬ (∅ : LabelSet).contains x := fun x hx => by cases hx
  have hedge : ∀ x y, ¬ (init : CfgBuilder O C).Edge x y := by
    rintro x y ⟨n, hn, hy⟩
    rw [((hnode x n).mp hn).2] at hy
    exact hempty y hy
  refine ⟨⟨fun x y => iff_of_false ?_ (hedge x y), fun x y h => absurd h (hedge x y), fun x => ?_⟩,
    hedge, by simpa using hinstr, List.Pairwise.nil⟩
  · rintro ⟨n, hn, hx⟩
    rw [((hnode y n).mp hn).2] at hx
    exact hempty x hx
  · simp [Has, hnode, hinstr]

theorem Inserted.step (h : Inserted done b) (hl : b.insert l i = .ok b') (hi : Live i) :
    Inserted (done ++ [(l, i)]) b' := by
  obtain ⟨hnew, hadd, hself⟩ := insert_spec hl h.consistent
  have hcons := hadd.consistent h.consistent
  have hfind : ∀ x j, x ≠ l → (b'.instructions.find? x = some j ↔
      b.instructions.find? x = some j) := by
    intro x j hx
    by_cases hhas : b.Has x
    · rw [hadd.instr x hhas]
    · have hhas' : ¬ b'.Has x := fun hc => ((hadd.has x).mp hc).elim hhas hx
      exact iff_of_false (fun hc => hhas' ((hcons.instr x).mpr ⟨j, hc⟩)) fun hc =>
        hhas ((h.consistent.instr x).mpr ⟨j, hc⟩)
  have hnone : ∀ j, b.instructions.find? l ≠ some j := fun j hj =>
    hnew ((h.consistent.instr l).mpr ⟨j, hj⟩)
  refine ⟨hcons, fun x y hxy => ?_, fun x j => ?_, ?_⟩
  · exact h.noEdge x y (((hadd.edge x y).mp hxy).resolve_right id)
  · by_cases hx : x = l
    · subst hx
      have hold := (h.instr x j).not.mp (hnone j)
      rw [not_or] at hold
      rw [hself, or_iff_left hold.2, List.mem_append, List.mem_singleton, Prod.mk.injEq,
        and_iff_right rfl, Option.some.injEq]
      constructor
      · rintro rfl
        exact ⟨Or.inr rfl, hi⟩
      · rintro ⟨hd | rfl, hj⟩
        · exact absurd ⟨hd, hj⟩ hold.1
        · rfl
    · rw [hfind x j hx, h.instr, List.mem_append, List.mem_singleton, Prod.mk.injEq,
        or_iff_left fun hc : x = l ∧ j = i => hx hc.1]
  · refine List.pairwise_append.mpr ⟨h.distinct, List.pairwise_singleton _ _, ?_⟩
    intro a ha e he hla _ heq
    obtain rfl := List.mem_singleton.mp he
    obtain ⟨l', j⟩ := a
    obtain rfl : l' = l := heq
    exact hnone j ((h.instr l' j).mpr (Or.inl ⟨ha, hla⟩))

/-- One instruction is put into the graph. -/
theorem Inserted.instruction {e : Label × Instruction O C} (h : Inserted done b)
    (he : (match e.2 with
      | .undefined _ => .ok b
      | i => b.insert e.1 i) = Except.ok b') : Inserted (done ++ [e]) b' := by
  obtain ⟨l, i⟩ := e
  dsimp only at he
  split at he
  · next n =>
    obtain rfl := Except.ok.inj he
    refine ⟨h.consistent, h.noEdge, fun x j => ?_, ?_⟩
    · rw [h.instr, List.mem_append, List.mem_singleton, Prod.mk.injEq, or_and_right (c := Live j),
        or_iff_left (b := _ ∧ Live j)]
      rintro ⟨⟨-, rfl⟩, hj⟩
      exact hj n rfl
    · refine List.pairwise_append.mpr ⟨h.distinct, List.pairwise_singleton _ _, ?_⟩
      intro a _ e he _ hlive
      rw [List.mem_singleton.mp he] at hlive
      exact absurd rfl (hlive n)
  · next hlive => exact h.step he hlive

theorem insertAll_spec (h : insertAll insts = .ok b) : Inserted insts b :=
  Except.foldlM_induction Inserted h inserted_init fun _ _ _ _ _ hdone hstep =>
    hdone.instruction hstep

/-! ## The edges -/

theorem insertJump_spec {src target : Label} (h : b.insertJump src target i = .ok b')
    (hb : b.Consistent) : ¬ b.Has (.makeJump src target) ∧
      Adds b b' (· = .makeJump src target) (fun x y => x = src ∧ y = .makeJump src target ∨
        x = .makeJump src target ∧ y = target) ∧
      b'.instructions.find? (.makeJump src target) = some i := by
  unfold insertJump at h
  dsimp only at h
  split_ifs at h
  obtain ⟨b₁, h₁, h⟩ := Except.bind_eq_ok.mp h
  obtain ⟨b₂, h₂, h₃⟩ := Except.bind_eq_ok.mp h
  obtain ⟨hnew, hadd₁, hinstr⟩ := insert_spec h₁ hb
  obtain ⟨-, -, hadd₂⟩ := addChild_spec h₂
  obtain ⟨-, -, hadd₃⟩ := addChild_spec h₃
  have hadd := hadd₂.trans hadd₃
  refine ⟨hnew, (hadd₁.trans hadd).congr (by simp) (by simp), ?_⟩
  rw [hadd.instr _ ((hadd₁.has _).mpr (Or.inr rfl)), hinstr]

/-- What joining the instruction `i` at `l` to its successors adds: the nodes `N` for the sides of
a jump, and the edges `E`. -/
structure Connects (b b' : CfgBuilder O C) (l : Label) (i : Instruction O C) (ft : Label)
    (N : Label → Prop) (E : Label → Label → Prop) : Prop where
  adds : Adds b b' N E
  live : ∀ x y, E x y → Live i
  source : ∀ x y, E x y → x = l ∨ N x
  new : ∀ x, N x → ¬ b.Has x ∧ (∃ c p, b'.instructions.find? x = some (.assume c p)) ∧
    ∃ t, (b.Has t ∨ t = ft) ∧ x = .makeJump l t
  exit : ∀ f, i = .exit f → ∀ x y, E x y ↔ x = l ∧ y = .exit
  call : ∀ t f, i = .callLocal t f → ∀ x y, E x y ↔ x = l ∧ y = ft

/-- An instruction that is no conditional jump leads to one label. -/
theorem connects_addChild (h : b.addChild l y = .ok b') (hi : Live i)
    (hexit : ∀ f, i = .exit f → y = .exit) (hcall : ∀ t f, i = .callLocal t f → y = ft) :
    Connects b b' l i ft (fun _ => False) fun u v => u = l ∧ v = y where
  adds := (addChild_spec h).2.2
  live _ _ _ := hi
  source _ _ h := Or.inl h.1
  new _ h := h.elim
  exit f hf u v := by rw [hexit f hf]
  call t f hf u v := by rw [hcall t f hf]

theorem connect_spec (h : b.connect l i ft = .ok b') (hb : b.Consistent) :
    ∃ N E, Connects b b' l i ft N E := by
  unfold connect at h
  split at h
  · obtain rfl := Except.ok.inj h
    exact ⟨_, _, Adds.refl b, by simp, by simp, by simp, by simp, by simp⟩
  · next cond target =>
    have hlive : Live (.jmp (some cond) target : Instruction O C) := fun n hn => by cases hn
    split_ifs at h with heq hc
    · exact ⟨_, _, connects_addChild h hlive (fun f hf => by cases hf) fun t f hf => by cases hf⟩
    · rw [Bool.not_eq_true', Bool.not_eq_false, contains_iff] at hc
      obtain ⟨b₁, h₁, h₂⟩ := Except.bind_eq_ok.mp h
      obtain ⟨hnew₁, hadd₁, hinstr₁⟩ := insertJump_spec h₁ hb
      obtain ⟨hnew₂, hadd₂, hinstr₂⟩ := insertJump_spec h₂ (hadd₁.consistent hb)
      refine ⟨_, _, hadd₁.trans hadd₂, fun _ _ _ => hlive, ?_, ?_, fun f hf => ?_,
        fun t f hf => ?_⟩
      · rintro u v ((⟨rfl, -⟩ | ⟨rfl, -⟩) | ⟨rfl, -⟩ | ⟨rfl, -⟩)
        · exact Or.inl rfl
        · exact Or.inr (Or.inl rfl)
        · exact Or.inl rfl
        · exact Or.inr (Or.inr rfl)
      · rintro u (rfl | rfl)
        · refine ⟨hnew₁, ⟨cond, true, ?_⟩, target, Or.inl hc, rfl⟩
          rw [hadd₂.instr _ ((hadd₁.has _).mpr (Or.inr rfl)), hinstr₁]
        · exact ⟨fun hu => hnew₂ ((hadd₁.has _).mpr (Or.inl hu)), ⟨_, _, hinstr₂⟩, ft,
            Or.inr rfl, rfl⟩
      · cases hf
      · cases hf
  · exact ⟨_, _, connects_addChild h (fun n hn => by cases hn) (fun f hf => by cases hf)
      fun t f hf => by cases hf⟩
  · exact ⟨_, _, connects_addChild h (fun n hn => by cases hn) (fun _ _ => rfl)
      fun t f hf => by cases hf⟩
  · next hundef _ _ hexit =>
    exact ⟨_, _, connects_addChild h hundef (fun f hf => absurd hf (hexit f)) fun _ _ _ => rfl⟩

theorem connectAll_singleton {mustHaveExit : Bool} (h : connectAll mustHaveExit [(l, i)] b = .ok b') :
    b.connect l i .exit = .ok b' := by
  cases i
  case undefined => exact h
  all_goals
    unfold connectAll at h
    split_ifs at h
    exact h

/-- What every instruction that is joined keeps holds after the first pass. -/
theorem connectAll_induction {mustHaveExit : Bool} (P : InstructionSeq O C → CfgBuilder O C → Prop)
    (h : connectAll mustHaveExit insts b = .ok b') (h0 : P [] b)
    (hstep : ∀ done e ft b b', done ++ [e] <+: insts → (ft = .exit ∨ ∃ e' ∈ insts, ft = e'.1) →
      P done b → b.connect e.1 e.2 ft = .ok b' → P (done ++ [e]) b') :
    P insts b' := by
  suffices key : ∀ rest done b, done ++ rest = insts → P done b →
      connectAll mustHaveExit rest b = .ok b' → P insts b' from key insts [] b rfl h0 h
  clear h h0
  intro rest
  induction rest with
  | nil =>
    intro done b hl hP h
    obtain rfl := Except.ok.inj h
    rwa [← hl, List.append_nil]
  | cons e rest ih =>
    intro done b hl hP h
    have hl' : done ++ [e] ++ rest = insts := by
      rw [← hl, List.append_assoc, List.singleton_append]
    cases rest with
    | nil =>
      rw [List.append_nil] at hl'
      rw [← hl']
      exact hstep done e .exit b b' ⟨[], by rw [List.append_nil, hl']⟩ (Or.inl rfl) hP
        (connectAll_singleton h)
    | cons e' rest =>
      rw [connectAll] at h
      obtain ⟨b₁, h₁, h⟩ := Except.bind_eq_ok.mp h
      exact ih (done ++ [e]) b₁ hl' (hstep done e e'.1 b b₁ ⟨_, hl'⟩
        (Or.inr ⟨e', by simp [← hl], rfl⟩) hP h₁) h

/-- The graph after the instructions `done` are joined to their successors; `base` is the graph of
the nodes. -/
structure Connected (base : CfgBuilder O C) (insts done : InstructionSeq O C)
    (b : CfgBuilder O C) : Prop where
  consistent : b.Consistent
  keep : ∀ x i, base.instructions.find? x = some i → b.instructions.find? x = some i
  new : ∀ x i, b.instructions.find? x = some i → base.instructions.find? x = some i ∨
    ∃ c p, i = .assume c p
  pending : ∀ x i y, base.instructions.find? x = some i → b.Edge x y →
    x = .entry ∨ ∃ j, (x, j) ∈ done ∧ Live j
  exit : ∀ x f, (x, .exit f) ∈ done → ∀ y, b.Edge x y ↔ y = .exit
  call : ∀ x t f, (x, .callLocal t f) ∈ done → ∃ r, ∀ y, b.Edge x y ↔ y = r
  plain : (∀ e ∈ insts, e.1.Plain) → ∀ x, b.Has x → x.Plain

section

variable {base : CfgBuilder O C} {e : Label × Instruction O C} {N : Label → Prop}
  {E : Label → Label → Prop}

theorem plain_entry : Label.entry.Plain := ⟨rfl, rfl⟩

theorem plain_exit : Label.exit.Plain := ⟨rfl, rfl⟩

theorem Connects.plain (h : Connects b b' l i ft N E) (hb : ∀ x, b.Has x → x.Plain)
    (hft : ft.Plain) : ∀ x, b'.Has x → x.Plain := by
  intro x hx
  rcases (h.adds.has x).mp hx with hx | hx
  · exact hb x hx
  · obtain ⟨-, -, t, ht, rfl⟩ := h.new x hx
    have htp : t.Plain := ht.elim (hb t) fun ht => ht ▸ hft
    exact ⟨htp.1, rfl⟩

/-- Joining one instruction leaves the edges of the others. -/
theorem Connected.edge_of_ne {i' : Instruction O C} (h : Connected base insts done b)
    (he : Connects b b' l i ft N E)
    (hx : base.instructions.find? x = some i') (hne : Live i → x ≠ l) (y : Label) :
    b'.Edge x y ↔ b.Edge x y := by
  rw [he.adds.edge, or_iff_left]
  intro hE
  rcases he.source x y hE with hxl | hN
  · exact hne (he.live x y hE) hxl
  · exact (he.new x hN).1 ((h.consistent.instr x).mpr ⟨_, h.keep x _ hx⟩)

theorem Connected.step (h : Connected base insts done b) (hbase : Inserted insts base)
    (hpre : done ++ [e] <+: insts) (hft : ft = .exit ∨ ∃ e' ∈ insts, ft = e'.1)
    (he : Connects b b' e.1 e.2 ft N E) : Connected base insts (done ++ [e]) b' := by
  have hne := hbase.distinct.ne_last hpre
  have hin : ∀ a ∈ done ++ [e], Live a.2 → base.instructions.find? a.1 = some a.2 := by
    intro a ha hlive
    exact (hbase.instr a.1 a.2).mpr (Or.inl ⟨hpre.subset ha, hlive⟩)
  have hcons := he.adds.consistent h.consistent
  -- the instruction has no successors yet
  have hself : Live e.2 → ∀ y, b'.Edge e.1 y ↔ E e.1 y := by
    intro hlive y
    rw [he.adds.edge, or_iff_right]
    intro hy
    have hfind := hin e (by simp) hlive
    rcases h.pending e.1 e.2 y hfind hy with heq | ⟨j, hj, hlj⟩
    · rw [heq, hbase.find_entry] at hfind
      exact hlive 0 (Option.some.inj hfind).symm
    · exact hne _ hj hlj hlive rfl
  have hold : ∀ a ∈ done, Live a.2 → ∀ y, b'.Edge a.1 y ↔ b.Edge a.1 y := fun a ha hlive =>
    h.edge_of_ne he (hin a (List.mem_append_left _ ha) hlive) fun hl => hne a ha hlive hl
  have hmem : ∀ a, a ∈ done ++ [e] ↔ a ∈ done ∨ a = e := by simp
  refine ⟨hcons, fun x i hx => ?_, fun x i hx => ?_, fun x i y hx hxy => ?_,
    fun x f hx y => ?_, fun x t f hx => ?_, fun hplain => ?_⟩
  · rw [he.adds.instr x ((h.consistent.instr x).mpr ⟨i, h.keep x i hx⟩), h.keep x i hx]
  · rcases (he.adds.has x).mp ((hcons.instr x).mpr ⟨i, hx⟩) with hhas | hN
    · rw [he.adds.instr x hhas] at hx
      exact h.new x i hx
    · obtain ⟨-, ⟨c, p, hc⟩, -⟩ := he.new x hN
      exact Or.inr ⟨c, p, Option.some.inj (hx.symm.trans hc)⟩
  · rcases (he.adds.edge x y).mp hxy with hxy | hE
    · refine (h.pending x i y hx hxy).imp_right ?_
      rintro ⟨j, hj, hlj⟩
      exact ⟨j, List.mem_append_left _ hj, hlj⟩
    · rcases he.source x y hE with rfl | hN
      · exact Or.inr ⟨e.2, by simp, he.live _ y hE⟩
      · exact absurd ((h.consistent.instr x).mpr ⟨i, h.keep x i hx⟩) (he.new x hN).1
  · have hlive : Live (.exit f : Instruction O C) := fun n hn => by cases hn
    rcases (hmem _).mp hx with hx | rfl
    · rw [hold _ hx hlive, h.exit x f hx]
    · rw [hself hlive, he.exit f rfl, and_iff_right rfl]
  · have hlive : Live (.callLocal t f : Instruction O C) := fun n hn => by cases hn
    rcases (hmem _).mp hx with hx | rfl
    · obtain ⟨r, hr⟩ := h.call x t f hx
      exact ⟨r, fun y => by rw [hold _ hx hlive, hr]⟩
    · exact ⟨ft, fun y => by rw [hself hlive, he.call t f rfl, and_iff_right rfl]⟩
  · refine he.plain (h.plain hplain) ?_
    rcases hft with rfl | ⟨e', he', rfl⟩
    · exact plain_exit
    · exact hplain e' he'

end

/-- The graph that the first pass builds. -/
structure FirstPass (insts : InstructionSeq O C) (b : CfgBuilder O C) : Prop where
  consistent : b.Consistent
  distinct : Distinct insts
  instr : ∀ x i, (x, i) ∈ insts → Live i → b.instructions.find? x = some i
  origin : ∀ x i, b.instructions.find? x = some i → (x, i) ∈ insts ∨ i = .undefined 0 ∨
    ∃ c p, i = .assume c p
  exit : ∀ x f, b.instructions.find? x = some (.exit f) → ∀ y, b.Edge x y ↔ y = .exit
  call : ∀ x t f, b.instructions.find? x = some (.callLocal t f) → ∃ r, ∀ y, b.Edge x y ↔ y = r
  plain : (∀ e ∈ insts, e.1.Plain) → ∀ x, b.Has x → x.Plain
  last : ∀ y, ¬ b.Edge .exit y

theorem firstPass_spec {mustHaveExit : Bool} (h : firstPass insts mustHaveExit = .ok b) :
    FirstPass insts b := by
  unfold firstPass at h
  obtain ⟨base, hbase, h⟩ := Except.bind_eq_ok.mp h
  have hbase := insertAll_spec hbase
  cases insts with
  | nil => cases h
  | cons e rest =>
    obtain ⟨b₁, h₁, h⟩ := Except.bind_eq_ok.mp h
    obtain ⟨-, -, hadd⟩ := addChild_spec h₁
    have hstart : Connected base (e :: rest) [] b₁ := by
      have hfind : b₁.instructions = base.instructions := (addChild_relinks h₁).instr
      refine ⟨hadd.consistent hbase.consistent, fun x i hx => hfind ▸ hx,
        fun x i hx => Or.inl (hfind ▸ hx), fun x j y hx hxy => Or.inl ?_, by simp, by simp,
        fun hplain x hx => ?_⟩
      · exact (((hadd.edge x y).mp hxy).resolve_left (hbase.noEdge x y)).1
      · have hx := ((hadd.has x).mp hx).resolve_right id
        obtain ⟨j, hj⟩ := (hbase.consistent.instr x).mp hx
        rcases (hbase.instr x j).mp hj with ⟨hmem, -⟩ | ⟨rfl | rfl, -⟩
        · exact hplain _ hmem
        · exact plain_entry
        · exact plain_exit
    have hconn := connectAll_induction (Connected base (e :: rest)) h hstart
      fun done e ft b b' hpre hft hdone hstep =>
        let ⟨_, _, he⟩ := connect_spec hstep hdone.consistent
        hdone.step hbase hpre hft he
    have horigin : ∀ x i', b.instructions.find? x = some i' →
        (x, i') ∈ e :: rest ∨ i' = .undefined 0 ∨ ∃ c p, i' = .assume c p := by
      intro x i' hx
      rcases hconn.new x i' hx with hx | hx
      · rcases (hbase.instr x i').mp hx with ⟨hmem, -⟩ | ⟨-, hundef⟩
        · exact Or.inl hmem
        · exact Or.inr (Or.inl hundef)
      · exact Or.inr (Or.inr hx)
    refine ⟨hconn.consistent, hbase.distinct, fun x i' hmem hlive => ?_, horigin,
      fun x f hx => ?_, fun x t f hx => ?_, hconn.plain, fun y hy => ?_⟩
    · exact hconn.keep x i' ((hbase.instr x i').mpr (Or.inl ⟨hmem, hlive⟩))
    · rcases horigin x _ hx with hmem | hc | ⟨_, _, hc⟩
      · exact hconn.exit x f hmem
      · cases hc
      · cases hc
    · rcases horigin x _ hx with hmem | hc | ⟨_, _, hc⟩
      · exact hconn.call x t f hmem
      · cases hc
      · cases hc
    · rcases hconn.pending .exit _ y hbase.find_exit hy with hc | ⟨j, hj, hlive⟩
      · cases hc
      · have hfind := (hbase.instr .exit j).mpr (Or.inl ⟨hj, hlive⟩)
        exact hlive 0 (Option.some.inj (hfind.symm.trans hbase.find_exit))

end CfgBuilder

end Prevail
