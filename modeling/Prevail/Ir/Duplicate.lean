import Prevail.Ir.FirstPass

/-!
# Which steps can meet a label twice

`insert` and `insert_jump` refuse a label that the graph has; no other step of the construction
raises such an error. The first pass never does so for a sequence with a label of its own for each
instruction (`firstPass_unique`), and the walk over a function does so exactly when it comes to a
label that it has copied (`walkLabel_unique`).
-/

namespace Prevail

/-- The error is about a label that exists already. -/
def BuildError.IsDuplicate : BuildError → Prop
  | .alreadyExists _ => True
  | .jumpAlreadyExists _ => True
  | _ => False

instance : DecidablePred BuildError.IsDuplicate := by
  intro e
  cases e <;> unfold BuildError.IsDuplicate <;> infer_instance

/-- Whatever error is raised is not about a label that exists already. -/
abbrev Unique {α : Type} (x : Except BuildError α) : Prop := x.FailsOnly (¬ ·.IsDuplicate)

/-! ## The steps -/

namespace Cfg

variable {g : Cfg} {l : Label}

theorem getNode_unique : Unique (g.getNode l) := by
  unfold getNode
  split
  · simp
  · simp [BuildError.IsDuplicate]

theorem childrenOf_unique : Unique (g.childrenOf l) := getNode_unique.map

theorem parentsOf_unique : Unique (g.parentsOf l) := getNode_unique.map

theorem getChild_unique : Unique (g.getChild l) := by
  unfold getChild
  refine childrenOf_unique.bind fun ls _ => ?_
  split
  · simp
  · simp [BuildError.IsDuplicate]

theorem modify_unique {f : Adjacent → Adjacent} {e : BuildError} (he : ¬ e.IsDuplicate) :
    Unique (g.modify l f e) := by
  unfold modify
  split
  · simp
  · simpa using he

end Cfg

namespace CfgBuilder

open Cfg

variable {O C : Type} {b b' : CfgBuilder O C} {caller exitTo l m x y : Label} {f : Frame}
  {i : Instruction O C} {st st' : Walk O C}

theorem instructionAt_unique : Unique (b.instructionAt l) := by
  unfold instructionAt
  split
  · simp
  · simp [BuildError.IsDuplicate]

theorem addChild_unique : Unique (b.addChild x y) := by
  unfold addChild
  exact (modify_unique id).bind fun _ _ => (modify_unique id).bind fun _ _ => Except.failsOnly_pure

theorem removeChild_unique : Unique (b.removeChild x y) := by
  unfold removeChild
  exact (modify_unique id).bind fun _ _ => (modify_unique id).bind fun _ _ => Except.failsOnly_pure

theorem insert_unique (h : ¬ b.Has l) : Unique (b.insert l i) := by
  unfold insert
  rw [if_neg (mt contains_iff.mp h)]
  exact Except.failsOnly_ok

theorem insertJump_unique (h : ¬ b.Has (.makeJump x y)) : Unique (b.insertJump x y i) := by
  unfold insertJump
  dsimp only
  rw [if_neg (mt contains_iff.mp h)]
  exact (insert_unique h).bind fun _ _ => addChild_unique.bind fun _ _ => addChild_unique

theorem setFrame_unique : Unique (b.setFrame l) := by
  unfold setFrame
  refine instructionAt_unique.bind fun i _ => ?_
  split
  · exact Except.failsOnly_pure
  · exact Except.failsOnly_pure

theorem linkCaller_unique {c : Bool} : Unique (b.linkCaller c x y) := by
  unfold linkCaller
  split_ifs
  · exact addChild_unique
  · exact Except.failsOnly_ok

theorem linkParents_unique : Unique (b.linkParents f l) := by
  unfold linkParents
  refine parentsOf_unique.bind fun ls _ => ?_
  refine Except.FailsOnly.foldlM (fun _ _ => True) trivial (fun _ _ _ _ _ _ _ => trivial) ?_
  intro _ p b _ _
  split_ifs
  · exact addChild_unique
  · exact Except.failsOnly_ok

theorem walkChild_unique {n : Label} : Unique (walkChild f exitTo m st n) := by
  unfold walkChild
  split_ifs
  · exact addChild_unique.bind fun _ _ => Except.failsOnly_pure
  · exact Except.failsOnly_pure
  · exact Except.failsOnly_pure

/-- One label is copied once if its copy is new. -/
theorem walkLabel_unique (h : ¬ st.builder.Has (m.inFrame caller.frame)) :
    Unique (walkLabel caller exitTo st m) := by
  unfold walkLabel
  dsimp only
  split_ifs
  · simp [BuildError.IsDuplicate]
  · refine instructionAt_unique.bind fun i _ => (insert_unique h).bind fun b₁ _ => ?_
    refine linkCaller_unique.bind fun b₂ _ => linkParents_unique.bind fun b₃ _ => ?_
    refine childrenOf_unique.bind fun ls _ => ?_
    exact Except.FailsOnly.foldlM (fun _ _ => True) trivial (fun _ _ _ _ _ _ _ => trivial)
      fun _ _ _ _ _ => walkChild_unique

/-- The walk meets no label twice if it only comes to labels whose copy is new. -/
theorem walk_unique {fuel : ℕ} (P : List Label → Walk O C → Prop) (h0 : P [] st)
    (hc : ∀ done st, P done st → st.builder.Consistent)
    (hstep : ∀ done st st' m, P done st → st.macroLabels.contains m →
      (∀ x, st.macroLabels.contains x → m ≤ x) →
      WalkLabel caller exitTo { st with macroLabels := st.macroLabels.erase m } m st' →
      P (done ++ [m]) st')
    (hnew : ∀ done st m, P done st → st.macroLabels.contains m →
      ¬ st.builder.Has (m.inFrame caller.frame)) :
    Unique (walk caller exitTo fuel st) := by
  suffices key : ∀ fuel done st, P done st → Unique (walk caller exitTo fuel st) from
    key fuel [] st h0
  clear h0
  intro fuel
  induction fuel with
  | zero =>
    intro done st _
    simp [walk, BuildError.IsDuplicate]
  | succ fuel ih =>
    intro done st hP
    unfold walk
    split
    · exact Except.failsOnly_ok
    · next l rest hcons =>
      obtain ⟨hl, hmin⟩ := least_of_keys hcons
      refine Except.FailsOnly.bind (walkLabel_unique ?_) fun st₁ h₁ => ?_
      · exact hnew done st l hP hl
      · exact ih (done ++ [l]) st₁
          (hstep done st st₁ l hP hl hmin (walkLabel_spec h₁ (hc done st hP)))

/-! ## The first pass -/

/-- A sequence as unmarshalling makes it: instructions and targets are numbered, and no two
instructions have one number. -/
structure Numbered (insts : InstructionSeq O C) : Prop where
  index : ∀ e ∈ insts, ∃ n : ℕ, n < 2147483647 ∧ e.1 = .ofIndex n
  nodup : (insts.map Prod.fst).Nodup
  target : ∀ l c t, (l, .jmp c t) ∈ insts → ∃ n : ℕ, t = .ofIndex n
  callee : ∀ l t f, (l, .callLocal t f) ∈ insts → ∃ n : ℕ, t = .ofIndex n

variable {insts done : InstructionSeq O C} {e : Label × Instruction O C}

theorem Numbered.plain (h : Numbered insts) : ∀ e ∈ insts, e.1.Plain := by
  intro e he
  obtain ⟨n, -, heq⟩ := h.index e he
  rw [heq]
  exact ⟨rfl, rfl⟩

/-- An instruction has another label than those before it. -/
theorem Numbered.ne_last (h : Numbered insts) (hpre : done ++ [e] <+: insts) :
    ∀ a ∈ done, a.1 ≠ e.1 := by
  intro a ha heq
  have hnodup := (hpre.sublist.map Prod.fst).nodup h.nodup
  rw [List.map_append, List.nodup_append] at hnodup
  exact hnodup.2.2 a.1 (List.mem_map_of_mem ha) e.1 (by simp) heq

theorem insertAll_unique (h : Numbered insts) : Unique (insertAll insts) := by
  refine Except.FailsOnly.foldlM Inserted inserted_init
    (fun _ _ _ _ _ hdone hstep => hdone.instruction hstep) fun done e b hpre hdone => ?_
  split
  · exact Except.failsOnly_ok
  · refine insert_unique fun hhas => ?_
    obtain ⟨i, hi⟩ := (hdone.consistent.instr e.1).mp hhas
    obtain ⟨n, hn, heq⟩ := h.index e (hpre.subset (by simp))
    rcases (hdone.instr e.1 i).mp hi with ⟨hmem, -⟩ | ⟨hl | hl, -⟩
    · exact h.ne_last hpre _ hmem rfl
    · have hsrc := congrArg Label.src (heq.symm.trans hl)
      simp only [Label.ofIndex, Label.entry] at hsrc
      omega
    · have hsrc := congrArg Label.src (heq.symm.trans hl)
      simp only [Label.ofIndex, Label.exit] at hsrc
      omega

/-- The graph has the labels of instructions, and jumps only of those that are joined. -/
structure Joined (done : InstructionSeq O C) (b : CfgBuilder O C) : Prop where
  consistent : b.Consistent
  jump : ∀ x, b.Has x → x.dst = -1 ∨ ∃ e ∈ done, x.src = e.1.src

theorem Joined.new {t : Label} (h : Joined done b) (hnum : Numbered insts)
    (hpre : done ++ [e] <+: insts) (ht : ∃ n : ℕ, t = .ofIndex n) :
    ¬ b.Has (.makeJump e.1 t) := by
  intro hhas
  obtain ⟨n, rfl⟩ := ht
  rcases h.jump _ hhas with hdst | ⟨a, ha, hsrc⟩
  · simp only [Label.makeJump, Label.ofIndex] at hdst
    omega
  · obtain ⟨k, -, hk⟩ := hnum.index a (hpre.subset (List.mem_append_left _ ha))
    obtain ⟨k', -, hk'⟩ := hnum.index e (hpre.subset (by simp))
    refine hnum.ne_last hpre a ha ?_
    rw [hk, hk'] at hsrc
    rw [hk, hk']
    exact congrArg Label.ofIndex hsrc.symm

theorem Joined.connect {ft : Label} (h : Joined done b) (he : b.connect e.1 e.2 ft = .ok b') :
    Joined (done ++ [e]) b' := by
  obtain ⟨N, E, hconn⟩ := connect_spec he h.consistent
  refine ⟨hconn.adds.consistent h.consistent, fun x hx => ?_⟩
  rcases (hconn.adds.has x).mp hx with hx | hN
  · refine (h.jump x hx).imp_right ?_
    rintro ⟨a, ha, hsrc⟩
    exact ⟨a, List.mem_append_left _ ha, hsrc⟩
  · obtain ⟨-, -, t, -, rfl⟩ := hconn.new x hN
    exact Or.inr ⟨e, by simp, rfl⟩

theorem connect_unique {ft : Label} (h : Joined done b) (hnum : Numbered insts)
    (hpre : done ++ [e] <+: insts) (hft : ∃ n : ℕ, ft = .ofIndex n) :
    Unique (b.connect e.1 e.2 ft) := by
  obtain ⟨l, i⟩ := e
  cases i with
  | jmp cond t =>
    obtain ⟨n, hn⟩ := hnum.target l cond t (hpre.subset (by simp))
    cases cond with
    | none => exact addChild_unique
    | some c =>
      unfold CfgBuilder.connect
      dsimp only
      split_ifs with heq hc
      · exact addChild_unique
      · simp [BuildError.IsDuplicate]
      · refine (insertJump_unique (h.new hnum hpre ⟨n, hn⟩)).bind fun b₁ hb₁ => insertJump_unique ?_
        obtain ⟨-, hadd, -⟩ := insertJump_spec hb₁ h.consistent
        rw [hadd.has, not_or]
        refine ⟨h.new hnum hpre hft, fun hj => heq ?_⟩
        -- the two sides of the jump lead to instructions of different numbers
        obtain ⟨k, rfl⟩ := hft
        rw [hn] at hj ⊢
        exact congrArg Label.ofIndex (congrArg Label.dst hj).symm
  | undefined => exact Except.failsOnly_ok
  | _ => exact addChild_unique

theorem connectAll_unique {mustHaveExit : Bool} (h : Joined [] b) (hnum : Numbered insts) :
    Unique (connectAll mustHaveExit insts b) := by
  suffices key : ∀ rest done b, done ++ rest = insts → Joined done b →
      Unique (connectAll mustHaveExit rest b) from key insts [] b rfl h
  clear h
  intro rest
  induction rest with
  | nil =>
    intro done b _ _
    exact Except.failsOnly_ok
  | cons e rest ih =>
    intro done b hl hP
    have hl' : done ++ [e] ++ rest = insts := by
      rw [← hl, List.append_assoc, List.singleton_append]
    cases rest with
    | nil =>
      have hlast := connect_unique hP hnum ⟨[], hl'⟩ ⟨2147483647, rfl⟩
      obtain ⟨l, i⟩ := e
      cases i
      case undefined => exact hlast
      all_goals
        unfold connectAll
        split_ifs
        · simp [BuildError.IsDuplicate]
        · exact hlast
    | cons e' rest =>
      obtain ⟨n, -, hn⟩ := hnum.index e' (by simp [← hl])
      rw [connectAll]
      exact (connect_unique hP hnum ⟨_, hl'⟩ ⟨n, hn⟩).bind fun b₁ hb₁ =>
        ih (done ++ [e]) b₁ hl' (hP.connect hb₁)

theorem firstPass_unique {mustHaveExit : Bool} (hnum : Numbered insts) :
    Unique (firstPass insts mustHaveExit) := by
  unfold firstPass
  refine (insertAll_unique hnum).bind fun base hbase => ?_
  have hbase := insertAll_spec hbase
  cases insts with
  | nil => simp [BuildError.IsDuplicate]
  | cons e rest =>
    refine addChild_unique.bind fun b₁ hb₁ => connectAll_unique ?_ hnum
    obtain ⟨-, -, hadd⟩ := addChild_spec hb₁
    refine ⟨hadd.consistent hbase.consistent, fun x hx => Or.inl ?_⟩
    obtain ⟨i, hi⟩ := (hbase.consistent.instr x).mp (((hadd.has x).mp hx).resolve_right id)
    rcases (hbase.instr x i).mp hi with ⟨hmem, -⟩ | ⟨rfl | rfl, -⟩
    · obtain ⟨n, -, hn⟩ := hnum.index _ hmem
      exact congrArg Label.dst hn
    · rfl
    · rfl

end CfgBuilder

end Prevail
