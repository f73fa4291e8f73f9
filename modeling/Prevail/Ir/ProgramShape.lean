import Prevail.Ir.FirstPass
import Prevail.Ir.Program

/-!
# What holds of every program

`add_child` asserts that no edge leads to the entry. When the sequence does not make it do so, every
step of the construction keeps the graph in order (`WellBuilt`), and so the graph of the program is
(`Program.fromSequence_wellFormed`).
-/

namespace Prevail

variable {O C A : Type}

theorem liftBuild_eq_ok {α : Type} {x : Except BuildError α} {a : α} :
    liftBuild x = .ok a ↔ x = .ok a := by
  cases x with
  | error e =>
    constructor
    · intro h
      cases h
    · intro h
      cases h
  | ok b =>
    constructor
    · intro h
      rw [Except.ok.inj h]
    · intro h
      rw [Except.ok.inj h]
      rfl

/-- What the construction is given: the label of the entry is not used, and loop counters are left
    to the construction. -/
structure InstructionSeq.Proper (insts : InstructionSeq O C) : Prop where
  label : ∀ e ∈ insts, e.1 ≠ .entry
  target : ∀ e ∈ insts, ∀ c, e.2 ≠ .jmp c .entry
  counter : ∀ e ∈ insts, e.2.isIncrementLoopCounter = false

namespace CfgBuilder

variable {b b' : CfgBuilder O C} {l x y caller exitTo m : Label} {i : Instruction O C}
  {counters : Bool} {f : Frame} {st st' : Walk O C}

/-- The graph is in order, no edge leads to the entry, and there are loop counters only if they are
    wanted. -/
structure WellBuilt (counters : Bool) (b : CfgBuilder O C) : Prop where
  consistent : b.Consistent
  entry : b.Has .entry
  noBack : ∀ u, ¬ b.Edge u .entry
  counter : ∀ l i, b.instructions.find? l = some i → i.isIncrementLoopCounter = true →
    counters = true

namespace WellBuilt

theorem adds {N : Label → Prop} {E : Label → Label → Prop} (h : WellBuilt counters b)
    (hadd : Adds b b' N E) (hE : ∀ u, ¬ E u .entry)
    (hN : ∀ l i, N l → b'.instructions.find? l = some i → i.isIncrementLoopCounter = true →
      counters = true) : WellBuilt counters b' where
  consistent := hadd.consistent h.consistent
  entry := (hadd.has _).mpr (Or.inl h.entry)
  noBack u hu := ((hadd.edge u _).mp hu).elim (h.noBack u) (hE u)
  counter l i hi hc := by
    have hb' := hadd.consistent h.consistent
    rcases (hadd.has l).mp ((hb'.instr l).mpr ⟨i, hi⟩) with hl | hl
    · rw [hadd.instr l hl] at hi
      exact h.counter l i hi hc
    · exact hN l i hl hi hc

theorem insert (h : WellBuilt counters b) (hi : i.isIncrementLoopCounter = true → counters = true)
    (hins : b.insert l i = .ok b') : WellBuilt counters b' := by
  obtain ⟨-, hadd, hself⟩ := insert_spec hins h.consistent
  refine h.adds hadd (fun _ hE => hE) fun x j hx hj hc => ?_
  rw [hx, hself] at hj
  exact hi (Option.some.inj hj ▸ hc)

theorem addChild (h : WellBuilt counters b) (hy : y ≠ .entry) (hadd : b.addChild x y = .ok b') :
    WellBuilt counters b' :=
  h.adds (addChild_spec hadd).2.2 (fun _ hE => hy hE.2.symm) fun _ _ hN => hN.elim

theorem removeChild (h : WellBuilt counters b) (hrem : b.removeChild x y = .ok b') :
    WellBuilt counters b' := by
  obtain ⟨hhas, hedge, hcons, hinstr⟩ := removeChild_spec hrem h.consistent
  refine ⟨hcons, (hhas _).mpr h.entry, fun u hu => h.noBack u ((hedge u _).mp hu).1, ?_⟩
  rw [hinstr]
  exact h.counter

theorem insertJump (h : WellBuilt counters b) (hy : y ≠ .entry)
    (hi : i.isIncrementLoopCounter = false) (hins : b.insertJump x y i = .ok b') :
    WellBuilt counters b' := by
  unfold CfgBuilder.insertJump at hins
  dsimp only at hins
  split_ifs at hins with hnew
  obtain ⟨b₁, h₁, hins⟩ := Except.bind_eq_ok.mp hins
  obtain ⟨b₂, h₂, hins⟩ := Except.bind_eq_ok.mp hins
  have hj : Label.makeJump x y ≠ .entry := by
    intro heq
    rw [heq] at hnew
    exact hnew (contains_iff.mpr h.entry)
  refine ((h.insert (fun hc => ?_) h₁).addChild hj h₂).addChild hy hins
  rw [hi] at hc
  cases hc

/-! ## Inlining -/

theorem edge_ne (h : WellBuilt counters b) (hxy : b.Edge x y) : y ≠ .entry := by
  rintro rfl
  exact h.noBack x hxy

theorem setFrame (h : WellBuilt counters b) (hset : b.setFrame caller = .ok b') :
    WellBuilt counters b' := by
  obtain ⟨ins, -, hmatch⟩ := Except.bind_eq_ok.mp hset
  have hcons := consistent_setFrame h.consistent hset
  obtain ⟨hcfg, hinstr, -, -⟩ := setFrame_spec hset
  have hentry : b'.Has .entry := by
    unfold Has
    rw [hcfg]
    exact h.entry
  have hback : ∀ u, ¬ b'.Edge u .entry := by
    unfold Edge
    rw [hcfg]
    exact h.noBack
  refine ⟨hcons, hentry, hback, fun l i hi hc => ?_⟩
  by_cases hl : l = caller
  · subst hl
    split at hmatch
    · obtain rfl := Except.ok.inj hmatch
      dsimp only at hi
      rw [OrdMap.find?_insert, if_pos rfl] at hi
      rw [← Option.some.inj hi] at hc
      cases hc
    · obtain rfl := Except.ok.inj hmatch
      exact h.counter l i hi hc
  · rw [hinstr l hl] at hi
    exact h.counter l i hi hc

end WellBuilt

theorem isIncrementLoopCounter_cloneInstruction :
    (cloneInstruction f i).isIncrementLoopCounter = i.isIncrementLoopCounter := by
  cases i <;> rfl

theorem inFrame_frame_ne_entry (l caller : Label) : l.inFrame caller.frame ≠ .entry :=
  fun h => caller.frame_ne_nil (congrArg Label.stackFramePrefix h)

theorem WellBuilt.linkParents (h : WellBuilt counters b)
    (hlink : b.linkParents caller.frame m = .ok b') : WellBuilt counters b' := by
  obtain ⟨ps, -, hlink⟩ := Except.bind_eq_ok.mp hlink
  refine Except.foldlM_induction (fun _ b => WellBuilt counters b) hlink h fun _ p b₁ b₂ _ h₁ h₂ => ?_
  split_ifs at h₂
  · exact h₁.addChild (inFrame_frame_ne_entry m caller) h₂
  · rwa [← Except.ok.inj h₂]

/-- A step of the walk. -/
theorem WellBuilt.walkLabel (h : WellBuilt counters st.builder) (hexit : exitTo ≠ .entry)
    (hwalk : walkLabel caller exitTo st m = .ok st') : WellBuilt counters st'.builder := by
  unfold CfgBuilder.walkLabel at hwalk
  dsimp only at hwalk
  split_ifs at hwalk
  obtain ⟨ins, hins, hwalk⟩ := Except.bind_eq_ok.mp hwalk
  obtain ⟨b₁, h₁, hwalk⟩ := Except.bind_eq_ok.mp hwalk
  obtain ⟨b₂, h₂, hwalk⟩ := Except.bind_eq_ok.mp hwalk
  obtain ⟨b₃, h₃, hwalk⟩ := Except.bind_eq_ok.mp hwalk
  obtain ⟨cs, -, hwalk⟩ := Except.bind_eq_ok.mp hwalk
  have hw₁ : WellBuilt counters b₁ := by
    refine h.insert (fun hc => ?_) h₁
    rw [isIncrementLoopCounter_cloneInstruction] at hc
    exact h.counter m ins (instructionAt_eq_ok.mp hins) hc
  have hw₂ : WellBuilt counters b₂ := by
    unfold linkCaller at h₂
    split_ifs at h₂
    · exact hw₁.addChild (inFrame_frame_ne_entry m caller) h₂
    · rwa [← Except.ok.inj h₂]
  have hw₃ := hw₂.linkParents h₃
  refine Except.foldlM_induction (fun _ st => WellBuilt counters st.builder) hwalk hw₃
    fun _ next s s' _ hs hs' => ?_
  unfold walkChild at hs'
  split_ifs at hs'
  · obtain ⟨b₄, h₄, hs'⟩ := Except.bind_eq_ok.mp hs'
    obtain rfl := Except.ok.inj hs'
    exact hs.addChild hexit h₄
  · obtain rfl := Except.ok.inj hs'
    exact hs
  · obtain rfl := Except.ok.inj hs'
    exact hs

theorem WellBuilt.walk {fuel : ℕ} (h : WellBuilt counters st.builder) (hexit : exitTo ≠ .entry)
    (hwalk : walk caller exitTo fuel st = .ok st') : WellBuilt counters st'.builder := by
  induction fuel generalizing st with
  | zero => cases hwalk
  | succ fuel ih =>
    unfold CfgBuilder.walk at hwalk
    split at hwalk
    · rwa [← Except.ok.inj hwalk]
    · next m rest _ =>
      obtain ⟨st₁, h₁, hwalk⟩ := Except.bind_eq_ok.mp hwalk
      have hm : WellBuilt counters
          ({ st with macroLabels := st.macroLabels.erase m } : Walk O C).builder := h
      exact ih (hm.walkLabel hexit h₁) hwalk

theorem WellBuilt.cloneMacro {entry : Label} (h : WellBuilt counters b)
    (hclone : b.cloneMacro caller entry = .ok st) : WellBuilt counters st.builder := by
  obtain ⟨exitTo, b₁, fuel, st₁, b₂, hexit, hset, hwalk, hrem, rfl⟩ := cloneMacro_eq_ok hclone
  have hne : exitTo ≠ .entry := h.edge_ne ((hexit exitTo).mpr rfl)
  have hstart : WellBuilt counters (Walk.start b₁ entry).builder := h.setFrame hset
  exact (hstart.walk hne hwalk).removeChild hrem

theorem WellBuilt.addCfgNodes {entry : Label} {fuel : ℕ} (h : WellBuilt counters b)
    (hadd : addCfgNodes fuel b caller entry = .ok b') : WellBuilt counters b' := by
  induction fuel generalizing b b' caller entry with
  | zero => cases hadd
  | succ fuel ih =>
    obtain ⟨st, hst, hadd⟩ := Except.bind_eq_ok.mp hadd
    refine Except.foldlM_induction (fun _ b => WellBuilt counters b) hadd (h.cloneMacro hst)
      fun _ l b₁ b₂ _ h₁ h₂ => ?_
    obtain ⟨ins, -, h₂⟩ := Except.bind_eq_ok.mp h₂
    split at h₂
    · split_ifs at h₂
      exact ih h₁ h₂
    · rwa [← Except.ok.inj h₂]

/-! ## The sequence -/

theorem WellBuilt.connect {ft : Label} (h : WellBuilt counters b) (hi : ∀ c, i ≠ .jmp c .entry)
    (hft : ft ≠ .entry) (hcon : b.connect l i ft = .ok b') : WellBuilt counters b' := by
  unfold CfgBuilder.connect at hcon
  split at hcon
  · rwa [← Except.ok.inj hcon]
  · next cond target =>
    have ht : target ≠ .entry := fun heq => hi (some cond) (heq ▸ rfl)
    split_ifs at hcon
    · exact h.addChild hft hcon
    · obtain ⟨b₁, h₁, hcon⟩ := Except.bind_eq_ok.mp hcon
      exact (h.insertJump ht rfl h₁).insertJump hft rfl hcon
  · next target => exact h.addChild (fun heq => hi none (heq ▸ rfl)) hcon
  · exact h.addChild (by decide) hcon
  · exact h.addChild hft hcon

/-- The graph of the sequence, before loop counters are inserted. -/
theorem wellBuilt_instructionSeqToCfg {insts : InstructionSeq O C} {mustHaveExit : Bool}
    (hp : insts.Proper) (h : instructionSeqToCfg insts mustHaveExit = .ok b) :
    WellBuilt counters b := by
  obtain ⟨b₁, h₁, h⟩ := Except.bind_eq_ok.mp h
  obtain ⟨b₀, h₀, h₁⟩ := Except.bind_eq_ok.mp h₁
  have hw₀ : WellBuilt counters b₀ := by
    have hinserted := insertAll_spec h₀
    have hentry : b₀.Has .entry :=
      (hinserted.consistent.instr _).mpr ⟨_, hinserted.find_entry⟩
    refine ⟨hinserted.consistent, hentry, fun u => hinserted.noEdge u _, fun l i hi hc => ?_⟩
    rcases (hinserted.instr l i).mp hi with ⟨hmem, -⟩ | ⟨-, rfl⟩
    · have := hp.counter _ hmem
      rw [hc] at this
      cases this
    · cases hc
  have hw₁ : WellBuilt counters b₁ := by
    cases insts with
    | nil => cases h₁
    | cons e rest =>
      obtain ⟨b₂, h₂, h₁⟩ := Except.bind_eq_ok.mp h₁
      have hfirst : e.1 ≠ .entry := hp.label e List.mem_cons_self
      refine connectAll_induction (fun _ b => WellBuilt counters b) h₁ (hw₀.addChild hfirst h₂)
        fun done e' ft b b' hpre hft hb hcon => hb.connect (hp.target e' ?_) ?_ hcon
      · exact hpre.subset (List.mem_append_right _ (List.mem_singleton_self e'))
      · rcases hft with rfl | ⟨e'', he'', rfl⟩
        · decide
        · exact hp.label e'' he''
  refine Except.foldlM_induction (fun _ b => WellBuilt counters b) h hw₁ fun _ e b b' _ hb he => ?_
  unfold expandCall at he
  split at he
  · exact hb.addCfgNodes he
  · rwa [← Except.ok.inj he]

/-! ## Loop counters -/

/-- A change of one node that keeps its children. -/
theorem eraseParent_spec {g : Cfg} {e : BuildError}
    (h : b.cfg.modify y (fun n => { n with parents := n.parents.erase x }) e = .ok g) :
    (∀ u, Has { b with cfg := g } u ↔ b.Has u) ∧
      (∀ u v, Edge { b with cfg := g } u v ↔ b.Edge u v) ∧
      ∀ u v, Parent { b with cfg := g } u v ↔ b.Parent u v ∧ ¬ (u = x ∧ v = y) := by
  refine ⟨fun u => ?_, fun u v => ?_, fun u v => ?_⟩
  · unfold Has
    dsimp only
    rw [find?_modify h]
    simp [Option.map_eq_some_iff]
  · unfold Edge
    dsimp only
    rw [find?_modify h]
    split_ifs <;> simp [Option.map_eq_some_iff]
  · unfold Parent
    dsimp only
    rw [find?_modify h]
    split_ifs with hv
    · simp only [Option.map_eq_some_iff, hv, and_true]
      constructor
      · rintro ⟨_, ⟨n, hn, rfl⟩, hu⟩
        obtain ⟨hne, hu⟩ := contains_erase.mp hu
        exact ⟨⟨n, hn, hu⟩, hne⟩
      · rintro ⟨⟨n, hn, hu⟩, hne⟩
        exact ⟨_, ⟨n, hn, rfl⟩, contains_erase.mpr ⟨hne, hu⟩⟩
    · simp [hv]

theorem swapChildren_spec {children : List Label} (h : b.swapChildren l = .ok (children, b'))
    (hb : b.Consistent) : (∀ y, y ∈ children ↔ b.Edge l y) ∧ b'.Consistent ∧
      (∀ x, b'.Has x ↔ b.Has x) ∧ (∀ u v, b'.Edge u v ↔ b.Edge u v ∧ u ≠ l) ∧
      b'.instructions = b.instructions := by
  obtain ⟨ls, hls, h⟩ := Except.bind_eq_ok.mp h
  obtain ⟨g₁, h₁, h⟩ := Except.bind_eq_ok.mp h
  obtain ⟨g₂, h₂, h⟩ := Except.bind_eq_ok.mp h
  obtain ⟨rfl, rfl⟩ := Prod.mk.inj (Except.ok.inj h)
  have hmem := childrenOf_eq_ok hls
  have hhas₁ : ∀ u, Has { b with cfg := g₁ } u ↔ b.Has u := by
    intro u
    unfold Has
    dsimp only
    rw [find?_modify h₁]
    simp [Option.map_eq_some_iff]
  have hedge₁ : ∀ u v, Edge { b with cfg := g₁ } u v ↔ b.Edge u v ∧ u ≠ l := by
    intro u v
    unfold Edge
    dsimp only
    rw [find?_modify h₁]
    split_ifs with hu
    · subst hu
      simp only [Option.map_eq_some_iff, ne_eq, not_true, and_false, iff_false]
      rintro ⟨_, ⟨n, -, rfl⟩, hv⟩
      cases hv
    · simp [hu]
  have hparent₁ : ∀ u v, Parent { b with cfg := g₁ } u v ↔ b.Parent u v := by
    intro u v
    unfold Parent
    dsimp only
    rw [find?_modify h₁]
    split_ifs <;> simp [Option.map_eq_some_iff]
  -- each round takes the label from the parents of one more child
  obtain ⟨hhas, hedge, hparent⟩ := Except.foldlM_induction (fun done g =>
    (∀ u, Has { b with cfg := g } u ↔ b.Has u) ∧
    (∀ u v, Edge { b with cfg := g } u v ↔ b.Edge u v ∧ u ≠ l) ∧
    ∀ u v, Parent { b with cfg := g } u v ↔ b.Parent u v ∧ ¬ (u = l ∧ v ∈ done)) h₂
    ⟨hhas₁, hedge₁, fun u v => by simp [hparent₁]⟩ fun done y g g' _ ih hg => by
      obtain ⟨hhas, hedge, hparent⟩ := ih
      obtain ⟨hhas', hedge', hparent'⟩ :=
        eraseParent_spec (b := ({ b with cfg := g } : CfgBuilder O C)) hg
      refine ⟨fun u => (hhas' u).trans (hhas u), fun u v => (hedge' u v).trans (hedge u v),
        fun u v => ?_⟩
      rw [hparent' u v, hparent u v, List.mem_append, List.mem_singleton]
      tauto
  refine ⟨hmem, ⟨fun u v => ?_, fun u v huv => ?_, fun u => ?_⟩, hhas, hedge, rfl⟩
  · rw [hparent, hedge, hb.parent, hmem]
    constructor
    · rintro ⟨huv, hno⟩
      exact ⟨huv, fun hu => hno ⟨hu, hu ▸ huv⟩⟩
    · rintro ⟨huv, hu⟩
      exact ⟨huv, fun hc => hu hc.1⟩
  · exact (hhas v).mpr (hb.target u v ((hedge u v).mp huv).1)
  · exact (hhas u).trans (hb.instr u)

/-- `b'` is `b` with `new` between `prev` and its children. -/
structure InsertsAfter (b b' : CfgBuilder O C) (prev new : Label) (ins : Instruction O C) :
    Prop where
  fresh : ¬ b.Has new
  consistent : b'.Consistent
  has : ∀ x, b'.Has x ↔ b.Has x ∨ x = new
  edge : ∀ u v, b'.Edge u v ↔ b.Edge u v ∧ u ≠ prev ∨ (u = prev ∧ v = new ∧ ∃ w, b.Edge prev w) ∨
    u = new ∧ b.Edge prev v
  instr : ∀ x, b.Has x → b'.instructions.find? x = b.instructions.find? x
  self : b'.instructions.find? new = some ins

theorem insertAfter_spec {prev new : Label} (h : b.insertAfter prev new i = .ok b')
    (hb : b.Consistent) : InsertsAfter b b' prev new i := by
  unfold insertAfter at h
  split_ifs at h
  obtain ⟨⟨children, b₁⟩, h₁, h⟩ := Except.bind_eq_ok.mp h
  obtain ⟨b₂, h₂, h⟩ := Except.bind_eq_ok.mp h
  obtain ⟨hmem, hcons₁, hhas₁, hedge₁, hinstr₁⟩ := swapChildren_spec (liftBuild_eq_ok.mp h₁) hb
  obtain ⟨hfresh, hadd, hself⟩ := insert_spec (liftBuild_eq_ok.mp h₂) hcons₁
  have hlinks : Adds b₂ b' (fun _ => False) fun u v =>
      (u = prev ∧ v = new ∧ children ≠ []) ∨ u = new ∧ v ∈ children := by
    refine (Except.foldlM_induction (fun done b => Adds b₂ b (fun _ => False) fun u v =>
      (u = prev ∧ v = new ∧ done ≠ []) ∨ u = new ∧ v ∈ done) h
      ((Adds.refl b₂).congr (by simp) (by simp)) fun done y b₃ b₄ _ ih hstep => ?_)
    obtain ⟨b₅, h₅, hstep⟩ := Except.bind_eq_ok.mp hstep
    have hadd₅ := (addChild_spec (liftBuild_eq_ok.mp h₅)).2.2
    have hadd₄ := (addChild_spec (liftBuild_eq_ok.mp hstep)).2.2
    refine ((ih.trans hadd₅).trans hadd₄).congr (by simp) fun u v => ?_
    simp only [List.mem_append, List.mem_singleton, ne_eq, List.append_eq_nil_iff,
      List.cons_ne_self, and_false, not_false_eq_true, and_true]
    tauto
  have hne : children ≠ [] ↔ ∃ w, b.Edge prev w := by
    rw [List.ne_nil_iff_exists_cons]
    constructor
    · rintro ⟨w, rest, rfl⟩
      exact ⟨w, (hmem w).mp List.mem_cons_self⟩
    · rintro ⟨w, hw⟩
      exact List.exists_cons_of_ne_nil (List.ne_nil_of_mem ((hmem w).mpr hw))
  have hkeep : ∀ x, b₂.Has x → b'.instructions.find? x = b₂.instructions.find? x := hlinks.instr
  refine ⟨fun hn => hfresh ((hhas₁ _).mpr hn), hlinks.consistent (hadd.consistent hcons₁),
    fun x => ?_, fun u v => ?_, fun x hx => ?_, ?_⟩
  · rw [hlinks.has, hadd.has, hhas₁, or_false]
  · rw [hlinks.edge, hadd.edge, hedge₁, hne, hmem, or_false]
  · have hx₁ := (hhas₁ x).mpr hx
    rw [hkeep x ((hadd.has x).mpr (Or.inl hx₁)), hadd.instr x hx₁, hinstr₁]
  · rw [hkeep new ((hadd.has new).mpr (Or.inr rfl)), hself]

theorem WellBuilt.insertAfter {prev new : Label} (h : WellBuilt true b)
    (hins : b.insertAfter prev new i = .ok b') : WellBuilt true b' := by
  have hspec := insertAfter_spec hins h.consistent
  refine ⟨hspec.consistent, (hspec.has _).mpr (Or.inl h.entry), fun u hu => ?_, fun _ _ _ _ => rfl⟩
  rcases (hspec.edge u _).mp hu with ⟨hu, -⟩ | ⟨-, heq, -⟩ | ⟨-, hu⟩
  · exact h.noBack u hu
  · exact hspec.fresh (heq ▸ h.entry)
  · exact h.noBack prev hu

theorem insertCounters_eq_ok {fuel : ℕ} (h : b.insertCounters fuel = .ok b') :
    ∃ wto heads, Wto.ofCfg fuel b.cfg = .ok wto ∧ WtoPartition.loopHeads wto.components = .ok heads ∧
      heads.foldlM (fun b l => b.insertAfter l l.makeIncrementCounter (.incrementLoopCounter l)) b =
        .ok b' := by
  obtain ⟨wto, hwto, h⟩ := Except.bind_eq_ok.mp h
  obtain ⟨heads, hheads, h⟩ := Except.bind_eq_ok.mp h
  refine ⟨wto, heads, liftBuild_eq_ok.mp hwto, ?_, h⟩
  unfold Wto.loopHeads at hheads
  split at hheads
  · next heads' heq =>
    rw [heq, Except.ok.inj hheads]
  · cases hheads

theorem WellBuilt.insertCounters {fuel : ℕ} (h : WellBuilt true b)
    (hins : b.insertCounters fuel = .ok b') : WellBuilt true b' := by
  obtain ⟨-, heads, -, -, hins⟩ := insertCounters_eq_ok hins
  exact Except.foldlM_induction (fun _ b => WellBuilt true b) hins h
    fun _ _ _ _ _ hb hstep => hb.insertAfter hstep

end CfgBuilder

namespace Program

variable {getAssertions : Instruction O C → Label → List A} {fuel : ℕ}
  {insts : InstructionSeq O C} {mustHaveExit checkForTermination : Bool} {prog : Program O C A}

theorem fromSequence_eq_ok
    (h : fromSequence getAssertions fuel insts mustHaveExit checkForTermination = .ok prog) :
    ∃ b₀ b, CfgBuilder.instructionSeqToCfg insts mustHaveExit = .ok b₀ ∧
      b₀.countLoops fuel checkForTermination = .ok b ∧
      prog.instructions = b.instructions ∧ prog.cfg = b.cfg := by
  obtain ⟨b₀, h₀, h⟩ := Except.bind_eq_ok.mp h
  obtain ⟨b, hb, h⟩ := Except.bind_eq_ok.mp h
  obtain ⟨as, -, h⟩ := Except.bind_eq_ok.mp h
  obtain rfl := Except.ok.inj h
  exact ⟨b₀, b, liftBuild_eq_ok.mp h₀, hb, rfl, rfl⟩

theorem fromSequence_wellBuilt (hp : insts.Proper)
    (h : fromSequence getAssertions fuel insts mustHaveExit checkForTermination = .ok prog) :
    ∃ b : CfgBuilder O C, prog.instructions = b.instructions ∧ prog.cfg = b.cfg ∧
      CfgBuilder.WellBuilt checkForTermination b := by
  obtain ⟨b₀, b, h₀, hb, hinstr, hcfg⟩ := fromSequence_eq_ok h
  refine ⟨b, hinstr, hcfg, ?_⟩
  cases checkForTermination with
  | true => exact (CfgBuilder.wellBuilt_instructionSeqToCfg hp h₀).insertCounters hb
  | false =>
    rw [← Except.ok.inj hb]
    exact CfgBuilder.wellBuilt_instructionSeqToCfg hp h₀

end Program

end Prevail
