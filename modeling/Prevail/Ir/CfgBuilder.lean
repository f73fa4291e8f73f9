import Prevail.Ir.Syntax
import Prevail.Lib.OrdMap

/-!
# Building the control-flow graph

`CfgBuilder` and the two passes of `instruction_seq_to_cfg`: the first pass puts every instruction
into the graph and joins it to its successors, with a node of its own for each side of a
conditional jump; the second pass replaces each local call by a copy of the function it calls
(`add_cfg_nodes`), and the calls inside the copy by copies in turn.

Exceptions are errors of `Except`. `CRAB_ERROR` and `InvalidControlFlow` are both exceptions that
leave the caller without a program; each message is a constructor with the label or the frame that
it prints.
-/

namespace Prevail

/-- Why no program is built. -/
inductive BuildError where
  | alreadyExists (l : Label)
  | jumpAlreadyExists (l : Label)
  | notFound (l : Label)
  | noSingleChild (l : Label)
  | outOfRange (l : Label)
  | illegalRecursion (f : Frame)
  | tooManyCallStackFrames
  | emptySequence
  | fallthroughInLastInstruction
  | jumpToUndefinedLabel (l : Label)
  | outOfFuel
  deriving DecidableEq

/-- A `std::set` of labels. -/
abbrev LabelSet := OrdMap Label Unit

/-- `Cfg::Adjacent`. -/
structure Adjacent where
  parents : LabelSet
  children : LabelSet

/-- `Cfg`. -/
structure Cfg where
  neighbours : OrdMap Label Adjacent

namespace Cfg

def init : Cfg := ⟨((∅ : OrdMap Label Adjacent).insert .entry ⟨∅, ∅⟩).insert .exit ⟨∅, ∅⟩⟩

def contains (g : Cfg) (l : Label) : Bool := g.neighbours.contains l

def labels (g : Cfg) : List Label := g.neighbours.keys

def getNode (g : Cfg) (l : Label) : Except BuildError Adjacent :=
  match g.neighbours.find? l with
  | some n => .ok n
  | none => .error (.notFound l)

def childrenOf (g : Cfg) (l : Label) : Except BuildError (List Label) :=
  (·.children.keys) <$> g.getNode l

def parentsOf (g : Cfg) (l : Label) : Except BuildError (List Label) :=
  (·.parents.keys) <$> g.getNode l

def getChild (g : Cfg) (l : Label) : Except BuildError Label := do
  match ← g.childrenOf l with
  | [c] => .ok c
  | _ => .error (.noSingleChild l)

/-- `neighbours.at(l)`, changed by `f`. -/
def modify (g : Cfg) (l : Label) (f : Adjacent → Adjacent) (e : BuildError) :
    Except BuildError Cfg :=
  match g.neighbours.find? l with
  | some n => .ok ⟨g.neighbours.insert l (f n)⟩
  | none => .error e

end Cfg

/-- `CfgBuilder`, with the two parts of its program that it fills. -/
structure CfgBuilder (O C : Type) where
  instructions : OrdMap Label (Instruction O C)
  cfg : Cfg

namespace CfgBuilder

variable {O C : Type}

def init : CfgBuilder O C :=
  ⟨((∅ : OrdMap Label (Instruction O C)).insert .entry (.undefined 0)).insert .exit (.undefined 0),
    .init⟩

def instructionAt (b : CfgBuilder O C) (l : Label) : Except BuildError (Instruction O C) :=
  match b.instructions.find? l with
  | some i => .ok i
  | none => .error (.notFound l)

def insert (b : CfgBuilder O C) (l : Label) (ins : Instruction O C) :
    Except BuildError (CfgBuilder O C) :=
  if b.cfg.contains l then .error (.alreadyExists l)
  else .ok ⟨b.instructions.emplace l ins, ⟨b.cfg.neighbours.emplace l ⟨∅, ∅⟩⟩⟩

def addChild (b : CfgBuilder O C) (x y : Label) : Except BuildError (CfgBuilder O C) := do
  let g ← b.cfg.modify x (fun n => { n with children := n.children.insert y () }) (.outOfRange x)
  let g ← g.modify y (fun n => { n with parents := n.parents.insert x () }) (.outOfRange y)
  return { b with cfg := g }

def removeChild (b : CfgBuilder O C) (x y : Label) : Except BuildError (CfgBuilder O C) := do
  let g ← b.cfg.modify x (fun n => { n with children := n.children.erase y }) (.notFound x)
  let g ← g.modify y (fun n => { n with parents := n.parents.erase x }) (.notFound y)
  return { b with cfg := g }

def insertJump (b : CfgBuilder O C) (src target : Label) (ins : Instruction O C) :
    Except BuildError (CfgBuilder O C) := do
  let l := Label.makeJump src target
  if b.cfg.contains l then .error (.jumpAlreadyExists l)
  else
    let b ← b.insert l ins
    let b ← b.addChild src l
    b.addChild l target

/-! ## Inlining -/

/-- Note the frame in the call instruction. -/
def setFrame (b : CfgBuilder O C) (caller : Label) : Except BuildError (CfgBuilder O C) := do
  match ← b.instructionAt caller with
  | .callLocal target _ =>
    return { b with instructions := b.instructions.insert caller (.callLocal target caller.frame) }
  | _ => return b

/-- The copy of an instruction in the frame `f`. -/
def cloneInstruction (f : Frame) : Instruction O C → Instruction O C
  | .exit _ => .exit f
  | .call c _ => .call c f
  | i => i

/-- The state of the walk over the function that is copied. -/
structure Walk (O C : Type) where
  builder : CfgBuilder O C
  macroLabels : LabelSet
  seenLabels : LabelSet
  first : Bool

/-- Add an edge from the caller to the first copy. -/
def linkCaller (b : CfgBuilder O C) (first : Bool) (caller l : Label) :
    Except BuildError (CfgBuilder O C) :=
  if first then b.addChild caller l else .ok b

/-- Add the edges from the copies of the predecessors that are there already. -/
def linkParents (f : Frame) (macroLabel : Label) (b : CfgBuilder O C) :
    Except BuildError (CfgBuilder O C) := do
  (← b.cfg.parentsOf macroLabel).foldlM (fun b p =>
    if b.cfg.contains (p.inFrame f) then b.addChild (p.inFrame f) (macroLabel.inFrame f)
    else .ok b) b

/-- One successor of `macroLabel`. It is `macroLabel` that becomes seen. -/
def walkChild (f : Frame) (exitTo macroLabel : Label) (st : Walk O C) (next : Label) :
    Except BuildError (Walk O C) := do
  if next = .exit then
    return { st with builder := ← st.builder.addChild (macroLabel.inFrame f) exitTo }
  else if !st.seenLabels.contains next then
    return { st with
      macroLabels := st.macroLabels.insert next ()
      seenLabels := st.seenLabels.insert macroLabel () }
  else return st

/-- Copy one label. -/
def walkLabel (caller exitTo : Label) (st : Walk O C) (macroLabel : Label) :
    Except BuildError (Walk O C) := do
  let f := caller.frame
  if f = macroLabel.stackFramePrefix then .error (.illegalRecursion f)
  else
    let inst ← st.builder.instructionAt macroLabel
    let b ← st.builder.insert (macroLabel.inFrame f) (cloneInstruction f inst)
    let b ← b.linkCaller st.first caller (macroLabel.inFrame f)
    let b ← b.linkParents f macroLabel
    (← b.cfg.childrenOf macroLabel).foldlM (walkChild f exitTo macroLabel)
      { st with builder := b, first := false }

/-- The walk takes the smallest label first. -/
def walk (caller exitTo : Label) : ℕ → Walk O C → Except BuildError (Walk O C)
  | 0, _ => .error .outOfFuel
  | fuel + 1, st =>
    match st.macroLabels.keys with
    | [] => .ok st
    | l :: _ => do
      walk caller exitTo fuel
        (← walkLabel caller exitTo { st with macroLabels := st.macroLabels.erase l } l)

/-- The first part of `add_cfg_nodes`: copy the function at `entry` into the frame of `caller`. -/
def cloneMacro (b : CfgBuilder O C) (caller entry : Label) : Except BuildError (Walk O C) := do
  let exitTo ← b.cfg.getChild caller
  let b ← b.setFrame caller
  let start : LabelSet := (∅ : LabelSet).insert entry ()
  let st ← walk caller exitTo (b.cfg.labels.length + 1) ⟨b, start, start, true⟩
  return { st with builder := ← st.builder.removeChild caller exitTo }

def maxCallStackFrames : ℕ := 8

/-- `add_cfg_nodes`. The depth of the recursion is bounded by the limit on frames. -/
def addCfgNodes : ℕ → CfgBuilder O C → Label → Label → Except BuildError (CfgBuilder O C)
  | 0, _, _, _ => .error .tooManyCallStackFrames
  | fuel + 1, b, caller, entry => do
    let st ← b.cloneMacro caller entry
    st.seenLabels.keys.foldlM (fun b l => do
      match ← b.instructionAt (l.inFrame caller.frame) with
      | .callLocal target _ =>
        if maxCallStackFrames ≤ caller.stackFramePrefix.length + 2 then
          .error .tooManyCallStackFrames
        else addCfgNodes fuel b (l.inFrame caller.frame) target
      | _ => .ok b) st.builder

/-! ## From instructions to the graph -/

end CfgBuilder

/-- The inverse of a comparison. -/
def ConditionOp.reverse : ConditionOp → ConditionOp
  | .eq => .ne
  | .ne => .eq
  | .ge => .lt
  | .lt => .ge
  | .sge => .slt
  | .slt => .sge
  | .le => .gt
  | .gt => .le
  | .sle => .sgt
  | .sgt => .sle
  | .set => .nset
  | .nset => .set

def Condition.reverse (c : Condition) : Condition := { c with op := c.op.reverse }

variable {O C : Type}

def Instruction.hasFall : Instruction O C → Bool
  | .exit _ => false
  | .jmp none _ => false
  | _ => true

/-- `InstructionSeq`, without the line information, which the construction does not read. -/
abbrev InstructionSeq (O C : Type) := List (Label × Instruction O C)

namespace CfgBuilder

/-- Put all instructions into the graph. -/
def insertAll (insts : InstructionSeq O C) : Except BuildError (CfgBuilder O C) :=
  insts.foldlM (fun b e => match e.2 with
    | .undefined _ => .ok b
    | i => b.insert e.1 i) .init

/-- Join one instruction to its successors. -/
def connect (b : CfgBuilder O C) (label : Label) (inst : Instruction O C) (fallthrough : Label) :
    Except BuildError (CfgBuilder O C) := do
  match inst with
  | .undefined _ => .ok b
  | .jmp (some cond) target =>
    if target = fallthrough then b.addChild label fallthrough
    else if !b.cfg.contains target then .error (.jumpToUndefinedLabel target)
    else
      let b ← b.insertJump label target (.assume cond true)
      b.insertJump label fallthrough (.assume cond.reverse true)
  | .jmp none target => b.addChild label target
  | .exit _ => b.addChild label .exit
  | _ => b.addChild label fallthrough

/-- The first pass, over the instructions that are left. -/
def connectAll (mustHaveExit : Bool) :
    InstructionSeq O C → CfgBuilder O C → Except BuildError (CfgBuilder O C)
  | [], b => .ok b
  | [(l, .undefined n)], b => b.connect l (.undefined n) .exit
  | [(l, i)], b =>
    if i.hasFall && mustHaveExit then .error .fallthroughInLastInstruction
    else b.connect l i .exit
  | (l, i) :: (l', i') :: rest, b => do
    connectAll mustHaveExit ((l', i') :: rest) (← b.connect l i l')

/-- The graph before calls are inlined. -/
def firstPass (insts : InstructionSeq O C) (mustHaveExit : Bool) :
    Except BuildError (CfgBuilder O C) := do
  let b ← insertAll insts
  match insts with
  | [] => .error .emptySequence
  | (l, _) :: _ => connectAll mustHaveExit insts (← b.addChild .entry l)

/-- Inline the call at one instruction. -/
def expandCall (b : CfgBuilder O C) (e : Label × Instruction O C) :
    Except BuildError (CfgBuilder O C) :=
  match e.2 with
  | .callLocal target _ => addCfgNodes maxCallStackFrames b e.1 target
  | _ => .ok b

def instructionSeqToCfg (insts : InstructionSeq O C) (mustHaveExit : Bool) :
    Except BuildError (CfgBuilder O C) := do
  insts.foldlM expandCall (← firstPass insts mustHaveExit)

/-- The graph with the given edges. -/
def cfgFromAdjacencyList (adjList : OrdMap Label (List Label)) : Except BuildError Cfg := do
  let b : CfgBuilder Unit Unit ← adjList.keys.foldlM (fun b label =>
    if label = .entry ∨ label = .exit then .ok b else b.insert label (.undefined 0)) .init
  let b ← adjList.entries.foldlM (fun b e =>
    e.2.foldlM (fun b child => b.addChild e.1 child) b) b
  return b.cfg

end CfgBuilder

end Prevail
