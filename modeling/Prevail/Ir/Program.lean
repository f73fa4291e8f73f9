import Prevail.Cfg.Wto

/-!
# Programs

`Program::from_sequence`: the graph of the instructions, a loop counter after the head of each loop
if termination is to be checked, and the assertions of every label. What `get_assertions` returns is
a parameter.
-/

namespace Prevail

/-- Why there is no program. -/
inductive ProgramError where
  | build (e : BuildError)
  | wto (e : Wto.WtoError)
  | sameLabel (l : Label)
  deriving DecidableEq

/-- `Program`. -/
structure Program (O C A : Type) where
  instructions : OrdMap Label (Instruction O C)
  assertions : OrdMap Label (List A)
  cfg : Cfg

variable {O C A : Type}

def Instruction.isIncrementLoopCounter : Instruction O C → Bool
  | .incrementLoopCounter _ => true
  | _ => false

/-- An error of the builder as one of the program. -/
def liftBuild {α : Type} (x : Except BuildError α) : Except ProgramError α :=
  match x with
  | .ok a => .ok a
  | .error e => .error (.build e)

namespace CfgBuilder

/-- Take the children of a label away, in exchange for none. -/
def swapChildren (b : CfgBuilder O C) (l : Label) :
    Except BuildError (List Label × CfgBuilder O C) := do
  let children ← b.cfg.childrenOf l
  let g ← b.cfg.modify l (fun n => { n with children := ∅ }) (.notFound l)
  let g ← children.foldlM (fun g next =>
    g.modify next (fun n => { n with parents := n.parents.erase l }) (.notFound next)) g
  return (children, { b with cfg := g })

/-- `insert_after`. -/
def insertAfter (b : CfgBuilder O C) (prev new : Label) (ins : Instruction O C) :
    Except ProgramError (CfgBuilder O C) := do
  if prev = new then .error (.sameLabel new)
  else
    let (children, b) ← liftBuild (b.swapChildren prev)
    let b ← liftBuild (b.insert new ins)
    children.foldlM (fun b next => do
      let b ← liftBuild (b.addChild prev new)
      liftBuild (b.addChild new next)) b

end CfgBuilder

/-- `for_each_loop_head`: the heads of the cycles that are components of the partition. -/
def WtoPartition.loopHeads : WtoPartition → Except Wto.WtoError (List Label)
  | .nil => .ok []
  | .vertex _ rest => loopHeads rest
  | .component body rest => do
    let head ← Wto.cycleHead ⟨body, none⟩
    return head :: (← loopHeads rest)

/-- `for_each_loop_head`, where an error is one of the program. -/
def Wto.loopHeads (wto : Wto) : Except ProgramError (List Label) :=
  match WtoPartition.loopHeads wto.components with
  | .ok heads => .ok heads
  | .error e => .error (.wto e)

namespace CfgBuilder

/-- Put a loop counter after the head of each loop. -/
def insertCounters (fuel : ℕ) (b : CfgBuilder O C) : Except ProgramError (CfgBuilder O C) := do
  let wto ← liftBuild (Wto.ofCfg fuel b.cfg)
  (← wto.loopHeads).foldlM (fun b l => b.insertAfter l l.makeIncrementCounter
    (.incrementLoopCounter l)) b

/-- Count the loops, if termination is to be checked. -/
def countLoops (fuel : ℕ) (checkForTermination : Bool) (b : CfgBuilder O C) :
    Except ProgramError (CfgBuilder O C) :=
  if checkForTermination then b.insertCounters fuel else .ok b

end CfgBuilder

namespace Program

/-- `from_sequence`. -/
def fromSequence (getAssertions : Instruction O C → Label → List A) (fuel : ℕ)
    (insts : InstructionSeq O C) (mustHaveExit checkForTermination : Bool) :
    Except ProgramError (Program O C A) := do
  let b ← liftBuild (CfgBuilder.instructionSeqToCfg insts mustHaveExit)
  let b ← b.countLoops fuel checkForTermination
  let init : OrdMap Label (List A) := ((∅ : OrdMap Label (List A)).insert .entry []).insert .exit []
  let assertions ← b.cfg.labels.foldlM (fun m l => do
    return m.insert l (getAssertions (← liftBuild (b.instructionAt l)) l)) init
  return ⟨b.instructions, assertions, b.cfg⟩

end Program

end Prevail
