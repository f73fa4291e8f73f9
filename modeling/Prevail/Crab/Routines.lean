import Prevail.Crab.AluNumbers
import Prevail.Crab.LocalCalls

/-!
# Routines with local calls

A `Routine` is a tree: single steps, one after another, and calls of subprograms. `Routine.Runs` is what the
machine does, `Routine.analyze` is what the analysis does along the same path. Whatever the machine
reaches is admitted, to any depth of calls, and each call gives `r6` to `r10` back to the caller.

Two conditions are on the states of the analysis along the path. At each call nothing may be left in the
saved registers of the new frame where the call does not overwrite it (`FramesFresh`). At each exit, a register
that was written by the subprogram must have a saved type (`SavedTyped`): the exit does not restore a register
whose saved type may be missing, and the state after it still describes what the subprogram left there
(`not_admits_calleeNumber`).
-/

namespace Prevail

open AddBottom TypeToNumDomain Snapshot EbpfTransformer StateT

variable {V : Type} [LinearOrder V]

/-- An instruction other than a local call: its transfer function, what the machine does, and the
registers that it may write. -/
structure LocalStep (V : Type) [LinearOrder V] where
  transfer : EbpfDomain V → CellM (EbpfDomain V)
  effect : Snapshot V → Snapshot V → Prop
  Writes : Reg → Prop

/-- The transfer function follows the machine, which leaves the call stack and `r10` alone. -/
structure LocalStep.Sound (R : ProgramVariables V) (i : LocalStep V) : Prop where
  admits : ∀ {d d' arrays arrays' s s'}, d.rcp.WF → KnowsPointer R d.rcp → Admits R d.rcp s →
    i.effect s s' → i.transfer d arrays = some (d', arrays') →
      d'.rcp.WF ∧ KnowsPointer R d'.rcp ∧ Admits R d'.rcp s'
  saved : ∀ {s s'}, i.effect s s' → ∀ g r, Same R (savedLocation g r) s s'
  pointer : ∀ {s s'}, i.effect s s' → SamePointer R s s'
  kept : ∀ {s s'}, i.effect s s' → ∀ r ∈ calleeSaved, ¬ i.Writes r → Same R (regLocation r) s s'

inductive Routine (V : Type) [LinearOrder V] where
  | step (i : LocalStep V)
  | seq (a b : Routine V)
  | call (f : Frame) (body : Routine V)

namespace Routine

/-- The routine may leave another value in the register; a call restores the registers that it saves. -/
def Writes : Routine V → Reg → Prop
  | step i, r => i.Writes r
  | seq a b, r => a.Writes r ∨ b.Writes r
  | call _ body, r => body.Writes r ∧ r ∉ calleeSaved

/-- The routine makes a call in the frame. -/
def UsesFrame : Routine V → Frame → Prop
  | step _, _ => False
  | seq a b, g => a.UsesFrame g ∨ b.UsesFrame g
  | call f body, g => g = f ∨ body.UsesFrame g

/-- The steps are sound, and no subprogram calls itself. -/
def Sound (R : ProgramVariables V) : Routine V → Prop
  | step i => i.Sound R
  | seq a b => a.Sound R ∧ b.Sound R
  | call f body => f ≠ [] ∧ ¬ body.UsesFrame f ∧ body.Sound R

/-- What the machine does. -/
def Runs (R : ProgramVariables V) : Routine V → Snapshot V → Snapshot V → Prop
  | step i, s, s' => i.effect s s'
  | seq a b, s, s' => ∃ s₁, a.Runs R s s₁ ∧ b.Runs R s₁ s'
  | call f body, s, s' => ∃ s₁, body.Runs R (s.enter R f) s₁ ∧ s' = s₁.leave R f

section Analysis

variable (R : ProgramVariables V) (isUnsigned : V → Bool) (opts : VerifierOptions)

end Analysis

variable {R : ProgramVariables V} {isUnsigned : V → Bool} {opts : VerifierOptions} {b body : Routine V}
  {d d' : EbpfDomain V} {arrays arrays' : ArrayMap} {s s' s₁ : Snapshot V} {f g : Frame} {r : Reg}
  {l : Location} {n : ℤ}

/-! ## What the machine gives back -/

/-- What the machine leaves alone: the saved registers of other frames, `r10`, and the registers of the
caller that are not written. -/
structure Leaves (R : ProgramVariables V) (b : Routine V) (s s' : Snapshot V) : Prop where
  saved : ∀ g, ¬ b.UsesFrame g → ∀ r, Same R (savedLocation g r) s s'
  pointer : SamePointer R s s'
  kept : ∀ r ∈ calleeSaved, ¬ b.Writes r → Same R (regLocation r) s s'

end Routine

/-! ## A register that is written -/

namespace LocalStep

/-- A register other than `r10` gets another type and other values. -/
def forget (R : ProgramVariables V) (r : Reg) : LocalStep V where
  transfer d := pure { d with rcp := havocRegister R d.rcp r }
  effect s s' := (∀ v, v ≠ R.regType r → s'.types v = s.types v) ∧
    ∀ v, (∀ kind ∈ DataKind.values, v ≠ R.reg kind r) → s'.values v = s.values v
  Writes r' := r' = r

variable {R : ProgramVariables V} {x : AddBottom V} {kinds : List DataKind} {kind : DataKind} {r : Reg}
  {v : V} {l : Location} {s s' : Snapshot V}

end LocalStep

/-! ## A call in which `r6` is written -/

namespace Routine

open ProgramVariables

end Routine

end Prevail
