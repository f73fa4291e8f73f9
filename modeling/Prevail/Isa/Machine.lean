import Mathlib.Data.List.FinRange
import Prevail.Isa.Syntax
import Prevail.Lib.Stutter

/-!
# The machine

Raw and decoded programs run on the same machine. It has registers, a memory and the callers that
local calls return to; what lies outside of a program (memory, packets, helpers, maps, the frames on
the stack) is given by an environment. A word and an instruction have an effect each (`Effect`),
and `Config.perform` carries effects out. The two kinds of programs differ in their positions and in
how they name targets.
-/

namespace Prevail.Machine

/-- Registers and memory. -/
structure State (M : Type) where
  regs : Reg → BitVec 64
  mem : M

/-- What a program runs in. A load, a store, a packet access and a helper may fail. A helper is
called by its number. -/
structure Env (M : Type) where
  bigEndian : Bool
  load : M → BitVec 64 → (n : ℕ) → Option (BitVec (8 * n))
  store : M → BitVec 64 → (n : ℕ) → BitVec (8 * n) → Option M
  packet : State M → ℕ → BitVec 32 → Option (BitVec 64) → Option (State M)
  helper : State M → BitVec 64 → Option (State M)
  mapFd : BitVec 32 → BitVec 64
  mapAddress : BitVec 32 → BitVec 32 → BitVec 64
  frame : BitVec 64 → BitVec 64

/-- What a word or an instruction does, with targets in `τ`. -/
inductive Effect (τ M : Type) where
  | next (s : State M)
  | goto (t : τ)
  | call (t : τ)
  | exit
  | fault

/-- A call that has not returned: where it goes on, and the registers it was made with. -/
@[ext] structure Caller (α : Type) where
  ret : α
  regs : Reg → BitVec 64

/-- A running program, with positions in `α`. -/
@[ext] structure Config (α M : Type) where
  pc : α
  state : State M
  callers : List (Caller α)

/-- How a run stops. -/
inductive Outcome (M : Type) where
  | halted (s : State M)
  | faulted

variable {α β τ τ' M : Type}

namespace State

def set (s : State M) (r : Reg) (v : BitVec 64) : State M :=
  { s with regs := Function.update s.regs r v }

/-- The value of an operand of an instruction. -/
def value (s : State M) : Value → BitVec 64
  | .inl r => s.regs r
  | .inr i => i.toBitVec

/-- A local call has a stack frame of its own. -/
def enter (s : State M) (E : Env M) : State M := s.set 10 (E.frame (s.regs 10))

/-- The caller finds `r6` to `r10` as they were. -/
def leave (s : State M) (saved : Reg → BitVec 64) : State M :=
  { s with regs := fun r => if 6 ≤ r ∧ r ≤ 10 then saved r else s.regs r }

end State

namespace Env

variable (E : Env M) (s : State M)

def loadInto (r : Reg) (addr : BitVec 64) (n : ℕ) : Option (State M) :=
  (E.load s.mem addr n).map fun v => s.set r (v.setWidth 64)

def storeAt (addr : BitVec 64) (n : ℕ) (v : BitVec 64) : Option (State M) :=
  (E.store s.mem addr n (v.setWidth (8 * n))).map fun mem => { s with mem := mem }

/-- An atomic step: `new old` is stored for the old value, which may be fetched into a register. -/
def exchange (addr : BitVec 64) (n : ℕ) (new : BitVec (8 * n) → Option (BitVec (8 * n)))
    (fetch : Option Reg) : Option (State M) := do
  let old ← E.load s.mem addr n
  let mem ← E.store s.mem addr n (← new old)
  let s' : State M := { s with mem := mem }
  match fetch with
  | none => return s'
  | some r => return s'.set r (old.setWidth 64)

end Env

namespace Effect

/-- An operation that may fail. -/
def ofOption : Option (State M) → Effect τ M
  | some s => .next s
  | none => .fault

/-- The effect with other names for the targets. -/
def map (f : τ → τ') : Effect τ M → Effect τ' M
  | .next s => .next s
  | .goto t => .goto (f t)
  | .call t => .call (f t)
  | .exit => .exit
  | .fault => .fault

@[simp] theorem map_ofOption (f : τ → τ') (s : Option (State M)) :
    (ofOption s).map f = ofOption s := by
  cases s with
  | none => rfl
  | some s => rfl

end Effect

namespace Config

/-- Carry out an effect. The program goes on at `fall`, or at the position of a target. -/
def perform (E : Env M) (fall : α) (resolve : τ → Option α) (c : Config α M) :
    Effect τ M → Config α M ⊕ Outcome M
  | .next s => .inl ⟨fall, s, c.callers⟩
  | .goto t =>
    match resolve t with
    | some p => .inl ⟨p, c.state, c.callers⟩
    | none => .inr .faulted
  | .call t =>
    match resolve t with
    | some p => .inl ⟨p, c.state.enter E, ⟨fall, c.state.regs⟩ :: c.callers⟩
    | none => .inr .faulted
  | .exit =>
    match c.callers with
    | caller :: callers => .inl ⟨caller.ret, c.state.leave caller.regs, callers⟩
    | [] => .inr (.halted c.state)
  | .fault => .inr .faulted

/-- The same configuration with other positions. -/
def map (f : α → β) (c : Config α M) : Config β M :=
  ⟨f c.pc, c.state, c.callers.map fun caller => ⟨f caller.ret, caller.regs⟩⟩

theorem map_injective {f : α → β} (hf : Function.Injective f) :
    Function.Injective (map f : Config α M → Config β M) := by
  have hcaller : Function.Injective fun caller : Caller α =>
      (⟨f caller.ret, caller.regs⟩ : Caller β) := by
    intro caller caller' h
    obtain ⟨hret, hregs⟩ := Caller.mk.inj h
    exact Caller.ext (hf hret) hregs
  intro c c' h
  obtain ⟨hpc, hstate, hcallers⟩ := Config.mk.inj h
  exact Config.ext (hf hpc) hstate (List.map_injective_iff.mpr hcaller hcallers)

/-- An effect has the same result for both positions and targets, where the targets that it has
lead to the same position. -/
theorem perform_map {E : Env M} {f : α → β} {g : τ → τ'} {c : Config α M} {fall : α}
    {resolve : τ → Option β} {resolve' : τ' → Option α} {e : Effect τ M}
    (h : ∀ t, e = .goto t ∨ e = .call t → resolve t = (resolve' (g t)).map f) :
    Sum.LiftRel (fun c d => c = map f d) Eq ((c.map f).perform E (f fall) resolve e)
      (c.perform E fall resolve' (e.map g)) := by
  cases e with
  | next s => exact .inl rfl
  | goto t =>
    simp only [perform, Effect.map, h t (Or.inl rfl)]
    cases resolve' (g t) with
    | none => exact .inr rfl
    | some p => exact .inl rfl
  | call t =>
    simp only [perform, Effect.map, h t (Or.inr rfl)]
    cases resolve' (g t) with
    | none => exact .inr rfl
    | some p => exact .inl rfl
  | exit =>
    obtain ⟨pc, s, callers⟩ := c
    cases callers with
    | nil => exact .inr rfl
    | cons caller callers => exact .inl rfl
  | fault => exact .inr rfl

end Config

end Prevail.Machine
