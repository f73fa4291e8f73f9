import Mathlib.Data.Char
import Mathlib.Data.Prod.Lex
import Mathlib.Data.List.Lex
import Mathlib.Order.Lex
import Prevail.Lib.Delimited

/-!
# Labels and instructions

A label names a place of a program: an instruction, a jump between two of them, or a loop counter,
inside a stack frame. The frame is the chain of calls that leads to it. The source keeps the frame
as the printed chain, `a/b/c`; here it is the list of the parts, outermost first, and labels of
different frames are compared by the texts of their frames (`Frame.text`).

Only the fields that the construction of the control-flow graph reads or writes are kept apart;
instructions that it copies as they are come as `other`.
-/

namespace Prevail

open Delimited

/-- The numbers of a label, with the delimiter of a jump. -/
def jumpText (src dst : ℤ) : List Char := decimal src ++ if dst = -1 then [] else ':' :: decimal dst

theorem not_mem_jumpText {c : Char} (hdigit : c.isDigit = false) (hsign : c ≠ '-') (hjump : c ≠ ':')
    (src dst : ℤ) : c ∉ jumpText src dst := by
  intro h
  rcases List.mem_append.mp h with h | h
  · exact not_mem_decimal hdigit hsign h
  · split_ifs at h
    · cases h
    · exact (List.mem_cons.mp h).elim hjump (not_mem_decimal hdigit hsign)

theorem jumpText_injective {src dst src' dst' : ℤ} (h : jumpText src dst = jumpText src' dst') :
    src = src' ∧ dst = dst' := by
  have hcolon : ∀ n, ':' ∉ decimal n := fun n => not_mem_decimal (by decide) (by decide)
  unfold jumpText at h
  split_ifs at h with hdst hdst' hdst'
  · rw [List.append_nil, List.append_nil] at h
    exact ⟨decimal_injective h, hdst.trans hdst'.symm⟩
  · rw [List.append_nil] at h
    exact absurd (h ▸ List.mem_append_right _ List.mem_cons_self) (hcolon src)
  · rw [List.append_nil] at h
    exact absurd (h ▸ List.mem_append_right _ List.mem_cons_self) (hcolon src')
  · obtain ⟨hsrc, hdst⟩ := inj_first (hcolon src) (hcolon src') h
    exact ⟨decimal_injective hsrc, decimal_injective hdst⟩

/-- The parts of a `stack_frame_prefix`: the fields `from` and `to` of each call. -/
abbrev Frame := List (ℤ ×ₗ ℤ)

/-- A part of a `stack_frame_prefix` in print. -/
def partText (p : ℤ ×ₗ ℤ) : List Char := jumpText (ofLex p).1 (ofLex p).2

/-- The `stack_frame_prefix` in print, its parts after one another with `/` between them. -/
def Frame.text : Frame → List Char
  | [] => []
  | [p] => partText p
  | p :: q :: rest => partText p ++ '/' :: Frame.text (q :: rest)

theorem slash_not_mem_partText (p : ℤ ×ₗ ℤ) : '/' ∉ partText p :=
  not_mem_jumpText (by decide) (by decide) (by decide) _ _

theorem partText_ne_nil (p : ℤ ×ₗ ℤ) : partText p ≠ [] := by
  obtain ⟨c, hc, -⟩ := exists_digit_mem_decimal (ofLex p).1
  exact List.ne_nil_of_mem (List.mem_append_left _ hc)

theorem partText_injective {p q : ℤ ×ₗ ℤ} (h : partText p = partText q) : p = q := by
  obtain ⟨hsrc, hdst⟩ := jumpText_injective h
  exact Prod.ext hsrc hdst

/-- The text of a frame determines its parts. -/
theorem Frame.text_injective : Function.Injective Frame.text := by
  intro f
  induction f using Frame.text.induct with
  | case1 =>
    rintro (_ | ⟨q, _ | ⟨q', rest⟩⟩) h
    · rfl
    · exact absurd h.symm (partText_ne_nil q)
    · exact absurd h.symm (by simp [Frame.text])
  | case2 p =>
    rintro (_ | ⟨q, _ | ⟨q', rest⟩⟩) h
    · exact absurd h (partText_ne_nil p)
    · rw [partText_injective h]
    · refine absurd ?_ (slash_not_mem_partText p)
      rw [show partText p = _ from h]
      exact List.mem_append_right _ List.mem_cons_self
  | case3 p p' rest ih =>
    rintro (_ | ⟨q, _ | ⟨q', rest'⟩⟩) h
    · exact absurd h (by simp [Frame.text])
    · refine absurd ?_ (slash_not_mem_partText q)
      rw [← show _ = partText q from h]
      exact List.mem_append_right _ List.mem_cons_self
    · obtain ⟨hp, hrest⟩ := inj_first (slash_not_mem_partText p) (slash_not_mem_partText q) h
      rw [partText_injective hp, ih hrest]

/-- `Label`. The fields `from` and `to` are `src` and `dst`; `special` marks a loop counter. -/
@[ext] structure Label where
  stackFramePrefix : Frame
  src : ℤ
  dst : ℤ
  special : Bool

namespace Label

/-- The label of an instruction. -/
def ofIndex (n : ℤ) : Label := ⟨[], n, -1, false⟩

/-- The fields in the order of comparison. -/
def key (l : Label) : List Char ×ₗ ℤ ×ₗ ℤ ×ₗ Bool :=
  toLex (l.stackFramePrefix.text, toLex (l.src, toLex (l.dst, l.special)))

theorem key_injective : Function.Injective key := by
  intro a b h
  simp only [key, EmbeddingLike.apply_eq_iff_eq, Prod.mk.injEq] at h
  exact Label.ext (Frame.text_injective h.1) h.2.1 h.2.2.1 h.2.2.2

instance : LinearOrder Label := LinearOrder.lift' key key_injective

instance : LawfulBEq Label := inferInstance

def entry : Label := ofIndex (-1)

def exit : Label := ofIndex 2147483647

def makeJump (src target : Label) : Label :=
  ⟨target.stackFramePrefix, src.src, target.src, false⟩

def makeIncrementCounter (l : Label) : Label := ⟨l.stackFramePrefix, l.src, l.dst, true⟩

/-- The printed label as the prefix of the frame of a call. -/
def frame (l : Label) : Frame := l.stackFramePrefix ++ [toLex (l.src, l.dst)]

/-- The label in another frame. -/
def inFrame (l : Label) (f : Frame) : Label := ⟨f, l.src, l.dst, false⟩

@[simp] theorem inFrame_stackFramePrefix (l : Label) (f : Frame) :
    (l.inFrame f).stackFramePrefix = f := rfl

theorem frame_ne_nil (l : Label) : l.frame ≠ [] := by simp [frame]

theorem inFrame_frame_ne_exit (l caller : Label) : l.inFrame caller.frame ≠ exit :=
  fun h => caller.frame_ne_nil (congrArg stackFramePrefix h)

end Label

/-- `Condition::Op`. -/
inductive ConditionOp where
  | eq
  | ne
  | set
  | nset
  | lt
  | le
  | gt
  | ge
  | slt
  | sle
  | sgt
  | sge
  deriving DecidableEq

/-- `Condition`; the right operand is a register or an immediate. -/
structure Condition where
  op : ConditionOp
  left : UInt8
  right : UInt8 ⊕ UInt64
  is64 : Bool
  deriving DecidableEq

/-- `Instruction`, with `O` for the instructions that are only copied and `C` for the fields of a
helper call. -/
inductive Instruction (O C : Type) where
  | undefined (opcode : ℤ)
  | jmp (cond : Option Condition) (target : Label)
  | call (call : C) (stackFramePrefix : Frame)
  | callLocal (target : Label) (stackFramePrefix : Frame)
  | exit (stackFramePrefix : Frame)
  | assume (cond : Condition) (isImplicit : Bool)
  | incrementLoopCounter (name : Label)
  | other (instruction : O)
  deriving DecidableEq

end Prevail
