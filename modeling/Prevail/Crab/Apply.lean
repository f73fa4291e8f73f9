import Prevail.Arith.RemainderExact
import Prevail.Arith.Shift
import Prevail.Crab.Overflow

/-!
# Operations on words

`apply` carries out an operation on unbounded numbers: sums and differences as relations between variables,
the others on intervals, which are first reduced to the width (products, quotients and remainders) or
afterwards (bitwise operations). `apply_signed` and `apply_unsigned` carry an operation out on one variable
of a word, copy the result to the other and let both wrap around.

A function returns `none` where the source raises an error, and where it asserts that an interval is not
empty.
-/

namespace Prevail

open Number LinearExpression

namespace FiniteDomain

/-- `SignedArithBinOp`. -/
inductive SignedArithBinOp where
  | sdiv
  | udiv
  | srem
  | urem
  deriving DecidableEq

/-- `BitwiseBinOp`. -/
inductive BitwiseBinOp where
  | and
  | or
  | xor
  | shl
  | lshr
  | ashr
  deriving DecidableEq

/-- The operators that mask their right operand. -/
def BitwiseBinOp.isShift : BitwiseBinOp → Bool
  | .shl | .lshr | .ashr => true
  | _ => false

/-- `BinOp`. -/
inductive BinOp where
  | arith (op : ArithBinOp)
  | signedArith (op : SignedArithBinOp)
  | bitwise (op : BitwiseBinOp)
  deriving DecidableEq

variable {V : Type} [LinearOrder V]

/-- `set`, which asserts that the interval is not empty. -/
def set (d : SplitDbm V) (x : V) (i : Interval) : Option (SplitDbm V) :=
  if i.isBottom then none else some (d.set x i)

/-- A number as the immediate value of an unsigned division: 32 bits without a sign, or, at 64 bits, 32 bits
with a sign. -/
def readImmForUdivOrUmod (imm : ℤ) (w : ℕ) : Option ℤ :=
  if w = 32 then castToU 32 imm else castToS 32 imm

def readImmForSdivOrSmod (imm : ℤ) (w : ℕ) : Option ℤ :=
  if w = 32 then castToS 32 imm else castToS 64 imm

section

variable (isUnsigned : V → Bool) (d : SplitDbm V)

/-- `eval_interval` at a width, read with or without sign as the variable is. -/
def evalIntervalAt (v : V) (w : ℕ) : Option Interval :=
  let span := d.evalInterval (.var v)
  if w = 0 then none else some (if isUnsigned v then span.zeroExtend w else span.signExtend w)

/-- The right operand, a variable or a number, which `imm` reads. -/
def operandAt (imm : ℤ → Option ℤ) (z : V ⊕ ℤ) (w : ℕ) : Option Interval :=
  match z with
  | .inl z => evalIntervalAt isUnsigned d z w
  | .inr k => do return Interval.const (← imm k)

/-- `apply` of an arithmetic operator. -/
def applyArith (op : ArithBinOp) (x y : V) (z : V ⊕ ℤ) (w : ℕ) : Option (SplitDbm V) :=
  match op with
  | .add => some (d.assign x (match z with
    | .inl z => (LinearExpression.var y).plus (.var z)
    | .inr k => (LinearExpression.var y).plusConst k))
  | .sub => some (d.assign x (match z with
    | .inl z => (LinearExpression.var y).subtract (.var z)
    | .inr k => (LinearExpression.var y).plusConst (-k)))
  | .mul => do
    let left ← evalIntervalAt isUnsigned d y w
    set d x (left.mul (← operandAt isUnsigned d some z w))

/-- `apply` of a division or a remainder. -/
def applySignedArith (op : SignedArithBinOp) (x y : V) (z : V ⊕ ℤ) (w : ℕ) : Option (SplitDbm V) := do
  let left ← evalIntervalAt isUnsigned d y w
  match op with
  | .sdiv => set d x (← left.sdiv (← operandAt isUnsigned d (readImmForSdivOrSmod · w) z w))
  | .udiv => set d x (← left.udiv (← operandAt isUnsigned d (readImmForUdivOrUmod · w) z w))
  | .srem => set d x (left.srem (← operandAt isUnsigned d (readImmForSdivOrSmod · w) z w))
  | .urem => set d x (← left.urem (← operandAt isUnsigned d (readImmForUdivOrUmod · w) z w))

/-- `apply` of a bitwise operator. -/
def applyBitwise (op : BitwiseBinOp) (x y : V) (z : V ⊕ ℤ) (w : ℕ) : Option (SplitDbm V) := do
  let yi := d.evalInterval (.var y)
  let zi ← match z with
    | .inl z => some (d.evalInterval (.var z))
    | .inr k => (castToU 64 k).map Interval.const
  let zi := if op.isShift then zi.maskShiftCount w else zi
  let xi ← match op with
    | .and => some (yi.bitwiseAnd zi)
    | .or => some (yi.bitwiseOr zi)
    | .xor => some (yi.bitwiseXor zi)
    | .shl => some (yi.shl zi)
    | .lshr => yi.lshr zi
    | .ashr => some (yi.ashr zi)
  set d x (xi.maskValue w)

/-- `apply`. -/
def apply (op : BinOp) (x y : V) (z : V ⊕ ℤ) (w : ℕ) : Option (SplitDbm V) :=
  match op with
  | .arith op => applyArith isUnsigned d op x y z w
  | .signedArith op => applySignedArith isUnsigned d op x y z w
  | .bitwise op => applyBitwise d op x y z w

/-- `apply_signed`. -/
def applySigned (op : BinOp) (xs xu y : V) (z : V ⊕ ℤ) (w : ℕ) : Option (SplitDbm V) := do
  let d ← apply isUnsigned d op xs y z w
  if w ≠ 0 then overflowBounds (d.assign xu (.var xs)) xs xu w else return d

/-- `apply_unsigned`. -/
def applyUnsigned (op : BinOp) (xs xu y : V) (z : V ⊕ ℤ) (w : ℕ) : Option (SplitDbm V) := do
  let d ← apply isUnsigned d op xu y z w
  if w ≠ 0 then overflowBounds (d.assign xs (.var xu)) xs xu w else return d

end

/-! ## Copying and wrapping around -/

/-- The valuation with a word in the variables `svalue` and `uvalue`. -/
def setWord (σ : V → ℤ) (svalue uvalue : V) (y : BitVec 64) : V → ℤ :=
  Function.update (Function.update σ svalue y.toInt) uvalue y.toNat

section

variable {d d₁ : SplitDbm V} {σ : V → ℤ} {svalue uvalue x other : V} {w : ℕ}

/-- What was known of the two variables does not matter. -/
theorem setWord_update {x : V} (hx : x = svalue ∨ x = uvalue) (k : ℤ) (y : BitVec 64) :
    setWord (Function.update σ x k) svalue uvalue y = setWord σ svalue uvalue y := by
  funext v
  unfold setWord
  simp only [Function.update_apply]
  rcases hx with rfl | rfl <;> split_ifs <;> rfl

theorem models_copy {k : ℤ} (hd : d₁.WF) (h : d₁.Models (Function.update σ x k)) :
    (d₁.assign other (.var x)).Models (Function.update (Function.update σ x k) other k) := by
  have hassign := SplitDbm.models_assign hd other (.var x) h
  rwa [eval_var, Function.update_self] at hassign

theorem copied_eq (hx : x = svalue ∧ other = uvalue ∨ x = uvalue ∧ other = svalue) (σ : V → ℤ) (k : ℤ) :
    Function.update (Function.update σ x k) other k svalue = k ∧
      Function.update (Function.update σ x k) other k uvalue = k := by
  rcases hx with ⟨rfl, rfl⟩ | ⟨rfl, rfl⟩ <;> simp [Function.update_apply]

/-- The result `k` in one variable of a word is copied to the other, and both wrap around. -/
theorem copy_spec {K : (V → ℤ) → ℤ → Prop} (hd : d₁.WF) (hne : svalue ≠ uvalue) (hw : w = 32 ∨ w = 64)
    (hx : x = svalue ∧ other = uvalue ∨ x = uvalue ∧ other = svalue)
    (h : ∀ σ k, d.Models σ → K σ k → d₁.Models (Function.update σ x k))
    (hsat : ∃ σ k, d.Models σ ∧ K σ k) :
    ∃ d', overflowBounds (d₁.assign other (.var x)) svalue uvalue w = some d' ∧ d'.WF ∧
      ∀ σ k, d.Models σ → K σ k → d'.Models (setWord σ svalue uvalue (word w k)) := by
  have hcopy := fun σ k hσ hk => @models_copy _ _ d₁ σ x other k hd (h σ k hσ hk)
  obtain ⟨σ₀, k₀, hσ₀, hk₀⟩ := hsat
  obtain ⟨d', hd', hwf', hmodels⟩ := overflowBounds_spec (SplitDbm.wf_assign hd other (.var x))
    ⟨_, hcopy σ₀ k₀ hσ₀ hk₀⟩ hne hw
  refine ⟨d', hd', hwf', fun σ k hσ hk => ?_⟩
  have hboth := copied_eq hx σ k
  have hσ' := hmodels _ (hcopy σ k hσ hk)
  rw [hboth.1, hboth.2] at hσ'
  change d'.Models (setWord _ svalue uvalue (word w k)) at hσ'
  rwa [setWord_update (hx.imp And.right And.right).symm, setWord_update (hx.imp And.left And.left)] at hσ'

/-- An interval that is set for one variable of a word. -/
theorem set_copy_spec {i : Interval} (hd : d.WF) (hne : svalue ≠ uvalue) (hw : w = 32 ∨ w = 64)
    (hx : x = svalue ∧ other = uvalue ∨ x = uvalue ∧ other = svalue) (hsat : ∃ σ, d.Models σ)
    (hi : ∃ k, k ∈ i) :
    ∃ d', (do
        let d ← set d x i
        overflowBounds (d.assign other (.var x)) svalue uvalue w) = some d' ∧ d'.WF ∧
      ∀ σ k, d.Models σ → k ∈ i → d'.Models (setWord σ svalue uvalue (word w k)) := by
  obtain ⟨σ₀, hσ₀⟩ := hsat
  obtain ⟨k₀, hk₀⟩ := hi
  have hset : set d x i = some (d.set x i) :=
    if_neg (by rw [Interval.isBottom_eq_false_of_mem hk₀]; exact Bool.false_ne_true)
  rw [hset]
  exact copy_spec (SplitDbm.wf_set hd x i) hne hw hx (fun σ k hσ hk => SplitDbm.models_set hd hσ hk)
    ⟨σ₀, k₀, hσ₀, hk₀⟩

end

end FiniteDomain

end Prevail
