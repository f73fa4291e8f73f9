import Prevail.Arith.Interval
import Prevail.Lib.OrdMap

/-!
# Linear expressions and constraints

`LinearExpression` and `LinearConstraint` over variables of an ordered type `V`, and their
meaning under a valuation of the variables.

The operators of `dsl_syntax.hpp` that build constraints are `LinearExpression.le` and its
relatives here.
-/

namespace Prevail

/-- A constant and the variables with their coefficients, none of which is zero. -/
structure LinearExpression (V : Type*) [LinearOrder V] where
  constantTerm : ℤ
  variableTerms : OrdMap V ℤ
  nonzero : ∀ t ∈ variableTerms.entries, t.2 ≠ 0
  deriving DecidableEq

namespace LinearExpression

variable {V : Type*} [LinearOrder V]

/-- A constant. -/
def const (n : ℤ) : LinearExpression V := ⟨n, ∅, by simp⟩

/-- A variable with coefficient one. -/
def var (v : V) : LinearExpression V :=
  ⟨0, (∅ : OrdMap V ℤ).insert v 1, by simp [OrdMap.insert, OrdMap.insertEntry]⟩

/-- `LinearExpression(coefficient, variable)`. -/
def term (c : ℤ) (v : V) : LinearExpression V :=
  if h : c = 0 then ⟨0, ∅, by simp⟩
  else ⟨0, (∅ : OrdMap V ℤ).insert v c, by simpa [OrdMap.insert, OrdMap.insertEntry] using h⟩

/-- The constructor from terms, which drops the zero coefficients. -/
def ofTerms (terms : OrdMap V ℤ) (n : ℤ) : LinearExpression V :=
  ⟨n, terms.filterVals (· ≠ 0), fun _ ht => of_decide_eq_true (List.mem_filter.mp ht).2⟩

def coefficientOf (e : LinearExpression V) (v : V) : ℤ := (e.variableTerms.find? v).getD 0

def isConstant (e : LinearExpression V) : Bool := e.variableTerms.entries.isEmpty

def multiply (e : LinearExpression V) (n : ℤ) : LinearExpression V :=
  ofTerms (e.variableTerms.mapVals (· * n)) (e.constantTerm * n)

/-- `plus` with a constant. -/
def plusConst (e : LinearExpression V) (n : ℤ) : LinearExpression V :=
  ofTerms e.variableTerms (e.constantTerm + n)

def plus (e f : LinearExpression V) : LinearExpression V :=
  ofTerms (f.variableTerms.entries.foldl
    (fun m t => m.insert t.1 (e.coefficientOf t.1 + t.2)) e.variableTerms)
    (e.constantTerm + f.constantTerm)

def negate (e : LinearExpression V) : LinearExpression V := e.multiply (-1)

def subtract (e f : LinearExpression V) : LinearExpression V :=
  ofTerms (f.variableTerms.entries.foldl
    (fun m t => m.insert t.1 (e.coefficientOf t.1 - t.2)) e.variableTerms)
    (e.constantTerm - f.constantTerm)

/-- The value of the terms. -/
def evalTerms (σ : V → ℤ) : List (V × ℤ) → ℤ
  | [] => 0
  | t :: l => t.2 * σ t.1 + evalTerms σ l

/-- The value of an expression. -/
def eval (σ : V → ℤ) (e : LinearExpression V) : ℤ :=
  e.constantTerm + evalTerms σ e.variableTerms.entries

variable (σ : V → ℤ)

@[simp] theorem eval_const (n : ℤ) : eval σ (const n) = n := by
  simp [eval, const, evalTerms]

theorem evalTerms_insertEntry (v : V) (c : ℤ) {l : List (V × ℤ)}
    (hl : l.Pairwise fun a b => a.1 < b.1) :
    evalTerms σ (OrdMap.insertEntry v c l) =
      evalTerms σ l + (c - (OrdMap.findEntry v l).getD 0) * σ v := by
  induction l with
  | nil => simp [OrdMap.insertEntry, OrdMap.findEntry, evalTerms]
  | cons t l ih =>
    obtain ⟨ht, hl⟩ := List.pairwise_cons.mp hl
    unfold OrdMap.insertEntry OrdMap.findEntry
    split_ifs with h1 h2 h3
    · exact absurd h2 h1.ne
    · have hnone : OrdMap.findEntry v l = none :=
        OrdMap.findEntry_eq_none fun e he => h1.trans (ht e he)
      simp only [evalTerms, hnone, Option.getD_none]
      ring
    · simp only [evalTerms, Option.getD_some, h3]
      ring
    · simp only [evalTerms, ih hl]
      ring

omit [LinearOrder V] in
theorem evalTerms_filter_ne_zero (l : List (V × ℤ)) :
    evalTerms σ (l.filter fun t => decide (t.2 ≠ 0)) = evalTerms σ l := by
  induction l with
  | nil => rfl
  | cons t l ih =>
    by_cases h : t.2 = 0
    · rw [List.filter_cons_of_neg (by simp [h]), ih, evalTerms, h]
      simp
    · rw [List.filter_cons_of_pos (by simp [h]), evalTerms, evalTerms, ih]

theorem eval_ofTerms (terms : OrdMap V ℤ) (n : ℤ) :
    eval σ (ofTerms terms n) = n + evalTerms σ terms.entries :=
  congrArg (n + ·) (evalTerms_filter_ne_zero σ terms.entries)

@[simp] theorem eval_var (v : V) : eval σ (var v) = σ v := by
  simp [eval, var, OrdMap.insert, OrdMap.insertEntry, evalTerms]

@[simp] theorem eval_plusConst (e : LinearExpression V) (n : ℤ) :
    eval σ (e.plusConst n) = eval σ e + n := by
  rw [plusConst, eval_ofTerms, eval]
  ring

@[simp] theorem eval_multiply (e : LinearExpression V) (n : ℤ) :
    eval σ (e.multiply n) = eval σ e * n := by
  have h : ∀ l : List (V × ℤ),
      evalTerms σ (l.map fun t => (t.1, t.2 * n)) = evalTerms σ l * n := by
    intro l
    induction l with
    | nil => simp [evalTerms]
    | cons t l ih =>
      simp only [List.map_cons, evalTerms, ih]
      ring
  rw [multiply, eval_ofTerms, eval, add_mul]
  exact congrArg _ (h _)

@[simp] theorem eval_negate (e : LinearExpression V) : eval σ e.negate = -eval σ e := by
  rw [negate, eval_multiply]
  ring

/-- Writing new coefficients for the variables of a sorted list into the terms of `e`. -/
theorem evalTerms_foldl_insert (e : LinearExpression V) (f : ℤ → ℤ → ℤ) {l : List (V × ℤ)}
    (hl : l.Pairwise fun a b => a.1 < b.1) (m : OrdMap V ℤ)
    (hm : ∀ t ∈ l, m.find? t.1 = e.variableTerms.find? t.1) :
    evalTerms σ (l.foldl (fun m t => m.insert t.1 (f (e.coefficientOf t.1) t.2)) m).entries =
      evalTerms σ m.entries +
        evalTerms σ (l.map fun t => (t.1, f (e.coefficientOf t.1) t.2 - e.coefficientOf t.1)) := by
  induction l generalizing m with
  | nil => simp [evalTerms]
  | cons t l ih =>
    obtain ⟨ht, hl⟩ := List.pairwise_cons.mp hl
    rw [List.foldl_cons, ih hl _ fun u hu => ?_]
    · have hins : evalTerms σ (m.insert t.1 (f (e.coefficientOf t.1) t.2)).entries =
          evalTerms σ m.entries +
            (f (e.coefficientOf t.1) t.2 - (m.find? t.1).getD 0) * σ t.1 :=
        evalTerms_insertEntry σ _ _ m.sorted
      rw [hins, hm t List.mem_cons_self]
      simp only [List.map_cons, evalTerms, coefficientOf]
      ring
    · rw [OrdMap.find?_insert_of_ne (ht u hu).ne']
      exact hm u (List.mem_cons_of_mem _ hu)

@[simp] theorem eval_plus (e f : LinearExpression V) :
    eval σ (e.plus f) = eval σ e + eval σ f := by
  have h := evalTerms_foldl_insert σ e (· + ·) f.variableTerms.sorted e.variableTerms
    fun _ _ => rfl
  simp only [add_sub_cancel_left] at h
  rw [plus, eval_ofTerms, h]
  simp only [eval, Prod.mk.eta, List.map_id']
  ring

@[simp] theorem eval_subtract (e f : LinearExpression V) :
    eval σ (e.subtract f) = eval σ e - eval σ f := by
  have h := evalTerms_foldl_insert σ e (· - ·) f.variableTerms.sorted e.variableTerms
    fun _ _ => rfl
  have hneg : ∀ l : List (V × ℤ), evalTerms σ (l.map fun t => (t.1,
      e.coefficientOf t.1 - t.2 - e.coefficientOf t.1)) = -evalTerms σ l := by
    intro l
    induction l with
    | nil => rfl
    | cons t l ih =>
      simp only [List.map_cons, evalTerms, ih]
      ring
  rw [subtract, eval_ofTerms, h, hneg]
  simp only [eval]
  ring

theorem eval_eq_of_isConstant {e : LinearExpression V} (h : e.isConstant) :
    eval σ e = e.constantTerm := by
  rw [isConstant, List.isEmpty_iff] at h
  simp [eval, h, evalTerms]

end LinearExpression

/-- `ConstraintKind`. -/
inductive ConstraintKind where
  | equalsZero
  | lessThanOrEqualsZero
  | lessThanZero
  | notZero
  deriving DecidableEq

/-- What a constraint kind says of the value of its expression. -/
def ConstraintKind.Holds : ConstraintKind → ℤ → Prop
  | equalsZero, n => n = 0
  | lessThanOrEqualsZero, n => n ≤ 0
  | lessThanZero, n => n < 0
  | notZero, n => n ≠ 0

instance (k : ConstraintKind) (n : ℤ) : Decidable (k.Holds n) := by
  cases k <;> unfold ConstraintKind.Holds <;> infer_instance

/-- A linear expression compared with zero. -/
structure LinearConstraint (V : Type*) [LinearOrder V] where
  expression : LinearExpression V
  kind : ConstraintKind
  deriving DecidableEq

namespace LinearConstraint

variable {V : Type*} [LinearOrder V]

/-- The valuation satisfies the constraint. -/
def Sat (σ : V → ℤ) (c : LinearConstraint V) : Prop := c.kind.Holds (c.expression.eval σ)

instance (σ : V → ℤ) (c : LinearConstraint V) : Decidable (c.Sat σ) :=
  inferInstanceAs (Decidable (c.kind.Holds _))

def isTautology (c : LinearConstraint V) : Bool :=
  c.expression.isConstant && decide (c.kind.Holds c.expression.constantTerm)

def isContradiction (c : LinearConstraint V) : Bool :=
  c.expression.isConstant && !c.isTautology

def negate (c : LinearConstraint V) : LinearConstraint V :=
  match c.kind with
  | .notZero => ⟨c.expression, .equalsZero⟩
  | .equalsZero => ⟨c.expression, .notZero⟩
  | .lessThanZero => ⟨c.expression.negate, .lessThanOrEqualsZero⟩
  | .lessThanOrEqualsZero => ⟨c.expression.negate, .lessThanZero⟩

def falseConst : LinearConstraint V := ⟨.const 0, .notZero⟩

def trueConst : LinearConstraint V := ⟨.const 0, .equalsZero⟩

theorem sat_of_isTautology {c : LinearConstraint V} (h : c.isTautology) (σ : V → ℤ) :
    c.Sat σ := by
  unfold isTautology at h
  rw [Bool.and_eq_true] at h
  unfold Sat
  rw [LinearExpression.eval_eq_of_isConstant σ h.1]
  exact of_decide_eq_true h.2

theorem not_sat_of_isContradiction {c : LinearConstraint V} (h : c.isContradiction) (σ : V → ℤ) :
    ¬ c.Sat σ := by
  unfold isContradiction isTautology at h
  unfold Sat
  intro hs
  rw [Bool.and_eq_true] at h
  rw [LinearExpression.eval_eq_of_isConstant σ h.1] at hs
  simp [h.1, hs] at h

theorem sat_negate {c : LinearConstraint V} {σ : V → ℤ} : c.negate.Sat σ ↔ ¬ c.Sat σ := by
  rcases c with ⟨e, k⟩
  cases k <;> simp [negate, Sat, ConstraintKind.Holds]

end LinearConstraint

namespace LinearExpression

variable {V : Type*} [LinearOrder V] (e f : LinearExpression V)

/-- `e <= f`. -/
def le : LinearConstraint V := ⟨e.subtract f, .lessThanOrEqualsZero⟩

/-- `e < f`. -/
def lt : LinearConstraint V := ⟨e.subtract f, .lessThanZero⟩

/-- `e >= f`. -/
def ge : LinearConstraint V := le f e

/-- `e > f`. -/
def gt : LinearConstraint V := lt f e

/-- `e == f`. -/
def eq : LinearConstraint V := ⟨e.subtract f, .equalsZero⟩

/-- `e != f`. -/
def ne : LinearConstraint V := ⟨e.subtract f, .notZero⟩

variable {e f} {σ : V → ℤ}

@[simp] theorem sat_le : (le e f).Sat σ ↔ e.eval σ ≤ f.eval σ := by
  simp [le, LinearConstraint.Sat, ConstraintKind.Holds]

@[simp] theorem sat_lt : (lt e f).Sat σ ↔ e.eval σ < f.eval σ := by
  simp [lt, LinearConstraint.Sat, ConstraintKind.Holds]

@[simp] theorem sat_ge : (ge e f).Sat σ ↔ f.eval σ ≤ e.eval σ := sat_le

@[simp] theorem sat_gt : (gt e f).Sat σ ↔ f.eval σ < e.eval σ := sat_lt

@[simp] theorem sat_eq : (eq e f).Sat σ ↔ e.eval σ = f.eval σ := by
  simp [eq, LinearConstraint.Sat, ConstraintKind.Holds, sub_eq_zero]

@[simp] theorem sat_ne : (ne e f).Sat σ ↔ e.eval σ ≠ f.eval σ := by
  simp [ne, LinearConstraint.Sat, ConstraintKind.Holds, sub_eq_zero]

end LinearExpression

end Prevail
