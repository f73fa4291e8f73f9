import Mathlib.Algebra.Order.Group.Int
import Mathlib.Data.Int.Order.Basic
import Mathlib.Logic.Relation
import Mathlib.Order.Bounds.Defs
import Mathlib.Tactic.Linarith

/-!
# Systems of difference constraints

A system over the unknowns `V` is a relation `E s d w`, read `x d - x s ≤ w`. `Sat` is its set of
solutions and `Implies E s d w` says that every solution keeps the distance `w` from `s` to `d`.

The closure algorithms only ever add implied constraints: `Implies.refl`, `Implies.of_edge` and
`Implies.trans` build them along paths, and `Sat.of_implies` says that adding them loses no
solution. Below a bound, every set of unknowns that a greatest solution moves away from the bound
is held down by a tight constraint from outside the set (`exists_tight_of_isGreatest`).
-/

/-- A system of difference constraints: `E s d w` reads `x d - x s ≤ w`. -/
abbrev DiffSys (V : Type*) := V → V → ℤ → Prop

namespace DiffSys

variable {V : Type*} {E F : DiffSys V} {σ : V → ℤ} {s d e : V} {w w' : ℤ}

/-- `σ` is a solution of the system. -/
def Sat (E : DiffSys V) (σ : V → ℤ) : Prop := ∀ s d w, E s d w → σ d ≤ σ s + w

/-- Every solution keeps `x d - x s ≤ w`. -/
def Implies (E : DiffSys V) (s d : V) (w : ℤ) : Prop := ∀ σ, Sat E σ → σ d ≤ σ s + w

theorem Implies.of_edge (h : E s d w) : Implies E s d w := fun _ hσ => hσ s d w h

theorem Implies.refl (E : DiffSys V) (s : V) : Implies E s s 0 := fun σ _ => by simp

theorem Implies.trans (h : Implies E s d w) (h' : Implies E d e w') :
    Implies E s e (w + w') := by
  intro σ hσ
  have h1 := h σ hσ
  have h2 := h' σ hσ
  omega

theorem Implies.snoc (h : Implies E s d w) (h' : E d e w') : Implies E s e (w + w') :=
  h.trans (.of_edge h')

theorem Implies.weaken (h : Implies E s d w) (hw : w ≤ w') : Implies E s d w' := by
  intro σ hσ
  have h1 := h σ hσ
  omega

theorem Implies.mono (h : Implies E s d w) (hF : ∀ a b c, E a b c → F a b c) :
    Implies F s d w := fun σ hσ => h σ fun a b c hc => hσ a b c (hF a b c hc)

/-- Reversing all constraints reverses what they imply. -/
theorem Implies.of_reverse (h : Implies (fun a b c => E b a c) s d w) : Implies E d s w := by
  intro σ hσ
  have hneg : Sat (fun a b c => E b a c) (fun v => -σ v) := by
    intro a b c hc
    have h1 := hσ b a c hc
    show -σ b ≤ -σ a + c
    omega
  have h2 : -σ d ≤ -σ s + w := h _ hneg
  omega

/-- A system whose constraints are implied by `E` is solved by the solutions of `E`. -/
theorem Sat.of_implies (hσ : Sat E σ) (h : ∀ s d w, F s d w → Implies E s d w) : Sat F σ :=
  fun s d w hw => h s d w hw σ hσ

/-- Solutions may be shifted. -/
theorem Sat.sub_const (hσ : Sat E σ) (c : ℤ) : Sat E fun v => σ v - c := by
  intro s d w hw
  have h1 := hσ s d w hw
  show σ d - c ≤ σ s - c + w
  omega

/-- The pointwise minimum of two solutions is a solution. -/
theorem Sat.min {ρ : V → ℤ} (hσ : Sat E σ) (hρ : Sat E ρ) : Sat E fun v => Min.min (σ v) (ρ v) := by
  intro s d w hw
  have h1 := hσ s d w hw
  have h2 := hρ s d w hw
  show Min.min (σ d) (ρ d) ≤ Min.min (σ s) (ρ s) + w
  omega

/-- The differences that solutions have between two unknowns are an interval. -/
theorem exists_sat_of_between {ρ : V → ℤ} {k : ℤ} (hσ : Sat E σ) (hσk : σ d ≤ σ s + k)
    (hρ : Sat E ρ) (hρk : ρ s + k ≤ ρ d) : ∃ φ, Sat E φ ∧ φ d = φ s + k := by
  refine ⟨_, (hσ.sub_const (σ d)).min (hρ.sub_const (ρ s + k)), ?_⟩
  show Min.min (σ d - σ d) (ρ d - (ρ s + k)) = Min.min (σ s - σ d) (ρ s - (ρ s + k)) + k
  omega

/-- A cycle of negative weight leaves no solution. -/
theorem not_sat_of_implies_neg (h : Implies E s s w) (hw : w < 0) : ¬ Sat E σ := by
  intro hσ
  have h1 := h σ hσ
  omega

/-- One unknown is constrained by the other, perhaps through further ones. -/
def Reach (E : DiffSys V) : V → V → Prop := Relation.ReflTransGen fun s d => ∃ w, E s d w

/-- The constraints that lie on a cycle. -/
def within (E : DiffSys V) : DiffSys V := fun s d w => E s d w ∧ E.Reach d s

/-- The solutions below `π`. -/
def Below (E : DiffSys V) (π : V → ℤ) : Set (V → ℤ) := {φ | E.Sat φ ∧ ∀ v, φ v ≤ π v}

theorem exists_tight_of_isGreatest {π ρ : V → ℤ} (h : IsGreatest (E.Below π) ρ) {T : Set V}
    (hT : T.Nonempty) (hlt : ∀ v ∈ T, ρ v < π v) :
    ∃ s d w, s ∉ T ∧ d ∈ T ∧ E s d w ∧ ρ d = ρ s + w := by
  classical
  by_contra hno
  -- otherwise the values on `T` can be raised by one
  have hmem : (fun v => if v ∈ T then ρ v + 1 else ρ v) ∈ E.Below π := by
    refine ⟨fun s d w hw => ?_, fun v => ?_⟩
    · have hle := h.1.1 s d w hw
      have hs : s ∉ T → d ∈ T → ρ d ≠ ρ s + w := fun hs hd heq => hno ⟨s, d, w, hs, hd, hw, heq⟩
      simp only
      split_ifs with hd hs' hs'
      · omega
      · have := hs hs' hd
        omega
      · omega
      · exact hle
    · simp only
      split_ifs with hv
      · exact hlt v hv
      · exact h.1.2 v
  obtain ⟨t, ht⟩ := hT
  have hge := h.2 hmem t
  simp only [if_pos ht] at hge
  omega

end DiffSys
