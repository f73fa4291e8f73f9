import Mathlib.Init

/-!
# Computations on a state that may fail

`Ensures x Q` says what a computation in `StateT σ Option` returns, from any state in which it
returns. It follows the steps of a `do` block (`Ensures.bind`) and of a loop (`Ensures.foldlM`).
`Option.Returns` is the same without a state.
-/

namespace StateT

universe u

variable {σ α β : Type u} {x : StateT σ Option α} {Q R : α → Prop}

/-- A computation without state. -/
theorem liftM_eq_some {o : Option α} {s s' : σ} {a : α} :
    (liftM o : StateT σ Option α) s = some (a, s') ↔ o = some a ∧ s = s' := by
  cases o with
  | none =>
    constructor
    · intro h
      cases h
    · rintro ⟨h, -⟩
      cases h
  | some a' =>
    constructor
    · intro h
      obtain ⟨rfl, rfl⟩ := Prod.mk.inj (Option.some.inj h)
      exact ⟨rfl, rfl⟩
    · rintro ⟨h, rfl⟩
      exact congrArg (fun b => some (b, s)) (Option.some.inj h)

/-- The two steps of a computation that returns. -/
theorem bind_eq_some {g : α → StateT σ Option β} {b : β} {s s' : σ} :
    (x >>= g) s = some (b, s') ↔ ∃ a s₁, x s = some (a, s₁) ∧ g a s₁ = some (b, s') := by
  refine Option.bind_eq_some_iff.trans ⟨?_, ?_⟩
  · rintro ⟨⟨a, s₁⟩, hx, hg⟩
    exact ⟨a, s₁, hx, hg⟩
  · rintro ⟨a, s₁, hx, hg⟩
    exact ⟨(a, s₁), hx, hg⟩

/-- Whatever the computation returns satisfies `Q`. -/
def Ensures (x : StateT σ Option α) (Q : α → Prop) : Prop := ∀ s a s', x s = some (a, s') → Q a

namespace Ensures

theorem pure {a : α} (h : Q a) : Ensures (pure a : StateT σ Option α) Q := by
  intro s a' s' heq
  obtain rfl := (Prod.mk.inj (Option.some.inj heq)).1
  exact h

theorem failure : Ensures (failure : StateT σ Option α) Q := by
  intro s a s' heq
  cases heq

theorem trivial (x : StateT σ Option α) : Ensures x fun _ => True := fun _ _ _ _ => True.intro

theorem mono (h : Ensures x R) (hRQ : ∀ a, R a → Q a) : Ensures x Q :=
  fun s a s' heq => hRQ a (h s a s' heq)

theorem bind {f : α → StateT σ Option β} {P : β → Prop} (hx : Ensures x Q)
    (hf : ∀ a, Q a → Ensures (f a) P) : Ensures (x >>= f) P := by
  intro s b s' heq
  obtain ⟨⟨a, s₁⟩, ha, hb⟩ := Option.bind_eq_some_iff.mp heq
  exact hf a (hx s a s₁ ha) s₁ b s' hb

/-- A first step whose result does not matter. -/
theorem bind' {f : α → StateT σ Option β} {P : β → Prop} (hf : ∀ a, Ensures (f a) P) :
    Ensures (x >>= f) P := (trivial x).bind fun a _ => hf a

/-- A step without state that may fail. -/
theorem lift_bind {o : Option α} {f : α → StateT σ Option β} {P : β → Prop}
    (hf : ∀ a, o = some a → Ensures (f a) P) : Ensures (liftM o >>= f) P := by
  intro s b s' heq
  obtain ⟨⟨a, s₁⟩, ha, hb⟩ := Option.bind_eq_some_iff.mp heq
  exact hf a (liftM_eq_some.mp ha).1 s₁ b s' hb

theorem foldlM {l : List β} {f : α → β → StateT σ Option α} {a : α} (h0 : Q a)
    (hstep : ∀ b ∈ l, ∀ a, Q a → Ensures (f a b) Q) : Ensures (l.foldlM f a) Q := by
  induction l generalizing a with
  | nil => exact pure h0
  | cons b l ih =>
    rw [List.foldlM_cons]
    refine (hstep b (List.mem_cons_self ..) a h0).bind fun a' ha' => ih ha' ?_
    exact fun b' hb' => hstep b' (List.mem_cons_of_mem _ hb')

end Ensures

end StateT

namespace Option

universe u

variable {α β : Type u} {x : Option α} {Q : α → Prop} {P : β → Prop}

/-- The value, if there is one, satisfies `Q`. -/
def Returns (x : Option α) (Q : α → Prop) : Prop := ∀ a, x = some a → Q a

namespace Returns

theorem some {a : α} (h : Q a) : Returns (some a) Q := by
  rintro _ ⟨⟩
  exact h

theorem none : Returns (none : Option α) Q := by
  rintro _ ⟨⟩

theorem trivial (x : Option α) : Returns x fun _ => True := fun _ _ => True.intro

theorem bind {f : α → Option β} (hx : Returns x Q) (hf : ∀ a, Q a → Returns (f a) P) :
    Returns (x >>= f) P := by
  intro b hb
  obtain ⟨a, ha, hb⟩ := Option.bind_eq_some_iff.mp hb
  exact hf a (hx a ha) b hb

/-- A first step whose result does not matter. -/
theorem bind' {f : α → Option β} (hf : ∀ a, Returns (f a) P) : Returns (x >>= f) P :=
  (trivial x).bind fun a _ => hf a

theorem map {f : α → β} (hx : Returns x Q) (hf : ∀ a, Q a → P (f a)) : Returns (x.map f) P := by
  intro b hb
  obtain ⟨a, ha, rfl⟩ := Option.map_eq_some_iff.mp hb
  exact hf a (hx a ha)

theorem ite {c : Prop} [Decidable c] {y : Option α} (hx : Returns x Q) (hy : Returns y Q) :
    Returns (if c then x else y) Q := by
  split
  · exact hx
  · exact hy

theorem foldlM {l : List β} {f : α → β → Option α} {a : α} (h0 : Q a)
    (hstep : ∀ b ∈ l, ∀ a, Q a → Returns (f a b) Q) : Returns (l.foldlM f a) Q := by
  induction l generalizing a with
  | nil => exact some h0
  | cons b l ih =>
    rw [List.foldlM_cons]
    refine (hstep b (List.mem_cons_self ..) a h0).bind fun a' ha' => ih ha' ?_
    exact fun b' hb' => hstep b' (List.mem_cons_of_mem _ hb')

/-- As a step of a computation on a state. -/
theorem lift {σ : Type u} (hx : Returns x Q) : StateT.Ensures (liftM x : StateT σ Option α) Q :=
  fun _ a _ heq => hx a (StateT.liftM_eq_some.mp heq).1

end Returns

end Option
