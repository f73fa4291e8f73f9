import Mathlib.Data.List.Forall2

/-!
# Computations that may fail

A `do` block in `Except` that succeeds is a chain of successful steps (`Except.bind_eq_ok`), and a
loop that succeeds keeps what each of its steps keeps (`Except.foldlM_induction`). A block fails only
with errors of its steps (`Except.FailsOnly`). `Option.foldlM_induction` is for computations whose
errors are not told apart.
-/

namespace Except

universe u v

variable {ε : Type u} {α β : Type v}

/-- Invert one step of a `do` block. -/
theorem bind_eq_ok {x : Except ε α} {f : α → Except ε β} {r : β} :
    x >>= f = .ok r ↔ ∃ a, x = .ok a ∧ f a = .ok r := by
  cases x with
  | error e =>
    constructor
    · intro h
      cases h
    · rintro ⟨_, h, _⟩
      cases h
  | ok a =>
    constructor
    · intro h
      exact ⟨a, rfl, h⟩
    · rintro ⟨_, h, hf⟩
      cases h
      exact hf

theorem map_eq_ok {f : α → β} {x : Except ε α} {r : β} :
    f <$> x = .ok r ↔ ∃ a, x = .ok a ∧ f a = r := by
  cases x with
  | error e =>
    constructor
    · intro h
      cases h
    · rintro ⟨_, h, _⟩
      cases h
  | ok a =>
    constructor
    · intro h
      exact ⟨a, rfl, Except.ok.inj h⟩
    · rintro ⟨_, h, rfl⟩
      cases h
      rfl

/-- Invert a check at the head of a computation. -/
theorem guard_eq_ok {c : Prop} [Decidable c] {e : ε} {x : Except ε α} {r : α} :
    (if c then .error e else x) = .ok r ↔ ¬ c ∧ x = .ok r := by
  by_cases hc : c
  · rw [if_pos hc]
    constructor
    · intro h
      cases h
    · rintro ⟨h, _⟩
      exact absurd hc h
  · rw [if_neg hc]
    exact ⟨fun h => ⟨hc, h⟩, fun h => h.2⟩

/-- The computation succeeds and its result passes the test. -/
def okWith (x : Except ε α) (p : α → Bool) : Bool :=
  match x with
  | .ok a => p a
  | .error _ => false

theorem exists_of_okWith {x : Except ε α} {p : α → Bool} (h : x.okWith p) :
    ∃ a, x = .ok a ∧ p a := by
  cases x with
  | error e => cases h
  | ok a => exact ⟨a, rfl, h⟩

/-- One more step of a loop. -/
theorem foldlM_concat {l : List α} {f : β → α → Except ε β} {b b' r : β} {x : α}
    (h : l.foldlM f b = .ok b') (hx : f b' x = .ok r) : (l ++ [x]).foldlM f b = .ok r := by
  rw [List.foldlM_append, h]
  exact bind_eq_ok.mpr ⟨b', rfl, bind_eq_ok.mpr ⟨r, hx, rfl⟩⟩

/-- What every step keeps holds after the loop. The steps before the current one are given. -/
theorem foldlM_induction {l : List α} {f : β → α → Except ε β} {b r : β} (P : List α → β → Prop)
    (h : l.foldlM f b = .ok r) (h0 : P [] b)
    (hstep : ∀ done x b b', done ++ [x] <+: l → P done b → f b x = .ok b' → P (done ++ [x]) b') :
    P l r := by
  suffices key : ∀ (rest done : List α) (b : β), done ++ rest = l → P done b →
      rest.foldlM f b = .ok r → P l r from key l [] b rfl h0 h
  clear h h0
  intro rest
  induction rest with
  | nil =>
    intro done b hl hP h
    rw [List.foldlM_nil] at h
    obtain rfl := Except.ok.inj h
    rwa [← hl, List.append_nil]
  | cons x rest ih =>
    intro done b hl hP h
    rw [List.foldlM_cons] at h
    obtain ⟨b', hb', h⟩ := bind_eq_ok.mp h
    have hl' : done ++ [x] ++ rest = l := by rw [List.append_assoc]; exact hl
    exact ih (done ++ [x]) b' hl' (hstep done x b b' ⟨rest, hl'⟩ hP hb') h

/-- The computation raises an error that passes the test. -/
def failsWith (x : Except ε α) (p : ε → Bool) : Bool :=
  match x with
  | .ok _ => false
  | .error e => p e

theorem exists_of_failsWith {x : Except ε α} {p : ε → Bool} (h : x.failsWith p) :
    ∃ e, x = .error e ∧ p e := by
  cases x with
  | error e => exact ⟨e, rfl, h⟩
  | ok a => cases h

/-- A loop that collects results has one for each element. -/
theorem forall₂_of_mapM {l : List α} {f : α → Except ε β} {r : List β} (h : l.mapM f = .ok r) :
    List.Forall₂ (fun a b => f a = .ok b) l r := by
  induction l generalizing r with
  | nil =>
    rw [List.mapM_nil] at h
    cases h
    exact .nil
  | cons a l ih =>
    rw [List.mapM_cons] at h
    obtain ⟨b, hb, h⟩ := bind_eq_ok.mp h
    obtain ⟨rest, hrest, h⟩ := bind_eq_ok.mp h
    cases h
    exact .cons hb (ih hrest)

/-- The computation returns a result. -/
def Succeeds (x : Except ε α) : Prop := ∃ a, x = .ok a

@[simp] theorem succeeds_ok {a : α} : (ok a : Except ε α).Succeeds := ⟨a, rfl⟩

@[simp] theorem succeeds_pure {a : α} : (pure a : Except ε α).Succeeds := ⟨a, rfl⟩

@[simp] theorem not_succeeds_error {e : ε} : ¬ (error e : Except ε α).Succeeds := by
  rintro ⟨a, h⟩
  cases h

@[simp] theorem succeeds_guard {c : Prop} [Decidable c] {e : ε} {x : Except ε α} :
    (if c then .error e else x).Succeeds ↔ ¬ c ∧ x.Succeeds := by
  unfold Succeeds
  simp only [guard_eq_ok, exists_and_left]

theorem succeeds_bind {x : Except ε α} {f : α → Except ε β} :
    (x >>= f).Succeeds ↔ ∃ a, x = .ok a ∧ (f a).Succeeds := by
  unfold Succeeds
  simp only [bind_eq_ok]
  exact ⟨fun ⟨r, a, ha, hr⟩ => ⟨a, ha, r, hr⟩, fun ⟨a, ha, r, hr⟩ => ⟨r, a, ha, hr⟩⟩

/-- A last step that cannot fail. -/
@[simp] theorem succeeds_bind_pure {x : Except ε α} {f : α → β} :
    (x >>= fun a => pure (f a)).Succeeds ↔ x.Succeeds := by
  rw [succeeds_bind]
  exact ⟨fun ⟨a, ha, _⟩ => ⟨a, ha⟩, fun ⟨a, ha⟩ => ⟨a, ha, succeeds_pure⟩⟩

@[simp] theorem succeeds_map {x : Except ε α} {f : α → β} : (f <$> x).Succeeds ↔ x.Succeeds := by
  unfold Succeeds
  simp only [map_eq_ok]
  exact ⟨fun ⟨_, a, ha, _⟩ => ⟨a, ha⟩, fun ⟨a, ha⟩ => ⟨f a, a, ha, rfl⟩⟩

@[simp] theorem succeeds_unless {c : Prop} [Decidable c] {e : ε} {x : Except ε α} :
    (if c then x else .error e).Succeeds ↔ c ∧ x.Succeeds := by
  rw [← ite_not, succeeds_guard, Decidable.not_not]

@[simp] theorem succeeds_andThen {x y : Except ε Unit} :
    (do x; y).Succeeds ↔ x.Succeeds ∧ y.Succeeds := by
  rw [succeeds_bind]
  exact ⟨fun ⟨a, ha, hy⟩ => ⟨⟨a, ha⟩, hy⟩, fun ⟨⟨a, ha⟩, hy⟩ => ⟨a, ha, hy⟩⟩

theorem succeeds_forM {l : List α} {f : α → Except ε Unit} :
    (l.forM f).Succeeds ↔ ∀ a ∈ l, (f a).Succeeds := by
  induction l with
  | nil => exact ⟨fun _ _ ha => absurd ha List.not_mem_nil, fun _ => succeeds_pure⟩
  | cons a l ih =>
    show (do f a; l.forM f).Succeeds ↔ _
    rw [succeeds_andThen, ih, List.forall_mem_cons]

/-- Every error that the computation can raise is of the kind `Q`. -/
def FailsOnly (x : Except ε α) (Q : ε → Prop) : Prop := ∀ e, x = .error e → Q e

variable {Q : ε → Prop}

@[simp] theorem failsOnly_ok {a : α} : (ok a : Except ε α).FailsOnly Q := by
  intro e h
  cases h

@[simp] theorem failsOnly_pure {a : α} : (pure a : Except ε α).FailsOnly Q := failsOnly_ok

@[simp] theorem failsOnly_error {e : ε} : (error e : Except ε α).FailsOnly Q ↔ Q e := by
  constructor
  · intro h
    exact h e rfl
  · rintro h _ ⟨rfl⟩
    exact h

theorem FailsOnly.bind {x : Except ε α} {f : α → Except ε β} (hx : x.FailsOnly Q)
    (hf : ∀ a, x = .ok a → (f a).FailsOnly Q) : (x >>= f).FailsOnly Q := by
  intro e h
  cases hxa : x with
  | error e' =>
    rw [hxa] at h
    cases h
    exact hx e hxa
  | ok a =>
    rw [hxa] at h
    exact hf a hxa e h

theorem failsOnly_bind {x : Except ε α} {f : α → Except ε β} :
    (x >>= f).FailsOnly Q ↔ x.FailsOnly Q ∧ ∀ a, x = .ok a → (f a).FailsOnly Q := by
  refine ⟨fun h => ⟨fun e he => h e ?_, fun a ha e he => h e ?_⟩, fun h => h.1.bind h.2⟩
  · rw [he]
    rfl
  · rw [ha]
    exact he

theorem FailsOnly.guard {c : Prop} [Decidable c] {e : ε} {x : Except ε α} (he : Q e)
    (hx : x.FailsOnly Q) : (if c then .error e else x).FailsOnly Q := by
  split
  · exact failsOnly_error.mpr he
  · exact hx

theorem failsOnly_guard {c : Prop} [Decidable c] {e : ε} {x : Except ε α} (he : ¬ Q e) :
    (if c then .error e else x).FailsOnly Q ↔ ¬ c ∧ x.FailsOnly Q := by
  by_cases hc : c
  · rw [if_pos hc]
    exact ⟨fun h => absurd (failsOnly_error.mp h) he, fun h => absurd hc h.1⟩
  · rw [if_neg hc]
    exact ⟨fun h => ⟨hc, h⟩, fun h => h.2⟩

theorem failsOnly_guard_of {c : Prop} [Decidable c] {e : ε} {x : Except ε α} (he : Q e) :
    (if c then .error e else x).FailsOnly Q ↔ (¬ c → x.FailsOnly Q) := by
  split_ifs with hc
  · exact iff_of_true (failsOnly_error.mpr he) fun h => absurd hc h
  · exact ⟨fun h _ => h, fun h => h hc⟩

theorem mapError_eq_ok {ε' : Type u} {f : ε → ε'} {x : Except ε α} {a : α} :
    x.mapError f = .ok a ↔ x = .ok a := by
  cases x with
  | error e =>
    constructor
    · intro h
      cases h
    · intro h
      cases h
  | ok b => exact ⟨fun h => by rw [← ok.inj h], fun h => by rw [← ok.inj h]; rfl⟩

theorem failsOnly_mapError {ε' : Type u} {f : ε → ε'} {Q' : ε' → Prop} {x : Except ε α} :
    (x.mapError f).FailsOnly Q' ↔ x.FailsOnly fun e => Q' (f e) := by
  cases x with
  | error e =>
    rw [failsOnly_error]
    exact failsOnly_error
  | ok a => exact ⟨fun _ => failsOnly_ok, fun _ => failsOnly_ok⟩

theorem FailsOnly.map {f : α → β} {x : Except ε α} (hx : x.FailsOnly Q) :
    (f <$> x).FailsOnly Q := by
  intro e h
  cases hxa : x with
  | error e' =>
    rw [hxa] at h
    cases h
    exact hx e hxa
  | ok a =>
    rw [hxa] at h
    cases h

/-- A loop fails only with errors of its steps. The steps are taken from states that the steps
before keep as `P` says. -/
theorem FailsOnly.foldlM {l : List α} {f : β → α → Except ε β} {b : β} (P : List α → β → Prop)
    (h0 : P [] b)
    (hstep : ∀ done x b b', done ++ [x] <+: l → P done b → f b x = .ok b' → P (done ++ [x]) b')
    (hfail : ∀ done x b, done ++ [x] <+: l → P done b → (f b x).FailsOnly Q) :
    (l.foldlM f b).FailsOnly Q := by
  suffices key : ∀ (rest done : List α) (b : β), done ++ rest = l → P done b →
      (rest.foldlM f b).FailsOnly Q from key l [] b rfl h0
  clear h0
  intro rest
  induction rest with
  | nil =>
    intro done b _ _
    rw [List.foldlM_nil]
    exact failsOnly_pure
  | cons x rest ih =>
    intro done b hl hP
    have hl' : done ++ [x] ++ rest = l := by rw [List.append_assoc]; exact hl
    rw [List.foldlM_cons]
    refine (hfail done x b ⟨rest, hl'⟩ hP).bind fun b' hb' => ?_
    exact ih (done ++ [x]) b' hl' (hstep done x b b' ⟨rest, hl'⟩ hP hb')

end Except

/-- What every step of a loop in `Option` keeps holds after the loop. -/
theorem Option.foldlM_induction {α β : Type*} {l : List α} {f : β → α → Option β} {b r : β}
    (P : β → Prop) (h : l.foldlM f b = some r) (h0 : P b)
    (hstep : ∀ a ∈ l, ∀ b b', P b → f b a = some b' → P b') : P r := by
  induction l generalizing b with
  | nil =>
    rw [List.foldlM_nil] at h
    exact Option.some.inj h ▸ h0
  | cons a l ih =>
    rw [List.foldlM_cons] at h
    obtain ⟨b', hb', h⟩ := Option.bind_eq_some_iff.mp h
    exact ih h (hstep a (List.mem_cons_self ..) b b' h0 hb') fun a ha =>
      hstep a (List.mem_cons_of_mem _ ha)

/-- A loop in `Option` that succeeds took a step for each element. -/
theorem Option.exists_step_of_foldlM {α β : Type*} {l : List α} {f : β → α → Option β} {b r : β}
    (h : l.foldlM f b = some r) {a : α} (ha : a ∈ l) : ∃ b₁ b₂, f b₁ a = some b₂ := by
  induction l generalizing b with
  | nil => exact absurd ha List.not_mem_nil
  | cons a' l ih =>
    rw [List.foldlM_cons] at h
    obtain ⟨b', hb', h⟩ := Option.bind_eq_some_iff.mp h
    rcases List.mem_cons.mp ha with rfl | ha
    · exact ⟨b, b', hb'⟩
    · exact ih h ha
