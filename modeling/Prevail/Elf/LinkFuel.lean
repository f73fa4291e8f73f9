import Mathlib.Data.List.Perm.Subperm
import Prevail.Elf.Subprograms

/-!
# Linking ends

Every call of `append_subprograms` that goes on visits a program that is not visited yet, so the recursion
is never deeper than there are programs.
-/

namespace Prevail

variable {F : ElfFile} {relocs : List FunctionRelocation} {n i j : ℕ} {s s' : Linker}

/-- There are `n` programs, and those that are visited are among them, each once. -/
structure Linker.Bounded (n : ℕ) (s : Linker) : Prop where
  length : s.rawPrograms.length = n
  nodup : s.visiting.Nodup
  lt : ∀ k ∈ s.visiting, k < n

theorem Linker.Bounded.length_visiting (h : s.Bounded n) : s.visiting.length ≤ n := by
  have hsubset : s.visiting ⊆ List.range n := fun k hk => List.mem_range.mpr (h.lt k hk)
  have hlength := (List.Nodup.subperm h.nodup hsubset).length_le
  rwa [List.length_range] at hlength

/-- What a step comes to: it stays bounded, and without an error what is visited is what was. -/
structure LinkSteps {α : Type} (n : ℕ) (s : Linker) (view : α → String × Linker) (a : α) : Prop where
  bounded : (view a).2.Bounded n
  steady : (view a).1 = "" → (view a).2.visiting = s.visiting

/-- The computation does not run out of fuel. -/
structure Proceeds {α : Type} (n : ℕ) (s : Linker) (view : α → String × Linker) (x : Except ElfError α) :
    Prop where
  failsOnly : x.FailsOnly (· ≠ .outOfFuel)
  steps : ∀ a, x = .ok a → LinkSteps n s view a

variable {α β : Type} {view : α → String × Linker} {view' : β → String × Linker}

theorem proceeds_ok {a : α} (h : LinkSteps n s view a) : Proceeds n s view (.ok a) := by
  refine ⟨Except.failsOnly_ok, ?_⟩
  rintro _ ⟨⟩
  exact h

theorem proceeds_error {e : ElfError} (he : e ≠ .outOfFuel) : Proceeds n s view (.error e) :=
  ⟨Except.failsOnly_error.mpr he, fun _ h => nomatch h⟩

theorem Proceeds.bind {x : Except ElfError α} {g : α → Except ElfError β} (hx : Proceeds n s view x)
    (hg : ∀ a, x = .ok a → LinkSteps n s view a → Proceeds n s' view' (g a)) :
    Proceeds n s' view' (x >>= g) := by
  cases hres : x with
  | error e => exact proceeds_error (hx.failsOnly e hres)
  | ok a => exact hg a hres (hx.steps a hres)

/-- What goes on from a step without an error goes on from the state before. -/
theorem Proceeds.of_steps {y : Except ElfError β} (hs : s'.visiting = s.visiting)
    (h : Proceeds n s' view' y) : Proceeds n s view' y :=
  ⟨h.failsOnly, fun a ha => ⟨(h.steps a ha).bounded, fun herr => ((h.steps a ha).steady herr).trans hs⟩⟩

theorem narrowInt32_failsOnly (m : ℤ) : (narrowInt32 m).FailsOnly (· ≠ .outOfFuel) := by
  unfold narrowInt32 narrowed
  split_ifs
  · exact Except.failsOnly_ok
  · exact Except.failsOnly_error.mpr (by decide)

theorem failsOnly_setTarget {r : FunctionRelocation} {target : ℕ} :
    (s.setTarget i r target).FailsOnly (· ≠ .outOfFuel) := by
  unfold Linker.setTarget
  split
  · exact Except.failsOnly_error.mpr (by decide)
  · refine Except.FailsOnly.bind (Except.FailsOnly.bind (narrowInt32_failsOnly _) fun imm _ => ?_)
      fun p _ => Except.failsOnly_pure
    split
    · exact Except.failsOnly_error.mpr (by decide)
    · exact Except.failsOnly_pure

theorem Linker.Bounded.set (h : s.Bounded n) (p : RawProgram) :
    Linker.Bounded n { s with rawPrograms := s.rawPrograms.set i p } :=
  ⟨List.length_set.trans h.length, h.nodup, h.lt⟩

/-- A call that is patched is the end of a turn. -/
theorem proceeds_setTarget {r : FunctionRelocation} {target : ℕ} (hs : s.Bounded n)
    {f : Linker → α} (hf : ∀ s', view (f s') = ("", s')) :
    Proceeds n s view (do return f (← s.setTarget i r target)) := by
  refine ⟨Except.FailsOnly.bind failsOnly_setTarget fun _ _ => Except.failsOnly_pure, fun a ha => ?_⟩
  obtain ⟨s', hs', ha⟩ := Except.bind_eq_ok.mp ha
  cases ha
  obtain ⟨p, p', -, -, rfl⟩ := Linker.setTarget_spec hs'
  refine ⟨?_, ?_⟩
  · rw [hf]
    exact hs.set p'
  · rw [hf]
    exact fun _ => rfl

theorem proceeds_insertCopy {base : ℕ} (hs : s.Bounded n) :
    Proceeds n s id (do return ("", ← s.insertCopy i base j)) := by
  refine ⟨Except.FailsOnly.bind ?_ fun _ _ => Except.failsOnly_pure, fun a ha => ?_⟩
  · unfold Linker.insertCopy
    split
    · exact Except.failsOnly_ok
    · exact Except.failsOnly_error.mpr (by decide)
  · obtain ⟨s', hs', ha⟩ := Except.bind_eq_ok.mp ha
    cases ha
    obtain ⟨p, sub, -, -, rfl⟩ := Linker.insertCopy_spec hs'
    exact ⟨hs.set _, fun _ => rfl⟩

variable {append : ℕ → Linker → Except ElfError (String × Linker)} {v : ℕ}

/-- The fuel of `append` is enough when `v` programs are visited. -/
def Suffices (n v : ℕ) (append : ℕ → Linker → Except ElfError (String × Linker)) : Prop :=
  ∀ j s, j < n → s.Bounded n → s.visiting.length = v → Proceeds n s id (append j s)

theorem proceeds_appendTarget (happend : Suffices n v append) (hs : s.Bounded n)
    (hv : s.visiting.length = v) (r : FunctionRelocation) (base : ℕ) :
    Proceeds n s id (appendTarget F append i r base s) := by
  unfold appendTarget
  dsimp only
  split
  · exact proceeds_error (by simp)
  · next sec hsec =>
    split
    · exact proceeds_ok ⟨hs, fun _ => rfl⟩
    · next j hj =>
      split_ifs with hji
      · exact proceeds_error (by simp)
      · obtain ⟨p, hp, -⟩ := findSubprogram_eq_some hj
        have hjn : j < n := hs.length ▸ (List.getElem?_eq_some_iff.mp hp).1
        refine (happend j s hjn hs hv).bind fun ⟨err, s₁⟩ _ hs₁ => ?_
        dsimp only
        split_ifs with herr
        · exact proceeds_ok ⟨hs₁.bounded, fun herr' => absurd herr' herr⟩
        · refine (proceeds_insertCopy hs₁.bounded).of_steps (hs₁.steady (not_not.mp herr))

/-- The result of a turn without the offsets. -/
def ofTurn (res : String × Linker × SubprogramOffsets) : String × Linker := (res.1, res.2.1)

theorem proceeds_linkRelocation (happend : Suffices n v append) (hs : s.Bounded n)
    (hv : s.visiting.length = v) (r : FunctionRelocation) (offsets : SubprogramOffsets) :
    Proceeds n s ofTurn (linkRelocation F append i r s offsets) := by
  unfold linkRelocation
  split
  · exact proceeds_error (by simp)
  · exact proceeds_ok ⟨hs, fun _ => rfl⟩
  · next p caller hp hcaller =>
    split_ifs with hname
    · exact proceeds_ok ⟨hs, fun _ => rfl⟩
    · split
      · next target htarget => exact proceeds_setTarget hs (f := fun s' => ("", s', offsets)) fun _ => rfl
      · refine (proceeds_appendTarget happend hs hv r p.prog.length).bind fun ⟨err, s₁⟩ _ hs₁ => ?_
        dsimp only
        split_ifs with herr
        · exact proceeds_ok ⟨hs₁.bounded, fun herr' => absurd herr' herr⟩
        · refine (proceeds_setTarget hs₁.bounded (f := fun s' => ("", s', (r.targetFunctionName,
            p.prog.length) :: offsets)) fun _ => rfl).of_steps (hs₁.steady (not_not.mp herr))

theorem proceeds_linkRelocations (happend : Suffices n v append) (hs : s.Bounded n)
    (hv : s.visiting.length = v) (rest : List FunctionRelocation) (offsets : SubprogramOffsets) :
    Proceeds n s id (linkRelocations F append i rest s offsets) := by
  induction rest generalizing s offsets with
  | nil => exact proceeds_ok ⟨hs, fun _ => rfl⟩
  | cons r rest ih =>
    rw [linkRelocations]
    refine (proceeds_linkRelocation happend hs hv r offsets).bind fun res _ hs₁ => ?_
    obtain ⟨err, s₁, offsets₁⟩ := res
    dsimp only
    split_ifs with herr
    · exact proceeds_ok ⟨hs₁.bounded, fun herr' => absurd herr' herr⟩
    · have hsteady : s₁.visiting = s.visiting := hs₁.steady (not_not.mp herr)
      exact (ih hs₁.bounded (hsteady ▸ hv) offsets₁).of_steps hsteady

/-- Fuel for the programs that are not visited is enough. -/
theorem suffices_appendSubprograms {fuel : ℕ} (h : n < fuel + v) :
    Suffices n v (appendSubprograms F relocs fuel) := by
  induction fuel generalizing v with
  | zero =>
    intro i s hi hs hv
    have hlength := hs.length_visiting
    omega
  | succ fuel ih =>
    intro i s hi hs hv
    rw [appendSubprograms]
    split_ifs with hresolved hvisiting
    · exact proceeds_ok ⟨hs, fun _ => rfl⟩
    · exact proceeds_error (by simp)
    · have hs₀ : Linker.Bounded n { s with visiting := i :: s.visiting } := by
        refine ⟨hs.length, List.nodup_cons.mpr ⟨hvisiting, hs.nodup⟩, fun k hk => ?_⟩
        rcases List.mem_cons.mp hk with rfl | hk
        · exact hi
        · exact hs.lt k hk
      have hloop := proceeds_linkRelocations (F := F) (i := i) (ih (v := v + 1) (by omega)) hs₀
        (by rw [List.length_cons, hv]) relocs []
      refine hloop.bind fun res _ hs₁ => ?_
      obtain ⟨err, s₁⟩ := res
      dsimp only
      split_ifs with herr
      · exact proceeds_ok ⟨hs₁.bounded, fun herr' => absurd herr' herr⟩
      · have hsteady : s₁.visiting = i :: s.visiting := hs₁.steady (not_not.mp herr)
        have herase : s₁.visiting.erase i = s.visiting := by rw [hsteady, List.erase_cons_head]
        refine proceeds_ok ⟨⟨hs₁.bounded.length, ?_, ?_⟩, fun _ => herase⟩
        · show (s₁.visiting.erase i).Nodup
          rw [herase]
          exact hs.nodup
        · show ∀ k ∈ s₁.visiting.erase i, k < n
          rw [herase]
          exact hs.lt

/-- The bound on the recursion of `append_subprograms` is never met. -/
theorem failsOnly_linkPrograms {desiredSection : String} {programs : List RawProgram} :
    (linkPrograms F relocs desiredSection programs).FailsOnly (· ≠ .outOfFuel) := by
  have hturn : ∀ (s : Linker) (i : ℕ), s.Bounded programs.length → i < programs.length →
      Proceeds programs.length s id (appendSubprograms F relocs (s.rawPrograms.length + 1) i s) :=
    fun s i hs hi => suffices_appendSubprograms (by rw [hs.length]; omega) i s hi hs rfl
  refine Except.FailsOnly.foldlM (fun _ s => Linker.Bounded programs.length s) ⟨rfl, by simp, by simp⟩
    (fun done i s s' hprefix hs h => ?_) fun done i s hprefix hs => ?_
  · have hmem := List.mem_append_right done (List.mem_singleton_self i)
    have hi := List.mem_range.mp (List.IsPrefix.subset hprefix hmem)
    obtain ⟨⟨err, s₁⟩, hs₁, h⟩ := Except.bind_eq_ok.mp h
    obtain ⟨-, h⟩ := Except.guard_eq_ok.mp h
    cases h
    exact ((hturn s i hs hi).steps _ hs₁).bounded
  · have hmem := List.mem_append_right done (List.mem_singleton_self i)
    have hi := List.mem_range.mp (List.IsPrefix.subset hprefix hmem)
    refine (hturn s i hs hi).failsOnly.bind fun res _ => ?_
    exact Except.FailsOnly.guard (by simp) Except.failsOnly_pure

end Prevail
