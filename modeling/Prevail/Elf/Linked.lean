import Mathlib.Logic.Relation
import Prevail.Elf.Link
import Prevail.Elf.Loaded

/-!
# What linking means

A linked program has its own instructions first, in which every call with a function relocation jumps to
a copy of the function that its symbol denotes, and copies of linked functions behind them
(`LinkedCode`). `PartlyLinked` says this of a part of the relocations, so that it can be kept while they are
processed one after the other.
-/

namespace Prevail

section Linked

variable (F : ElfFile) (st : ProgramReader)

/-- Program `j` is the function that the symbol of a relocation denotes, by section and by name. -/
def Denotes (r : FunctionRelocation) (j : ℕ) : Prop :=
  ∃ p place, st.rawPrograms[j]? = some p ∧ (programPlaces F)[j]? = some place ∧
    place.1.2 = (F.getSymbolDetails r.relocationEntryIndex).sectionIndex ∧
    p.functionName = (F.getSymbolDetails r.relocationEntryIndex).name

/-- The symbols of two relocations denote the same functions. -/
def SameFunction (r r' : FunctionRelocation) : Prop :=
  (F.getSymbolDetails r.relocationEntryIndex).sectionIndex =
      (F.getSymbolDetails r'.relocationEntryIndex).sectionIndex ∧
    (F.getSymbolDetails r.relocationEntryIndex).name = (F.getSymbolDetails r'.relocationEntryIndex).name

/-- Where a copy begins. -/
def copyStart (own : List EbpfInst) (copies : List (ℕ × List EbpfInst)) (n : ℕ) : ℕ :=
  own.length + ((copies.take n).flatMap Prod.snd).length

/-- The instruction at a relocation is that of the program, but it jumps to the first instruction of a
copy of the function that is denoted. -/
def JumpsToCopy (p : RawProgram) (own : List EbpfInst) (copies : List (ℕ × List EbpfInst))
    (r : FunctionRelocation) : Prop :=
  ∃ n c inst, ∃ imm : BitVec 32, copies[n]? = some c ∧ Denotes F st r c.1 ∧
    p.prog[r.sourceOffset]? = some inst ∧ own[r.sourceOffset]? = some { inst with imm := imm } ∧
    (r.sourceOffset : ℤ) + 1 + imm.toInt = copyStart own copies n

/-- The own instructions of program `i` and the copies behind them, when the relocations of `done` are
processed. -/
structure PartlyLinked (done : List FunctionRelocation) (i : ℕ) (p : RawProgram) (own : List EbpfInst)
    (copies : List (ℕ × List EbpfInst)) : Prop where
  length : own.length = p.prog.length
  kept : ∀ k, (∀ r ∈ done, r.progIndex = i → r.sourceOffset ≠ k) → own[k]? = p.prog[k]?
  calls : ∀ r ∈ done, r.progIndex = i → JumpsToCopy F st p own copies r
  called : ∀ c ∈ copies, ∃ r ∈ st.functionRelocations, r.progIndex = i ∧ Denotes F st r c.1

/-- The code of a program that is linked. -/
inductive LinkedCode : ℕ → List EbpfInst → Prop
  | intro {i : ℕ} {p : RawProgram} {own : List EbpfInst} {copies : List (ℕ × List EbpfInst)}
    (program : st.rawPrograms[i]? = some p)
    (partly : PartlyLinked F st st.functionRelocations i p own copies)
    (linked : ∀ c ∈ copies, LinkedCode c.1 c.2) :
    LinkedCode i (own ++ copies.flatMap Prod.snd)

/-- Program `j` is the first one with the name of the symbol in a section with the name of its section. -/
def Finds (r : FunctionRelocation) (j : ℕ) : Prop :=
  findSubprogram st.rawPrograms (F.sectionName (F.getSymbolDetails r.relocationEntryIndex).sectionIndex)
    (F.getSymbolDetails r.relocationEntryIndex).name = some j

/-- A program calls a function that is found. -/
def CallsFunction (i j : ℕ) : Prop := ∃ r ∈ st.functionRelocations, r.progIndex = i ∧ Finds F st r j

/-- Nothing is confused when program `i` is linked: no relocation of another program is taken for one of
its own, its relocations with one name or at one instruction denote the same functions, and the first
program with the name of a function and of its section is in that section. Without a section that is
asked for, its functions have to be there. -/
structure Unconfused (desiredSection : String) (i : ℕ) : Prop where
  own : ∀ r ∈ st.functionRelocations, ∀ p q, st.rawPrograms[i]? = some p →
    st.rawPrograms[r.progIndex]? = some q → q.functionName = p.functionName → r.progIndex = i
  same : ∀ r ∈ st.functionRelocations, ∀ r' ∈ st.functionRelocations, r.progIndex = i →
    r'.progIndex = i → r.targetFunctionName = r'.targetFunctionName ∨ r.sourceOffset = r'.sourceOffset →
    SameFunction F r r'
  inSection : ∀ r ∈ st.functionRelocations, r.progIndex = i → ∀ j, Finds F st r j → Denotes F st r j
  found : desiredSection = "" → ∀ r ∈ st.functionRelocations, r.progIndex = i → ∃ j, Denotes F st r j

/-- Nothing is confused when a program and the functions that it comes to are linked. -/
def UnconfusedFrom (desiredSection : String) (i : ℕ) : Prop :=
  ∀ j, Relation.ReflTransGen (CallsFunction F st) i j → Unconfused F st desiredSection j

variable {F st} {r r' : FunctionRelocation} {desiredSection : String} {i j : ℕ}

theorem UnconfusedFrom.self (h : UnconfusedFrom F st desiredSection i) :
    Unconfused F st desiredSection i := h i .refl

theorem UnconfusedFrom.callee (h : UnconfusedFrom F st desiredSection i) (hij : CallsFunction F st i j) :
    UnconfusedFrom F st desiredSection j := fun k hk => h k (.head hij hk)

theorem SameFunction.denotes (h : SameFunction F r r') (hr : Denotes F st r j) : Denotes F st r' j := by
  obtain ⟨p, place, hp, hplace, hsection, hname⟩ := hr
  exact ⟨p, place, hp, hplace, hsection.trans h.1, hname.trans h.2⟩

/-! ## Reading linked code -/

variable {code : List EbpfInst}

/-- Linked code begins with the instructions of its program, but for the calls. -/
theorem LinkedCode.own (h : LinkedCode F st i code) : ∃ p, st.rawPrograms[i]? = some p ∧
    ∀ k < p.prog.length, (∀ r ∈ st.functionRelocations, r.progIndex = i → r.sourceOffset ≠ k) →
      code[k]? = p.prog[k]? := by
  cases h with
  | @intro _ p own copies hp hpartly hlinked =>
    refine ⟨p, hp, fun k hk hkept => ?_⟩
    rw [List.getElem?_append_left (hpartly.length ▸ hk)]
    exact hpartly.kept k hkept

/-- A call of linked code jumps to linked code of its function. -/
theorem LinkedCode.call (h : LinkedCode F st i code) (hr : r ∈ st.functionRelocations)
    (hi : r.progIndex = i) : ∃ j callee inst, ∃ target : ℕ, Denotes F st r j ∧ LinkedCode F st j callee ∧
      code[r.sourceOffset]? = some inst ∧ (r.sourceOffset : ℤ) + 1 + inst.imm.toInt = target ∧
      callee <+: code.drop target := by
  cases h with
  | @intro _ p own copies hp hpartly hlinked =>
    obtain ⟨n, c, inst, imm, hc, hdenotes, -, hown, htarget⟩ := hpartly.calls r hr hi
    refine ⟨c.1, c.2, { inst with imm := imm }, copyStart own copies n, hdenotes,
      hlinked c (List.mem_of_getElem? hc), ?_, htarget, ?_⟩
    · rw [List.getElem?_append_left (List.getElem?_eq_some_iff.mp hown).1]
      exact hown
    · obtain ⟨hn, rfl⟩ := List.getElem?_eq_some_iff.mp hc
      have hsplit : copies.flatMap Prod.snd = (copies.take n).flatMap Prod.snd ++
          (copies[n].2 ++ (copies.drop (n + 1)).flatMap Prod.snd) := by
        conv_lhs => rw [← List.take_append_drop n copies, List.drop_eq_getElem_cons hn]
        rw [List.flatMap_append, List.flatMap_cons]
      rw [hsplit, copyStart, ← List.append_assoc, ← List.length_append, List.drop_left]
      exact List.prefix_append _ _

/-! ## Keeping what is linked -/

variable {done : List FunctionRelocation} {p : RawProgram} {own : List EbpfInst}
  {copies : List (ℕ × List EbpfInst)}

theorem partlyLinked_nil : PartlyLinked F st [] i p p.prog [] := by
  refine ⟨rfl, fun k _ => rfl, ?_, ?_⟩
  · intro r hr
    exact absurd hr List.not_mem_nil
  · intro c hc
    exact absurd hc List.not_mem_nil

/-- A relocation of another program changes nothing. -/
theorem PartlyLinked.skip (h : PartlyLinked F st done i p own copies) (hr : r.progIndex ≠ i) :
    PartlyLinked F st (done ++ [r]) i p own copies := by
  refine ⟨h.length, fun k hk => h.kept k fun r' hr' => hk r' (List.mem_append_left _ hr'), ?_, h.called⟩
  intro r' hr' hi
  rcases List.mem_append.mp hr' with hr' | hr'
  · exact h.calls r' hr' hi
  · obtain rfl := List.mem_singleton.mp hr'
    exact absurd hi hr

theorem JumpsToCopy.append (h : JumpsToCopy F st p own copies r) (c : ℕ × List EbpfInst) :
    JumpsToCopy F st p own (copies ++ [c]) r := by
  obtain ⟨n, c', inst, imm, hc', hdenotes, hinst, hown, himm⟩ := h
  have hn : n < copies.length := (List.getElem?_eq_some_iff.mp hc').1
  refine ⟨n, c', inst, imm, ?_, hdenotes, hinst, hown, ?_⟩
  · rw [List.getElem?_append_left hn]
    exact hc'
  · rw [himm, copyStart, copyStart, List.take_append_of_le_length hn.le]

/-- A copy of a function that is called is put behind the others. -/
theorem PartlyLinked.insert (h : PartlyLinked F st done i p own copies) {c : ℕ × List EbpfInst}
    (hc : ∃ r ∈ st.functionRelocations, r.progIndex = i ∧ Denotes F st r c.1) : PartlyLinked F st done i p own (copies ++ [c]) := by
  refine ⟨h.length, h.kept, fun r hr hi => (h.calls r hr hi).append c, fun c' hc' => ?_⟩
  rcases List.mem_append.mp hc' with hc' | hc'
  · exact h.called c' hc'
  · obtain rfl := List.mem_singleton.mp hc'
    exact hc

/-- Where the copy that is put behind the others begins. -/
theorem copyStart_length : copyStart own copies copies.length = (own ++ copies.flatMap Prod.snd).length := by
  rw [copyStart, List.take_length, List.length_append]

/-- An own instruction differs from that of the program in its immediate at most. -/
theorem PartlyLinked.inst (h : PartlyLinked F st done i p own copies) {k : ℕ} {inst : EbpfInst}
    (hinst : p.prog[k]? = some inst) : ∃ imm : BitVec 32, own[k]? = some { inst with imm := imm } := by
  by_cases hk : ∀ r ∈ done, r.progIndex = i → r.sourceOffset ≠ k
  · exact ⟨inst.imm, (h.kept k hk).trans hinst⟩
  · push Not at hk
    obtain ⟨r, hr, hi, rfl⟩ := hk
    obtain ⟨n, c, inst', imm, -, -, hinst', hown, -⟩ := h.calls r hr hi
    obtain rfl := Option.some.inj (hinst.symm.trans hinst')
    exact ⟨imm, hown⟩

/-- The call at a relocation jumps to a copy of its function. -/
theorem PartlyLinked.setTarget (h : PartlyLinked F st done i p own copies) {n : ℕ} {c : ℕ × List EbpfInst}
    {inst : EbpfInst} {imm : BitVec 32} (hi : r.progIndex = i) (hc : copies[n]? = some c)
    (hdenotes : Denotes F st r c.1)
    (hinst : p.prog[r.sourceOffset]? = some inst)
    (himm : (r.sourceOffset : ℤ) + 1 + imm.toInt = copyStart own copies n)
    (hsame : ∀ r' ∈ done, r'.progIndex = i → r.sourceOffset = r'.sourceOffset → SameFunction F r r') :
    PartlyLinked F st (done ++ [r]) i p (own.set r.sourceOffset { inst with imm := imm }) copies := by
  have hlt : r.sourceOffset < own.length := h.length ▸ (List.getElem?_eq_some_iff.mp hinst).1
  have hstart : ∀ m, copyStart (own.set r.sourceOffset { inst with imm := imm }) copies m =
      copyStart own copies m := fun m => by rw [copyStart, copyStart, List.length_set]
  have hset := List.getElem?_set_self (a := ({ inst with imm := imm } : EbpfInst)) hlt
  refine ⟨List.length_set.trans h.length, fun k hk => ?_, fun r' hr' hi' => ?_, h.called⟩
  · rw [List.getElem?_set_ne (hk r (List.mem_append_right _ (List.mem_singleton_self r)) hi)]
    exact h.kept k fun r' hr' => hk r' (List.mem_append_left _ hr')
  · by_cases hoffset : r'.sourceOffset = r.sourceOffset
    · have hr'c : Denotes F st r' c.1 := by
        rcases List.mem_append.mp hr' with hr' | hr'
        · exact (hsame r' hr' hi' hoffset.symm).denotes hdenotes
        · obtain rfl := List.mem_singleton.mp hr'
          exact hdenotes
      refine ⟨n, c, inst, imm, hc, hr'c, hoffset ▸ hinst, hoffset ▸ hset, ?_⟩
      rw [hoffset, hstart, himm]
    · rcases List.mem_append.mp hr' with hr' | hr'
      · obtain ⟨m, c', inst', imm', hc', hdenotes', hinst', hown', himm'⟩ := h.calls r' hr' hi'
        refine ⟨m, c', inst', imm', hc', hdenotes', hinst', ?_, by rw [hstart, himm']⟩
        rw [List.getElem?_set_ne (Ne.symm hoffset)]
        exact hown'
      · obtain rfl := List.mem_singleton.mp hr'
        exact absurd rfl hoffset

end Linked

end Prevail
