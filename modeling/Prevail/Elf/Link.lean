import Prevail.Elf.Core

/-!
# Subprograms

A program is linked by appending the functions that it calls, which are linked first. `append_subprograms`
returns a text when it does not find a function and throws when it comes to a program that it has not
finished. Its recursion goes on as long as there are programs that are not visited; `fuel` bounds it, and
`failsOnly_linkPrograms` says that the bound is never met.
-/

namespace Prevail

/-- The programs with `resolved_subprograms` and `currently_visiting`. -/
structure Linker where
  rawPrograms : List RawProgram
  resolved : List ℕ
  visiting : List ℕ
  deriving DecidableEq

/-- `subprogram_offsets`. -/
abbrev SubprogramOffsets := List (String × ℕ)

/-- `find_subprogram`, by the name of the section. -/
def findSubprogram (programs : List RawProgram) (sectionName symbolName : String) : Option ℕ :=
  programs.findIdx? fun p => p.sectionName = sectionName && p.functionName = symbolName

/-- A copy of a subprogram behind the instructions, with its lines. -/
def RawProgram.insertCopy (p : RawProgram) (base : ℕ) (sub : RawProgram) : RawProgram :=
  { p with
    prog := p.prog ++ sub.prog
    lineInfo := sub.lineInfo.entries.foldl (fun lines e => lines.insert (base + e.1) e.2) p.lineInfo }

/-- The call at a relocation jumps to `target`. -/
def RawProgram.setTarget (p : RawProgram) (r : FunctionRelocation) (target : ℕ) :
    Except ElfError RawProgram := do
  let imm ← narrowInt32 ((target : ℤ) - r.sourceOffset - 1)
  match p.prog[r.sourceOffset]? with
  | none => .error .outOfBounds
  | some inst => return { p with prog := p.prog.set r.sourceOffset { inst with imm := imm } }

/-- The call of program `i` at a relocation jumps to `target`. -/
def Linker.setTarget (s : Linker) (i : ℕ) (r : FunctionRelocation) (target : ℕ) :
    Except ElfError Linker := do
  match s.rawPrograms[i]? with
  | none => .error .outOfBounds
  | some p => return { s with rawPrograms := s.rawPrograms.set i (← p.setTarget r target) }

/-- A copy of program `j` behind the instructions of program `i`. -/
def Linker.insertCopy (s : Linker) (i base j : ℕ) : Except ElfError Linker :=
  match s.rawPrograms[i]?, s.rawPrograms[j]? with
  | some p, some sub => .ok { s with rawPrograms := s.rawPrograms.set i (p.insertCopy base sub) }
  | _, _ => .error .outOfBounds

section Append

variable (F : ElfFile) (append : ℕ → Linker → Except ElfError (String × Linker)) (i : ℕ)

/-- The function of a relocation is appended, unless it is not found. -/
def appendTarget (r : FunctionRelocation) (base : ℕ) (s : Linker) : Except ElfError (String × Linker) :=
  let sym := F.getSymbolDetails r.relocationEntryIndex
  match F.sections[sym.sectionIndex]? with
  | none => .error (.unmarshal "Invalid section index")
  | some subSec =>
    match findSubprogram s.rawPrograms subSec.name sym.name with
    | none => .ok ("Subprogram not found: " ++ sym.name, s)
    | some j =>
      if j = i then .error (.unmarshal "Recursive subprogram call")
      else do
        let (err, s) ← append j s
        if err ≠ "" then return (err, s) else return ("", ← s.insertCopy i base j)

/-- One turn of the loop of `append_subprograms`. -/
def linkRelocation (r : FunctionRelocation) (s : Linker) (offsets : SubprogramOffsets) :
    Except ElfError (String × Linker × SubprogramOffsets) :=
  match s.rawPrograms[i]?, s.rawPrograms[r.progIndex]? with
  | none, _ => .error .outOfBounds
  | some _, none => .ok ("", s, offsets)
  | some p, some caller =>
    if caller.functionName ≠ p.functionName then .ok ("", s, offsets)
    else match offsets.lookup r.targetFunctionName with
      | some target => do return ("", ← s.setTarget i r target, offsets)
      | none => do
        let (err, s) ← appendTarget F append i r p.prog.length s
        if err ≠ "" then return (err, s, offsets)
        else return ("", ← s.setTarget i r p.prog.length,
          (r.targetFunctionName, p.prog.length) :: offsets)

/-- The loop of `append_subprograms`. -/
def linkRelocations : List FunctionRelocation → Linker → SubprogramOffsets →
    Except ElfError (String × Linker)
  | [], s, _ => .ok ("", s)
  | r :: rest, s, offsets => do
    let (err, s, offsets) ← linkRelocation F append i r s offsets
    if err ≠ "" then return (err, s) else linkRelocations rest s offsets

end Append

/-- `append_subprograms`. -/
def appendSubprograms (F : ElfFile) (relocs : List FunctionRelocation) :
    ℕ → ℕ → Linker → Except ElfError (String × Linker)
  | 0, _, _ => .error .outOfFuel
  | fuel + 1, i, s =>
    if i ∈ s.resolved then .ok ("", s)
    else if i ∈ s.visiting then .error (.unmarshal "Mutual recursion in subprogram calls")
    else do
      let (err, s) ← linkRelocations F (appendSubprograms F relocs fuel) i relocs
        { s with visiting := i :: s.visiting } []
      if err ≠ "" then return (err, s)
      else return ("", { s with resolved := i :: s.resolved, visiting := s.visiting.erase i })

/-- One turn of the loop of `read_programs` that links. -/
def linkProgram (F : ElfFile) (relocs : List FunctionRelocation) (desiredSection : String) (s : Linker)
    (i : ℕ) : Except ElfError Linker := do
  let (err, s) ← appendSubprograms F relocs (s.rawPrograms.length + 1) i s
  if err ≠ "" ∧ s.rawPrograms[i]?.map RawProgram.sectionName = some desiredSection then
    .error (.unmarshal err)
  else return s

/-- Every program is linked. -/
def linkPrograms (F : ElfFile) (relocs : List FunctionRelocation) (desiredSection : String)
    (programs : List RawProgram) : Except ElfError Linker :=
  (List.range programs.length).foldlM (linkProgram F relocs desiredSection) ⟨programs, [], []⟩

/-- The program is in the section that is asked for. -/
def RawProgram.desired (desiredSection : String) (p : RawProgram) : Bool :=
  desiredSection = "" || p.sectionName = desiredSection

/-- `read_programs`. -/
def readPrograms (L : Libbtf) (F : ElfFile) (G : ElfGlobalData) (desiredSection : String) :
    Except ElfError (List RawProgram) := do
  let st ← loadPrograms L F G
  let s ← linkPrograms F st.functionRelocations desiredSection st.rawPrograms
  let programs := s.rawPrograms.filter (·.desired desiredSection)
  if programs = [] then
    .error (.unmarshal (if desiredSection = "" then "No executable sections" else "Section not found"))
  else return programs

/-- `read_elf` of a file that is loaded and has symbols. -/
def readElf (L : Libbtf) (F : ElfFile) (desiredSection : String) : ReadM (List RawProgram) := do
  let G ← extractGlobalData L F
  .ofExcept (readPrograms L F G desiredSection)

end Prevail
