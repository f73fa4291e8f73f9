import Prevail.Elf.Reloc

/-!
# What the types of a file change in its programs

A CO-RE relocation puts an offset, a size or a type into an immediate. The lines of a file are noted for
the instructions of its programs, and an instruction without a line of its own gets the last one.
-/

namespace Prevail

/-! ## CO-RE relocations -/

/-- `bpf_core_relo`. -/
structure BpfCoreRelo where
  insnOff : ℕ
  typeId : ℕ
  accessStrOff : ℕ
  kind : ℕ
  deriving DecidableEq

/-- `isspace`. -/
def isSpace (c : Char) : Bool := c = ' ' || 9 ≤ c.toNat && c.toNat ≤ 13

/-- `stoul`: leading space, a sign and digits, of which there is one at least. -/
def stoul (s : List Char) : Option ℕ :=
  let s := s.dropWhile isSpace
  let (negative, s) := match s with
    | '-' :: s => (true, s)
    | '+' :: s => (false, s)
    | s => (false, s)
  let digits := s.takeWhile Char.isDigit
  let n := digits.foldl (fun n c => 10 * n + (c.toNat - 48)) 0
  if digits = [] ∨ 2 ^ 64 ≤ n then none else some (if negative then (2 ^ 64 - n) % 2 ^ 64 else n)

/-- `parse_core_access_string`. -/
def parseCoreAccessString (s : List Char) : Except ElfError (List ℕ) :=
  ((s.splitOn ':').filter (· ≠ [])).mapM fun item =>
    match stoul item with
    | some n => .ok (n % 2 ^ 32)
    | none => .error (.unmarshal ("Invalid CO-RE access string: " ++ String.ofList s))

/-- The type behind typedefs and qualifiers, of which there are at most as many as `depth`. -/
def resolveType (B : BtfTypeData) : ℕ → ℕ → Except ElfError (ℕ × BtfKind)
  | 0, _ =>
    .error (.unmarshal "CO-RE type resolution exceeded depth limit (possible corrupt BTF)")
  | depth + 1, id => do
    match ← B.kind id with
    | .typedef type | .const type | .volatile type | .restrict type => resolveType B depth type
    | kind => return (id, kind)

/-- One index of an access: the type and the offset in bits behind it. -/
def accessStep (B : BtfTypeData) (res : ℕ × ℕ) (index : ℕ) : Except ElfError (ℕ × ℕ) := do
  match (← resolveType B 255 res.1).2 with
  | .struct members =>
    match members[index]? with
    | some (offset, type) => return (type, (res.2 + offset) % 2 ^ 32)
    | none => .error (.unmarshal "CO-RE: member index out of bounds")
  | .array elementType => do
    let size ← B.size elementType
    return (elementType, (res.2 + index * size * 8 % 2 ^ 64) % 2 ^ 32)
  | _ => .error (.unmarshal "CO-RE: indexing into non-aggregate type")

/-- The characters up to the first zero. -/
def cString : List (BitVec 8) → Except ElfError (List Char)
  | [] => .error .outOfBounds
  | b :: bytes => if b = 0 then .ok [] else do return Char.ofNat b.toNat :: (← cString bytes)

/-- The string of an access in `.BTF`. -/
def accessString (btf : List (BitVec 8)) (relo : BpfCoreRelo) : Except ElfError (List Char) :=
  cString (btf.drop (wordAt btf 4 + wordAt btf 16 + relo.accessStrOff))

/-- The immediate that a relocation asks for. -/
def coreImmediate (B : BtfTypeData) (btf : List (BitVec 8)) (relo : BpfCoreRelo) :
    Except ElfError (BitVec 32) :=
  match relo.kind with
  | 0 => do
    let indices ← parseCoreAccessString (← accessString btf relo)
    let res ← indices.foldlM (accessStep B) (relo.typeId, 0)
    if 2 ^ 31 ≤ res.2 then .error .thrown else return BitVec.ofNat 32 (res.2 / 8)
  | 6 | 7 => narrowInt32 relo.typeId
  | 9 => do narrowInt32 (← B.size relo.typeId)
  | kind => .error (.unmarshal ("Unsupported CO-RE relocation kind: " ++ toString kind))

/-- `apply_core_relocation`. -/
def applyCoreRelocation (B : BtfTypeData) (btf : List (BitVec 8)) (relo : BpfCoreRelo) (p : RawProgram) :
    Except ElfError RawProgram :=
  let index := (relo.insnOff - p.insnOff) / 8
  match p.prog[index]? with
  | none => .error (.unmarshal "CO-RE relocation offset out of bounds")
  | some inst => do
    let imm ← coreImmediate B btf relo
    return { p with prog := p.prog.set index { inst with imm := imm } }

/-- The program has an instruction at an offset. -/
def RawProgram.Holds (p : RawProgram) (offset : ℕ) : Prop :=
  p.insnOff ≤ offset ∧ offset < p.insnOff + p.prog.length * 8

instance RawProgram.decidableHolds (p : RawProgram) (offset : ℕ) : Decidable (p.Holds offset) :=
  inferInstanceAs (Decidable (_ ∧ _))

/-- The relocation is applied to the first program that holds its offset. -/
def applyToFirst (B : BtfTypeData) (btf : List (BitVec 8)) (relo : BpfCoreRelo) :
    List RawProgram → Except ElfError (List RawProgram)
  | [] => .error (.unmarshal ("Failed to find program for CO-RE relocation at instruction offset " ++
      toString relo.insnOff))
  | p :: programs =>
    if p.Holds relo.insnOff then do return (← applyCoreRelocation B btf relo p) :: programs
    else do return p :: (← applyToFirst B btf relo programs)

/-- `R_BPF_64_NODYLD32`. -/
def rBpf64Nodyld32 : ℕ := 19

/-- One turn of the loop of `process_core_relocations`. -/
def processCoreRelocation (F : ElfFile) (B : BtfTypeData) (btf ext : List (BitVec 8))
    (programs : List RawProgram) (e : RelocEntry) : Except ElfError (List RawProgram) :=
  if e.type ≠ rBpf64Nodyld32 then .ok programs
  else
    let value := (F.getSymbolDetails e.symbol).value
    if ext.length < (value + 16) % 2 ^ 64 then
      .error (.unmarshal "CO-RE relocation offset out of BTF.ext bounds")
    else if ext.length < value + 16 then .error .outOfBounds
    else applyToFirst B btf
      ⟨wordAt ext value, wordAt ext (value + 4), wordAt ext (value + 8), wordAt ext (value + 12)⟩ programs

/-- `process_core_relocations`. -/
def processCoreRelocations (F : ElfFile) (B : BtfTypeData) (btf : List (BitVec 8))
    (programs : List RawProgram) : Except ElfError (List RawProgram) :=
  match (F.findSection ".rel.BTF").or (F.findSection ".rela.BTF") with
  | none => .ok programs
  | some relocs =>
    match F.findSection ".BTF.ext" with
    | none => .error (.unmarshal ".BTF.ext section missing for CO-RE relocations")
    | some ext => relocs.entries.foldlM (processCoreRelocation F B btf (ext.data.getD [])) programs

/-! ## Lines -/

/-- What the visitor does with a line. -/
def noteLine (programs : List RawProgram) (line : BtfLine) : List RawProgram :=
  programs.map fun p =>
    if p.sectionName = line.sectionName ∧ p.Holds line.instructionOffset then
      { p with lineInfo := p.lineInfo.insert ((line.instructionOffset - p.insnOff) / 8) line.info }
    else p

/-- The lines of a program from `i` on, where `last` is the last line that has a number. -/
def fillLines : ℕ → ℕ → Option BtfLineInfo → LineInfo → LineInfo
  | 0, _, _, lines => lines
  | n + 1, i, last, lines =>
    match lines.find? i, last with
    | some line, last => fillLines n (i + 1) (if line.lineNumber ≠ 0 then some line else last) lines
    | none, some line => fillLines n (i + 1) (some line) (lines.insert i line)
    | none, none => fillLines n (i + 1) none lines

/-- `update_line_info`. -/
def updateLineInfo (L : Libbtf) (programs : List RawProgram) (btfSection btfExt : ElfSection) :
    Except ElfError (List RawProgram) := do
  let lines ← L.lineInformation (← bytesOf btfSection) (← bytesOf btfExt)
  return (lines.foldl noteLine programs).map fun p =>
    { p with lineInfo := fillLines p.prog.length 0 none p.lineInfo }

/-! ## The programs before they are linked -/

/-- The step of `read_programs` that follows the loops, when there are types. -/
def relocateTypes (L : Libbtf) (F : ElfFile) (programs : List RawProgram) :
    Except ElfError (List RawProgram) :=
  match F.findSection ".BTF" with
  | none => .ok programs
  | some btfSection => do
    let btf ← bytesOf btfSection
    processCoreRelocations F (← L.typeData btf) btf programs

/-- The step of `read_programs` that notes the lines, when there are any. -/
def noteLines (L : Libbtf) (F : ElfFile) (programs : List RawProgram) :
    Except ElfError (List RawProgram) :=
  match F.findSection ".BTF", F.findSection ".BTF.ext" with
  | some btfSection, some btfExt => updateLineInfo L programs btfSection btfExt
  | _, _ => .ok programs

/-- `read_programs` up to the linking. -/
def loadPrograms (L : Libbtf) (F : ElfFile) (G : ElfGlobalData) : Except ElfError ProgramReader := do
  let st ← readSections F G
  let programs ← relocateTypes L F st.rawPrograms
  if st.unresolvedSymbolErrors ≠ [] then .error (.unmarshal "Unresolved symbols found.")
  else return { st with rawPrograms := ← noteLines L F programs }

end Prevail
