import Prevail.Crab.RegisterTypes
import Prevail.Lib.Delimited
import Prevail.Lib.Numbering

/-!
# Variables by their names

`VariableRegistry` numbers names. What a request asks for is an `Entity`: the variable of one kind of a
register, of a register that is saved for a stack frame or of a range of stack bytes, a loop counter, or
one of the variables of the packet. The name of an entity is put together from numbers, prefixes and
delimiters, and determines the entity (`Entity.name_injective`), so that numbering names is numbering
entities (`run_identity`).
-/

namespace Prevail

open Delimited

/-! ## Names -/

/-- `name_of`. -/
def DataKind.nameOf : DataKind → List Char
  | .ctxOffsets => "ctx_offset".toList
  | .mapFds => "map_fd".toList
  | .mapFdPrograms => "map_fd_programs".toList
  | .packetOffsets => "packet_offset".toList
  | .sharedOffsets => "shared_offset".toList
  | .sharedRegionSizes => "shared_region_size".toList
  | .stackNumericSizes => "stack_numeric_size".toList
  | .stackOffsets => "stack_offset".toList
  | .svalues => "svalue".toList
  | .types => "type".toList
  | .uvalues => "uvalue".toList

/-- `Label` with a stack frame prefix that is a text. -/
structure TextLabel where
  stackFramePrefix : List Char
  src : ℤ
  dst : ℤ
  special : Bool
  deriving DecidableEq

namespace TextLabel

def entry : TextLabel := ⟨[], -1, -1, false⟩

def exit : TextLabel := ⟨[], 2147483647, -1, false⟩

/-- What follows the prefix. -/
def tail (l : TextLabel) : List Char :=
  decimal l.src ++ (if l.dst = -1 then [] else ':' :: decimal l.dst) ++
    (if l.special then " (counter)".toList else [])

/-- The label with its prefix, when there is one. -/
def prefixed (l : TextLabel) : List Char :=
  (if l.stackFramePrefix = [] then [] else l.stackFramePrefix ++ ['/']) ++ l.tail

/-- `operator<<`. -/
def print (l : TextLabel) : List Char :=
  if l = entry then "entry".toList else if l = exit then "exit".toList else l.prefixed

end TextLabel

namespace VarRegistry

/-- The name of `reg`. -/
def regName (kind : DataKind) (i : ℤ) : List Char := 'r' :: decimal i ++ '.' :: kind.nameOf

/-- The name of `stack_frame_var`. -/
def stackFrameName (kind : DataKind) (i : ℤ) (pre : List Char) : List Char :=
  pre ++ '/' :: regName kind i

/-- `mk_scalar_name`. -/
def mkScalarName (kind : DataKind) (o size : ℤ) : List Char :=
  "s[".toList ++ decimal o ++ (if size = 1 then [] else "...".toList ++ decimal (o + size - 1)) ++
    "].".toList ++ kind.nameOf

/-- The name of `loop_counter`. -/
def loopCounterName (label : List Char) : List Char := "pc[".toList ++ label ++ [']']

/-- `default_variable_names`. -/
def defaultVariableNames : List (List Char) :=
  (List.range 11).flatMap (fun i => [DataKind.svalues, .uvalues, .ctxOffsets, .mapFds, .packetOffsets,
    .sharedOffsets, .stackOffsets, .types, .sharedRegionSizes, .stackNumericSizes].map (regName · i)) ++
  ["data_size".toList, "meta_size".toList, "meta_offset".toList, "packet_size".toList]

/-! ## Requests -/

/-- What the registry is asked for. A variable is its number. -/
inductive Request where
  | reg (kind : DataKind) (i : ℤ)
  | typeReg (i : ℤ)
  | stackFrameVar (kind : DataKind) (i : ℤ) (pre : List Char)
  | cellVar (kind : DataKind) (offset size : ℤ)
  | kindVar (kind : DataKind) (v : ℕ)
  | metaOffset
  | packetSize
  | loopCounter (label : TextLabel)

/-- `make`. -/
def make (names : List (List Char)) (name : List Char) : ℕ × List (List Char) :=
  if name ∈ names then (names.idxOf name, names) else (names.length, names ++ [name])

/-- The name that is asked for. -/
def requestedName (names : List (List Char)) : Request → Option (List Char)
  | .reg kind i => some (regName kind i)
  | .typeReg i => some (regName .types i)
  | .stackFrameVar kind i pre => some (stackFrameName kind i pre)
  | .cellVar kind offset size => do return mkScalarName kind (← Number.castToU 64 offset) size
  | .kindVar kind v => do return (← uptoLast '.' (← names[v]?)) ++ kind.nameOf
  | .metaOffset => some "meta_offset".toList
  | .packetSize => some "packet_size".toList
  | .loopCounter label => some (loopCounterName label.print)

def request (names : List (List Char)) (r : Request) : Option (ℕ × List (List Char)) := do
  return make names (← requestedName names r)

/-- The variables that some requests return, and the names afterwards. -/
def run : List Request → List (List Char) → Option (List ℕ × List (List Char))
  | [], names => some ([], names)
  | r :: rs, names => do
    let (v, names) ← request names r
    let (vs, names) ← run rs names
    return (v :: vs, names)

/-- `is_type`. -/
def isType (names : List (List Char)) (v : ℕ) : Option Bool := do
  return ".type".toList.isSuffixOf (← names[v]?)

/-! ## Entities -/

/-- What has variables: a register, a register that is saved for the frame of a prefix, or a range of
stack bytes. -/
inductive Place where
  | reg (i : ℤ)
  | saved (i : ℤ) (pre : List Char)
  | cell (offset size : ℤ)
  deriving DecidableEq

/-- What a variable stands for. Nothing asks for the last two. -/
inductive Entity where
  | var (kind : DataKind) (place : Place)
  | loopCounter (label : TextLabel)
  | metaOffset
  | packetSize
  | dataSize
  | metaSize
  deriving DecidableEq

namespace Place

/-- The name without the kind. -/
def text : Place → List Char
  | reg i => 'r' :: decimal i
  | saved i pre => pre ++ '/' :: 'r' :: decimal i
  | cell o size =>
    's' :: '[' :: (decimal o ++
      ((if size = 1 then [] else "...".toList ++ decimal (o + size - 1)) ++ [']']))

end Place

def Entity.name : Entity → List Char
  | var kind (.reg i) => regName kind i
  | var kind (.saved i pre) => stackFrameName kind i pre
  | var kind (.cell o size) => mkScalarName kind o size
  | loopCounter label => loopCounterName label.print
  | metaOffset => "meta_offset".toList
  | packetSize => "packet_size".toList
  | dataSize => "data_size".toList
  | metaSize => "meta_size".toList

/-- The entity that a request asks for, where `known` are the entities of the variables there are. The
kind variable of a type variable belongs to the same place. -/
def Request.entity (known : List Entity) : Request → Option Entity
  | reg kind i => some (.var kind (.reg i))
  | typeReg i => some (.var .types (.reg i))
  | stackFrameVar kind i pre => some (.var kind (.saved i pre))
  | cellVar kind offset size => do return .var kind (.cell (← Number.castToU 64 offset) size)
  | kindVar kind v =>
    match known[v]? with
    | some (.var .types place) => some (.var kind place)
    | _ => none
  | metaOffset => some .metaOffset
  | packetSize => some .packetSize
  | loopCounter label => some (.loopCounter label)

/-- The entities of the default variables. -/
def defaultEntities : List Entity :=
  (List.range 11).flatMap (fun i => [DataKind.svalues, .uvalues, .ctxOffsets, .mapFds, .packetOffsets,
    .sharedOffsets, .stackOffsets, .types, .sharedRegionSizes, .stackNumericSizes].map
      (Entity.var · (.reg i))) ++ [.dataSize, .metaSize, .metaOffset, .packetSize]

/-- The entities that some requests ask for, and the entities of the variables afterwards. -/
def follow : List Request → List Entity → Option (List Entity × List Entity)
  | [], known => some ([], known)
  | r :: rs, known => do
    let e ← r.entity known
    let (es, known) ← follow rs (Numbering.ask known e)
    return (e :: es, known)

/-! ## Names determine entities -/

theorem not_mem_nameOf (kind : DataKind) :
    '.' ∉ kind.nameOf ∧ '/' ∉ kind.nameOf ∧ ']' ∉ kind.nameOf := by
  cases kind <;> decide

theorem nameOf_ne_nil (kind : DataKind) : kind.nameOf ≠ [] := by
  cases kind <;> decide

theorem nameOf_injective {k k' : DataKind} (h : k.nameOf = k'.nameOf) : k = k' := by
  cases k <;> cases k' <;> first | rfl | exact absurd h (by decide)

section

variable {m n : ℤ} {c : Char}

theorem dot_not_mem (n : ℤ) : '.' ∉ decimal n := not_mem_decimal (by decide) (by decide)

theorem slash_not_mem (n : ℤ) : '/' ∉ decimal n := not_mem_decimal (by decide) (by decide)

theorem slash_not_mem_reg (n : ℤ) : '/' ∉ (Place.reg n).text := fun h =>
  (List.mem_cons.mp h).elim (by decide) (slash_not_mem n)

theorem slash_not_mem_cell (o size : ℤ) : '/' ∉ (Place.cell o size).text := by
  intro h
  simp only [Place.text, List.mem_cons, List.mem_append, slash_not_mem, false_or] at h
  rcases h with h | h | h | h
  · exact absurd h (by decide)
  · exact absurd h (by decide)
  · split_ifs at h
    · cases h
    · rcases List.mem_append.mp h with h | h
      · exact absurd h (by decide)
      · exact slash_not_mem _ h
  · exact absurd h (by decide)

end

theorem Place.text_injective {p q : Place} (h : p.text = q.text) : p = q := by
  have hslash : ∀ i pre, '/' ∈ (Place.saved i pre).text := fun i pre =>
    List.mem_append_right pre List.mem_cons_self
  cases p with
  | reg i =>
    cases q with
    | reg j => rw [decimal_injective (List.cons.inj h).2]
    | saved j pre => exact absurd (h ▸ hslash j pre) (slash_not_mem_reg i)
    | cell o size => exact absurd (List.cons.inj h).1 (by decide)
  | saved i pre =>
    cases q with
    | reg j => exact absurd (h ▸ hslash i pre) (slash_not_mem_reg j)
    | saved j pre' =>
      obtain ⟨rfl, hreg⟩ := inj_last (slash_not_mem_reg i) (slash_not_mem_reg j) h
      rw [decimal_injective (List.cons.inj hreg).2]
    | cell o size => exact absurd (h ▸ hslash i pre) (slash_not_mem_cell o size)
  | cell o size =>
    cases q with
    | reg j => exact absurd (List.cons.inj h).1 (by decide)
    | saved j pre => exact absurd (h ▸ hslash j pre) (slash_not_mem_cell o size)
    | cell o' size' =>
      have hrange := (List.cons.inj (List.cons.inj h).2).2
      rw [← List.append_assoc, ← List.append_assoc] at hrange
      have hrange := (List.append_inj' hrange rfl).1
      by_cases hone : size = 1 <;> by_cases hone' : size' = 1
      · subst hone hone'
        simp only [if_true, List.append_nil] at hrange
        rw [decimal_injective hrange]
      · rw [if_pos hone, if_neg hone', List.append_nil] at hrange
        exact absurd (hrange ▸ List.mem_append_right _ List.mem_cons_self) (dot_not_mem o)
      · rw [if_neg hone, if_pos hone', List.append_nil] at hrange
        exact absurd (hrange ▸ List.mem_append_right _ List.mem_cons_self) (dot_not_mem o')
      · rw [if_neg hone, if_neg hone'] at hrange
        obtain ⟨hfirst, hlast⟩ := inj_first (dot_not_mem o) (dot_not_mem o') hrange
        obtain rfl := decimal_injective hfirst
        have hend := decimal_injective (List.append_cancel_left hlast)
        rw [show size = size' by omega]

end VarRegistry

/-! ### Labels -/

namespace TextLabel

open VarRegistry

theorem tail_eq (l : TextLabel) :
    l.tail = jumpText l.src l.dst ++ if l.special then " (counter)".toList else [] := rfl

theorem slash_not_mem_tail (l : TextLabel) : '/' ∉ l.tail := by
  intro h
  rcases List.mem_append.mp (l.tail_eq ▸ h) with h | h
  · exact not_mem_jumpText (by decide) (by decide) (by decide) _ _ h
  · split_ifs at h
    · exact absurd h (by decide)
    · cases h

theorem exists_digit_mem_tail (l : TextLabel) : ∃ c ∈ l.tail, c.isDigit = true := by
  obtain ⟨c, hc, hdigit⟩ := exists_digit_mem_decimal l.src
  exact ⟨c, List.mem_append_left _ (List.mem_append_left _ hc), hdigit⟩

theorem tail_injective {l l' : TextLabel} (h : l.tail = l'.tail) :
    l.src = l'.src ∧ l.dst = l'.dst ∧ l.special = l'.special := by
  have hspace : ∀ l : TextLabel, ' ' ∉ jumpText l.src l.dst := fun l =>
    not_mem_jumpText (by decide) (by decide) (by decide) _ _
  rw [tail_eq, tail_eq] at h
  cases hs : l.special <;> cases hs' : l'.special <;> rw [hs, hs'] at h
  · rw [if_neg (by decide), List.append_nil, List.append_nil] at h
    obtain ⟨hsrc, hdst⟩ := jumpText_injective h
    exact ⟨hsrc, hdst, rfl⟩
  · rw [if_neg (by decide), if_pos rfl, List.append_nil] at h
    exact absurd (h ▸ List.mem_append_right _ List.mem_cons_self) (hspace l)
  · rw [if_pos rfl, if_neg (by decide), List.append_nil] at h
    exact absurd (h ▸ List.mem_append_right _ List.mem_cons_self) (hspace l')
  · obtain ⟨hsrc, hdst⟩ := jumpText_injective (inj_first (hspace l) (hspace l') h).1
    exact ⟨hsrc, hdst, rfl⟩

theorem prefixed_injective {l l' : TextLabel} (h : l.prefixed = l'.prefixed) : l = l' := by
  unfold prefixed at h
  obtain ⟨hpre, htail⟩ : l.stackFramePrefix = l'.stackFramePrefix ∧ l.tail = l'.tail := by
    split_ifs at h with hl hl' hl'
    · exact ⟨hl.trans hl'.symm, h⟩
    · rw [List.nil_append, List.append_assoc] at h
      exact absurd (h ▸ List.mem_append_right _ List.mem_cons_self) l.slash_not_mem_tail
    · rw [List.nil_append, List.append_assoc] at h
      exact absurd (h ▸ List.mem_append_right _ List.mem_cons_self) l'.slash_not_mem_tail
    · rw [List.append_assoc, List.append_assoc] at h
      exact inj_last l.slash_not_mem_tail l'.slash_not_mem_tail h
  obtain ⟨hsrc, hdst, hspecial⟩ := tail_injective htail
  cases l
  cases l'
  simp only at hpre hsrc hdst hspecial
  rw [hpre, hsrc, hdst, hspecial]

theorem prefixed_ne {l : TextLabel} {text : List Char} (h : ∀ c ∈ text, c.isDigit = false) :
    l.prefixed ≠ text := by
  rintro rfl
  obtain ⟨c, hc, hdigit⟩ := l.exists_digit_mem_tail
  rw [h c (List.mem_append_right _ hc)] at hdigit
  cases hdigit

theorem print_cases (l : TextLabel) : l = entry ∧ l.print = "entry".toList ∨
    l = exit ∧ l.print = "exit".toList ∨ l.print = l.prefixed := by
  unfold print
  split_ifs with hentry hexit
  · exact Or.inl ⟨hentry, rfl⟩
  · exact Or.inr (Or.inl ⟨hexit, rfl⟩)
  · exact Or.inr (Or.inr rfl)

theorem print_injective {l l' : TextLabel} (h : l.print = l'.print) : l = l' := by
  -- a label that is printed with its numbers has a digit
  have hentry : ∀ c ∈ "entry".toList, c.isDigit = false := by simp
  have hexit : ∀ c ∈ "exit".toList, c.isDigit = false := by simp
  rcases l.print_cases with ⟨hl, hp⟩ | ⟨hl, hp⟩ | hp <;>
    rcases l'.print_cases with ⟨hl', hp'⟩ | ⟨hl', hp'⟩ | hp' <;> rw [hp, hp'] at h
  · rw [hl, hl']
  · exact absurd h (by decide)
  · exact absurd h.symm (prefixed_ne hentry)
  · exact absurd h (by decide)
  · rw [hl, hl']
  · exact absurd h.symm (prefixed_ne hexit)
  · exact absurd h (prefixed_ne hentry)
  · exact absurd h (prefixed_ne hexit)
  · exact prefixed_injective h

end TextLabel

namespace VarRegistry

/-! ### All names -/

theorem name_var (kind : DataKind) (place : Place) :
    (Entity.var kind place).name = place.text ++ '.' :: kind.nameOf := by
  cases place with
  | reg i => rfl
  | saved i pre => exact (List.append_assoc pre ('/' :: 'r' :: decimal i) _).symm
  | cell o size =>
    show "s[".toList ++ decimal o ++ _ ++ "].".toList ++ kind.nameOf = _
    simp only [Place.text, List.append_assoc, List.cons_append, List.nil_append]
    rfl

theorem dot_mem_name (kind : DataKind) (place : Place) : '.' ∈ (Entity.var kind place).name := by
  rw [name_var]
  exact List.mem_append_right _ List.mem_cons_self

/-- The name of a loop counter ends with a bracket, unlike that of a kind. -/
theorem name_var_ne (kind : DataKind) (place : Place) (label : TextLabel) :
    (Entity.var kind place).name ≠ (Entity.loopCounter label).name := by
  intro h
  rw [name_var] at h
  obtain hnil | ⟨front, c, hkind⟩ := List.eq_nil_or_concat kind.nameOf
  · exact nameOf_ne_nil kind hnil
  · rw [List.concat_eq_append] at hkind
    rw [hkind, ← List.cons_append, ← List.append_assoc] at h
    have hc : c = ']' := List.singleton_inj.mp (List.append_inj' h rfl).2
    refine (not_mem_nameOf kind).2.2 ?_
    rw [hkind, hc]
    exact List.mem_append_right _ List.mem_cons_self

theorem bracket_mem_name (label : TextLabel) : ']' ∈ (Entity.loopCounter label).name :=
  List.mem_append_right _ List.mem_cons_self

/-- Different entities have different names. -/
theorem Entity.name_injective {e e' : Entity} (h : e.name = e'.name) : e = e' := by
  cases e with
  | var kind place =>
    have hdot := dot_mem_name kind place
    cases e' with
    | var kind' place' =>
      rw [name_var, name_var] at h
      obtain ⟨htext, hkind⟩ := inj_last (not_mem_nameOf kind).1 (not_mem_nameOf kind').1 h
      rw [Place.text_injective htext, nameOf_injective hkind]
    | loopCounter label => exact absurd h (name_var_ne kind place label)
    | _ => exact absurd (h ▸ hdot) (by decide)
  | loopCounter label =>
    have hbracket := bracket_mem_name label
    cases e' with
    | var kind place => exact absurd h.symm (name_var_ne kind place label)
    | loopCounter label' =>
      have hlabel := List.append_cancel_left (List.append_cancel_right h)
      rw [TextLabel.print_injective hlabel]
    | _ => exact absurd (h ▸ hbracket) (by decide)
  | _ =>
    cases e' with
    | var kind place => exact absurd (h ▸ dot_mem_name kind place) (by decide)
    | loopCounter label => exact absurd (h ▸ bracket_mem_name label) (by decide)
    | _ => first | rfl | exact absurd h (by decide)

/-! ## Runs -/

section

variable {known known' : List Entity} {e : Entity} {r : Request}

theorem name_mem_map : e.name ∈ known.map Entity.name ↔ e ∈ known :=
  List.mem_map_of_injective fun _ _ => Entity.name_injective

theorem idxOf_map_name : (known.map Entity.name).idxOf e.name = known.idxOf e := by
  induction known with
  | nil => rfl
  | cons a known ih =>
    rw [List.map_cons, List.idxOf_cons, List.idxOf_cons, ih]
    by_cases h : a = e
    · rw [h, beq_self_eq_true, beq_self_eq_true]
    · have hname : a.name ≠ e.name := fun hname => h (Entity.name_injective hname)
      rw [beq_eq_false_iff_ne.mpr h, beq_eq_false_iff_ne.mpr hname]

/-- Numbering a name is numbering its entity. -/
theorem make_map : make (known.map Entity.name) e.name =
    ((Numbering.ask known e).idxOf e, (Numbering.ask known e).map Entity.name) := by
  unfold make
  by_cases he : e ∈ known
  · rw [if_pos (name_mem_map.mpr he), Numbering.ask_of_mem he, idxOf_map_name]
  · rw [if_neg (mt name_mem_map.mp he), Numbering.ask_of_not_mem he, List.idxOf_append_of_notMem he,
      List.length_map, List.map_append, List.idxOf_cons_self, Nat.add_zero]
    rfl

theorem kindVar_name {kind : DataKind} {place : Place} :
    uptoLast '.' (Entity.var kind place).name = some (place.text ++ ['.']) := by
  rw [name_var]
  exact uptoLast_append (not_mem_nameOf kind).1

theorem requestedName_of_entity (h : r.entity known = some e) :
    requestedName (known.map Entity.name) r = some e.name := by
  cases r with
  | cellVar kind offset size =>
    obtain ⟨o, ho, h⟩ := Option.bind_eq_some_iff.mp h
    cases h
    exact Option.bind_eq_some_iff.mpr ⟨o, ho, rfl⟩
  | kindVar kind v =>
    simp only [Request.entity] at h
    split at h
    case h_1 place hv =>
      cases h
      have hname : (known.map Entity.name)[v]? = some (Entity.var .types place).name := by
        rw [List.getElem?_map, hv]
        rfl
      show (do return (← uptoLast '.' (← (known.map Entity.name)[v]?)) ++ kind.nameOf : Option _) = _
      rw [hname, name_var kind place]
      simp [kindVar_name]
    case h_2 => cases h
  | _ => cases h; rfl

theorem request_of_entity (h : r.entity known = some e) : request (known.map Entity.name) r =
    some ((Numbering.ask known e).idxOf e, (Numbering.ask known e).map Entity.name) := by
  unfold request
  rw [requestedName_of_entity h, ← make_map]
  rfl

theorem prefix_ask (known : List Entity) (e : Entity) : known <+: Numbering.ask known e := by
  unfold Numbering.ask
  split_ifs
  · exact List.prefix_rfl
  · exact List.prefix_append known [e]

variable {rs : List Request} {es : List Entity}

theorem follow_cons : follow (r :: rs) known = some (es, known') ↔ ∃ e es', r.entity known = some e ∧
    follow rs (Numbering.ask known e) = some (es', known') ∧ es = e :: es' := by
  constructor
  · intro h
    obtain ⟨e, he, h⟩ := Option.bind_eq_some_iff.mp h
    obtain ⟨⟨es', known₁⟩, hrest, h⟩ := Option.bind_eq_some_iff.mp h
    cases h
    exact ⟨e, es', he, hrest, rfl⟩
  · rintro ⟨e, es', he, hrest, rfl⟩
    exact Option.bind_eq_some_iff.mpr ⟨e, he, Option.bind_eq_some_iff.mpr ⟨_, hrest, rfl⟩⟩

/-- Variables are only added, and there is one for each entity that was asked for. -/
theorem follow_spec (h : follow rs known = some (es, known')) :
    known <+: known' ∧ ∀ e ∈ es, e ∈ known' := by
  induction rs generalizing known es with
  | nil =>
    cases h
    exact ⟨List.prefix_rfl, fun e he => absurd he List.not_mem_nil⟩
  | cons r rs ih =>
    obtain ⟨e, es', -, hrest, rfl⟩ := follow_cons.mp h
    obtain ⟨hpre, hmem⟩ := ih hrest
    refine ⟨(prefix_ask known e).trans hpre, fun e' he' => ?_⟩
    rcases List.mem_cons.mp he' with rfl | he'
    · exact hpre.subset Numbering.mem_ask_self
    · exact hmem e' he'

/-- The names are those of the entities. -/
theorem run_of_follow (h : follow rs known = some (es, known')) :
    run rs (known.map Entity.name) = some (es.map known'.idxOf, known'.map Entity.name) := by
  induction rs generalizing known es with
  | nil =>
    cases h
    rfl
  | cons r rs ih =>
    obtain ⟨e, es', he, hrest, rfl⟩ := follow_cons.mp h
    have hidx : (Numbering.ask known e).idxOf e = known'.idxOf e :=
      ((follow_spec hrest).1.idxOf_eq_of_mem Numbering.mem_ask_self)
    refine Option.bind_eq_some_iff.mpr ⟨_, request_of_entity he, ?_⟩
    refine Option.bind_eq_some_iff.mpr ⟨_, ih hrest, ?_⟩
    rw [List.map_cons, ← hidx]
    rfl

theorem follow_take (h : follow rs known = some (es, known')) (n : ℕ) :
    ∃ es₁ known₁, follow (rs.take n) known = some (es₁, known₁) ∧ known₁ <+: known' := by
  induction rs generalizing known es n with
  | nil =>
    cases h
    exact ⟨[], known', by rw [List.take_nil]; rfl, List.prefix_rfl⟩
  | cons r rs ih =>
    cases n with
    | zero => exact ⟨[], known, rfl, (follow_spec h).1⟩
    | succ n =>
      obtain ⟨e, es', he, hrest, rfl⟩ := follow_cons.mp h
      obtain ⟨es₁, known₁, htake, hpre⟩ := ih hrest n
      exact ⟨e :: es₁, known₁, follow_cons.mpr ⟨e, es₁, he, htake, rfl⟩, hpre⟩

theorem type_suffix_iff : ".type".toList <:+ e.name ↔ ∃ place, e = .var .types place := by
  constructor
  · rintro ⟨front, hname⟩
    cases e with
    | var kind place =>
      rw [name_var] at hname
      have hkind := (inj_last (not_mem_nameOf .types).1 (not_mem_nameOf kind).1 hname).2
      rw [← nameOf_injective hkind]
      exact ⟨place, rfl⟩
    | loopCounter label =>
      have hlast : (front ++ ".typ".toList) ++ ['e'] = ("pc[".toList ++ label.print) ++ [']'] := by
        rw [List.append_assoc]
        exact hname
      exact absurd (List.append_inj' hlast rfl).2 (by decide)
    | _ =>
      have hdot := List.mem_append_right front (List.mem_cons_self : '.' ∈ ".type".toList)
      exact absurd (hname ▸ hdot) (by decide)
  · rintro ⟨place, rfl⟩
    rw [name_var]
    exact List.suffix_append place.text _

/-- A type variable is the variable of the types of a place. -/
theorem isType_iff {v : ℕ} : isType (known.map Entity.name) v = some true ↔
    ∃ place, known[v]? = some (.var .types place) := by
  unfold isType
  rw [List.getElem?_map]
  cases known[v]? with
  | none => simp
  | some e =>
    have hsuffix : ".type".toList.isSuffixOf e.name = true ↔ ∃ place, e = .var .types place :=
      List.isSuffixOf_iff_suffix.trans type_suffix_iff
    simpa using hsuffix

/-- `kind_var` is asked for the variables of types only. -/
def Proper : List Request → List (List Char) → Prop
  | [], _ => True
  | r :: rs, names => (∀ kind v, r = .kindVar kind v → isType names v = some true) ∧
    ∀ v names', request names r = some (v, names') → Proper rs names'

theorem exists_entity {names : List (List Char)} {v : ℕ}
    (hproper : ∀ kind v, r = .kindVar kind v → isType (known.map Entity.name) v = some true)
    (h : request (known.map Entity.name) r = some (v, names)) : ∃ e, r.entity known = some e := by
  cases r with
  | cellVar kind offset size =>
    obtain ⟨name, hname, -⟩ := Option.bind_eq_some_iff.mp h
    obtain ⟨o, ho, -⟩ := Option.bind_eq_some_iff.mp hname
    exact ⟨_, Option.bind_eq_some_iff.mpr ⟨o, ho, rfl⟩⟩
  | kindVar kind v =>
    obtain ⟨place, hv⟩ := isType_iff.mp (hproper kind v rfl)
    refine ⟨.var kind place, ?_⟩
    simp only [Request.entity, hv]
  | _ => exact ⟨_, rfl⟩

theorem exists_follow {names : List (List Char)} {vs : List ℕ}
    (hproper : Proper rs (known.map Entity.name))
    (h : run rs (known.map Entity.name) = some (vs, names)) :
    ∃ es known', follow rs known = some (es, known') := by
  induction rs generalizing known vs names with
  | nil => exact ⟨[], known, rfl⟩
  | cons r rs ih =>
    obtain ⟨⟨v, names₁⟩, hr, h⟩ := Option.bind_eq_some_iff.mp h
    obtain ⟨⟨vs', names₂⟩, hrest, h⟩ := Option.bind_eq_some_iff.mp h
    obtain ⟨e, he⟩ := exists_entity hproper.1 hr
    have hnext := hproper.2 v names₁ hr
    obtain ⟨-, rfl⟩ := Prod.mk.inj (Option.some.inj (hr.symm.trans (request_of_entity he)))
    obtain ⟨es, known', hfollow⟩ := ih hnext hrest
    exact ⟨e :: es, known', follow_cons.mpr ⟨e, es, he, hfollow, rfl⟩⟩

theorem proper_of_follow (h : follow rs known = some (es, known')) :
    Proper rs (known.map Entity.name) := by
  induction rs generalizing known es with
  | nil => exact trivial
  | cons r rs ih =>
    obtain ⟨e, es', he, hrest, rfl⟩ := follow_cons.mp h
    refine ⟨?_, fun v names' hr => ?_⟩
    · rintro kind v rfl
      refine isType_iff.mpr ?_
      simp only [Request.entity] at he
      split at he
      case h_1 place hv => exact ⟨place, hv⟩
      case h_2 => cases he
    · obtain ⟨-, rfl⟩ := Prod.mk.inj (Option.some.inj ((request_of_entity he).symm.trans hr))
      exact ih hrest

end

theorem map_defaultEntities : defaultEntities.map Entity.name = defaultVariableNames := rfl

/-- Two requests return the same variable exactly when they ask for the same entity, the entity of a
variable stays the same, and so does its name. -/
theorem run_identity {reqs : List Request} {vs : List ℕ} {names : List (List Char)}
    (h : run reqs defaultVariableNames = some (vs, names))
    (hproper : Proper reqs defaultVariableNames) :
    ∃ es known, follow reqs defaultEntities = some (es, known) ∧ vs.length = es.length ∧
      (∀ (i j v w : ℕ) (e f : Entity), vs[i]? = some v → vs[j]? = some w → es[i]? = some e →
        es[j]? = some f → (v = w ↔ e = f)) ∧
      (∀ (i v : ℕ) (e : Entity), vs[i]? = some v → es[i]? = some e →
        known[v]? = some e ∧ names[v]? = some e.name) ∧
      ∀ n, ∃ vs₁ names₁, run (reqs.take n) defaultVariableNames = some (vs₁, names₁) ∧
        names₁ <+: names := by
  rw [← map_defaultEntities] at h hproper
  obtain ⟨es, known, hfollow⟩ := exists_follow hproper h
  obtain ⟨rfl, rfl⟩ := Prod.mk.inj (Option.some.inj (h.symm.trans (run_of_follow hfollow)))
  have hmem := (follow_spec hfollow).2
  have hvar : ∀ {i v : ℕ} {e : Entity}, (es.map known.idxOf)[i]? = some v → es[i]? = some e →
      v = known.idxOf e := by
    intro i v e hv he
    rw [List.getElem?_map, he] at hv
    exact (Option.some.inj hv).symm
  have hknown : ∀ {i : ℕ} {e : Entity}, es[i]? = some e → known[known.idxOf e]? = some e := fun he =>
    List.getElem?_idxOf (hmem _ (List.mem_of_getElem? he))
  refine ⟨es, known, hfollow, List.length_map _, ?_, ?_, fun n => ?_⟩
  · intro i j v w e f hv hw he hf
    rw [hvar hv he, hvar hw hf]
    exact List.idxOf_inj (hmem e (List.mem_of_getElem? he))
  · intro i v e hv he
    rw [hvar hv he, List.getElem?_map, hknown he]
    exact ⟨rfl, rfl⟩
  · obtain ⟨es₁, known₁, htake, hpre⟩ := follow_take hfollow n
    rw [← map_defaultEntities]
    exact ⟨_, _, run_of_follow htake, hpre.map Entity.name⟩

/-- The registers of a program and those saved for a frame, a variable twice and a loop. -/
def someRequests : List Request :=
  [.reg .svalues 6, .stackFrameVar .types 6 "3".toList, .kindVar .svalues 114, .reg .svalues 6,
    .loopCounter ⟨"3".toList, 5, -1, false⟩]

theorem run_identity_someRequests : ∃ vs names es known,
    run someRequests defaultVariableNames = some (vs, names) ∧
      follow someRequests defaultEntities = some (es, known) ∧ vs.length = es.length := by
  have hproper : Proper someRequests (defaultEntities.map Entity.name) := proper_of_follow rfl
  obtain ⟨es, known, hfollow, hlen, -⟩ := @run_identity someRequests _ _ rfl hproper
  exact ⟨_, _, es, known, rfl, hfollow, hlen⟩

example : (run someRequests defaultVariableNames).map Prod.fst = some [60, 114, 115, 60, 116] := rfl

/-! ## The variables of a program -/

/-- The prefix of a frame: the label of the last call, with the prefix of the frames around it. -/
def frameText (f : Frame) : List Char :=
  f.foldl (fun pre call => TextLabel.print ⟨pre, call.1, call.2, false⟩) []

theorem print_ne_nil (l : TextLabel) : l.print ≠ [] := by
  rcases l.print_cases with ⟨-, hp⟩ | ⟨-, hp⟩ | hp <;> rw [hp]
  · decide
  · decide
  · obtain ⟨c, hc, -⟩ := l.exists_digit_mem_tail
    exact List.ne_nil_of_mem (List.mem_append_right _ hc)

theorem frameText_concat (f : Frame) (call : ℤ ×ₗ ℤ) :
    frameText (f ++ [call]) = TextLabel.print ⟨frameText f, call.1, call.2, false⟩ :=
  List.foldl_append

theorem frameText_injective {f g : Frame} (h : frameText f = frameText g) : f = g := by
  induction f using List.reverseRecOn generalizing g with
  | nil =>
    rcases List.eq_nil_or_concat g with rfl | ⟨g, call, rfl⟩
    · rfl
    · rw [List.concat_eq_append, frameText_concat] at h
      exact absurd h.symm (print_ne_nil _)
  | append_singleton f call ih =>
    rcases List.eq_nil_or_concat g with rfl | ⟨g, call', rfl⟩
    · rw [frameText_concat] at h
      exact absurd h (print_ne_nil _)
    · rw [List.concat_eq_append, frameText_concat, frameText_concat] at h
      have hlabel := TextLabel.print_injective h
      rw [ih (congrArg TextLabel.stackFramePrefix hlabel),
        Prod.ext (congrArg TextLabel.src hlabel) (congrArg TextLabel.dst hlabel),
        List.concat_eq_append]

def placeOf : Location → Place
  | .reg i => .reg i
  | .cell offset size => .cell offset size
  | .saved i f => .saved i (frameText f)

theorem placeOf_injective {l l' : Location} (h : placeOf l = placeOf l') : l = l' := by
  cases l <;> cases l' <;> simp only [placeOf, Place.reg.injEq, Place.cell.injEq, Place.saved.injEq,
    Nat.cast_inj, reduceCtorEq] at h
  · rw [h]
  · rw [h.1, h.2]
  · rw [h.1, frameText_injective h.2]

def labelText (l : Label) : TextLabel := ⟨frameText l.stackFramePrefix, l.src, l.dst, l.special⟩

theorem kindVar_of_name {kind : DataKind} {place : Place} :
    (uptoLast '.' (Entity.var .types place).name).getD [] ++ kind.nameOf =
      (Entity.var kind place).name := by
  rw [kindVar_name, name_var kind, Option.getD_some, List.append_assoc, List.singleton_append]

/-- The names as the variables of a program, with the locations in `more` in use besides the
registers. -/
def programVariables (more : List Location) : ProgramVariables (List Char) where
  typeVariables := ((List.range 12).map Location.reg ++ more).map fun l =>
    (Entity.var .types (placeOf l)).name
  typeReg i := regName .types i
  packetSize := Entity.packetSize.name
  loopCounters := []
  kindVar kind v := (uptoLast '.' v).getD [] ++ kind.nameOf
  kindVar_inj v hv v' hv' k k' h := by
    obtain ⟨l, -, rfl⟩ := List.mem_map.mp hv
    obtain ⟨l', -, rfl⟩ := List.mem_map.mp hv'
    rw [kindVar_of_name, kindVar_of_name] at h
    obtain ⟨rfl, hplace⟩ := Entity.var.inj (Entity.name_injective h)
    rw [hplace]
    exact ⟨rfl, rfl⟩
  typeVar l := (Entity.var .types (placeOf l)).name
  metaOffset := Entity.metaOffset.name
  loopCounter l := (Entity.loopCounter (labelText l)).name
  typeReg_eq _ := rfl
  kindVar_types _ := kindVar_of_name
  kindVar_eq h := by
    rw [kindVar_of_name, kindVar_of_name] at h
    obtain ⟨rfl, hplace⟩ := Entity.var.inj (Entity.name_injective h)
    exact ⟨rfl, placeOf_injective hplace⟩
  packetSize_ne _ _ h := by
    rw [kindVar_of_name] at h
    cases Entity.name_injective h
  metaOffset_ne _ _ h := by
    rw [kindVar_of_name] at h
    cases Entity.name_injective h
  metaOffset_ne_packetSize h := by cases Entity.name_injective h
  location v hv := by
    obtain ⟨l, -, rfl⟩ := List.mem_map.mp hv
    exact ⟨l, rfl⟩
  reg_mem i hi := by
    refine List.mem_map_of_mem (List.mem_append_left _ (List.mem_map_of_mem ?_))
    exact List.mem_range.mpr (Nat.lt_succ_of_le hi)

end VarRegistry

end Prevail
