import Prevail.Crab.MapQueries
import Prevail.Crab.SafeAccess

/-!
# What an accepted key or value points to

The size of a key or value is that of all maps that the descriptor may refer to. Its bytes are looked up
in the bitset of the stack by a range that is cut to the stack first, and its end in the packet is
compared with the greatest size of a packet. So what is accepted is right when the bytes are in the stack
and in the packet at hand, and only then (`keyValueSafe_iff`).
-/

namespace Prevail

open AddBottom TypeToNumDomain ProgramVariables EbpfDomain

variable {V : Type} [LinearOrder V] {R : ProgramVariables V} {info : ProgramInfo}
  {opts : VerifierOptions} {d : EbpfDomain V} {τ : V → TypeEncoding} {σ σ' : V → ℤ} {r : Reg}
  {accessReg mapFdReg : Reg} {key : Bool} {m : MapDescriptor}

/-- The size of a key or of a value. -/
def MapDescriptor.entrySize (key : Bool) (m : MapDescriptor) : ℕ := if key then m.keySize else m.valueSize

/-- The register holds the descriptor of the map. -/
def RefersTo (R : ProgramVariables V) (info : ProgramInfo) (τ : V → TypeEncoding) (σ : V → ℤ) (r : Reg)
    (m : MapDescriptor) : Prop :=
  τ (R.regType r) = .map ∧ info.platform.getMapDescriptor (σ (R.reg .mapFds r)) = some m

/-- In every concrete state the register points to the bytes of a key or value of the map, and to numbers
if it points to the stack. -/
def KeyValueSafe (R : ProgramVariables V) (info : ProgramInfo) (d : EbpfDomain V)
    (accessReg mapFdReg : Reg) (key : Bool) : Prop :=
  ∀ (τ : V → TypeEncoding) (σ : V → ℤ) (bytes : Set ℕ) (m : MapDescriptor),
    d.rcp.Models R.toVariableRegistry τ σ → d.stack.Admits bytes → RefersTo R info τ σ mapFdReg m →
      PointsTo R τ σ accessReg (m.entrySize key) ∧
      (τ (R.regType accessReg) = .stack → ∀ i : ℕ, σ (R.reg .stackOffsets accessReg) ≤ i →
        i < σ (R.reg .stackOffsets accessReg) + m.entrySize key → i ∈ bytes)

/-- The values of the state keep `n` bytes within the stack, when the register may point there, and before
the end of the packet, when it may point there. -/
def StaysInside (R : ProgramVariables V) (d : TypeToNumDomain V) (accessReg mapFdReg : Reg) (n : ℤ) :
    Prop :=
  ∀ τ σ, d.types.Models τ → d.values.Models σ → τ (R.regType mapFdReg) = .map →
    (τ (R.regType accessReg) = .stack → 0 ≤ σ (R.reg .stackOffsets accessReg) ∧
      σ (R.reg .stackOffsets accessReg) + n ≤ totalStackSize) ∧
    (τ (R.regType accessReg) = .packet → σ (R.reg .packetOffsets accessReg) + n ≤ σ R.packetSize)

/-! ## The maps -/

/-- A size that is found is that of every map in the range, and every descriptor has a map. -/
theorem entrySize_of_getMapField {field : MapDescriptor → ℕ} {size : Interval} {n : ℤ}
    (hsize : d.getMapField R info field mapFdReg = some size) (hn : size.singleton = some n) :
    ∀ fd ∈ mapFds R d mapFdReg, ∃ m, info.platform.getMapDescriptor fd = some m ∧ field m = n := by
  have hlooked : LookedAt (mapFds R d mapFdReg) := by
    by_contra hnot
    unfold getMapField at hsize
    rw [getMapFdRange_of_not_lookedAt hnot] at hsize
    obtain rfl := Option.some.inj hsize
    cases hn
  obtain ⟨fds, hfds, hmem, -⟩ := getMapFdRange_of_lookedAt hlooked
  have hpassed : ∀ fd ∈ mapFds R d mapFdReg, ∃ m, Passed info fd m := fun fd hfd =>
    passed_of_getMapField hsize hfds fd ((hmem fd).mpr hfd)
  have hexact : HullExact info field (mapFds R d mapFdReg) (d.getMapField R info field mapFdReg) :=
    hullExact_getMapField hlooked hpassed
  obtain ⟨s, hs, hhull, -⟩ := hexact
  obtain rfl := Option.some.inj (hsize.symm.trans hs)
  intro fd hfd
  obtain ⟨m, hm, -⟩ := hpassed fd hfd
  refine ⟨m, hm, Interval.eq_of_singleton hn ((hhull ⟨hlooked, fun fd hfd => ?_⟩).mem _ ?_)⟩
  · obtain ⟨m', hm', -⟩ := hpassed fd hfd
    exact ⟨m', hm'⟩
  · exact ⟨fd, hfd, m, hm, rfl⟩

/-! ## The check -/

namespace EbpfChecker

open Except LinearExpression

variable {a : Assertion}

/-- The check of a key or value knows its size, and is made for the type of the register. -/
theorem exists_width_of_validMapKeyValue (hd : d.rcp.types.inv.WF) (hτ : d.rcp.types.Models τ)
    (h : (validMapKeyValue R info opts d a accessReg mapFdReg key).Succeeds) : ∃ (n : ℤ) (fdType : _),
      (∀ fd ∈ mapFds R d mapFdReg, ∃ m, info.platform.getMapDescriptor fd = some m ∧
        m.entrySize key = n) ∧
      (validMapKeyValueAs R info opts d a accessReg mapFdReg key fdType n
        (τ (R.regType accessReg))).Succeeds := by
  unfold validMapKeyValue at h
  obtain ⟨fdType, -, h⟩ := succeeds_ask_bind.mp h
  obtain ⟨size, hsize, h⟩ := succeeds_ask_bind.mp h
  cases hn : size.singleton with
  | none =>
    rw [hn] at h
    exact absurd h (not_succeeds_throwFail _ _)
  | some n =>
    rw [hn] at h
    obtain ⟨width, hwidth, h⟩ := succeeds_ask_bind.mp h
    obtain ⟨-, rfl⟩ := narrowS_eq_some.mp hwidth
    refine ⟨n, fdType, ?_, succeeds_of_enumerateTypes hd hτ (not_succeeds_throwFail _ _) h⟩
    cases key with
    | true => exact entrySize_of_getMapField hsize hn
    | false => exact entrySize_of_getMapField hsize hn

/-- What is accepted for the type that the register has, when it stays inside the stack and the packet. -/
theorem pointsTo_of_succeeds {n : ℤ} {fdType : Option (BitVec 32)} {bytes : Set ℕ} (hd : d.rcp.WF)
    (hs : Stands R d.rcp τ σ σ') (hbytes : d.stack.Admits bytes)
    (hstack : τ (R.regType accessReg) = .stack → 0 ≤ σ' (R.reg .stackOffsets accessReg) ∧
      σ' (R.reg .stackOffsets accessReg) + n ≤ totalStackSize)
    (hpacket : τ (R.regType accessReg) = .packet →
      σ' (R.reg .packetOffsets accessReg) + n ≤ σ' R.packetSize)
    (h : (validMapKeyValueAs R info opts d a accessReg mapFdReg key fdType n
      (τ (R.regType accessReg))).Succeeds) :
    PointsTo R τ σ accessReg n ∧
    (τ (R.regType accessReg) = .stack → ∀ i : ℕ, σ (R.reg .stackOffsets accessReg) ≤ i →
      i < σ (R.reg .stackOffsets accessReg) + n → i ∈ bytes) := by
  unfold PointsTo
  cases htype : τ (R.regType accessReg) <;> rw [htype] at h
  case stack =>
    have hoffset := hs.kind (show (.stack, [.stackOffsets, .stackNumericSizes]) ∈ typeToKinds by decide)
      List.mem_cons_self htype
    have hin := hstack htype
    rw [hoffset] at hin
    refine ⟨hin, fun _ i hlow hhigh => ?_⟩
    obtain ⟨numeric, hnumeric, h⟩ := succeeds_ask_bind.mp h
    have hoff := AddBottom.mem_evalInterval hs.values (.var (R.reg .stackOffsets accessReg))
    rw [eval_var, hoffset] at hoff
    cases numeric with
    | true =>
      -- the range that is looked at has every byte, since all are on the stack
      obtain ⟨⟨lb, ub⟩, hrange, hall⟩ := Option.bind_eq_some_iff.mp hnumeric
      have htouch : Touches _ (.const n) i := ⟨_, hoff, n, Interval.mem_const.mpr rfl, hlow, hhigh⟩
      have hi : i < totalStackSize := by omega
      have hbetween := htouch.between hrange hi
      exact hbytes i (BitsetDomain.marked_of_allNum (Option.some.inj hall) hbetween.1 hbetween.2 hi)
    | false =>
      have hfalse := sat_of_requireValue hd.values hs.values h
      exact absurd (eval_const σ' 0) hfalse
  case packet =>
    have hoffset := hs.kind (show (.packet, [.packetOffsets]) ∈ typeToKinds by decide)
      List.mem_cons_self htype
    have hin := hpacket htype
    obtain ⟨hlow, -⟩ := succeeds_andThen.mp h
    have hlow := sat_of_requireValue hd.values hs.values hlow
    rw [sat_ge, eval_var, eval_var, hs.packet (Or.inr rfl), hoffset] at hlow
    rw [hoffset, hs.packet (Or.inl rfl)] at hin
    exact ⟨⟨hlow, hin⟩, fun h => nomatch h⟩
  case shared =>
    have hentry : (.shared, [.sharedOffsets, .sharedRegionSizes]) ∈ typeToKinds := by decide
    have hoffset := hs.kind hentry List.mem_cons_self htype
    have hregion := hs.kind hentry (List.mem_cons_of_mem _ List.mem_cons_self) htype
    obtain ⟨haccess, hnull⟩ := succeeds_andThen.mp h
    obtain ⟨hlow, hhigh⟩ := bounds_of_checkAccessShared hd.values hs.values haccess
    have hpos := sat_of_requireValue hd.values hs.values hnull
    rw [sat_gt, eval_const, eval_var, hs.number (Or.inl rfl)] at hpos
    rw [eval_var, hoffset] at hlow
    rw [eval_plusConst, eval_var, hoffset, hregion] at hhigh
    exact ⟨⟨by omega, hlow, hhigh⟩, fun h => nomatch h⟩
  all_goals exact absurd h (not_succeeds_throwFail _ _)

end EbpfChecker

open EbpfChecker Except LinearExpression in
/-- A key or value that is accepted is where it should be exactly when it stays inside the stack and the
packet. -/
theorem keyValueSafe_iff (hd : d.rcp.WF)
    (h : (ebpfDomainCheck R info opts d (.validMapKeyValue accessReg mapFdReg key)).Succeeds) :
    KeyValueSafe R info d accessReg mapFdReg key ↔
      ∀ fd ∈ mapFds R d mapFdReg, ∀ m, info.platform.getMapDescriptor fd = some m →
        StaysInside R d.rcp accessReg mapFdReg (m.entrySize key) := by
  constructor
  · intro hsafe fd hfd m hm τ σ hτ hσ hmap
    have hmodels : d.rcp.Models R.toVariableRegistry τ σ := ⟨hτ, σ, fun _ _ => rfl, hσ⟩
    rw [ebpfDomainCheck_eq (isBottom_of_models hmodels)] at h
    obtain ⟨n, fdType, hsize, -⟩ := exists_width_of_validMapKeyValue hd.types hτ h
    have hmem := AddBottom.mem_evalInterval hσ (.var (R.reg .mapFds mapFdReg))
    rw [eval_var] at hmem
    -- all maps in the range have entries of one size
    obtain ⟨m', hm', hn'⟩ := hsize _ hmem
    obtain ⟨m'', hm'', hn⟩ := hsize fd hfd
    obtain rfl := Option.some.inj (hm''.symm.trans hm)
    have hin := (hsafe τ σ {i | d.stack.numBytes.Marked i} m' hmodels (fun _ hi => hi) ⟨hmap, hm'⟩).1
    unfold PointsTo at hin
    rw [hn'] at hin
    rw [hn]
    constructor
    · intro htype
      rwa [htype] at hin
    · intro htype
      rw [htype] at hin
      exact hin.2
  · intro hstay τ σ bytes m hmodels hbytes hrefers
    obtain ⟨hmap, hm⟩ := hrefers
    rw [ebpfDomainCheck_eq (isBottom_of_models hmodels)] at h
    obtain ⟨hτ, σ', hagree, hσ'⟩ := hmodels
    have hs : Stands R d.rcp τ σ σ' := ⟨hτ, hagree, hσ'⟩
    obtain ⟨n, fdType, hsize, has⟩ := exists_width_of_validMapKeyValue hd.types hτ h
    have hmem := AddBottom.mem_evalInterval hσ' (.var (R.reg .mapFds mapFdReg))
    rw [eval_var, hs.kind (e := (.map, [.mapFds])) (by decide) (by decide) hmap] at hmem
    obtain ⟨m', hm', hn⟩ := hsize _ hmem
    obtain rfl := Option.some.inj (hm'.symm.trans hm)
    obtain ⟨hstack, hpacket⟩ := hstay _ hmem m' hm τ σ' hτ hσ' hmap
    rw [hn] at hstack hpacket ⊢
    exact pointsTo_of_succeeds hd hs hbytes hstack hpacket has

/-- A platform with one map, whose keys and values have eight bytes. -/
def wordMapInfo : ProgramInfo :=
  { nullableInfo with
    platform := { nullablePlatform with
      getMapDescriptor := fun fd => if fd = 1 then some ⟨1, 8, 8, 1, 0⟩ else none } }

/-- The map in `r1`, and in `r2` a pointer at the offset `n`, in a packet of four bytes or on a stack
whose bytes are not known. -/
def pointerState (type : TypeEncoding) (n : ℤ) : EbpfDomain ProgramVariables.Name :=
  let R := ProgramVariables.named []
  ⟨⟨⟨setAll AddBottom.top [(R.regType 1, .const TypeEncoding.map.toInt),
      (R.regType 2, .const type.toInt)]⟩,
    setAll AddBottom.top [(R.reg .mapFds 1, .const 1), (R.reg .stackOffsets 2, .const n),
      (R.reg .packetOffsets 2, .const n), (R.metaOffset, .const 0), (R.packetSize, .const 4)]⟩, .top⟩

theorem wf_pointerState (type : TypeEncoding) (n : ℤ) : (pointerState type n).rcp.WF :=
  ⟨wf_setAll wf_top, wf_setAll wf_top⟩

/-- The check accepts the key and the value of the map at the pointer. -/
def AcceptsPointer (type : TypeEncoding) (n : ℤ) (key : Bool) : Prop :=
  (ebpfDomainCheck (.named []) wordMapInfo ⟨false, true, false⟩ (pointerState type n)
    (.validMapKeyValue 2 1 key)).Succeeds

instance (type : TypeEncoding) (n : ℤ) (key : Bool) : Decidable (AcceptsPointer type n key) := by
  unfold AcceptsPointer Except.Succeeds
  infer_instance

theorem acceptsPointer : AcceptsPointer .packet 0 false ∧ AcceptsPointer .stack 4096 true := by
  decide +kernel

/-- The types and the values of a state with these pointers. -/
def pointerTypes (type : TypeEncoding) (v : ProgramVariables.Name) : TypeEncoding :=
  if v = (named []).regType 1 then .map else if v = (named []).regType 2 then type else .uninit

def pointerValues (n : ℤ) (v : ProgramVariables.Name) : ℤ :=
  if v = (named []).reg .mapFds 1 then 1
  else if v = (named []).reg .stackOffsets 2 ∨ v = (named []).reg .packetOffsets 2 then n
  else if v = (named []).packetSize then 4 else 0

/-- The value would end behind the packet. -/
theorem keyValueSafe_iff_packet :
    KeyValueSafe (.named []) wordMapInfo (pointerState .packet 0) 2 1 false ↔
      ∀ fd ∈ mapFds (.named []) (pointerState .packet 0) 1, ∀ m,
        wordMapInfo.platform.getMapDescriptor fd = some m →
          StaysInside (.named []) (pointerState .packet 0).rcp 2 1 (m.entrySize false) :=
  keyValueSafe_iff (wf_pointerState .packet 0) acceptsPointer.1

theorem not_pointsTo {type : TypeEncoding} {n : ℤ} {key : Bool}
    (hτ : (pointerState type n).rcp.types.Models (pointerTypes type))
    (hσ : (pointerState type n).rcp.values.Models (pointerValues n))
    (hnot : ¬ PointsTo (.named []) (pointerTypes type) (pointerValues n) 2 8) :
    ¬ KeyValueSafe (.named []) wordMapInfo (pointerState type n) 2 1 key := by
  intro hsafe
  have hpoints := (hsafe (pointerTypes type) (pointerValues n) Set.univ ⟨1, 8, 8, 1, 0⟩
    ⟨hτ, pointerValues n, fun _ _ => rfl, hσ⟩ (fun _ _ => trivial) ⟨rfl, rfl⟩).1
  cases key with
  | false => exact hnot hpoints
  | true => exact hnot hpoints

/-- A value that ends behind the packet, and a key at the end of the stack, are accepted. -/
theorem not_keyValueSafe :
    (AcceptsPointer .packet 0 false ∧
      ¬ KeyValueSafe (.named []) wordMapInfo (pointerState .packet 0) 2 1 false) ∧
    AcceptsPointer .stack 4096 true ∧
      ¬ KeyValueSafe (.named []) wordMapInfo (pointerState .stack 4096) 2 1 true := by
  refine ⟨⟨acceptsPointer.1, not_pointsTo (models_setAll_top (by decide))
    (models_setAll_top (by decide)) ?_⟩, acceptsPointer.2, not_pointsTo
      (models_setAll_top (by decide)) (models_setAll_top (by decide)) ?_⟩
  · rintro ⟨-, hend⟩
    exact absurd hend (by decide)
  · rintro ⟨-, hend⟩
    exact absurd hend (by decide)

end Prevail
