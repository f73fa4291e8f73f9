import Prevail.Arith.Truncation
import Prevail.Crab.LookupExact

/-!
# Queries about a range of maps

A register may hold each descriptor of a range. The size queries return the least interval with the sizes
of all maps in the range, and the type query their common type. The query for the inner map compares the
inner map of the first map with the types of the others, so that it is right only when this makes no
difference; and no query returns when a descriptor has no map, since the platform throws.
-/

namespace Prevail

open AddBottom TypeToNumDomain Number

namespace EbpfDomain

variable {V : Type} [LinearOrder V] {R : ProgramVariables V} {info : ProgramInfo} {d : EbpfDomain V}
  {reg : Reg} {fds : List ℤ} {fd l u : ℤ} {m : MapDescriptor}

/-! ## The range -/

/-- The descriptors that a register may hold. -/
def mapFds (R : ProgramVariables V) (d : EbpfDomain V) (reg : Reg) : Interval :=
  d.rcp.values.evalInterval (.var (R.reg .mapFds reg))

/-- A range that is looked at: its ends are descriptors, less than 32 apart. -/
def LookedAt (i : Interval) : Prop :=
  ∃ l u, i = ⟨.fin l, .fin u⟩ ∧ FitsS 32 l ∧ FitsS 32 u ∧ u - l < 32

theorem getMapFdRange_of_lookedAt (h : LookedAt (mapFds R d reg)) : ∃ fds,
    d.getMapFdRange R reg = some fds ∧ (∀ fd, fd ∈ fds ↔ fd ∈ mapFds R d reg) ∧ fds.Nodup ∧
      ∀ fd ∈ fds.head?, (mapFds R d reg).lb = .fin fd := by
  obtain ⟨l, u, hi, hl, hu, hsize⟩ := h
  unfold getMapFdRange
  unfold mapFds at hi ⊢
  rw [hi]
  refine ⟨(List.range (u - l + 1).toNat).map fun i : ℕ => l + i, if_pos ⟨hl, hu, hsize⟩, fun fd => ?_, ?_, ?_⟩
  · rw [List.mem_map, Interval.mem_def, Bound.fin_le_fin, Bound.fin_le_fin]
    constructor
    · rintro ⟨i, hi, rfl⟩
      have hlt := List.mem_range.mp hi
      omega
    · rintro ⟨hle, hge⟩
      exact ⟨(fd - l).toNat, List.mem_range.mpr (by omega), by omega⟩
  · exact List.nodup_range.map fun i j hij => by omega
  · intro fd hfd
    cases hn : (u - l + 1).toNat with
    | zero =>
      rw [hn] at hfd
      cases hfd
    | succ n =>
      rw [hn, List.range_succ_eq_map] at hfd
      obtain rfl := Option.some.inj hfd
      simp

theorem getMapFdRange_of_not_lookedAt (h : ¬ LookedAt (mapFds R d reg)) :
    d.getMapFdRange R reg = none := by
  unfold getMapFdRange
  unfold mapFds at h
  rcases hi : d.rcp.values.evalInterval (.var (R.reg .mapFds reg)) with ⟨lb, ub⟩
  rw [hi] at h
  cases lb with
  | negInf => rfl
  | posInf => rfl
  | fin l =>
    cases ub with
    | negInf => rfl
    | posInf => rfl
    | fin u => exact if_neg fun hfits => h ⟨l, u, rfl, hfits⟩

/-! ## Attributes -/

/-- A descriptor that a loop passes. -/
def Passed (info : ProgramInfo) (fd : ℤ) (m : MapDescriptor) : Prop :=
  info.platform.getMapDescriptor fd = some m ∧ fd ≠ maxInt 32

/-- The attribute that is found when the first map is passed. -/
theorem commonAttribute_some (first other : MapDescriptor → BitVec 32) {x : BitVec 32}
    (h : ∀ fd ∈ fds, ∃ m, Passed info fd m) : ∃ res,
      commonAttribute info first other (some x) fds = some res ∧ ∀ t, res = some t ↔
        t = x ∧ ∀ fd ∈ fds, ∀ m, info.platform.getMapDescriptor fd = some m → other m = x := by
  induction fds with
  | nil => exact ⟨some x, rfl, fun t => by simp [eq_comm]⟩
  | cons fd fds ih =>
    obtain ⟨m, hm, hlast⟩ := h fd List.mem_cons_self
    obtain ⟨res, hres, hiff⟩ := ih fun fd' hfd' => h fd' (List.mem_cons_of_mem _ hfd')
    unfold commonAttribute
    by_cases hother : other m = x
    · refine ⟨res, ?_, fun t => ?_⟩
      · rw [hm]
        show (if other m ≠ x then some none else (guard (fd ≠ maxInt 32) : Option Unit).bind fun _ => _) = _
        rw [if_neg (not_not.mpr hother), guard, if_pos hlast]
        exact hres
      · rw [hiff, List.forall_mem_cons]
        refine and_congr_right fun _ => ⟨fun hall => ⟨fun m' hm' => ?_, hall⟩, And.right⟩
        obtain rfl := Option.some.inj (hm.symm.trans hm')
        exact hother
    · refine ⟨none, ?_, fun t => iff_of_false (fun h => Option.some_ne_none t h.symm) fun hall => ?_⟩
      · rw [hm]
        exact if_pos hother
      · exact hother (hall.2 fd List.mem_cons_self m hm)

/-- The attribute that is found in a range. -/
theorem commonAttribute_none (first other : MapDescriptor → BitVec 32)
    (h : ∀ fd ∈ fds, ∃ m, Passed info fd m) : ∃ res,
      commonAttribute info first other none fds = some res ∧ ∀ t, res = some t ↔
        ∃ fd fds', fds = fd :: fds' ∧ (∃ m, info.platform.getMapDescriptor fd = some m ∧ t = first m) ∧
          ∀ fd' ∈ fds', ∀ m', info.platform.getMapDescriptor fd' = some m' → other m' = t := by
  cases fds with
  | nil => exact ⟨none, rfl, fun t => iff_of_false (fun h => nomatch h) fun ⟨_, _, h, _⟩ => nomatch h⟩
  | cons fd fds =>
    obtain ⟨m, hm, hlast⟩ := h fd List.mem_cons_self
    obtain ⟨res, hres, hiff⟩ := commonAttribute_some first other (x := first m)
      fun fd' hfd' => h fd' (List.mem_cons_of_mem _ hfd')
    refine ⟨res, ?_, fun t => ?_⟩
    · unfold commonAttribute
      rw [hm]
      show (guard (fd ≠ maxInt 32) : Option Unit).bind (fun _ => _) = _
      rw [guard, if_pos hlast]
      exact hres
    · rw [hiff]
      constructor
      · rintro ⟨rfl, hall⟩
        exact ⟨fd, fds, rfl, ⟨m, hm, rfl⟩, hall⟩
      · rintro ⟨_, _, hcons, ⟨m', hm', rfl⟩, hall⟩
        obtain ⟨rfl, rfl⟩ := List.cons.inj hcons
        obtain rfl := Option.some.inj (hm.symm.trans hm')
        exact ⟨rfl, hall⟩

/-- The sizes in a range. -/
theorem isHull_foldlM (field : MapDescriptor → ℕ) {i : Interval} {S : ℤ → Prop} (hi : i.IsHull S)
    (h : ∀ fd ∈ fds, ∃ m, Passed info fd m) : ∃ r,
      fds.foldlM (fun result fd => do
        let map ← info.platform.getMapDescriptor fd
        guard (fd ≠ maxInt 32)
        return result.join (.const (field map))) i = some r ∧
      r.IsHull fun k => S k ∨ ∃ fd ∈ fds, ∃ m, info.platform.getMapDescriptor fd = some m ∧ k = field m := by
  induction fds generalizing i S with
  | nil => exact ⟨i, rfl, by simpa using hi⟩
  | cons fd fds ih =>
    obtain ⟨m, hm, hlast⟩ := h fd List.mem_cons_self
    obtain ⟨r, hr, hhull⟩ := ih (hi.join_const (field m)) fun fd' hfd' => h fd' (List.mem_cons_of_mem _ hfd')
    refine ⟨r, ?_, ?_⟩
    · rw [List.foldlM_cons, hm]
      show ((guard (fd ≠ maxInt 32) : Option Unit).bind fun _ => _) >>= _ = _
      rw [guard, if_pos hlast]
      exact hr
    · convert hhull using 2 with k
      simp only [List.mem_cons, exists_eq_or_imp, hm, Option.some.injEq, exists_eq_left', or_assoc]

/-- A size query returns only when all descriptors have maps. -/
theorem passed_of_getMapField {field : MapDescriptor → ℕ} {i : Interval}
    (h : d.getMapField R info field reg = some i) (hfds : d.getMapFdRange R reg = some fds) :
    ∀ fd ∈ fds, ∃ m, Passed info fd m := by
  intro fd hfd
  unfold getMapField at h
  rw [hfds] at h
  obtain ⟨i₁, i₂, hstep⟩ := Option.exists_step_of_foldlM h hfd
  obtain ⟨m, hm, hstep⟩ := Option.bind_eq_some_iff.mp hstep
  refine ⟨m, hm, fun hlast => ?_⟩
  rw [guard, if_neg (not_not.mpr hlast)] at hstep
  cases hstep

/-! ## All queries -/

/-- What a query returns that asks for an attribute that all maps in the range have. -/
def CommonExact (info : ProgramInfo) (attr : MapDescriptor → BitVec 32) (i : Interval)
    (r : Option (Option (BitVec 32))) : Prop :=
  ∃ res, r = some res ∧ ∀ t, res = some t ↔ LookedAt i ∧ (∃ fd, fd ∈ i) ∧
    ∀ fd ∈ i, ∃ m, info.platform.getMapDescriptor fd = some m ∧ attr m = t

/-- What a query returns that asks for the range of an attribute. -/
def HullExact (info : ProgramInfo) (field : MapDescriptor → ℕ) (i : Interval) (r : Option Interval) : Prop :=
  ∃ s, r = some s ∧
    ((LookedAt i ∧ ∀ fd ∈ i, ∃ m, info.platform.getMapDescriptor fd = some m) →
      s.IsHull fun k => ∃ fd ∈ i, ∃ m, info.platform.getMapDescriptor fd = some m ∧ k = field m) ∧
    (¬ (LookedAt i ∧ ∀ fd ∈ i, ∃ m, info.platform.getMapDescriptor fd = some m) → s = .top)

/-- The queries return the attributes of the maps in the range, nothing when these differ, and nothing
or everything when the range is too large or has a descriptor without a map. -/
structure QueriesExact (R : ProgramVariables V) (info : ProgramInfo) (d : EbpfDomain V) (reg : Reg) :
    Prop where
  type : CommonExact info MapDescriptor.type (mapFds R d reg) (d.getMapType R info reg)
  innerMapFd : CommonExact info MapDescriptor.innerMapFd (mapFds R d reg) (d.getMapInnerMapFd R info reg)
  keySize : HullExact info MapDescriptor.keySize (mapFds R d reg) (d.getMapKeySize R info reg)
  valueSize : HullExact info MapDescriptor.valueSize (mapFds R d reg) (d.getMapValueSize R info reg)
  maxEntries : HullExact info MapDescriptor.maxEntries (mapFds R d reg) (d.getMapMaxEntries R info reg)

/-- The types of the maps behind the first are its inner map exactly when their inner maps are. -/
def InnerAgrees (info : ProgramInfo) (i : Interval) : Prop :=
  ∀ l m, i.lb = .fin l → info.platform.getMapDescriptor l = some m →
    ((∀ fd ∈ i, fd ≠ l → ∀ m', info.platform.getMapDescriptor fd = some m' → m'.type = m.innerMapFd) ↔
      ∀ fd ∈ i, ∀ m', info.platform.getMapDescriptor fd = some m' → m'.innerMapFd = m.innerMapFd)

theorem commonExact_of_not_lookedAt {attr : MapDescriptor → BitVec 32} {i : Interval} (h : ¬ LookedAt i) :
    CommonExact info attr i (some none) :=
  ⟨none, rfl, fun _ => iff_of_false (fun h => nomatch h) fun hall => h hall.1⟩

theorem hullExact_of_not_lookedAt {field : MapDescriptor → ℕ} {i : Interval} (h : ¬ LookedAt i) :
    HullExact info field i (some .top) :=
  ⟨.top, rfl, fun hall => absurd hall.1 h, fun _ => rfl⟩

theorem queriesExact_of_not_lookedAt (h : ¬ LookedAt (mapFds R d reg)) : QueriesExact R info d reg := by
  have hrange := getMapFdRange_of_not_lookedAt h
  constructor
  · unfold getMapType
    rw [hrange]
    exact commonExact_of_not_lookedAt h
  · unfold getMapInnerMapFd
    rw [hrange]
    exact commonExact_of_not_lookedAt h
  all_goals
    first | unfold getMapKeySize | unfold getMapValueSize | unfold getMapMaxEntries
    unfold getMapField
    rw [hrange]
    exact hullExact_of_not_lookedAt h

theorem hullExact_getMapField {field : MapDescriptor → ℕ} (h : LookedAt (mapFds R d reg))
    (hpassed : ∀ fd ∈ mapFds R d reg, ∃ m, Passed info fd m) :
    HullExact info field (mapFds R d reg) (d.getMapField R info field reg) := by
  obtain ⟨fds, hfds, hmem, -⟩ := getMapFdRange_of_lookedAt h
  obtain ⟨r, hr, hhull⟩ := isHull_foldlM field
    (Interval.IsHull.bottom (S := fun _ => False) fun _ => id)
    fun fd hfd => hpassed fd ((hmem fd).mp hfd)
  refine ⟨r, ?_, fun _ => ?_, fun hmissing => absurd ⟨h, fun fd hfd => ?_⟩ hmissing⟩
  · unfold getMapField
    rw [hfds]
    exact hr
  · simpa only [false_or, hmem] using hhull
  · obtain ⟨m, hm⟩ := hpassed fd hfd
    exact ⟨m, hm.1⟩

/-- What is found is an attribute of the first map, and the one that is compared of the others. -/
theorem commonAttribute_iff (first other : MapDescriptor → BitVec 32) (h : LookedAt (mapFds R d reg))
    (hpassed : ∀ fd ∈ mapFds R d reg, ∃ m, Passed info fd m) (hfds : d.getMapFdRange R reg = some fds) :
    ∃ res, commonAttribute info first other none fds = some res ∧ ∀ t, res = some t ↔
      ∃ l ∈ mapFds R d reg, (mapFds R d reg).lb = .fin l ∧
        (∃ m, info.platform.getMapDescriptor l = some m ∧ t = first m) ∧
        ∀ fd ∈ mapFds R d reg, fd ≠ l → ∀ m, info.platform.getMapDescriptor fd = some m → other m = t := by
  obtain ⟨fds', hfds', hmem, hnodup, hhead⟩ := getMapFdRange_of_lookedAt h
  obtain rfl := Option.some.inj (hfds.symm.trans hfds')
  obtain ⟨res, hres, hiff⟩ := commonAttribute_none first other
    fun fd hfd => hpassed fd ((hmem fd).mp hfd)
  refine ⟨res, hres, fun t => ?_⟩
  rw [hiff]
  constructor
  · rintro ⟨l, fds, rfl, hfirst, hall⟩
    refine ⟨l, (hmem l).mp List.mem_cons_self, hhead l rfl, hfirst, fun fd hfd hne => ?_⟩
    exact hall fd ((List.mem_cons.mp ((hmem fd).mpr hfd)).resolve_left hne)
  · rintro ⟨l, hl, hlb, hfirst, hall⟩
    cases fds with
    | nil => exact absurd ((hmem l).mpr hl) List.not_mem_nil
    | cons l' fds =>
      obtain rfl : l = l' := Bound.fin.inj (hlb.symm.trans (hhead l' rfl))
      refine ⟨l, fds, rfl, hfirst, fun fd hfd => ?_⟩
      refine hall fd ((hmem fd).mp (List.mem_cons_of_mem _ hfd)) ?_
      rintro rfl
      exact (List.nodup_cons.mp hnodup).1 hfd

/-- An interval that is looked at and has a number has its lower end. -/
theorem exists_first {i : Interval} (h : LookedAt i) (hfd : fd ∈ i) : ∃ l ∈ i, i.lb = .fin l := by
  obtain ⟨l, u, rfl, -⟩ := h
  exact ⟨l, ⟨Bound.le_refl _, Bound.le_trans hfd.1 hfd.2⟩, rfl⟩

/-- A query that compares one attribute. -/
theorem commonExact_commonAttribute {attr : MapDescriptor → BitVec 32} (h : LookedAt (mapFds R d reg))
    (hpassed : ∀ fd ∈ mapFds R d reg, ∃ m, Passed info fd m) (hfds : d.getMapFdRange R reg = some fds) :
    CommonExact info attr (mapFds R d reg) (commonAttribute info attr attr none fds) := by
  obtain ⟨res, hres, hiff⟩ := commonAttribute_iff attr attr h hpassed hfds
  refine ⟨res, hres, fun t => ?_⟩
  rw [hiff]
  constructor
  · rintro ⟨l, hl, -, ⟨m, hm, rfl⟩, hall⟩
    refine ⟨h, ⟨l, hl⟩, fun fd hfd => ?_⟩
    by_cases hne : fd = l
    · exact ⟨m, hne ▸ hm, rfl⟩
    · obtain ⟨m', hm', -⟩ := hpassed fd hfd
      exact ⟨m', hm', hall fd hfd hne m' hm'⟩
  · rintro ⟨-, ⟨fd, hfd⟩, hall⟩
    obtain ⟨l, hl, hlb⟩ := exists_first h hfd
    obtain ⟨m, hm, ht⟩ := hall l hl
    refine ⟨l, hl, hlb, ⟨m, hm, ht.symm⟩, fun fd' hfd' _ m' hm' => ?_⟩
    obtain ⟨m'', hm'', ht'⟩ := hall fd' hfd'
    rwa [Option.some.inj (hm'.symm.trans hm'')]

/-- The query for the inner map, when all maps are passed. -/
theorem commonExact_getMapInnerMapFd_iff (h : LookedAt (mapFds R d reg))
    (hpassed : ∀ fd ∈ mapFds R d reg, ∃ m, Passed info fd m) :
    CommonExact info MapDescriptor.innerMapFd (mapFds R d reg) (d.getMapInnerMapFd R info reg) ↔
      InnerAgrees info (mapFds R d reg) := by
  obtain ⟨fds, hfds, -⟩ := getMapFdRange_of_lookedAt h
  obtain ⟨res, hres, hiff⟩ := commonAttribute_iff MapDescriptor.innerMapFd MapDescriptor.type
    h hpassed hfds
  have hquery : d.getMapInnerMapFd R info reg = some res := by
    unfold getMapInnerMapFd
    rw [hfds]
    exact hres
  constructor
  · rintro ⟨res', hres', hexact⟩ l m hlb hm
    obtain rfl := Option.some.inj (hquery.symm.trans hres')
    by_cases hl : l ∈ mapFds R d reg
    · have hboth := (hiff m.innerMapFd).symm.trans (hexact m.innerMapFd)
      constructor
      · intro hall fd hfd m' hm'
        obtain ⟨-, -, hinner⟩ := hboth.mp ⟨l, hl, hlb, ⟨m, hm, rfl⟩, hall⟩
        obtain ⟨m'', hm'', heq⟩ := hinner fd hfd
        rwa [Option.some.inj (hm'.symm.trans hm'')]
      · intro hall fd hfd hne m' hm'
        have hinner : ∀ fd ∈ mapFds R d reg, ∃ m', info.platform.getMapDescriptor fd = some m' ∧
            m'.innerMapFd = m.innerMapFd := fun fd hfd => by
          obtain ⟨m', hm', -⟩ := hpassed fd hfd
          exact ⟨m', hm', hall fd hfd m' hm'⟩
        obtain ⟨l', hl', hlb', -, htype⟩ := hboth.mpr ⟨h, ⟨l, hl⟩, hinner⟩
        obtain rfl := Bound.fin.inj (hlb.symm.trans hlb')
        exact htype fd hfd hne m' hm'
    · have hempty : ∀ fd, fd ∉ mapFds R d reg := by
        intro fd hfd
        obtain ⟨l', hl', hlb'⟩ := exists_first h hfd
        obtain rfl := Bound.fin.inj (hlb.symm.trans hlb')
        exact hl hl'
      exact iff_of_true (fun fd hfd => absurd hfd (hempty fd)) fun fd hfd => absurd hfd (hempty fd)
  · intro hagrees
    refine ⟨res, hquery, fun t => ?_⟩
    rw [hiff]
    constructor
    · rintro ⟨l, hl, hlb, ⟨m, hm, rfl⟩, hall⟩
      refine ⟨h, ⟨l, hl⟩, fun fd hfd => ?_⟩
      obtain ⟨m', hm', -⟩ := hpassed fd hfd
      exact ⟨m', hm', (hagrees l m hlb hm).mp hall fd hfd m' hm'⟩
    · rintro ⟨-, ⟨fd, hfd⟩, hall⟩
      obtain ⟨l, hl, hlb⟩ := exists_first h hfd
      obtain ⟨m, hm, rfl⟩ := hall l hl
      refine ⟨l, hl, hlb, ⟨m, hm, rfl⟩, (hagrees l m hlb hm).mpr fun fd' hfd' m' hm' => ?_⟩
      obtain ⟨m'', hm'', heq⟩ := hall fd' hfd'
      rwa [Option.some.inj (hm'.symm.trans hm'')]

/-- The queries are exact when the range is not looked at, and otherwise exactly when each descriptor
has a map, the loops end, and comparing types of maps with an inner map makes no difference. -/
theorem queriesExact_iff : QueriesExact R info d reg ↔ (LookedAt (mapFds R d reg) →
    (∀ fd ∈ mapFds R d reg, ∃ m, Passed info fd m) ∧ InnerAgrees info (mapFds R d reg)) := by
  by_cases h : LookedAt (mapFds R d reg)
  swap
  · exact iff_of_true (queriesExact_of_not_lookedAt h) fun hlooked => absurd hlooked h
  obtain ⟨fds, hfds, hmem, -⟩ := getMapFdRange_of_lookedAt h
  constructor
  · intro hexact _
    obtain ⟨i, hi, -⟩ := hexact.keySize
    have hpassed : ∀ fd ∈ mapFds R d reg, ∃ m, Passed info fd m := fun fd hfd =>
      passed_of_getMapField hi hfds fd ((hmem fd).mpr hfd)
    exact ⟨hpassed, (commonExact_getMapInnerMapFd_iff h hpassed).mp hexact.innerMapFd⟩
  · intro hall
    obtain ⟨hpassed, hagrees⟩ := hall h
    refine ⟨?_, (commonExact_getMapInnerMapFd_iff h hpassed).mpr hagrees, hullExact_getMapField h hpassed,
      hullExact_getMapField h hpassed, hullExact_getMapField h hpassed⟩
    unfold getMapType
    rw [hfds]
    exact commonExact_commonAttribute h hpassed hfds

end EbpfDomain

open ProgramVariables EbpfDomain

/-- Two arrays of maps, with one inner map. -/
def arraysOfMaps : ProgramInfo :=
  { twoMapInfo with
    platform := { twoMapPlatform with
      getMapDescriptor := fun fd => if fd = 1 ∨ fd = 2 then some ⟨12, 4, 4, 10, 7⟩ else none } }

/-- The inner map of two arrays is not found, since it is compared with the type of the second one. -/
theorem not_queriesExact_arraysOfMaps :
    ¬ QueriesExact (.named []) arraysOfMaps (lookupState 2) 1 := by
  intro hexact
  have hfds : mapFds (.named []) (lookupState 2) 1 = .ofInts 1 2 := by decide
  have hquery : (lookupState 2).getMapInnerMapFd (.named []) arraysOfMaps 1 = some none := by
    decide
  obtain ⟨res, hres, hiff⟩ := hexact.innerMapFd
  rw [hquery] at hres
  obtain rfl := Option.some.inj hres
  have hcommon := (hiff 7).mpr ⟨⟨1, 2, hfds, by decide, by decide, by decide⟩, ⟨1, ?_⟩, fun fd hfd => ?_⟩
  · cases hcommon
  · rw [hfds]
    exact Interval.mem_ofInts.mpr (by decide)
  · rw [hfds, Interval.mem_ofInts] at hfd
    exact ⟨⟨12, 4, 4, 10, 7⟩, if_pos (by omega), rfl⟩

end Prevail
