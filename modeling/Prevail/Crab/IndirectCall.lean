import Prevail.Crab.TransformCall
import Prevail.Isa.Decoded

/-!
# Indirect calls

An indirect call whose register holds the number of a helper is checked by making the call of the
helper and checking its assertions, and it is carried out as that call. The call is made without the
frame that a direct call gets when its function is inlined. The frame only matters to `ValidCall`,
which refuses the helpers that may not return inside of a function. So the indirect call is the direct
one but for these helpers (`likeDirect_iff`).
-/

namespace Prevail

open Except

variable {V : Type} [LinearOrder V] {R : ProgramVariables V} {info : ProgramInfo}
  {opts : VerifierOptions} {dom : EbpfDomain V} {label : Label} {func : Reg} {n : BitVec 32}
  {c : CallInfo} {f : Frame} {a a' : Assertion}

namespace EbpfChecker

@[simp] theorem not_succeeds_throwFail (a : Assertion) (msg : String) :
    ¬ (throwFail a msg).Succeeds := not_succeeds_error

@[simp] theorem succeeds_require {b : Bool} {msg : String} :
    (require a b msg).Succeeds ↔ b = true := by
  cases b <;> simp [require]

@[simp] theorem succeeds_requireValue {l : LinearConstraint V} {msg : String} :
    (requireValue dom a l msg).Succeeds ↔ dom.rcp.values.entail l = true := succeeds_require

@[simp] theorem succeeds_ask_bind {α : Type} {o : Option α} {g : α → Except CheckError Unit} :
    (ask o >>= g).Succeeds ↔ ∃ x, o = some x ∧ (g x).Succeeds := by
  cases o <;> simp [ask, succeeds_bind]

/-! ## What decides a check -/

theorem succeeds_checkAccessPacket_iff (a a' : Assertion) {lb ub : LinearExpression V}
    {packetSize : Option V} : (checkAccessPacket R dom a lb ub packetSize).Succeeds ↔
      (checkAccessPacket R dom a' lb ub packetSize).Succeeds := by
  unfold checkAccessPacket
  cases packetSize <;> simp

/-- The check of an access does not look at the depth, and the assertion is only reported. -/
theorem succeeds_validAccess_iff (a a' : Assertion) (s : ValidAccess) (depth : ℕ) :
    (validAccess R info dom a { s with callStackDepth := depth }).Succeeds ↔
      (validAccess R info dom a' s).Succeeds := by
  have htype : ∀ type, (validAccessAs R info dom a { s with callStackDepth := depth } type).Succeeds ↔
      (validAccessAs R info dom a' s type).Succeeds := by
    intro type
    cases type with
    | packet => exact succeeds_checkAccessPacket_iff a a'
    | _ =>
      simp [validAccessAs, checkAccessStack, checkAccessContext, checkAccessShared, lbUbAccessPair,
        apply_ite Succeeds]
  unfold validAccess
  rw [succeeds_ask_bind, succeeds_ask_bind]
  refine exists_congr fun types => and_congr Iff.rfl ?_
  rw [succeeds_forM, succeeds_forM]
  exact forall₂_congr fun type _ => htype type

theorem succeeds_visit_validAccess (s : ValidAccess) (depth : ℕ) :
    (visit R info opts dom (.validAccess { s with callStackDepth := depth })).Succeeds ↔
      (visit R info opts dom (.validAccess s)).Succeeds :=
  succeeds_validAccess_iff _ _ s depth

/-- Only the assertion of an indirect call is checked through others. -/
theorem visitWith_congr (sub sub' : Assertion → Except CheckError Unit)
    (h : ∀ r, a ≠ .funcConstraint r) :
    visitWith R info opts dom sub a = visitWith R info opts dom sub' a := by
  cases a with
  | funcConstraint r => exact absurd rfl (h r)
  | _ => rfl

end EbpfChecker

/-! ## The assertions of a call -/

namespace AssertExtractor

theorem argSingle_ne_funcConstraint {mapFdReg : Option Reg} {arg : ArgSingle}
    {res : List Assertion × Option Reg} (h : argSingle info mapFdReg arg = some res) :
    ∀ a ∈ res.1, ∀ r, a ≠ .funcConstraint r := by
  rintro a ha r rfl
  unfold argSingle zeroOffsetCtx at h
  cases hkind : arg.kind <;> simp only [hkind] at h
  case ptrToMapKey | ptrToMapValue =>
    obtain ⟨fd, -, h⟩ := Option.bind_eq_some_iff.mp h
    obtain rfl := Option.some.inj h
    simp at ha
  all_goals
    obtain rfl := Option.some.inj h
    revert ha
    simp

theorem argSingles_ne_funcConstraint {args : List ArgSingle} {l : List Assertion}
    (h : argSingles info args = some l) : ∀ a ∈ l, ∀ r, a ≠ .funcConstraint r := by
  unfold argSingles at h
  obtain ⟨res, hres, h⟩ := Option.bind_eq_some_iff.mp h
  obtain rfl := Option.some.inj h
  refine Option.foldlM_induction (fun res : List Assertion × Option Reg =>
    ∀ a ∈ res.1, ∀ r, a ≠ .funcConstraint r) hres (by simp) fun arg _ res res' hold hstep => ?_
  obtain ⟨new, hnew, hstep⟩ := Option.bind_eq_some_iff.mp hstep
  obtain rfl := Option.some.inj hstep
  intro a ha
  exact (List.mem_append.mp ha).elim (hold a) (argSingle_ne_funcConstraint hnew a)

theorem call_ne_funcConstraint {l : List Assertion} {label : Option Label}
    (h : AssertExtractor.call info label c f = some l) : ∀ a ∈ l, ∀ r, a ≠ .funcConstraint r := by
  unfold AssertExtractor.call at h
  obtain ⟨singles, hsingles, hl⟩ := Option.bind_eq_some_iff.mp h
  obtain rfl := Option.some.inj hl
  intro a ha r heq
  subst heq
  rcases List.mem_append.mp ha with ha | ha
  · rcases List.mem_cons.mp ha with ha | ha
    · cases ha
    · exact argSingles_ne_funcConstraint hsingles _ ha r rfl
  · obtain ⟨arg, -, ha⟩ := List.mem_flatMap.mp ha
    simp [argPair, makeValidAccess] at ha

end AssertExtractor

/-- The assertions could be made and the state satisfies them. -/
def Accepts (R : ProgramVariables V) (info : ProgramInfo) (opts : VerifierOptions)
    (dom : EbpfDomain V) (asserts : Option (List Assertion)) : Prop :=
  ∃ l, asserts = some l ∧ ∀ a ∈ l, (ebpfDomainCheck R info opts dom a).Succeeds

/-- The check of a state that is not empty. -/
theorem ebpfDomainCheck_eq (hdom : dom.isBottom = false) (a : Assertion) :
    ebpfDomainCheck R info opts dom a = EbpfChecker.visit R info opts dom a := by
  unfold ebpfDomainCheck
  rw [hdom]
  rfl

/-- A call is checked by its first assertion, those of its single arguments and those of its pairs. -/
theorem accepts_call (label : Option Label) (f : Frame) :
    Accepts R info opts dom (getAssertions (.call c f) info label) ↔
      (ebpfDomainCheck R info opts dom (.validCall c.func f)).Succeeds ∧
        (∃ l, AssertExtractor.argSingles info c.singles = some l ∧
          ∀ a ∈ l, (ebpfDomainCheck R info opts dom a).Succeeds) ∧
        ∀ arg ∈ c.pairs, ∀ a ∈ AssertExtractor.argPair label arg,
          (ebpfDomainCheck R info opts dom a).Succeeds := by
  have hcall : getAssertions (.call c f) info label =
      (AssertExtractor.argSingles info c.singles).map fun l =>
        .validCall c.func f :: l ++ c.pairs.flatMap (AssertExtractor.argPair label) := by
    show AssertExtractor.call info label c f = _
    unfold AssertExtractor.call
    cases AssertExtractor.argSingles info c.singles <;> rfl
  rw [hcall]
  unfold Accepts
  cases AssertExtractor.argSingles info c.singles with
  | none => simp
  | some l =>
    simp only [Option.map_some, Option.some.injEq, exists_eq_left', List.cons_append,
      List.forall_mem_cons, List.forall_mem_append, List.mem_flatMap]
    exact and_congr_right fun _ => and_congr_right fun _ =>
      ⟨fun h arg harg a ha => h a ⟨arg, harg, ha⟩, fun h a ⟨arg, harg, ha⟩ => h arg harg a ha⟩

/-- The frame of a direct call only matters to the first of its assertions. -/
theorem accepts_call_iff (hdom : dom.isBottom = false) (label : Option Label) (f : Frame) :
    Accepts R info opts dom (getAssertions (.call c f) info label) ↔
      (f = [] ∨ (info.platform.getHelperPrototype c.func).returnType ≠ .integerOrNoReturnIfSucceed) ∧
        Accepts R info opts dom (getAssertions (.call c []) info none) := by
  have hvalid : ∀ f : Frame, (ebpfDomainCheck R info opts dom (.validCall c.func f)).Succeeds ↔
      (f = [] ∨ (info.platform.getHelperPrototype c.func).returnType ≠
        .integerOrNoReturnIfSucceed) := by
    intro f
    rw [ebpfDomainCheck_eq hdom]
    show (EbpfChecker.validCall info _ c.func f).Succeeds ↔ _
    unfold EbpfChecker.validCall
    split_ifs with h <;> simp at h ⊢ <;> tauto
  have hpair : ∀ arg : ArgPair, (∀ a ∈ AssertExtractor.argPair label arg,
        (ebpfDomainCheck R info opts dom a).Succeeds) ↔
      ∀ a ∈ AssertExtractor.argPair none arg, (ebpfDomainCheck R info opts dom a).Succeeds := by
    intro arg
    simp only [AssertExtractor.argPair, AssertExtractor.makeValidAccess, List.forall_mem_cons,
      ebpfDomainCheck_eq hdom]
    refine and_congr_right fun _ => and_congr_right fun _ => and_congr_right fun _ => ?_
    exact and_congr (EbpfChecker.succeeds_visit_validAccess ⟨1, arg.mem, 0, .inl arg.size,
      arg.orNull, if arg.kind = .ptrToReadableMem then .read else .write⟩ _) Iff.rfl
  rw [accepts_call, accepts_call, hvalid, hvalid, forall₂_congr fun arg _ => hpair arg]
  simp

/-! ## Indirect calls -/

/-- The register holds the number `n` and nothing else. -/
structure IsHelperId (R : ProgramVariables V) (dom : EbpfDomain V) (func : Reg) (n : BitVec 32) :
    Prop where
  number : dom.rcp.types.isInGroup (R.regType func) .number = true
  single : (dom.rcp.values.evalInterval (.var (R.reg .svalues func))).singleton = some n.toInt

/-- The program may call helper `n` by `c`. -/
structure Callable (info : ProgramInfo) (n : BitVec 32) (c : CallInfo) : Prop where
  usable : info.platform.isHelperUsable n = true
  made : Unmarshaller.makeCall info.platform.toPlatform n = .ok c

theorem IsHelperId.not_isBottom (h : IsHelperId R dom func n) : dom.isBottom = false := by
  have hsingle := h.single
  cases hv : dom.rcp.values with
  | none =>
    rw [hv] at hsingle
    cases hsingle
  | some d =>
    show dom.rcp.values.isNone = false
    rw [hv]
    rfl

/-- An indirect call of a known helper is checked like the call in the main program. -/
theorem accepts_callx_iff (hid : IsHelperId R dom func n) (hc : Callable info n c) :
    Accepts R info opts dom (getAssertions (.other (.callx func)) info (some label)) ↔
      Accepts R info opts dom (getAssertions (.call c []) info none) := by
  have hcheck : ∀ a, ebpfDomainCheck R info opts dom a = EbpfChecker.visit R info opts dom a :=
    fun a => ebpfDomainCheck_eq hid.not_isBottom a
  have hfunc : (ebpfDomainCheck R info opts dom (.funcConstraint func)).Succeeds ↔
      ∃ l, getAssertions (.call c []) info none = some l ∧
        ∀ a ∈ l, (ebpfDomainCheck R info opts dom a).Succeeds := by
    rw [hcheck]
    show (EbpfChecker.funcConstraint R info dom _ _ func).Succeeds ↔ _
    unfold EbpfChecker.funcConstraint
    rw [if_neg (by rw [show dom.rcp.isBottom = false from hid.not_isBottom]; simp), hid.single]
    simp only [BitVec.ofInt_toInt]
    rw [if_neg (not_not.mpr (fitsS_toInt n)), if_neg (by simp [hc.usable]), hc.made]
    simp only [EbpfChecker.succeeds_ask_bind, succeeds_forM]
    refine exists_congr fun l => and_congr_right fun hl => forall₂_congr fun a ha => ?_
    rw [hcheck, EbpfChecker.visit]
    rw [EbpfChecker.visitWith_congr _ _ (AssertExtractor.call_ne_funcConstraint hl a ha)]
  have htype : (ebpfDomainCheck R info opts dom (.typeConstraint func .number)).Succeeds := by
    rw [hcheck]
    exact EbpfChecker.succeeds_require.mpr hid.number
  show Accepts R info opts dom (some [_, _]) ↔ _
  unfold Accepts
  simp [htype, hfunc]

/-- An indirect call of a known helper is carried out as the call of this helper. -/
theorem callx_eq (hid : IsHelperId R dom func n) (hc : Callable info n c) :
    EbpfTransformer.callx R info opts func dom = EbpfTransformer.call R info opts c dom := by
  unfold EbpfTransformer.callx
  rw [if_neg (by rw [hid.not_isBottom]; simp), hid.single]
  simp only [BitVec.ofInt_toInt]
  rw [if_neg (not_not.mpr (fitsS_toInt n)), if_neg (by simp [hc.usable]), hc.made]

/-- At a label, the indirect call is accepted when the direct call is, and does the same then. -/
structure LikeDirect (R : ProgramVariables V) (info : ProgramInfo) (opts : VerifierOptions)
    (label : Label) (func : Reg) (c : CallInfo) (dom : EbpfDomain V) : Prop where
  accepts : Accepts R info opts dom (getAssertions (.other (.callx func)) info (some label)) ↔
    Accepts R info opts dom (getAssertions (.call c label.stackFramePrefix) info (some label))
  post : Accepts R info opts dom (getAssertions (.other (.callx func)) info (some label)) →
    EbpfTransformer.callx R info opts func dom = EbpfTransformer.call R info opts c dom

/-- An indirect call is like the direct one unless the helper may not return, the call is inside of a
function, and the arguments are fine. -/
theorem likeDirect_iff (hid : IsHelperId R dom func n) (hc : Callable info n c) :
    LikeDirect R info opts label func c dom ↔ label.stackFramePrefix = [] ∨
      (info.platform.getHelperPrototype n).returnType ≠ .integerOrNoReturnIfSucceed ∨
        ¬ Accepts R info opts dom (getAssertions (.call c []) info none) := by
  have hfunc : c.func = n := makeCall_func hc.made
  have hlike : LikeDirect R info opts label func c dom ↔
      (Accepts R info opts dom (getAssertions (.call c []) info none) ↔
        Accepts R info opts dom
          (getAssertions (.call c label.stackFramePrefix) info (some label))) := by
    have hcallx : Accepts R info opts dom (getAssertions (.other (.callx func)) info (some label)) ↔ _ :=
      accepts_callx_iff hid hc
    rw [← hcallx]
    exact ⟨fun h => h.accepts, fun h => ⟨h, fun _ => callx_eq hid hc⟩⟩
  rw [hlike, accepts_call_iff hid.not_isBottom (some label) label.stackFramePrefix, hfunc]
  tauto

/-- A platform with two helpers: number 12 is a tail call, which does not return when it succeeds. -/
def tailCallPlatform : MapPlatform where
  supportsGroup _ := true
  isHelperUsable n := n = 5 ∨ n = 12
  getHelperPrototype n :=
    if n = 12 then
      ⟨"tail_call", .integerOrNoReturnIfSucceed,
        (.ptrToCtx, .ptrToMapOfPrograms, .anything, .dontcare, .dontcare), false⟩
    else
      ⟨"ktime_get_ns", .integer, (.dontcare, .dontcare, .dontcare, .dontcare, .dontcare), false⟩
  getMapDescriptor _ := none
  getMapType _ := ⟨false, .any⟩

def tailCallInfo : ProgramInfo := ⟨tailCallPlatform, false, ⟨0, -1, -1, -1⟩⟩

def ktimeGetNs : CallInfo := ⟨5, "ktime_get_ns", false, false, [], []⟩

def tailCall : CallInfo :=
  ⟨12, "tail_call", false, false,
    [⟨.ptrToCtx, false, 1⟩, ⟨.mapFdPrograms, false, 2⟩, ⟨.anything, false, 3⟩], []⟩

/-- The arguments of a tail call in `r1` to `r3`, and the number `n` in `r4`. -/
def helperState (n : ℤ) : EbpfDomain ProgramVariables.Name :=
  let R := ProgramVariables.named []
  let types := [(1, TypeEncoding.ctx), (2, .mapPrograms), (3, .num), (4, .num)]
  ⟨⟨⟨types.foldl (fun x e => x.assignInt (R.regType e.1) e.2.toInt) AddBottom.top⟩,
    (AddBottom.top.assignInt (R.reg .ctxOffsets 1) 0).assignInt (R.reg .svalues 4) n⟩, .top⟩

theorem isHelperId_helperState : IsHelperId (.named []) (helperState 5) 4 5 ∧
    IsHelperId (.named []) (helperState 12) 4 12 :=
  ⟨⟨by decide, by decide⟩, ⟨by decide, by decide⟩⟩

theorem callable_tailCall : Callable tailCallInfo 5 ktimeGetNs ∧ Callable tailCallInfo 12 tailCall :=
  ⟨⟨rfl, rfl⟩, ⟨rfl, rfl⟩⟩

/-- The label of an instruction in a function. -/
def calledLabel : Label := (Label.ofIndex 7).inFrame (Label.ofIndex 0).frame

theorem likeDirect_iff_ktimeGetNs :
    LikeDirect (.named []) tailCallInfo ⟨false, true, false⟩ calledLabel 4 ktimeGetNs
        (helperState 5) ↔
      calledLabel.stackFramePrefix = [] ∨
        (tailCallInfo.platform.getHelperPrototype 5).returnType ≠ .integerOrNoReturnIfSucceed ∨
          ¬ Accepts (.named []) tailCallInfo ⟨false, true, false⟩ (helperState 5)
            (getAssertions (.call ktimeGetNs []) tailCallInfo none) :=
  likeDirect_iff isHelperId_helperState.1 callable_tailCall.1

/-- In a function, the indirect tail call is accepted and the direct one is not. -/
theorem not_likeDirect_tailCall :
    ¬ LikeDirect (.named []) tailCallInfo ⟨false, true, false⟩ calledLabel 4 tailCall
      (helperState 12) := by
  have hid := isHelperId_helperState.2
  intro h
  have hmain : Accepts (.named []) tailCallInfo ⟨false, true, false⟩ (helperState 12)
      (getAssertions (.call tailCall []) tailCallInfo none) := by
    refine ⟨[.validCall 12 [], .typeConstraint 1 .ctx, .zeroCtxOffset 1 false,
      .typeConstraint 2 .mapFdPrograms, .typeConstraint 3 .number], rfl, ?_⟩
    simp only [List.forall_mem_cons]
    exact ⟨⟨(), rfl⟩, ⟨(), by decide⟩, ⟨(), by decide⟩, ⟨(), by decide⟩, ⟨(), by decide⟩, by simp⟩
  have hdirect := h.accepts.mp ((accepts_callx_iff hid callable_tailCall.2).mpr hmain)
  rw [accepts_call_iff hid.not_isBottom] at hdirect
  rcases hdirect.1 with hframe | hreturn
  · exact absurd hframe (by decide)
  · exact hreturn rfl

end Prevail
