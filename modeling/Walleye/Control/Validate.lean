import Walleye.Control.State

namespace Walleye.Control

open Walleye.Base Walleye.Base.BTreeMap
open Walleye.Bitr (ReplicaError)
open Walleye.Engine (u64Max)

section Tail

variable {ι : Type}

def trailingOpen (segments : List (StreamSegment ι)) : Bool :=
  segments.getLast?.any (·.endLsn.isNone)

theorem trailingOpen_last (h : trailingOpen segments)
    {segment : StreamSegment ι} (hs : segments[i]? = some segment)
    (hi : segments.length ≤ i + 1) : segment.endLsn = none := by
  have hl : i < segments.length := (List.getElem?_eq_some_iff.mp hs).1
  have hla : segments.getLast? = some segment := by
    rw [List.getLast?_eq_getElem?,show segments.length - 1 = i by omega,hs]
  simpa [trailingOpen,hla] using h

end Tail

variable {ι : Type} [LinearOrder ι] (naming : ControlNaming ι)

section Members

def validateNode (id url : ι) : Except ReplicaError Unit :=
  if naming.blank id then .error (.nodeStorage "replica node id must not be empty")
  else match naming.urlForm url with
    | .malformed => .error (.nodeStorage "replica node URL is invalid")
    | .unsupported => .error (.nodeStorage "replica node URL must be http or https")
    | .http => .ok ()

def validateMemberEntries (urls : List ι) :
    List (ι × DurableMember ι) → Except ReplicaError Unit
  | [] => .ok ()
  | (id, member) :: rest =>
    if id ≠ member.id ∨ naming.blank member.id then
      .error (.nodeStorage "direct membership id is invalid")
    else (validateNode naming member.id member.url).bind fun _ =>
      if member.url ∈ urls then .error (.nodeStorage "direct membership URLs must be unique")
      else validateMemberEntries (member.url :: urls) rest

def validateMembersState (members : BTreeMap ι (DurableMember ι)) : Except ReplicaError Unit :=
  validateMemberEntries naming [] members.toList

theorem validateMemberEntries_key (h : validateMemberEntries naming urls entries = .ok ()) :
    ∀ entry ∈ entries, entry.1 = entry.2.id := by
  induction entries generalizing urls with
  | nil => simp
  | cons entry rest ih =>
    simp only [validateMemberEntries,guard_ok,Except.bind_eq_ok] at h
    obtain ⟨hi,-,-,-,hr⟩ := h
    intro e he
    cases List.mem_cons.mp he with
    | inl heq =>
      subst heq
      by_contra hn
      exact hi (.inl hn)
    | inr he => exact ih hr e he

theorem validateMembersState_key (h : validateMembersState naming members = .ok ()) {id : ι}
    (hme : members[id]? = some member) : member.id = id := by
  have hm := Std.ExtTreeMap.mem_toList_iff_getElem?_eq_some.mpr hme
  exact (validateMemberEntries_key naming h _ hm).symm

end Members

section Ranges

def validateSegmentBinding (state : DurableControlState ι) (manifestRevision : Nat)
    (segment : StreamSegment ι) : Except ReplicaError Unit :=
  if manifestRevision < segment.manifestRevision then .error .lsnConflict
  else if segment.memberIds = [] then
    if 0 < manifestRevision then .error .lsnConflict else .ok ()
  else match state.cohorts[segment.cohortId]? with
    | none => .error .lsnConflict
    | some cohort =>
      if ¬segment.memberIds.IsChain (· < ·) ∨ segment.memberIds.length ≠ replicationFactor ∨
          cohort.members ≠ segment.memberIds ∨ segment.memberHash = naming.empty ∨
          (0 < manifestRevision ∧
            (segment.manifestRevision = 0 ∨ naming.blank segment.operationId)) then
        .error .lsnConflict
      else if cohortMemberHash naming state segment.cohortId ≠ some segment.memberHash then
        .error .lsnConflict
      else if (segment.tier ≠ naming.empty ∧ cohort.tier ≠ naming.empty ∧
            segment.tier ≠ cohort.tier) ∨
          (segment.maxAppendBytes ≠ 0 ∧ cohort.maxAppendBytes ≠ 0 ∧
            segment.maxAppendBytes ≠ cohort.maxAppendBytes) then
        .error .lsnConflict
      else .ok ()

/-- The ranges of a stream from one on, after a range that ends at `previousEnd`; the first
range of the stream starts at LSN 1. -/
def validateSegmentsFrom (state : DurableControlState ι) (manifestRevision : Nat)
    (first : Bool) (previousEnd : Nat) : List (StreamSegment ι) → Except ReplicaError Unit
  | [] => .ok ()
  | segment :: rest =>
    if segment.startLsn = 0 ∨ (∃ last ∈ segment.endLsn, last < segment.startLsn) ∨
        segment.startLsn ≤ previousEnd ∨ (first ∧ segment.startLsn ≠ 1) ∨
        (segment.endLsn = none ∧ rest ≠ []) ∨ state.cohorts[segment.cohortId]? = none then
      .error (.nodeStorage
        "direct stream segment map is unordered or references an unknown cohort")
    else (validateSegmentBinding naming state manifestRevision segment).bind fun _ =>
      validateSegmentsFrom state manifestRevision false (segment.endLsn.getD u64Max) rest

def validateManifestSegments (state : DurableControlState ι) (segments : StreamRanges ι)
    (manifestRevision : Nat) : Except ReplicaError Unit :=
  segments.toList.forM fun (stream, ranges) =>
    if naming.blank stream then
      .error (.nodeStorage "stream segment map contains an empty stream")
    else validateSegmentsFrom naming state manifestRevision true 0 ranges

/-- The next range stands for the previous one; what the previous one leaves open may be
filled in. -/
def sameIdentity (old new : StreamSegment ι) : Prop :=
  old.startLsn = new.startLsn ∧ old.cohortId = new.cohortId ∧
    (old.memberIds = [] ∨ old.memberIds = new.memberIds) ∧
    (old.memberHash = naming.empty ∨ old.memberHash = new.memberHash) ∧
    (old.writerEpoch = 0 ∨ old.writerEpoch = new.writerEpoch) ∧
    (old.operationId = naming.empty ∨ old.operationId = new.operationId) ∧
    (old.tier = naming.empty ∨ old.tier = new.tier) ∧
    (old.maxAppendBytes = 0 ∨ old.maxAppendBytes = new.maxAppendBytes)

instance (old new : StreamSegment ι) : Decidable (sameIdentity naming old new) :=
  inferInstanceAs (Decidable (_ ∧ _ ∧ _ ∧ _ ∧ _ ∧ _ ∧ _ ∧ _))

/-- The ranges a stream keeps, against the ranges it gets in their place. -/
def validateRetained : List (StreamSegment ι) → List (StreamSegment ι) → Except ReplicaError Unit
  | [], _ => .ok ()
  | _ :: _, [] => .error .lsnConflict
  | old :: olds, new :: news =>
    if ¬sameIdentity naming old new then .error .lsnConflict
    else match old.endLsn with
      | some last =>
        if new.endLsn ≠ some last then .error .lsnConflict else validateRetained olds news
      | none =>
        if new.endLsn ≠ none ∧ news = [] then .error .lsnConflict else validateRetained olds news

def validateStreamTransition (old : List (StreamSegment ι))
    (new : Option (List (StreamSegment ι))) : Except ReplicaError Unit :=
  match new with
  | none => if trailingOpen old ∧ old.length = 1 then .ok () else .error .lsnConflict
  | some new =>
    let retained := if trailingOpen old ∧ new.length + 1 = old.length then old.dropLast else old
    if new.length < retained.length then .error .lsnConflict
    else validateRetained naming retained new

def validateManifestTransition (previous next : StreamRanges ι) : Except ReplicaError Unit :=
  previous.toList.forM fun (stream, old) => validateStreamTransition naming old next[stream]?

/-- Where the open ranges of a stream end in the ranges that follow, if they do. A dropped
range is a cutover just below it. -/
def closedTails (old new : List (StreamSegment ι)) : List Nat :=
  (old.zipIdx.filter fun entry => entry.1.endLsn.isNone).filterMap fun (segment, index) =>
    match new[index]? with
    | some next => next.endLsn
    | none => some (segment.startLsn - 1)

def validateManifestCutover (previous next : StreamRanges ι) (cutoverLsn : Option Nat) :
    Except ReplicaError Unit :=
  match previous.toList.flatMap fun (stream, old) => closedTails old (next[stream]?.getD []) with
  | [] => if cutoverLsn ≠ none then .error .lsnConflict else .ok ()
  | [closed] => if cutoverLsn ≠ some closed then .error .lsnConflict else .ok ()
  | _ :: _ :: _ => .error .lsnConflict

def Keeps (old new : StreamSegment ι) : Prop :=
  sameIdentity naming old new ∧ ∀ last ∈ old.endLsn, new.endLsn = some last

variable {naming}

theorem validateRetained_keeps (h : validateRetained naming olds news = .ok ()) {i : Nat}
    (ho : olds[i]? = some old) : ∃ new, news[i]? = some new ∧ Keeps naming old new := by
  induction olds generalizing news i with
  | nil => simp at ho
  | cons a olds ih =>
    cases news with
    | nil => cases h
    | cons b news =>
      simp only [validateRetained,guard_ok,not_not] at h
      obtain ⟨hs,h⟩ := h
      cases ha : a.endLsn with
      | none =>
        simp only [ha,guard_ok] at h
        cases i with
        | zero =>
          cases ho
          exact ⟨b,rfl,hs,by simp [ha]⟩
        | succ i => exact ih h.2 ho
      | some last =>
        simp only [ha,guard_ok,not_not] at h
        cases i with
        | zero =>
          cases ho
          exact ⟨b,rfl,hs,by simp [ha,h.1]⟩
        | succ i => exact ih h.2 ho

theorem validateStreamTransition_keeps
    {new : Option (List (StreamSegment ι))} (h : validateStreamTransition naming old new = .ok ())
    {i : Nat} (ha : old[i]? = some a) :
    (∃ b, (new.getD [])[i]? = some b ∧ Keeps naming a b) ∨
      (a.endLsn = none ∧ (new.getD []).length ≤ i) := by
  cases new with
  | none =>
    have ho : trailingOpen old ∧ old.length = 1 := by
      by_contra hn
      simp [validateStreamTransition,hn] at h
    exact .inr ⟨trailingOpen_last ho.1 ha (by omega),by simp⟩
  | some new =>
    simp only [validateStreamTransition,guard_ok] at h
    by_cases hd : trailingOpen old ∧ new.length + 1 = old.length
    · simp only [if_pos hd] at h
      by_cases hi : i < new.length
      · have hk : old.dropLast[i]? = some a := by
          rw [List.getElem?_dropLast,if_pos (by omega),ha]
        exact .inl (validateRetained_keeps h.2 hk)
      · refine .inr ⟨trailingOpen_last hd.1 ha (by omega),?_⟩
        simpa using hi
    · simp only [if_neg hd] at h
      exact .inl (validateRetained_keeps h.2 ha)

theorem validateManifestTransition_stream
    (h : validateManifestTransition naming previous next = .ok ()) {stream : ι}
    (ho : previous[stream]? = some old) :
    validateStreamTransition naming old next[stream]? = .ok () :=
  forM_eq_ok.mp h _ (Std.ExtTreeMap.mem_toList_iff_getElem?_eq_some.mpr ho)

variable {state other : DurableControlState ι}

theorem cohortMemberHash_congr
    (hm : other.members = state.members) (hc : other.cohorts = state.cohorts) :
    cohortMemberHash naming other = cohortMemberHash naming state := by
  funext cohortId
  simp only [cohortMemberHash,memberSetHash,hm,hc]

theorem validateSegmentBinding_congr
    (hm : other.members = state.members) (hc : other.cohorts = state.cohorts)
    (revision : Nat) (segment : StreamSegment ι) :
    validateSegmentBinding naming other revision segment =
      validateSegmentBinding naming state revision segment := by
  simp only [validateSegmentBinding,cohortMemberHash_congr hm hc,hc]

theorem validateSegmentsFrom_congr
    (hm : other.members = state.members) (hc : other.cohorts = state.cohorts)
    (revision : Nat) (first : Bool) (previousEnd : Nat) (segments : List (StreamSegment ι)) :
    validateSegmentsFrom naming other revision first previousEnd segments =
      validateSegmentsFrom naming state revision first previousEnd segments := by
  induction segments generalizing first previousEnd with
  | nil => rfl
  | cons segment rest ih =>
    simp only [validateSegmentsFrom,validateSegmentBinding_congr hm hc,hc,ih]

theorem validateManifestSegments_congr
    (hm : other.members = state.members) (hc : other.cohorts = state.cohorts)
    (ranges : StreamRanges ι) (revision : Nat) :
    validateManifestSegments naming other ranges revision =
      validateManifestSegments naming state ranges revision := by
  simp only [validateManifestSegments,validateSegmentsFrom_congr hm hc]

theorem validateManifestSegments_stream
    (h : validateManifestSegments naming state ranges revision = .ok ())
     (hs : ranges[stream]? = some segments) :
    naming.blank stream = false ∧
      validateSegmentsFrom naming state revision true 0 segments = .ok () := by
  have he := forM_eq_ok.mp h _ (Std.ExtTreeMap.mem_toList_iff_getElem?_eq_some.mpr hs)
  simpa only [guard_ok,Bool.not_eq_true] using he

end Ranges

section State

def validateWriteCohort (state : DurableControlState ι) (writeCohortId : Nat) :
    Except ReplicaError Unit :=
  if writeCohortId = 0 then .ok ()
  else match state.cohorts[writeCohortId]? with
    | none => .error .lsnConflict
    | some cohort =>
      if cohort.status ≠ .active ∨ cohort.members.length ≠ replicationFactor ∨
          ∃ id ∈ cohort.members, (state.members[id]?.map (·.status)) ≠ some .active then
        .error .quorumUnavailable
      else .ok ()

def validateControlMember (state : DurableControlState ι) (cohortId : Nat) (memberId : ι) :
    Except ReplicaError Unit :=
  match state.members[memberId]? with
  | none => .error (.nodeStorage "cohort references an unknown member")
  | some member =>
    if member.cohortId ≠ cohortId then
      .error (.nodeStorage "member and cohort identities disagree")
    else .ok ()

def validateControlCohort (state : DurableControlState ι) (entry : Nat × DurableCohort ι) :
    Except ReplicaError Unit :=
  let (id, cohort) := entry
  if cohort.id ≠ id ∨ cohort.members = [] ∨ replicationFactor < cohort.members.length ∨
      ¬cohort.members.IsChain (· < ·) then
    .error (.nodeStorage "invalid direct replica cohort definition")
  else (cohort.members.forM (validateControlMember state id)).bind fun _ =>
    if cohort.status = .active ∧ (cohort.members.length ≠ replicationFactor ∨
        cohort.members.countP (fun m => state.members[m]?.map (·.status) = some .active) ≠
          replicationFactor) then
      .error .quorumUnavailable
    else if cohort.status = .retired ∧
        ∃ segment ∈ allSegments state.streamSegments,
          segment.cohortId = id ∧ segment.endLsn = none then
      .error (.protocol "cohort cannot drain or retire while an owned stream range is open")
    else .ok ()

def validateControlState (state : DurableControlState ι) : Except ReplicaError Unit :=
  (validateMembersState naming state.members).bind fun _ =>
  (state.cohorts.toList.forM (validateControlCohort state)).bind fun _ =>
  if ∃ member ∈ state.members.valuesOf,
      (state.cohorts.valuesOf.flatMap (·.members)).count member.id ≠ 1 then
    .error (.nodeStorage "direct member is not assigned to exactly one cohort")
  else
    (validateManifestSegments naming state state.streamSegments state.manifestRevision).bind fun _ =>
    if state.manifestRevision = 0 ∧ state.manifestDigest ≠ naming.empty then
      .error (.nodeStorage "manifest digest exists without a manifest revision")
    else if 0 < state.manifestRevision ∧
        state.manifestDigest ≠ naming.manifestDigest state.streamSegments then
      .error (.nodeStorage "manifest digest does not match its segments")
    else validateWriteCohort state state.writeCohortId

def validateManifestAgainstState (state : DurableControlState ι) (manifest : ReplicaManifest ι) :
    Except ReplicaError Unit :=
  (manifest.validate naming.toNaming).bind fun _ =>
  if manifest.revision ≠ state.manifestRevision ∨ (0 < manifest.revision ∧
      manifest.digest ≠ naming.manifestDigest state.streamSegments) then
    .error (.protocol
      "placement manifest revision or digest is inconsistent with control state")
  else if manifest.revision = 0 then .ok ()
  else
    let binding := manifestMetadataForState naming state state.streamSegments
    if manifest.writerEpoch ≠ binding.writerEpoch ∨ manifest.cohortId ≠ binding.cohortId ∨
        manifest.memberSetHash ≠ binding.memberHash ∨
        manifest.writeCohortId ≠ state.writeCohortId then
      .error (.protocol "placement manifest cohort binding is inconsistent with control state")
    else if (manifest.tier, manifest.maxAppendBytes) ≠
        manifestPolicyForState naming state manifest.streamSegments manifest.cohortId then
      .error (.protocol "placement manifest capacity policy is inconsistent with control state")
    else validateManifestSegments naming state manifest.streamSegments manifest.revision

def DurableControlState.manifest (state : DurableControlState ι) :
    Except ReplicaError (ReplicaManifest ι) :=
  (validateManifestAgainstState naming state (manifestFromState naming state)).map
    fun _ => manifestFromState naming state

structure ValidCohort (state : DurableControlState ι) (id : Nat) (cohort : DurableCohort ι) :
    Prop where
  id_eq : cohort.id = id
  nonempty : cohort.members ≠ []
  size : cohort.members.length ≤ replicationFactor
  sorted : cohort.members.IsChain (· < ·)
  known : ∀ memberId ∈ cohort.members,
    ∃ member, state.members[memberId]? = some member ∧ member.cohortId = id
  active : cohort.status = .active → cohort.members.length = replicationFactor ∧
    cohort.members.countP (fun m => state.members[m]?.map (·.status) = some .active) =
      replicationFactor
  retired : cohort.status = .retired →
    ∀ segment ∈ allSegments state.streamSegments, segment.cohortId = id → segment.endLsn ≠ none

structure ValidControl (state : DurableControlState ι) : Prop where
  members : validateMembersState naming state.members = .ok ()
  cohorts : ∀ (id : Nat) (cohort : DurableCohort ι),
    state.cohorts[id]? = some cohort → ValidCohort state id cohort
  assigned : ∀ member ∈ state.members.valuesOf,
    (state.cohorts.valuesOf.flatMap (·.members)).count member.id = 1
  segments :
    validateManifestSegments naming state state.streamSegments state.manifestRevision = .ok ()
  noDigest : state.manifestRevision = 0 → state.manifestDigest = naming.empty
  digest : 0 < state.manifestRevision →
    state.manifestDigest = naming.manifestDigest state.streamSegments
  writeCohort : validateWriteCohort state state.writeCohortId = .ok ()

variable {naming}

variable {state : DurableControlState ι}

theorem validateControlMember_eq_ok
    : validateControlMember state cohortId memberId = .ok () ↔
      ∃ member, state.members[memberId]? = some member ∧ member.cohortId = cohortId := by
  unfold validateControlMember
  cases h : state.members[memberId]? with
  | none => simp
  | some member => simp

theorem validateControlCohort_eq_ok {id : Nat} :
    validateControlCohort state (id,cohort) = .ok () ↔ ValidCohort state id cohort := by
  simp only [validateControlCohort,guard_ok,Except.bind_eq_ok,not_or,not_not,not_and,
    not_lt,not_exists,and_true]
  constructor
  · intro h
    obtain ⟨⟨hi,hn,hs,hso⟩,u,hk,ha,hr⟩ := h
    refine ⟨hi,hn,hs,hso,?_,ha,hr⟩
    intro memberId hm
    exact validateControlMember_eq_ok.mp (forM_eq_ok.mp hk memberId hm)
  · intro h
    refine ⟨⟨h.id_eq,h.nonempty,h.size,h.sorted⟩,(),?_,h.active,h.retired⟩
    apply forM_eq_ok.mpr
    intro memberId hm
    exact validateControlMember_eq_ok.mpr (h.known memberId hm)

theorem validateControlState_eq_ok :
    validateControlState naming state = .ok () ↔ ValidControl naming state := by
  simp only [validateControlState,guard_ok,Except.bind_eq_ok,not_exists,not_and,not_not]
  constructor
  · intro h
    obtain ⟨u,hm,v,hcoh,ha,w,hs,hz,hd,hw⟩ := h
    refine ⟨hm,?_,ha,hs,hz,hd,hw⟩
    intro id cohort hc
    have he := Std.ExtTreeMap.mem_toList_iff_getElem?_eq_some.mpr hc
    exact validateControlCohort_eq_ok.mp (forM_eq_ok.mp hcoh _ he)
  · intro h
    refine ⟨(),h.members,(),?_,h.assigned,(),h.segments,h.noDigest,h.digest,
      h.writeCohort⟩
    apply forM_eq_ok.mpr
    intro entry he
    exact validateControlCohort_eq_ok.mpr
      (h.cohorts _ _ (Std.ExtTreeMap.mem_toList_iff_getElem?_eq_some.mp he))

/-- The check of a document reads these six fields only. -/
theorem ValidControl.congr (h : ValidControl naming state)
    (hm : other.members = state.members) (hcoh : other.cohorts = state.cohorts)
    (hs : other.streamSegments = state.streamSegments)
    (hr : other.manifestRevision = state.manifestRevision)
    (hd : other.manifestDigest = state.manifestDigest)
    (hw : other.writeCohortId = state.writeCohortId) : ValidControl naming other where
  members := hm ▸ h.members
  cohorts id cohort hco := by
    have hc := h.cohorts id cohort (hcoh ▸ hco)
    exact ⟨hc.id_eq,hc.nonempty,hc.size,hc.sorted,hm ▸ hc.known,hm ▸ hc.active,
      hs ▸ hc.retired⟩
  assigned := hm ▸ hcoh ▸ h.assigned
  segments := by
    rw [hs,hr,validateManifestSegments_congr hm hcoh]
    exact h.segments
  noDigest := hr ▸ hd ▸ h.noDigest
  digest := hr ▸ hd ▸ hs ▸ h.digest
  writeCohort := by
    rw [hw,← h.writeCohort]
    simp only [validateWriteCohort,hm,hcoh]

end State

end Walleye.Control
