import Walleye.Control.Validate

namespace Walleye.Control

open Walleye.Base Walleye.Base.BTreeMap
open Walleye.Bitr (ReplicaError)
open Walleye.Engine (saturatingAdd)

variable {ι : Type} [LinearOrder ι] (naming : ControlNaming ι)

section Normalize

def pendingMembers (members : BTreeMap ι (DurableMember ι)) (current : DurableControlState ι) :
    List ι :=
  (members.toList.filter fun (id, member) =>
    current.members[id]? = none ∧ member.cohortId = 0).map (·.1)

def pendingCohort (current : DurableControlState ι) (pending : Nat) : Nat :=
  let joining := (current.cohorts.valuesOf.filter fun cohort =>
    cohort.status = .joining ∧ cohort.members.length + pending ≤ replicationFactor).map (·.id)
  let fresh := (current.cohorts.toList.getLast?.map fun entry => saturatingAdd entry.1 1).getD 0
  (maxBy (fun a b => a < b) joining).getD fresh

def normalizeMembersForCas (members : BTreeMap ι (DurableMember ι))
    (current : DurableControlState ι) : BTreeMap ι (DurableMember ι) :=
  let known := members.map fun id member =>
    { member with
      cohortId := (current.members[id]?.map (·.cohortId)).getD member.cohortId }
  let pending := pendingMembers known current
  if pending = [] then known
  else known.map fun id member =>
    if id ∈ pending then { member with cohortId := pendingCohort current pending.length }
    else member

end Normalize

section Cohorts

def regroupMembers (state : DurableControlState ι) : BTreeMap ι (DurableMember ι) :=
  if state.cohorts = ∅ ∧ state.members ≠ ∅ ∧ ∀ m ∈ state.members.valuesOf, m.cohortId = 0 then
    state.members.map fun id member =>
      { member with cohortId := state.members.keys.idxOf id / replicationFactor }
  else state.members

def groupMembers (members : BTreeMap ι (DurableMember ι)) (cohortId : Nat) : List ι :=
  ((members.valuesOf.filter (·.cohortId = cohortId)).map (·.id)).insertionSort (· ≤ ·)

def countStatus (members : BTreeMap ι (DurableMember ι)) (status : MemberStatus) (ids : List ι) :
    Nat :=
  ids.countP fun id => members[id]?.map (·.status) = some status

def reconcileStatus (members : BTreeMap ι (DurableMember ι)) (old : Option CohortStatus)
    (ids : List ι) : CohortStatus :=
  let allRemoved := countStatus members .removed ids = ids.length
  match old with
  | some .retired => .retired
  | some .draining => if allRemoved then .retired else .draining
  | _ =>
    if allRemoved then .retired
    else if 0 < countStatus members .draining ids then .draining
    else if ids.length = replicationFactor ∧
        countStatus members .active ids = replicationFactor then .active
    else .joining

def reconcileTier (members : BTreeMap ι (DurableMember ι)) (old : Option (DurableCohort ι))
    (ids : List ι) : ι :=
  ((old.map (·.tier)).filter (· ≠ naming.empty)).getD
    (((ids.filterMap (members[·]?)).map (·.tier)).find? (· ≠ naming.empty) |>.getD naming.empty)

def reconcileLimit (members : BTreeMap ι (DurableMember ι)) (old : Option (DurableCohort ι))
    (ids : List ι) : Nat :=
  ((old.map (·.maxAppendBytes)).filter (· ≠ 0)).getD
    (((ids.filterMap (members[·]?)).map (·.maxAppendBytes)).find? (· ≠ 0) |>.getD 0)

def reconcileCohort (members : BTreeMap ι (DurableMember ι))
    (previous : BTreeMap Nat (DurableCohort ι)) (id : Nat) : DurableCohort ι :=
  let ids := groupMembers members id
  let old := previous[id]?
  { id := id
    members := ids
    status := reconcileStatus members (old.map (·.status)) ids
    tier := reconcileTier naming members old ids
    maxAppendBytes := reconcileLimit members old ids }

def rebuildCohorts (members : BTreeMap ι (DurableMember ι))
    (previous : BTreeMap Nat (DurableCohort ι)) : BTreeMap Nat (DurableCohort ι) :=
  tabulate (members.valuesOf.map (·.cohortId)) (reconcileCohort naming members previous)

def fillMember (cohorts : BTreeMap Nat (DurableCohort ι)) (member : DurableMember ι) :
    DurableMember ι :=
  match cohorts[member.cohortId]? with
  | none => member
  | some cohort =>
    { member with
      tier := if member.tier = naming.empty then cohort.tier else member.tier
      maxAppendBytes :=
        if member.maxAppendBytes = 0 then cohort.maxAppendBytes else member.maxAppendBytes }

def fillSegment (state : DurableControlState ι) (segment : StreamSegment ι) :
    Except ReplicaError (StreamSegment ι) :=
  match state.cohorts[segment.cohortId]? with
  | none => .error (.nodeStorage "stream segment references an unknown cohort")
  | some cohort =>
    let hash : Except ReplicaError ι :=
      if segment.memberHash = naming.empty then
        match cohortMemberHash naming state segment.cohortId with
        | none => .error (.nodeStorage "stream segment cannot resolve its cohort member hash")
        | some hash => .ok hash
      else .ok segment.memberHash
    hash.map fun memberHash =>
      { segment with
        memberIds := if segment.memberIds = [] then cohort.members else segment.memberIds
        memberHash := memberHash
        manifestRevision :=
          if segment.manifestRevision = 0 ∧ state.manifestRevision ≠ 0 then state.manifestRevision
          else segment.manifestRevision
        operationId :=
          if segment.operationId = naming.empty ∧ state.manifestOperationId ≠ naming.empty then
            state.manifestOperationId
          else segment.operationId
        tier := if segment.tier = naming.empty then cohort.tier else segment.tier
        maxAppendBytes :=
          if segment.maxAppendBytes = 0 then cohort.maxAppendBytes else segment.maxAppendBytes }

def migrateManifest (state : DurableControlState ι) : DurableControlState ι :=
  if state.manifestRevision = 0 ∧ state.streamSegments ≠ ∅ then
    let cohortId := ((maxBy (fun a b => a.id < b.id)
      (state.cohorts.valuesOf.filter (·.status = .active))).map (·.id)).getD 0
    { state with
      manifestRevision := 1
      manifestOperationId := naming.manifestMigration
      manifestCohortId := cohortId
      manifestWriterEpoch := ((allSegments state.streamSegments).map (·.writerEpoch)).foldl max 0
      manifestMemberHash := (cohortMemberHash naming state cohortId).getD naming.empty }
  else state

def settleDigest (state : DurableControlState ι) :
    Except ReplicaError (DurableControlState ι) :=
  let canonical := naming.manifestDigest state.streamSegments
  if state.manifestRevision = 0 then .ok state
  else if state.manifestDigest ≠ naming.empty ∧ state.manifestDigest ≠ canonical then
    .error (.nodeStorage "replica placement manifest digest does not match its ranges")
  else .ok { state with
    manifestDigest := canonical
    manifestOperationId :=
      if state.manifestOperationId = naming.empty then naming.manifestMigration
      else state.manifestOperationId
    manifestMemberHash :=
      if state.manifestMemberHash = naming.empty then
        (cohortMemberHash naming state state.manifestCohortId).getD naming.empty
      else state.manifestMemberHash }

def reconcileMembers (state : DurableControlState ι) : DurableControlState ι :=
  let members := regroupMembers state
  let cohorts := rebuildCohorts naming members state.cohorts
  { state with
    cohorts := cohorts
    members := members.map fun _ => fillMember naming cohorts }

def reconcileCohorts (state : DurableControlState ι) :
    Except ReplicaError (DurableControlState ι) :=
  (validateMembersState naming state.members).bind fun _ =>
  let grouped := reconcileMembers naming state
  (grouped.streamSegments.mapValuesM fun segments =>
      segments.mapM (fillSegment naming grouped)).bind fun segments =>
    settleDigest naming (migrateManifest naming { grouped with streamSegments := segments })

variable {state next : DurableControlState ι}

theorem regroupMembers_of_cohorts (h : state.cohorts ≠ ∅) :
    regroupMembers state = state.members := by
  simp [regroupMembers,h]

theorem getElem?_regroupMembers_status (state : DurableControlState ι) (id : ι) :
    (regroupMembers state)[id]?.map (·.status) = state.members[id]?.map (·.status) := by
  unfold regroupMembers
  split
  · rw [Std.ExtTreeMap.getElem?_map,Option.map_map]
    rfl
  · rfl

theorem fillMember_status (cohorts : BTreeMap Nat (DurableCohort ι)) (member : DurableMember ι) :
    (fillMember naming cohorts member).status = member.status := by
  unfold fillMember
  split <;> rfl

theorem fillMember_cohortId (cohorts : BTreeMap Nat (DurableCohort ι))
    (member : DurableMember ι) : (fillMember naming cohorts member).cohortId = member.cohortId := by
  unfold fillMember
  split <;> rfl

theorem reconcileMembers_status (state : DurableControlState ι) (id : ι) :
    (reconcileMembers naming state).members[id]?.map (·.status) =
      state.members[id]?.map (·.status) := by
  rw [reconcileMembers,Std.ExtTreeMap.getElem?_map,Option.map_map,
    ← getElem?_regroupMembers_status]
  congr 1
  funext member
  exact fillMember_status naming _ member

theorem reconcileMembers_cohorts (state : DurableControlState ι) (id : Nat) :
    (reconcileMembers naming state).cohorts[id]? =
      if ∃ member ∈ (regroupMembers state).valuesOf, member.cohortId = id then
        some (reconcileCohort naming (regroupMembers state) state.cohorts id)
      else none := by
  rw [reconcileMembers,rebuildCohorts,getElem?_tabulate]
  simp only [List.mem_map]

variable {naming}

/-- Reconciling changes the members, the cohorts and the manifest's binding only. -/
theorem reconcileCohorts_frame (h : reconcileCohorts naming state = .ok next) :
    ∃ revision digest operationId writerEpoch cohortId memberHash segments,
      next = { reconcileMembers naming state with
        manifestRevision := revision
        manifestDigest := digest
        manifestOperationId := operationId
        manifestWriterEpoch := writerEpoch
        manifestCohortId := cohortId
        manifestMemberHash := memberHash
        streamSegments := segments } := by
  simp only [reconcileCohorts,Except.bind_eq_ok] at h
  obtain ⟨u,-,segments,-,h⟩ := h
  have hm : ∃ revision operationId writerEpoch cohortId memberHash,
      migrateManifest naming { reconcileMembers naming state with streamSegments := segments } =
        { reconcileMembers naming state with
          manifestRevision := revision
          manifestOperationId := operationId
          manifestWriterEpoch := writerEpoch
          manifestCohortId := cohortId
          manifestMemberHash := memberHash
          streamSegments := segments } := by
    unfold migrateManifest
    split
    · exact ⟨_,_,_,_,_,rfl⟩
    · exact ⟨_,_,_,_,_,rfl⟩
  obtain ⟨revision,operationId,writerEpoch,cohortId,memberHash,hm⟩ := hm
  rw [hm] at h
  unfold settleDigest at h
  split at h
  · cases h
    exact ⟨_,_,_,_,_,_,_,rfl⟩
  · simp only [guard_ok,Except.ok.injEq] at h
    exact ⟨_,_,_,_,_,_,_,h.2.symm⟩

theorem reconcileCohorts_manifest (h : reconcileCohorts naming state = .ok next)
    (hr : state.manifestRevision ≠ 0) :
    next.manifestRevision = state.manifestRevision ∧
      (state.manifestDigest ≠ naming.empty → next.manifestDigest = state.manifestDigest) ∧
      (state.manifestOperationId ≠ naming.empty →
        next.manifestOperationId = state.manifestOperationId) := by
  simp only [reconcileCohorts,Except.bind_eq_ok] at h
  obtain ⟨u,-,segments,-,h⟩ := h
  have hg : (reconcileMembers naming state).manifestRevision ≠ 0 := hr
  simp only [migrateManifest,hg,false_and,if_false,settleDigest,guard_ok,
    Except.ok.injEq] at h
  obtain ⟨hd,rfl⟩ := h
  refine ⟨rfl,?_,?_⟩
  · intro hn
    by_contra ho
    exact hd ⟨hn,fun he => ho he.symm⟩
  · intro hn
    exact if_neg hn

theorem reconcileCohorts_unrouted (h : reconcileCohorts naming state = .ok next)
    (hr : state.manifestRevision = 0) (hs : state.streamSegments = ∅) :
    next = reconcileMembers naming state := by
  have hg : (reconcileMembers naming state).manifestRevision = 0 := hr
  have he : (reconcileMembers naming state).streamSegments = ∅ := hs
  simp only [reconcileCohorts,Except.bind_eq_ok] at h
  obtain ⟨u,-,segments,hf,h⟩ := h
  have hn : segments = ∅ := by
    rw [he,mapValuesM_self (by simp [valuesOf])] at hf
    exact (Except.ok.inj hf).symm
  have hsa : { reconcileMembers naming state with streamSegments := segments } =
      reconcileMembers naming state := by
    rw [hn,← he]
  rw [hsa] at h
  simp only [migrateManifest,he,ne_eq,not_true_eq_false,and_false,if_false,settleDigest,
    hg,if_true,Except.ok.injEq] at h
  exact h.symm

end Cohorts

section Prune

def operationRecordRetention : Nat := 8

/-- Drop the records of lowest rank beyond the ones retained, except the one to keep. -/
def pruneRecords {β : Type} (keep : ι) (rank : β → Nat) (records : BTreeMap ι β) : BTreeMap ι β :=
  let ranked := (records.toList.map fun (id, value) => (rank value, id)).insertionSort
    fun a b => a.1 < b.1 ∨ (a.1 = b.1 ∧ a.2 ≤ b.2)
  let dropped := (ranked.take (records.size - operationRecordRetention)).map (·.2)
  (dropped.filter (· ≠ keep)).foldl (fun kept id => kept.erase id) records

def pruneOperationRecords (state : DurableControlState ι) : DurableControlState ι :=
  { state with
    manifestOperations :=
      pruneRecords state.manifestOperationId (·.revision) state.manifestOperations
    operations := pruneRecords naming.empty (·.membershipEpoch) state.operations }

theorem getElem?_of_pruneRecords {records : BTreeMap ι β}
    {id : ι} (h : (pruneRecords keep rank records)[id]? = some value) :
    records[id]? = some value := by
  simp only [pruneRecords,getElem?_foldl_erase] at h
  split at h
  · cases h
  · exact h

theorem pruneRecords_keep (keep : ι) (rank : β → Nat) (records : BTreeMap ι β) :
    (pruneRecords keep rank records)[keep]? = records[keep]? := by
  simp [pruneRecords,getElem?_foldl_erase]

end Prune

section Open

/-- The document a volume starts with: three members a cohort, in the order given. -/
def bootstrap (initial : List (ι × ι)) : Except ReplicaError (DurableControlState ι) :=
  (initial.foldlM (fun (seen : List (ι × ι)) node =>
    (validateNode naming node.1 node.2).bind fun _ =>
      if node.1 ∈ seen.map (·.1) ∨ node.2 ∈ seen.map (·.2) then
        .error (ReplicaError.nodeStorage "direct membership identities and URLs must be unique")
      else .ok (seen ++ [node])) []).map fun nodes =>
    { DurableControlState.default naming with
      membershipEpoch := if nodes = [] then 0 else 1
      members := Std.ExtTreeMap.ofList (nodes.zipIdx.map fun (node, index) => (node.1,
        { id := node.1, url := node.2, status := .active, cohortId := index / replicationFactor
          name := naming.empty, machineId := naming.empty, volumeId := naming.empty
          ordinal := 0, tier := naming.empty, maxAppendBytes := 0 })) compare }

def openControl (document : Option (DurableControlState ι)) (initial : List (ι × ι)) :
    Except ReplicaError (DurableControlState ι) :=
  let found : Except ReplicaError (DurableControlState ι) :=
    match document with
    | some state => .ok state
    | none => bootstrap naming initial
  found.bind fun state =>
  if state.version ≠ controlStateVersion then
    .error (.nodeStorage "unsupported replica control state version")
  else (reconcileCohorts naming state).bind fun state =>
    (validateControlState naming state).map fun _ => state

def threeMembers : DurableControlState ℕ :=
  (openControl numbered none [(1, 11), (2, 12), (3, 13)]).toOption.getD (.default numbered)

def rangeOfThree (startLsn : ℕ) (endLsn : Option ℕ) : StreamSegment ℕ where
  startLsn := startLsn
  endLsn := endLsn
  cohortId := 0
  memberIds := [1, 2, 3]
  memberHash := numbered.memberHash [(1, 11), (2, 12), (3, 13)]
  writerEpoch := 1
  manifestRevision := 1
  placementEpoch := 1
  operationId := 1
  tier := 0
  maxAppendBytes := 0

end Open

end Walleye.Control
