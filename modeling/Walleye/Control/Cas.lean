import Walleye.Control.Online

namespace Walleye.Control

open Walleye.Base Walleye.Base.BTreeMap
open Walleye.Bitr (ReplicaError)
open Walleye.Engine (u64Max)

variable {ι : Type} [LinearOrder ι] (naming : ControlNaming ι)

section Manifest

structure ManifestCasRequest (ι : Type) [LinearOrder ι] where
  expectedRevision : Nat
  expectedDigest : ι
  streamSegments : StreamRanges ι
  operationId : ι
  /-- The request carries a manifest that two members hold. -/
  repair : Bool
  cutoverLsn : Option Nat
deriving DecidableEq

def nextManifest (state : DurableControlState ι) (revision : Nat) (operationId : ι)
    (segments : StreamRanges ι) : ReplicaManifest ι :=
  let binding := manifestMetadataForState naming state segments
  let policy := manifestPolicyForState naming state segments binding.cohortId
  { version := manifestVersion
    revision := revision
    digest := naming.manifestDigest segments
    writerEpoch := binding.writerEpoch
    cohortId := binding.cohortId
    memberSetHash := binding.memberHash
    writeCohortId := state.writeCohortId
    streamSegments := segments
    operationId := operationId
    tier := policy.1
    maxAppendBytes := policy.2 }

def recordManifest (state : DurableControlState ι) (manifest : ReplicaManifest ι) :
    DurableControlState ι :=
  { state with
    manifestRevision := manifest.revision
    manifestDigest := manifest.digest
    manifestOperationId := manifest.operationId
    manifestWriterEpoch := manifest.writerEpoch
    manifestCohortId := manifest.cohortId
    manifestMemberHash := manifest.memberSetHash
    streamSegments := manifest.streamSegments
    manifestOperations := state.manifestOperations.insert manifest.operationId manifest }

def installManifest (state : DurableControlState ι) (manifest : ReplicaManifest ι) :
    Except ReplicaError (ReplicaManifest ι × DurableControlState ι) :=
  let next := pruneOperationRecords naming (recordManifest state manifest)
  (validateControlState naming next).map fun _ => (manifest, next)

/-- The third member takes what two others hold, from any earlier revision. -/
def repairManifest (state : DurableControlState ι) (request : ManifestCasRequest ι) :
    Except ReplicaError (ReplicaManifest ι × DurableControlState ι) :=
  let target := naming.manifestDigest request.streamSegments
  if request.expectedRevision = 0 ∨ request.expectedDigest ≠ target ∨
      request.expectedRevision < state.manifestRevision then
    .error .lsnConflict
  else if state.manifestRevision = request.expectedRevision ∧ currentDigest naming state = target
    then .ok (manifestFromState naming state, state)
  else
    (validateManifestSegments naming state request.streamSegments request.expectedRevision).bind
      fun _ => installManifest naming state
        (nextManifest naming state request.expectedRevision request.operationId
          request.streamSegments)

def advanceManifest (state : DurableControlState ι) (request : ManifestCasRequest ι) :
    Except ReplicaError (ReplicaManifest ι × DurableControlState ι) :=
  if state.manifestRevision ≠ request.expectedRevision ∨
      (request.expectedDigest ≠ naming.empty ∧
        currentDigest naming state ≠ request.expectedDigest) then
    .error .lsnConflict
  else if u64Max ≤ request.expectedRevision then
    .error (.protocol "manifest revision exhausted")
  else
    let revision := request.expectedRevision + 1
    (validateManifestSegments naming state request.streamSegments revision).bind fun _ =>
    (validateManifestTransition naming state.streamSegments request.streamSegments).bind fun _ =>
    (validateManifestCutover state.streamSegments request.streamSegments
      request.cutoverLsn).bind fun _ =>
    installManifest naming state
      (nextManifest naming state revision request.operationId request.streamSegments)

def metadataFenced (state : DurableControlState ι) : Prop :=
  state.metadataFreeze ≠ none ∨ state.controlHeadRevision ≠ 0

instance (state : DurableControlState ι) : Decidable (metadataFenced state) :=
  inferInstanceAs (Decidable (_ ∨ _))

def casManifestWithCutover (state : DurableControlState ι) (request : ManifestCasRequest ι) :
    Except ReplicaError (ReplicaManifest ι × DurableControlState ι) :=
  if naming.blank request.operationId then
    .error (.protocol "manifest operation_id must not be empty")
  else match state.manifestOperations[request.operationId]? with
    | some previous => .ok (previous, state)
    | none =>
      if metadataFenced state then .error .writerFenced
      else if request.repair then repairManifest naming state request
      else advanceManifest naming state request

def adoptManifest (state : DurableControlState ι) (manifest : ReplicaManifest ι)
    (forceSameRevision : Bool) : Except ReplicaError (DurableControlState ι) :=
  (manifest.validate naming.toNaming).bind fun _ =>
  if manifest.digest ≠ naming.manifestDigest manifest.streamSegments then .error .lsnConflict
  else if manifest.revision < state.manifestRevision then .error .lsnConflict
  else
    let divergent := currentDigest naming state ≠ manifest.digest
    if manifest.revision = state.manifestRevision ∧ divergent ∧ ¬forceSameRevision then
      .error .lsnConflict
    else
      (validateManifestSegments naming state manifest.streamSegments manifest.revision).bind
        fun _ =>
      (if forceSameRevision ∧ divergent then .ok ()
        else validateManifestTransition naming state.streamSegments
          manifest.streamSegments).bind fun _ =>
      (validateWriteCohort state manifest.writeCohortId).bind fun _ =>
      let binding := manifestMetadataForState naming state manifest.streamSegments
      let next := pruneOperationRecords naming
        { state with
          writeCohortId := manifest.writeCohortId
          manifestRevision := manifest.revision
          manifestDigest := manifest.digest
          manifestOperationId := manifest.operationId
          manifestWriterEpoch := binding.writerEpoch
          manifestCohortId := binding.cohortId
          manifestMemberHash :=
            if manifest.memberSetHash = naming.empty then binding.memberHash
            else manifest.memberSetHash
          streamSegments := manifest.streamSegments
          manifestOperations := state.manifestOperations.insert manifest.operationId manifest }
      (validateControlState naming next).map fun _ => next

end Manifest

section Membership

structure MembershipCasRequest (ι : Type) [LinearOrder ι] where
  expectedEpoch : Nat
  targetEpoch : Option Nat
  repair : Bool
  members : List (DurableMember ι)
  cohorts : Option (List (DurableCohort ι))
  streamSegments : Option (StreamRanges ι)
  manifestRevision : Option Nat
  manifestDigest : Option ι
  writeCohortId : Option Nat
  /-- The request comes without the maintenance fence. -/
  online : Bool
  replacement : Bool
  operationId : ι
deriving DecidableEq

def requestMembers (members : List (DurableMember ι)) :
    Except ReplicaError (BTreeMap ι (DurableMember ι)) :=
  members.foldlM (fun (found : BTreeMap ι (DurableMember ι)) member =>
    (validateNode naming member.id member.url).bind fun _ =>
      if found[member.id]? ≠ none then .error .lsnConflict
      else .ok (found.insert member.id member)) ∅

def mayAdoptAuthoritativeBootstrap (state : DurableControlState ι) (repair : Bool) : Prop :=
  repair ∧ state.membershipEpoch ≤ 1 ∧ state.manifestRevision = 0 ∧ state.streamSegments = ∅ ∧
    state.operations = ∅ ∧ state.manifestOperations = ∅

instance (state : DurableControlState ι) (repair : Bool) :
    Decidable (mayAdoptAuthoritativeBootstrap state repair) :=
  inferInstanceAs (Decidable (_ ∧ _ ∧ _ ∧ _ ∧ _ ∧ _))

def alreadyRepaired (state : DurableControlState ι) (request : MembershipCasRequest ι)
    (members : BTreeMap ι (DurableMember ι)) : Prop :=
  request.repair ∧ request.targetEpoch = some state.membershipEpoch ∧ state.members = members ∧
    (∀ cohorts ∈ request.cohorts, state.cohorts.valuesOf = cohorts) ∧
    (∀ segments ∈ request.streamSegments, state.streamSegments = segments) ∧
    ∀ cohortId ∈ request.writeCohortId, state.writeCohortId = cohortId

instance (state : DurableControlState ι) (request : MembershipCasRequest ι)
    (members : BTreeMap ι (DurableMember ι)) :
    Decidable (alreadyRepaired state request members) :=
  inferInstanceAs (Decidable (_ ∧ _ ∧ _ ∧ _ ∧ _ ∧ _))

def validateKnownMember (state : DurableControlState ι) (mayAdopt : Prop) [Decidable mayAdopt]
    (entry : ι × DurableMember ι) : Except ReplicaError Unit :=
  match state.members[entry.1]? with
  | none => .ok ()
  | some previous =>
    if previous.status = .removed ∧ entry.2.status ≠ .removed then .error .lsnConflict
    else if previous.cohortId ≠ entry.2.cohortId ∧ ¬mayAdopt then .error .lsnConflict
    else .ok ()

def nextRoutes (state next : DurableControlState ι) (request : MembershipCasRequest ι) :
    Except ReplicaError (Nat × StreamRanges ι) :=
  match request.streamSegments with
  | none =>
    if u64Max ≤ state.manifestRevision then .error (.protocol "manifest revision exhausted")
    else .ok (state.manifestRevision + 1, state.streamSegments)
  | some incoming =>
    let revision := request.manifestRevision.getD state.manifestRevision
    let named := (request.manifestDigest.filter (· ≠ naming.empty)).getD
      (naming.manifestDigest incoming)
    let digest :=
      if revision = 0 ∧ incoming = ∅ ∧ state.streamSegments = ∅ ∧
          state.manifestDigest = naming.empty then currentDigest naming state
      else named
    if revision = state.manifestRevision then
      if digest ≠ currentDigest naming state ∨ incoming ≠ state.streamSegments then
        .error .lsnConflict
      else .ok (state.manifestRevision, state.streamSegments)
    else if state.manifestRevision < revision then
      if digest ≠ naming.manifestDigest incoming then .error .lsnConflict
      else (validateManifestSegments naming next incoming revision).bind fun _ =>
        (if request.repair then .ok ()
          else validateManifestTransition naming state.streamSegments incoming).map fun _ =>
        (revision, incoming)
    else .ok (state.manifestRevision, state.streamSegments)

def stageMembership (state : DurableControlState ι) (request : MembershipCasRequest ι)
    (members : BTreeMap ι (DurableMember ι)) (epoch : Nat) : DurableControlState ι :=
  { state with
    membershipEpoch := epoch
    members := members
    cohorts := match request.cohorts with
      | none => state.cohorts
      | some cohorts => Std.ExtTreeMap.ofList (cohorts.map fun c => (c.id, c)) compare
    writeCohortId := request.writeCohortId.getD state.writeCohortId }

def bindManifest (state next : DurableControlState ι) (request : MembershipCasRequest ι)
    (revision : Nat) (segments : StreamRanges ι) : DurableControlState ι :=
  let manifest := nextManifest naming next revision request.operationId segments
  if state.manifestRevision < revision then recordManifest next manifest
  else if request.writeCohortId ≠ none then
    { next with
      manifestOperationId := manifest.operationId
      manifestWriterEpoch := manifest.writerEpoch
      manifestCohortId := manifest.cohortId
      manifestMemberHash := manifest.memberSetHash
      manifestOperations := next.manifestOperations.insert request.operationId manifest }
  else next

def recordMembership (next : DurableControlState ι) (operationId : ι) :
    Except ReplicaError (MembershipSnapshot ι × DurableControlState ι) :=
  (validateControlState naming next).bind fun _ =>
  let active := next.cohorts.valuesOf.filter (·.status = .active)
  if active = [] ∨ ∃ cohort ∈ active, cohort.members.length ≠ replicationFactor then
    .error .quorumUnavailable
  else
    let snapshot := MembershipSnapshot.fromState naming next
    .ok (snapshot, pruneOperationRecords naming
      { next with operations := next.operations.insert operationId snapshot })

def changeMembership (state : DurableControlState ι) (request : MembershipCasRequest ι)
    (members : BTreeMap ι (DurableMember ι)) :
    Except ReplicaError (MembershipSnapshot ι × DurableControlState ι) :=
  if state.membershipEpoch ≠ request.expectedEpoch then .error .lsnConflict
  else
    let mayAdopt := mayAdoptAuthoritativeBootstrap state request.repair
    let members := if request.cohorts = none then normalizeMembersForCas members state else members
    (members.toList.forM (validateKnownMember state mayAdopt)).bind fun _ =>
    (validateMembersState naming members).bind fun _ =>
    if u64Max ≤ request.expectedEpoch then .error (.protocol "membership epoch exhausted")
    else
      let epoch := request.targetEpoch.getD (request.expectedEpoch + 1)
      if epoch < request.expectedEpoch + 1 ∨
          (¬request.repair ∧ epoch ≠ request.expectedEpoch + 1) then
        .error .lsnConflict
      else if request.writeCohortId = some 0 then .error .lsnConflict
      else
        let staged := stageMembership state request members epoch
        (nextRoutes naming state staged request).bind fun (revision, segments) =>
        let routed := { staged with streamSegments := segments }
        (if request.online ∧ ¬mayAdopt then
            if request.replacement then validateOnlineReplacementTransition state routed
            else validateOnlineMembershipTransition state routed
          else .ok ()).bind fun _ =>
        let candidate :=
          if state.manifestRevision < revision then
            { routed with
              manifestRevision := revision
              manifestDigest := naming.manifestDigest segments }
          else routed
        (reconcileCohorts naming candidate).bind fun next =>
        recordMembership naming (bindManifest naming state next request revision segments)
          request.operationId

def casMembershipDocumentWithOptions (state : DurableControlState ι)
    (request : MembershipCasRequest ι) :
    Except ReplicaError (MembershipSnapshot ι × DurableControlState ι) :=
  if naming.blank request.operationId then
    .error (.protocol "membership operation_id must not be empty")
  else (requestMembers naming request.members).bind fun members =>
    (validateMembersState naming members).bind fun _ =>
    match (if request.repair then none else state.operations[request.operationId]?) with
    | some previous => .ok (previous, state)
    | none =>
      if alreadyRepaired state request members then
        .ok (MembershipSnapshot.fromState naming state, state)
      else if metadataFenced state then .error .writerFenced
      else changeMembership naming state request members

end Membership

section Adopt

def staleAuthority (state : DurableControlState ι) (authorityEpoch revision : Nat) (digest : ι) :
    Prop :=
  authorityEpoch < state.controlAuthorityEpoch ∨
    (authorityEpoch = state.controlAuthorityEpoch ∧ revision < state.controlHeadRevision) ∨
    (authorityEpoch = state.controlAuthorityEpoch ∧ revision = state.controlHeadRevision ∧
      state.controlHeadDigest ≠ naming.empty ∧ state.controlHeadDigest ≠ digest)

instance (state : DurableControlState ι) (authorityEpoch revision : Nat) (digest : ι) :
    Decidable (staleAuthority naming state authorityEpoch revision digest) :=
  inferInstanceAs (Decidable (_ ∨ _ ∨ _))

def adoptControlHead (state : DurableControlState ι) (head : ControlHead ι ι) :
    Except ReplicaError (DurableControlState ι) :=
  let metadata := head.metadata
  let manifest := metadata.manifest
  (manifest.validate naming.toNaming).bind fun _ =>
  if staleAuthority naming state head.authorityEpoch head.revision head.metadataDigest then
    .error .lsnConflict
  else
    let next : DurableControlState ι :=
      { state with
        membershipEpoch := metadata.membershipEpoch
        members := metadata.members
        cohorts := metadata.cohorts
        writeCohortId := manifest.writeCohortId
        manifestRevision := manifest.revision
        manifestDigest := manifest.digest
        manifestOperationId := manifest.operationId
        manifestWriterEpoch := manifest.writerEpoch
        manifestCohortId := manifest.cohortId
        manifestMemberHash := manifest.memberSetHash
        streamSegments := manifest.streamSegments
        controlAuthorityEpoch := head.authorityEpoch
        controlHeadRevision := head.revision
        controlHeadDigest := head.metadataDigest }
    (validateControlState naming next).map fun _ => next

def adoptAuthorityFields (state : DurableControlState ι) (authorityEpoch headRevision : Nat)
    (headDigest : ι) (authorityCohortId : Nat) : Except ReplicaError (DurableControlState ι) :=
  if authorityEpoch = 0 ∨ headRevision = 0 ∨ naming.blank headDigest then
    .error (.protocol "invalid control-head authority receipt")
  else if staleAuthority naming state authorityEpoch headRevision headDigest then
    .error .lsnConflict
  else .ok { state with
    controlAuthorityEpoch := authorityEpoch
    controlHeadRevision := headRevision
    controlHeadDigest := headDigest
    controlAuthorityCohortId := authorityCohortId }

end Adopt

section Numbered

def routeRequest (expectedRevision : ℕ) (segments : List (StreamSegment ℕ))
    (cutoverLsn : Option ℕ) : ManifestCasRequest ℕ where
  expectedRevision := expectedRevision
  expectedDigest := 0
  streamSegments := Std.ExtTreeMap.ofList [(5, segments)] compare
  operationId := expectedRevision + 1
  repair := false
  cutoverLsn := cutoverLsn

def membersRequest (expectedEpoch : ℕ) (members : List (ℕ × MemberStatus)) :
    MembershipCasRequest ℕ where
  expectedEpoch := expectedEpoch
  targetEpoch := none
  repair := false
  members := members.map fun m =>
    { id := m.1, url := 10 + m.1, status := m.2, cohortId := 0, name := 0, machineId := 0,
      volumeId := 0, ordinal := 0, tier := 0, maxAppendBytes := 0 }
  cohorts := none
  streamSegments := none
  manifestRevision := none
  manifestDigest := none
  writeCohortId := none
  online := false
  replacement := false
  operationId := expectedEpoch + 1

end Numbered

end Walleye.Control
