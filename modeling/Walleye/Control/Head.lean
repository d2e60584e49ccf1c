import Walleye.Control.Manifest

namespace Walleye.Control

open Walleye.Base Walleye.Base.BTreeMap
open Walleye.Bitr (ReplicaError)
open Walleye.Engine (saturatingAdd)

def controlHeadVersion : Nat := 1
def maxControlHeadBytes : Nat := 32 * 1024 * 1024
def maxOperationIdBytes : Nat := 512
def maxCompletedOperations : Nat := 100000
def maxSourceAuthorityBytes : Nat := 256
def maxSourceDigestBytes : Nat := 256
def maxPendingHandoffs : Nat := 4096
def maxStreamNameBytes : Nat := 1024

inductive ControlHeadError (ι : Type) where
  | invalid (message : String)
  | alreadyExists
  | precondition
  | sourceMarkerMismatch
  | operationConflict (operationId : ι)
  | pendingHandoffConflict (stream operationId : ι)
deriving DecidableEq, Repr

structure ControlSourceMarker (ι δ : Type) where
  authority : ι
  authorityEpoch : Nat
  revision : Nat
  digest : δ
deriving DecidableEq, Repr

inductive PendingHandoffStage where
  | prepared
  | sourceFenced
  | archiveVerified
  | routePublished
deriving DecidableEq, Repr

def PendingHandoffStage.rank : PendingHandoffStage → Nat
  | .prepared => 0
  | .sourceFenced => 1
  | .archiveVerified => 2
  | .routePublished => 3

def PendingHandoffStage.operationSuffix : PendingHandoffStage → String
  | .prepared => "prepared"
  | .sourceFenced => "source-fenced"
  | .archiveVerified => "archive-verified"
  | .routePublished => "route-published"

structure PendingHandoffDescriptor (ι : Type) where
  operationId : ι
  stream : ι
  source : StreamSegment ι
  targetCohortId : Nat
  targetMembers : List (DurableMember ι)
  targetMemberHash : ι
  targetTier : ι
  targetMaxAppendBytes : Nat
  targetWriterEpoch : Nat
  transitionPlacement : PlacementEpoch ι
  successorPlacementEpoch : Nat
  successorPlacement : Option (PlacementEpoch ι)
  stage : PendingHandoffStage
  archivedLsn : Option Nat
  successor : Option (StreamSegment ι)
deriving DecidableEq, Repr

structure ControlMetadata (ι : Type) [LinearOrder ι] where
  membershipEpoch : Nat
  members : BTreeMap ι (DurableMember ι)
  cohorts : BTreeMap Nat (DurableCohort ι)
  manifest : ReplicaManifest ι
  pendingHandoffs : BTreeMap ι (PendingHandoffDescriptor ι)
deriving DecidableEq

structure ControlOperationReceipt (δ : Type) where
  authorityEpoch : Nat
  revision : Nat
  metadataDigest : δ
deriving DecidableEq, Repr

structure ControlHead (ι δ : Type) [LinearOrder ι] where
  version : Nat
  authorityEpoch : Nat
  revision : Nat
  operationId : ι
  completedOperations : BTreeMap ι (ControlOperationReceipt δ)
  sourceMarker : ControlSourceMarker ι δ
  metadataDigest : δ
  metadata : ControlMetadata ι
deriving DecidableEq

structure HeadCodec (ι δ : Type) [LinearOrder ι] extends Naming ι where
  /-- The key of one phase of a handoff: a hash of its operation, stream and phase. -/
  phaseId : ι → ι → String → ι
  metadataDigest : ControlMetadata ι → δ
  blankDigest : δ → Bool
  digestLength : δ → Nat
  encodedLength : ControlHead ι δ → Nat

section Descriptor

variable {ι : Type} [LinearOrder ι] (naming : Naming ι)

def sameMemberIncarnation (left right : DurableMember ι) : Prop :=
  left.id = right.id ∧ left.url = right.url ∧ left.cohortId = right.cohortId ∧
    left.name = right.name ∧ left.machineId = right.machineId ∧ left.volumeId = right.volumeId ∧
    left.ordinal = right.ordinal ∧ left.tier = right.tier ∧
    left.maxAppendBytes = right.maxAppendBytes

instance (left right : DurableMember ι) : Decidable (sameMemberIncarnation left right) :=
  inferInstanceAs (Decidable (_ ∧ _ ∧ _ ∧ _ ∧ _ ∧ _ ∧ _ ∧ _ ∧ _))

def validatePlacement (placement : PlacementEpoch ι) (label : String) :
    Except (ControlHeadError ι) Unit :=
  if placement.epoch = 0 ∨ naming.blank placement.routeDigest then
    .error (.invalid ("pending handoff " ++ label ++ " placement is incomplete"))
  else .ok ()

def PendingHandoffDescriptor.validateSuccessor (d : PendingHandoffDescriptor ι) :
    Except (ControlHeadError ι) Unit :=
  match d.successor with
  | none => .error (.invalid "archived handoff has no successor route")
  | some successor =>
    match d.archivedLsn with
    | none => .error (.invalid "archived handoff has no archive watermark")
    | some archivedLsn =>
      match d.successorPlacement with
      | none => .error (.invalid "archived handoff has no successor placement")
      | some placement =>
        if successor.cohortId ≠ d.targetCohortId ∨
            successor.memberIds ≠ d.targetMembers.map (·.id) ∨
            successor.memberHash ≠ d.targetMemberHash ∨
            successor.writerEpoch ≠ d.targetWriterEpoch ∨
            successor.placementEpoch ≠ placement.epoch ∨
            placement.epoch ≠ d.successorPlacementEpoch ∨
            successor.startLsn ≠ max (saturatingAdd archivedLsn 1) d.source.startLsn ∨
            successor.endLsn ≠ none then
          .error (.invalid "archived handoff successor route does not match its claim")
        else .ok ()

def PendingHandoffDescriptor.validate (d : PendingHandoffDescriptor ι) (mapKey : Option ι) :
    Except (ControlHeadError ι) Unit :=
  if ∃ key ∈ mapKey, key ≠ d.stream then
    .error (.invalid "pending handoff map key does not match stream")
  else if naming.blank d.operationId ∨ maxOperationIdBytes < naming.length d.operationId then
    .error (.invalid "pending handoff operation id is empty or too long")
  else if naming.blank d.stream ∨ maxStreamNameBytes < naming.length d.stream then
    .error (.invalid "pending handoff stream is empty or too long")
  else if d.targetMembers.length ≠ replicationFactor ∨ naming.blank d.targetMemberHash then
    .error (.invalid "pending handoff successor cohort is incomplete")
  else if ¬(d.targetMembers.map (·.id)).IsChain (· < ·) ∨
      ∃ m ∈ d.targetMembers, naming.blank m.id ∨ naming.blank m.url ∨
        m.cohortId ≠ d.targetCohortId then
    .error (.invalid "pending handoff successor members are not deterministic")
  else if d.source.startLsn = 0 ∨ d.source.endLsn ≠ none ∨
      d.source.memberIds.length ≠ replicationFactor ∨ naming.blank d.source.memberHash ∨
      ¬d.source.memberIds.IsChain (· < ·) then
    .error (.invalid "pending handoff source route is not an open complete range")
  else if d.source.cohortId = d.targetCohortId ∨ d.targetWriterEpoch ≠ d.source.writerEpoch then
    .error (.invalid "pending handoff source and successor identities conflict")
  else (validatePlacement naming d.transitionPlacement "transition").bind fun _ =>
    if d.successorPlacementEpoch = 0 then
      .error (.invalid "pending handoff successor placement epoch is zero")
    else if d.transitionPlacement.epoch ≤ d.source.placementEpoch ∨
        d.successorPlacementEpoch ≤ d.transitionPlacement.epoch then
      .error (.invalid "pending handoff placement epochs are not strictly increasing")
    else if d.stage.rank < PendingHandoffStage.archiveVerified.rank ∧
        (d.archivedLsn ≠ none ∨ d.successorPlacement ≠ none) then
      .error (.invalid "pending handoff archive watermark is ahead of its stage")
    else if PendingHandoffStage.archiveVerified.rank ≤ d.stage.rank ∧
        (d.archivedLsn = none ∨ d.successorPlacement = none) then
      .error (.invalid "pending handoff archive stage has no watermark")
    else if PendingHandoffStage.archiveVerified.rank ≤ d.stage.rank then d.validateSuccessor
    else if d.successor ≠ none then
      .error (.invalid "unpublished handoff carries a successor route")
    else .ok ()

def PendingHandoffDescriptor.ImmutableEq (d other : PendingHandoffDescriptor ι) : Prop :=
  d.operationId = other.operationId ∧ d.stream = other.stream ∧ d.source = other.source ∧
    d.targetCohortId = other.targetCohortId ∧
    (∀ pair ∈ d.targetMembers.zip other.targetMembers, sameMemberIncarnation pair.1 pair.2) ∧
    d.targetMemberHash = other.targetMemberHash ∧ d.targetTier = other.targetTier ∧
    d.targetMaxAppendBytes = other.targetMaxAppendBytes ∧
    d.targetWriterEpoch = other.targetWriterEpoch ∧
    d.transitionPlacement = other.transitionPlacement ∧
    d.successorPlacementEpoch = other.successorPlacementEpoch ∧
    (d.successorPlacement = none ∨ other.successorPlacement = d.successorPlacement) ∧
    (d.successor = none ∨ other.successor = d.successor)

instance (d other : PendingHandoffDescriptor ι) : Decidable (d.ImmutableEq other) :=
  inferInstanceAs
    (Decidable (_ ∧ _ ∧ _ ∧ _ ∧ _ ∧ _ ∧ _ ∧ _ ∧ _ ∧ _ ∧ _ ∧ _ ∧ _))

theorem PendingHandoffDescriptor.validate_spec {d : PendingHandoffDescriptor ι}
    (h : d.validate naming mapKey = .ok ()) :
    (∀ key ∈ mapKey, key = d.stream) ∧ d.targetMembers.length = replicationFactor := by
  simp only [PendingHandoffDescriptor.validate,guard_ok] at h
  obtain ⟨hke,-,-,hm,-⟩ := h
  constructor
  · intro key hk
    by_contra hn
    exact hke ⟨key,hk,hn⟩
  · by_contra hn
    exact hm (.inl hn)

end Descriptor

section Metadata

variable {ι δ : Type} [LinearOrder ι] (codec : HeadCodec ι δ)

def pendingOperationId (operationId stream : ι) (phase : String) :
    Except (ControlHeadError ι) ι :=
  if codec.blank operationId ∨ codec.blank stream then
    .error (.invalid "pending handoff operation id, stream, and phase must not be empty")
  else .ok (codec.phaseId operationId stream phase)

def displayReplicaError : ReplicaError → String
  | .protocol message => "replica gateway protocol error: " ++ message
  | .nodeStorage message => "replica storage failed: " ++ message
  | .invalidWatermark lsn committedLsn =>
    "record LSN " ++ toString lsn ++ " is not after committed LSN " ++ toString committedLsn
  | .lsnConflict => "LSN conflicts with an existing record"
  | .writerFenced => "writer epoch is fenced"
  | .quorumUnavailable => "replica quorum unavailable"
  | .nodeUnavailable => "replica node unavailable"
  | .gatewayUnauthorized => "replica quorum gateway rejected credentials"
  | .capacityExceeded cohortId requestedBytes maxAppendBytes =>
    "replica cohort " ++ toString cohortId ++ " append is too large: " ++
      toString requestedBytes ++ " bytes exceeds " ++ toString maxAppendBytes
  | .commitCertificateMissing => "replica commit certificate is required for watermark recovery"
  | .recoveryIncomplete expectedLsn committedLsn =>
    "replica recovery incomplete before committed LSN " ++ toString committedLsn ++
      "; expected LSN " ++ toString expectedLsn
  | .recoveryGap expectedLsn receivedLsn =>
    "replica recovery expected LSN " ++ toString expectedLsn ++ ", received " ++
      toString receivedLsn
  | .recoveryAmbiguous lsn committedNodes quorum =>
    "replica recovery found ambiguous LSN " ++ toString lsn ++ ": " ++ toString committedNodes ++
      " durable commit markers, quorum is " ++ toString quorum

def validateMember (entry : ι × DurableMember ι) : Except (ControlHeadError ι) Unit :=
  if codec.blank entry.1 ∨ entry.2.id ≠ entry.1 then
    .error (.invalid "control member map key does not match member identity")
  else .ok ()

def validateCohortMember (members : BTreeMap ι (DurableMember ι)) (cohortId : Nat)
    (memberId : ι) : Except (ControlHeadError ι) Unit :=
  match members[memberId]? with
  | none => .error (.invalid "control cohort references an unknown member")
  | some member =>
    if member.cohortId ≠ cohortId then
      .error (.invalid "control member and cohort identities disagree")
    else .ok ()

def validateCohort (members : BTreeMap ι (DurableMember ι)) (entry : Nat × DurableCohort ι) :
    Except (ControlHeadError ι) Unit :=
  if entry.1 ≠ entry.2.id ∨ entry.2.members = [] then
    .error (.invalid "control cohort map key does not match cohort identity")
  else if ¬entry.2.members.IsChain (· < ·) then
    .error (.invalid "control cohort members are not in deterministic order")
  else if ¬entry.2.members.Nodup then
    .error (.invalid "control cohort contains duplicate member identities")
  else entry.2.members.forM (validateCohortMember members entry.1)

def validateSegmentCohort (cohorts : BTreeMap Nat (DurableCohort ι)) (segment : StreamSegment ι) :
    Except (ControlHeadError ι) Unit :=
  match cohorts[segment.cohortId]? with
  | none => .error (.invalid "control manifest references an unknown segment cohort")
  | some cohort =>
    if segment.memberIds ≠ [] ∧ segment.memberIds ≠ cohort.members then
      .error (.invalid "control manifest segment member set differs from its cohort")
    else .ok ()

def ControlMetadata.validate (m : ControlMetadata ι) : Except (ControlHeadError ι) Unit :=
  if m.membershipEpoch = 0 then .error (.invalid "control membership epoch must be nonzero")
  else ((m.manifest.validate codec.toNaming).mapError
      fun e => .invalid (displayReplicaError e)).bind fun _ =>
    (m.members.toList.forM (validateMember codec)).bind fun _ =>
    (m.cohorts.toList.forM (validateCohort m.members)).bind fun _ =>
    if ∃ e ∈ m.members.toList,
        (m.cohorts.toList.flatMap (·.2.members)).count e.2.id ≠ 1 then
      .error (.invalid "control member is not assigned to exactly one cohort")
    else if m.manifest.cohortId ≠ 0 ∧ m.cohorts[m.manifest.cohortId]? = none then
      .error (.invalid "control manifest references an unknown default cohort")
    else (m.manifest.streamSegments.toList.forM fun (_, segments) =>
        segments.forM (validateSegmentCohort m.cohorts)).bind fun _ =>
      if maxPendingHandoffs < m.pendingHandoffs.size then
        .error (.invalid "too many pending stream handoffs")
      else m.pendingHandoffs.toList.forM fun (stream, descriptor) =>
        descriptor.validate codec.toNaming (some stream)

def ControlSourceMarker.validate (marker : ControlSourceMarker ι δ) :
    Except (ControlHeadError ι) Unit :=
  if codec.blank marker.authority ∨ maxSourceAuthorityBytes < codec.length marker.authority then
    .error (.invalid "control source authority is empty or too long")
  else if marker.authorityEpoch = 0 ∨ marker.revision = 0 then
    .error (.invalid "control source authority epoch and revision must be nonzero")
  else if codec.blankDigest marker.digest ∨
      maxSourceDigestBytes < codec.digestLength marker.digest then
    .error (.invalid "control source digest is empty or too long")
  else .ok ()

theorem ControlMetadata.validate_pending {m : ControlMetadata ι} (h : m.validate codec = .ok ())
    {d : PendingHandoffDescriptor ι} (hd : m.pendingHandoffs[stream]? = some d) :
    stream = d.stream ∧ d.targetMembers.length = replicationFactor := by
  simp only [ControlMetadata.validate,guard_ok,Except.bind_eq_ok,forM_eq_ok] at h
  obtain ⟨-,-,-,-,-,-,-,-,-,-,-,-,hp⟩ := h
  have hm := Std.ExtTreeMap.mem_toList_iff_getElem?_eq_some.mpr hd
  obtain ⟨hk,hmem⟩ := PendingHandoffDescriptor.validate_spec _ (hp _ hm)
  exact ⟨hk stream rfl,hmem⟩

end Metadata

section Head

variable {ι δ : Type} [LinearOrder ι] [DecidableEq δ] (codec : HeadCodec ι δ)

def receiptMatchesHead (receipt : ControlOperationReceipt δ) (head : ControlHead ι δ) : Prop :=
  receipt.authorityEpoch = head.authorityEpoch ∧ receipt.revision = head.revision ∧
    receipt.metadataDigest = head.metadataDigest

instance (receipt : ControlOperationReceipt δ) (head : ControlHead ι δ) :
    Decidable (receiptMatchesHead receipt head) :=
  inferInstanceAs (Decidable (_ ∧ _ ∧ _))

def ControlHead.receipt (head : ControlHead ι δ) : ControlOperationReceipt δ where
  authorityEpoch := head.authorityEpoch
  revision := head.revision
  metadataDigest := head.metadataDigest

def ControlHead.validate (head : ControlHead ι δ) : Except (ControlHeadError ι) Unit :=
  if head.version ≠ controlHeadVersion then
    .error (.invalid ("unsupported control-head version " ++ toString head.version))
  else if head.authorityEpoch = 0 ∨ head.revision = 0 then
    .error (.invalid "control-head authority epoch and revision must be nonzero")
  else if codec.blank head.operationId ∨ maxOperationIdBytes < codec.length head.operationId then
    .error (.invalid "control-head operation id is empty or too long")
  else if head.completedOperations.isEmpty ∨
      maxCompletedOperations < head.completedOperations.size then
    .error (.invalid "control-head completed operation receipts are empty or too large")
  else match head.completedOperations[head.operationId]? with
    | none => .error (.invalid "control-head is missing its current operation receipt")
    | some current =>
      if ¬receiptMatchesHead current head then
        .error (.invalid "control-head current operation receipt does not match the head")
      else if ∃ e ∈ head.completedOperations.toList,
          e.2.authorityEpoch = 0 ∨ e.2.revision = 0 ∨ head.authorityEpoch < e.2.authorityEpoch ∨
            head.revision < e.2.revision ∨ codec.blankDigest e.2.metadataDigest then
        .error (.invalid "control-head contains an invalid completed operation receipt")
      else (head.sourceMarker.validate codec).bind fun _ =>
        if head.authorityEpoch < head.sourceMarker.authorityEpoch ∨
            head.revision < head.sourceMarker.revision then
          .error (.invalid "control source marker is newer than the control head")
        else (head.metadata.validate codec).bind fun _ =>
          if head.metadataDigest ≠ codec.metadataDigest head.metadata then
            .error (.invalid "control-head metadata digest does not match its payload")
          else .ok ()

def ControlHead.new (authorityEpoch revision : Nat) (operationId : ι)
    (sourceMarker : ControlSourceMarker ι δ) (metadata : ControlMetadata ι) :
    Except (ControlHeadError ι) (ControlHead ι δ) :=
  let metadataDigest := codec.metadataDigest metadata
  let head : ControlHead ι δ :=
    { version := controlHeadVersion, authorityEpoch, revision, operationId,
      completedOperations :=
        (∅ : BTreeMap ι _).insert operationId ⟨authorityEpoch, revision, metadataDigest⟩,
      sourceMarker, metadataDigest, metadata }
  (head.validate codec).bind fun _ => .ok head

def ControlHead.mergeCompletedOperations (head current : ControlHead ι δ) :
    Except (ControlHeadError ι) (ControlHead ι δ) :=
  (carryForward (fun operationId _ => .operationConflict operationId)
      current.completedOperations head.completedOperations).bind fun receipts =>
    let merged := { head with
      completedOperations := receipts.insert head.operationId head.receipt }
    (merged.validate codec).bind fun _ => .ok merged

structure ControlHead.Valid (head : ControlHead ι δ) : Prop where
  receipt : head.completedOperations[head.operationId]? = some head.receipt
  pending : ∀ (stream : ι) d, head.metadata.pendingHandoffs[stream]? = some d →
    stream = d.stream ∧ d.targetMembers.length = replicationFactor
  digest : head.metadataDigest = codec.metadataDigest head.metadata

theorem ControlHead.validate_spec {head : ControlHead ι δ} (h : head.validate codec = .ok ()) :
    head.Valid codec := by
  simp only [ControlHead.validate,guard_ok] at h
  obtain ⟨-,-,-,-,h⟩ := h
  split at h
  · cases h
  · rename_i current hc
    simp only [guard_ok,not_not,Except.bind_eq_ok] at h
    obtain ⟨⟨he,hr,hdi⟩,-,-,-,-,u,hm,heq,-⟩ := h
    refine ⟨?_,fun stream d hd => ControlMetadata.validate_pending codec hm hd,heq⟩
    rw [hc,ControlHead.receipt,← he,← hr,← hdi]

end Head

end Walleye.Control
