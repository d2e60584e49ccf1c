import Walleye.Control.Store
import Walleye.Control.Cas

namespace Walleye.Control

open Walleye.Base Walleye.Base.BTreeMap
open Walleye.Bitr (ReplicaError)
open Walleye.Engine (u64Max)

/-- The names that moving the metadata authority uses besides those of a control document. -/
structure AuthorityNaming (ι : Type) [LinearOrder ι] extends ControlNaming ι where
  /-- `"legacy-control-quorum"`. -/
  legacyControlAuthority : ι
  /-- `"source-certificate-validation"`. -/
  sourceCertificateValidation : ι

def numberedAuthority : AuthorityNaming ℕ :=
  { numbered with legacyControlAuthority := 1, sourceCertificateValidation := 2 }

inductive AuthorityError (ι : Type) where
  | invalid (message : String)
  | insufficientQuorum (required actual : Nat)
  | freezeMismatch
  | controlHead (error : ControlHeadError ι)
deriving DecidableEq, Repr

structure SourceQuorumCertificate (ι : Type) [LinearOrder ι] where
  authority : ι
  authorityEpoch : Nat
  revision : Nat
  metadata : ControlMetadata ι
  controlCohortId : Nat
  controlMemberIds : List ι
  agreeingMemberIds : Finset ι
deriving DecidableEq

structure SourceReplicaSnapshot (ι : Type) [LinearOrder ι] where
  memberId : ι
  snapshot : MembershipSnapshot ι
deriving DecidableEq

structure MetadataFreezeAck (ι : Type) where
  memberId : ι
  operationId : ι
  source : ControlSourceMarker ι ι
  targetAuthorityEpoch : Nat
  metadataDigest : ι
  controlCohortId : Nat
deriving DecidableEq

structure FrozenSourceQuorum (ι : Type) [LinearOrder ι] where
  certificate : SourceQuorumCertificate ι
  freeze : MetadataFreeze ι
  acknowledgedMemberIds : Finset ι
  requiredQuorum : Nat

variable {ι : Type} [LinearOrder ι] (naming : AuthorityNaming ι)

def ControlSourceMarker.new (authority : ι) (authorityEpoch revision : Nat) (digest : ι) :
    Except (ControlHeadError ι) (ControlSourceMarker ι ι) :=
  let marker : ControlSourceMarker ι ι := ⟨authority, authorityEpoch, revision, digest⟩
  (marker.validate naming.toHeadCodec).map fun _ => marker

section Certificate

def validateQuorumSize (required available : Nat) : Except (AuthorityError ι) Unit :=
  if required = 0 ∨ available < required then .error (.insufficientQuorum required available)
  else .ok ()

def validateOperationId (operationId : ι) : Except (AuthorityError ι) Unit :=
  if naming.blank operationId then .error (.invalid "authority operation id must not be empty")
  else .ok ()

namespace SourceQuorumCertificate

variable (certificate : SourceQuorumCertificate ι)

def metadataDigest : ι := naming.metadataDigest certificate.metadata

def sourceMarker : Except (AuthorityError ι) (ControlSourceMarker ι ι) :=
  (ControlSourceMarker.new naming certificate.authority certificate.authorityEpoch
    certificate.revision (certificate.metadataDigest naming)).mapError .controlHead

def targetEpoch : Except (AuthorityError ι) Nat :=
  if u64Max ≤ certificate.authorityEpoch then .error (.invalid "authority epoch exhausted")
  else .ok (certificate.authorityEpoch + 1)

def validate (requiredQuorum : Nat) : Except (AuthorityError ι) Unit :=
  (validateQuorumSize requiredQuorum certificate.controlMemberIds.length).bind fun _ =>
  if naming.blank certificate.authority then
    .error (.invalid "source authority must not be empty")
  else if certificate.authorityEpoch = 0 ∨ certificate.revision = 0 then
    .error (.invalid "source authority epoch and revision must be nonzero")
  else match certificate.metadata.cohorts[certificate.controlCohortId]? with
    | none => .error (.invalid "source certificate names an unknown control cohort")
    | some cohort =>
      if cohort.members ≠ certificate.controlMemberIds ∨
          cohort.members.length ≠ replicationFactor ∨ cohort.members.length < requiredQuorum ∨
          ¬(cohort.status = .active ∨ cohort.status = .draining) then
        .error (.invalid "source control cohort does not match the certified membership")
      else if certificate.agreeingMemberIds.card < requiredQuorum ∨
          ¬∀ id ∈ certificate.agreeingMemberIds, id ∈ certificate.controlMemberIds then
        .error (.insufficientQuorum requiredQuorum certificate.agreeingMemberIds.card)
      else if certificate.metadata.manifest.validate naming.toNaming ≠ .ok () then
        .error (.invalid "source certificate contains an invalid manifest")
      else if certificate.metadataDigest naming = naming.empty then
        .error (.invalid "source metadata digest must not be empty")
      else (certificate.sourceMarker naming).bind fun marker =>
        ((ControlHead.new naming.toHeadCodec certificate.authorityEpoch certificate.revision
          naming.sourceCertificateValidation marker certificate.metadata).mapError
            .controlHead).map fun _ => ()

def freezeRequest (operationId : ι) (requiredQuorum : Nat) :
    Except (AuthorityError ι) (MetadataFreeze ι) :=
  (certificate.validate naming requiredQuorum).bind fun _ =>
  (validateOperationId naming operationId).bind fun _ =>
  (certificate.sourceMarker naming).bind fun source =>
  certificate.targetEpoch.map fun target =>
    ⟨operationId, source, target, certificate.controlCohortId⟩

def matchFreeze (freeze : MetadataFreeze ι) : Except (AuthorityError ι) Unit :=
  (certificate.sourceMarker naming).bind fun source =>
  if freeze.source ≠ source ∨ freeze.controlCohortId ≠ certificate.controlCohortId then
    .error .freezeMismatch
  else certificate.targetEpoch.bind fun target =>
    if freeze.targetAuthorityEpoch ≠ target then .error .freezeMismatch else .ok ()

end SourceQuorumCertificate

def FrozenSourceQuorum.validate (frozen : FrozenSourceQuorum ι) : Except (AuthorityError ι) Unit :=
  (frozen.certificate.validate naming frozen.requiredQuorum).bind fun _ =>
  (validateOperationId naming frozen.freeze.operationId).bind fun _ =>
  (frozen.certificate.matchFreeze naming frozen.freeze).bind fun _ =>
  if frozen.acknowledgedMemberIds.card < frozen.requiredQuorum ∨
      ¬∀ id ∈ frozen.acknowledgedMemberIds, id ∈ frozen.certificate.controlMemberIds then
    .error (.insufficientQuorum frozen.requiredQuorum frozen.acknowledgedMemberIds.card)
  else .ok ()

def SourceQuorumCertificate.initialHead (certificate : SourceQuorumCertificate ι)
    (frozen : FrozenSourceQuorum ι) (operationId : ι) :
    Except (AuthorityError ι) (ControlHead ι ι) :=
  (frozen.validate naming).bind fun _ =>
  if frozen.certificate ≠ certificate then
    .error (.invalid "freeze certificate does not match the source metadata")
  else (certificate.sourceMarker naming).bind fun marker =>
    (ControlHead.new naming.toHeadCodec frozen.freeze.targetAuthorityEpoch certificate.revision
      operationId marker certificate.metadata).mapError .controlHead

def snapshotRevision (snapshot : MembershipSnapshot ι) (digest : ι) :
    Except (AuthorityError ι) Nat :=
  if 0 < snapshot.controlHeadRevision then
    if snapshot.controlHeadDigest = naming.empty ∨ snapshot.controlHeadDigest ≠ digest then
      .error (.invalid "source control-head revision has no matching metadata digest")
    else .ok snapshot.controlHeadRevision
  else .ok (max snapshot.manifestRevision 1)

def candidateFromSnapshot (authority : ι) (response : SourceReplicaSnapshot ι) :
    Except (AuthorityError ι) (SourceQuorumCertificate ι) :=
  let snapshot := response.snapshot
  let members : BTreeMap ι (DurableMember ι) :=
    Std.ExtTreeMap.ofList (snapshot.members.map fun m => (m.id, m)) compare
  let cohorts : BTreeMap Nat (DurableCohort ι) :=
    Std.ExtTreeMap.ofList (snapshot.cohorts.map fun c => (c.id, c)) compare
  if members.size ≠ snapshot.members.length then
    .error (.invalid "source membership contains duplicate member identities")
  else if cohorts.size ≠ snapshot.cohorts.length then
    .error (.invalid "source membership contains duplicate cohort identities")
  else match snapshot.manifest with
    | none => .error (.invalid "source snapshot has no complete routing manifest")
    | some manifest =>
      if manifest.revision ≠ snapshot.manifestRevision ∨
          (0 < manifest.revision ∧ manifest.digest ≠ snapshot.manifestDigest) ∨
          manifest.writeCohortId ≠ snapshot.writeCohortId ∨
          manifest.streamSegments ≠ snapshot.streamSegments then
        .error (.invalid "source snapshot manifest fields disagree")
      else ((manifest.validate naming.toNaming).mapError
          fun e => .invalid (displayReplicaError e)).bind fun _ =>
        let metadata : ControlMetadata ι :=
          { membershipEpoch := snapshot.membershipEpoch, members, cohorts, manifest,
            pendingHandoffs := ∅ }
        let digest := naming.metadataDigest metadata
        let authorityEpoch :=
          if snapshot.controlAuthorityEpoch = 0 then 1 else snapshot.controlAuthorityEpoch
        (snapshotRevision naming snapshot digest).bind fun revision =>
        if snapshot.controlHeadDigest ≠ naming.empty ∧ snapshot.controlHeadDigest ≠ digest then
          .error (.invalid "source control-head digest does not match complete metadata")
        else match cohorts[snapshot.controlAuthorityCohortId]? with
          | none => .error (.invalid "source control authority cohort is missing")
          | some cohort =>
            if cohort.members.length ≠ replicationFactor ∨
                ∃ id ∈ cohort.members, members[id]? = none then
              .error (.invalid "source control cohort is incomplete")
            else if response.memberId ∉ cohort.members then
              .error (.invalid "source response did not come from its control cohort")
            else ((ControlSourceMarker.new naming authority authorityEpoch revision
                digest).mapError .controlHead).bind fun source =>
              ((ControlHead.new naming.toHeadCodec authorityEpoch revision
                naming.sourceCertificateValidation source metadata).mapError
                  .controlHead).map fun _ =>
                { authority, authorityEpoch, revision, metadata
                  controlCohortId := snapshot.controlAuthorityCohortId
                  controlMemberIds := cohort.members
                  agreeingMemberIds := ∅ }

def sameSource (left right : SourceQuorumCertificate ι) : Prop :=
  left.authority = right.authority ∧ left.authorityEpoch = right.authorityEpoch ∧
    left.revision = right.revision ∧ left.controlCohortId = right.controlCohortId ∧
    left.controlMemberIds = right.controlMemberIds ∧ left.metadata = right.metadata

instance (left right : SourceQuorumCertificate ι) : Decidable (sameSource left right) :=
  inferInstanceAs (Decidable (_ ∧ _ ∧ _ ∧ _ ∧ _ ∧ _))

def countCandidate (candidate : SourceQuorumCertificate ι) (memberId : ι) :
    List (SourceQuorumCertificate ι) →
      Except (AuthorityError ι) (List (SourceQuorumCertificate ι))
  | [] => .ok [{ candidate with agreeingMemberIds := {memberId} }]
  | existing :: rest =>
    if sameSource existing candidate then
      if memberId ∈ existing.agreeingMemberIds then
        .error (.invalid "source quorum response contains a duplicate member")
      else .ok ({ existing with
        agreeingMemberIds := insert memberId existing.agreeingMemberIds } :: rest)
    else (countCandidate candidate memberId rest).map (existing :: ·)

def certifySourceQuorum (authority : ι) (responses : List (SourceReplicaSnapshot ι))
    (requiredQuorum : Nat) : Except (AuthorityError ι) (SourceQuorumCertificate ι) :=
  if naming.blank authority then .error (.invalid "source authority must not be empty")
  else (validateQuorumSize requiredQuorum responses.length).bind fun _ =>
  (responses.foldlM (fun (candidates : List (SourceQuorumCertificate ι)) response =>
    (candidateFromSnapshot naming authority response).bind fun candidate =>
      countCandidate candidate response.memberId candidates) []).bind fun candidates =>
  match candidates.filter (requiredQuorum ≤ ·.agreeingMemberIds.card) with
  | [certificate] => (certificate.validate naming requiredQuorum).map fun _ => certificate
  | winners =>
    .error (.insufficientQuorum requiredQuorum
      ((winners.map (·.agreeingMemberIds.card)).max?.getD 0))

def countAcknowledgements (certificate : SourceQuorumCertificate ι) (freeze : MetadataFreeze ι) :
    List (MetadataFreezeAck ι) → Finset ι → Except (AuthorityError ι) (Finset ι)
  | [], counted => .ok counted
  | ack :: rest, counted =>
    if ack.operationId ≠ freeze.operationId ∨ ack.source ≠ freeze.source ∨
        ack.targetAuthorityEpoch ≠ freeze.targetAuthorityEpoch ∨
        ack.metadataDigest ≠ certificate.metadataDigest naming ∨
        ack.controlCohortId ≠ freeze.controlCohortId ∨
        ack.memberId ∉ certificate.controlMemberIds ∨ ack.memberId ∈ counted then
      .error .freezeMismatch
    else countAcknowledgements certificate freeze rest (insert ack.memberId counted)

def certifyFrozenSource (certificate : SourceQuorumCertificate ι) (freeze : MetadataFreeze ι)
    (acknowledgements : List (MetadataFreezeAck ι)) (requiredQuorum : Nat) :
    Except (AuthorityError ι) (FrozenSourceQuorum ι) :=
  (certificate.validate naming requiredQuorum).bind fun _ =>
  (certificate.matchFreeze naming freeze).bind fun _ =>
  (validateOperationId naming freeze.operationId).bind fun _ =>
  (countAcknowledgements naming certificate freeze acknowledgements ∅).bind fun counted =>
  if counted.card < requiredQuorum then
    .error (.insufficientQuorum requiredQuorum counted.card)
  else
    let frozen : FrozenSourceQuorum ι := ⟨certificate, freeze, counted, requiredQuorum⟩
    (frozen.validate naming).map fun _ => frozen

end Certificate

section Freeze

def displayControlHeadError : ControlHeadError ι → String
  | .invalid message => "invalid replica control head: " ++ message
  | .alreadyExists => "replica control head already exists"
  | .precondition => "replica control head conditional update failed"
  | .sourceMarkerMismatch =>
    "replica control head source marker does not match the expected authority"
  | .operationConflict _ => "replica control head operation conflicts with an existing value"
  | .pendingHandoffConflict _ _ => "pending handoff is owned by another operation"

def sourceMarkerForState (state : DurableControlState ι) (metadataDigest : ι) :
    Except ReplicaError (ControlSourceMarker ι ι) :=
  let revision :=
    if state.controlHeadRevision = 0 then max state.manifestRevision 1
    else state.controlHeadRevision
  if state.controlHeadDigest ≠ naming.empty ∧ state.controlHeadDigest ≠ metadataDigest then
    .error .lsnConflict
  else (ControlSourceMarker.new naming naming.legacyControlAuthority
    (max state.controlAuthorityEpoch 1) revision metadataDigest).mapError
      fun e => .nodeStorage (displayControlHeadError e)

def ensureRequestMatchesState (state : DurableControlState ι) (request : MetadataFreeze ι) :
    Except ReplicaError ι :=
  if naming.blank request.operationId then
    .error (.protocol "metadata freeze operation_id must not be empty")
  else
    let digest := naming.metadataDigest (controlMetadataFromState naming.toControlNaming state)
    (sourceMarkerForState naming state digest).bind fun expected =>
    if request.source ≠ expected ∨
        request.controlCohortId ≠ state.controlAuthorityCohortId then .error .lsnConflict
    else if u64Max ≤ max state.controlAuthorityEpoch 1 then
      .error (.protocol "authority epoch exhausted")
    else if request.targetAuthorityEpoch ≠ max state.controlAuthorityEpoch 1 + 1 then
      .error .lsnConflict
    else match state.cohorts[state.controlAuthorityCohortId]? with
      | none => .error .quorumUnavailable
      | some cohort =>
        if cohort.members.length ≠ replicationFactor ∨
            ∃ id ∈ cohort.members, state.members[id]? = none then
          .error .quorumUnavailable
        else .ok digest

def freezeMetadataAuthority (state : DurableControlState ι) (memberId : ι)
    (request : MetadataFreeze ι) :
    Except ReplicaError (MetadataFreezeAck ι × DurableControlState ι) :=
  if naming.blank memberId then
    .error (.protocol "metadata freeze member id must not be empty")
  else (ensureRequestMatchesState naming state request).bind fun metadataDigest =>
    let ack : MetadataFreezeAck ι :=
      { memberId
        operationId := request.operationId
        source := request.source
        targetAuthorityEpoch := request.targetAuthorityEpoch
        metadataDigest
        controlCohortId := request.controlCohortId }
    match state.cohorts[request.controlCohortId]? with
    | none => .error .quorumUnavailable
    | some cohort =>
      if memberId ∉ cohort.members then .error .lsnConflict
      else match state.metadataFreeze with
        | some previous => if previous ≠ request then .error .writerFenced else .ok (ack, state)
        | none => .ok (ack, { state with metadataFreeze := some request })

def considerFreeze (certificate : SourceQuorumCertificate ι)
    (expectedSource : ControlSourceMarker ι ι) (found : Option (MetadataFreeze ι))
    (candidate : Option (MetadataFreeze ι)) :
    Except ReplicaError (Option (MetadataFreeze ι)) :=
  match candidate with
  | none => .ok found
  | some candidate =>
    if candidate.source ≠ expectedSource ∨
        candidate.controlCohortId ≠ certificate.controlCohortId then .ok found
    else if u64Max ≤ certificate.authorityEpoch then
      .error (.protocol "authority epoch exhausted")
    else if candidate.targetAuthorityEpoch ≠ certificate.authorityEpoch + 1 then .ok found
    else match found with
      | none => .ok (some candidate)
      | some existing =>
        if existing ≠ candidate then
          .error (.protocol "source quorum contains conflicting durable metadata freezes")
        else .ok found

end Freeze

end Walleye.Control
