import Walleye.Base.Cas
import Walleye.Control.Head

namespace Walleye.Control

open Walleye.Base Walleye.Base.BTreeMap
open Walleye.Engine (u64Max saturatingAdd)

variable {ι δ : Type} [LinearOrder ι] [DecidableEq δ]

/-- What the rebase of an advance needs: the claim it wants, the key of its phase and the
claim it was checked against. -/
structure Advance (ι : Type) where
  descriptor : PendingHandoffDescriptor ι
  operation : ι
  observed : PendingHandoffDescriptor ι
deriving DecidableEq, Repr

/-- Where a call stands after it has read the head: it returns that head, has a head to put under
the version it expects, has one for `update_exact`, or is an advance that has to be rebased. -/
inductive Reply (ι δ : Type) [LinearOrder ι] where
  | done (current : ControlHead ι δ)
  | put (next : ControlHead ι δ)
  | exact (next : ControlHead ι δ) (retry : Option (Advance ι))
  | rebase (advance : Advance ι)
deriving DecidableEq

def validateExpected (expected current : ControlHead ι δ) : Except (ControlHeadError ι) Unit :=
  if expected.sourceMarker ≠ current.sourceMarker then .error .sourceMarkerMismatch
  else if expected ≠ current then .error .precondition
  else .ok ()

def validateTransition (current next : ControlHead ι δ) : Except (ControlHeadError ι) Unit :=
  if next.revision ≠ saturatingAdd current.revision 1 then .error .precondition
  else if next.authorityEpoch < current.authorityEpoch then .error .precondition
  else if current.authorityEpoch < next.authorityEpoch ∧
      next.authorityEpoch ≠ saturatingAdd current.authorityEpoch 1 then .error .precondition
  else if next.authorityEpoch = current.authorityEpoch ∧
      next.sourceMarker ≠ current.sourceMarker then .error .sourceMarkerMismatch
  else if next.authorityEpoch = saturatingAdd current.authorityEpoch 1 ∧
      (next.sourceMarker.authorityEpoch ≠ current.authorityEpoch ∨
        next.sourceMarker.revision ≠ current.revision ∨
        next.sourceMarker.digest ≠ current.metadataDigest) then .error .sourceMarkerMismatch
  else .ok ()

section Update

variable (codec : HeadCodec ι δ)

def validateSizeAndHead (head : ControlHead ι δ) : Except (ControlHeadError ι) Unit :=
  (head.validate codec).bind fun _ =>
    if maxControlHeadBytes < codec.encodedLength head then
      .error (.invalid ("control-head payload exceeds " ++ toString maxControlHeadBytes ++ " bytes"))
    else .ok ()

/-- The head a call reads; without one it fails its precondition. -/
def load (stored : Option (ControlHead ι δ)) : Except (ControlHeadError ι) (ControlHead ι δ) :=
  match stored with
  | none => .error .precondition
  | some head =>
    if maxControlHeadBytes < codec.encodedLength head then
      .error (.invalid ("control-head object exceeds " ++ toString maxControlHeadBytes ++ " bytes"))
    else (head.validate codec).bind fun _ => .ok head

def ControlHead.withPending (next : ControlHead ι δ)
    (pending : BTreeMap ι (PendingHandoffDescriptor ι)) : ControlHead ι δ :=
  let metadata := { next.metadata with pendingHandoffs := pending }
  let digest := codec.metadataDigest metadata
  { next with
    metadata := metadata
    metadataDigest := digest
    completedOperations :=
      match next.completedOperations[next.operationId]? with
      | none => next.completedOperations
      | some receipt =>
        next.completedOperations.insert next.operationId { receipt with metadataDigest := digest } }

def preservePendingHandoffs (current next : ControlHead ι δ) :
    Except (ControlHeadError ι) (ControlHead ι δ) :=
  (carryForward
      (fun stream (existing : PendingHandoffDescriptor ι) =>
        ControlHeadError.pendingHandoffConflict stream existing.operationId)
      current.metadata.pendingHandoffs next.metadata.pendingHandoffs).bind fun pending =>
    .ok (next.withPending codec pending)

def prepareNext (preserve : Bool) (current next : ControlHead ι δ) :
    Except (ControlHeadError ι) (ControlHead ι δ) :=
  if preserve then preservePendingHandoffs codec current next else .ok next

def updateInner (stored : Option (ControlHead ι δ)) (expected next : ControlHead ι δ)
    (preserve : Bool) : Except (ControlHeadError ι) (Reply ι δ) :=
  (load codec stored).bind fun current =>
  (prepareNext codec preserve current next).bind fun next =>
    match current.completedOperations[next.operationId]? with
    | some receipt =>
      if receiptMatchesHead receipt next then .ok (.done current)
      else .error (.operationConflict next.operationId)
    | none =>
      (validateExpected expected current).bind fun _ =>
      (validateTransition current next).bind fun _ =>
      (next.mergeCompletedOperations codec current).bind fun next =>
      (validateSizeAndHead codec next).bind fun _ => .ok (.put next)

/-- `update_inner` after its conditional put was refused. -/
def reconcileLostPut (stored : Option (ControlHead ι δ)) (next : ControlHead ι δ) :
    Except (ControlHeadError ι) (Reply ι δ) :=
  (load codec stored).bind fun latest =>
    if ∃ receipt ∈ latest.completedOperations[next.operationId]?, receiptMatchesHead receipt next then
      .ok (.done latest)
    else .error .precondition

def headWithMetadata (current : ControlHead ι δ) (metadata : ControlMetadata ι) (operationId : ι) :
    Except (ControlHeadError ι) (ControlHead ι δ) :=
  if u64Max ≤ current.revision then .error (.invalid "control-head revision exhausted")
  else ControlHead.new codec current.authorityEpoch (current.revision + 1) operationId
    current.sourceMarker metadata

end Update

section Handoff

variable (codec : HeadCodec ι δ)

def sourceStatusAllowed (stage : PendingHandoffStage) (status : CohortStatus) : Prop :=
  if stage = .routePublished then status = .active ∨ status = .draining ∨ status = .retired
  else status = .active ∨ status = .draining

instance (stage : PendingHandoffStage) (status : CohortStatus) :
    Decidable (sourceStatusAllowed stage status) :=
  inferInstanceAs (Decidable (if stage = .routePublished then _ else _))

def memberStatusAllowed (stage : PendingHandoffStage) (cohort : CohortStatus)
    (status : MemberStatus) : Prop :=
  if stage = .routePublished then
    (cohort = .retired ∧ status = .removed) ∨
      (cohort ≠ .retired ∧ (status = .active ∨ status = .draining))
  else status = .active ∨ status = .draining

instance (stage : PendingHandoffStage) (cohort : CohortStatus) (status : MemberStatus) :
    Decidable (memberStatusAllowed stage cohort status) :=
  inferInstanceAs (Decidable (if stage = .routePublished then _ else _))

def hashOfMembers (members : List (DurableMember ι)) : ι :=
  codec.memberHash (members.map fun m => (m.id, m.url))

/-- The ranges of a published claim: its successor stands behind its sealed source, or in
place of a source that never held a record. -/
def validatePublishedRanges (d : PendingHandoffDescriptor ι) (ranges : List (StreamSegment ι)) :
    Except (ControlHeadError ι) Unit :=
  match d.successor with
  | none => .error .precondition
  | some successor =>
    match ranges.findIdx? (· = successor) with
    | none => .error .precondition
    | some successorIndex =>
      if ∃ archived ∈ d.archivedLsn, d.source.startLsn ≤ archived then
        match ranges.findIdx? fun candidate =>
            candidate.startLsn = d.source.startLsn ∧ candidate.cohortId = d.source.cohortId ∧
            candidate.memberIds = d.source.memberIds ∧ candidate.memberHash = d.source.memberHash ∧
            candidate.writerEpoch = d.source.writerEpoch ∧
            candidate.placementEpoch = d.source.placementEpoch ∧
            candidate.endLsn = d.archivedLsn with
        | none => .error .precondition
        | some sourceIndex =>
          if sourceIndex + 1 ≠ successorIndex then .error .precondition else .ok ()
      else if successor.startLsn ≠ d.source.startLsn then .error .precondition
      else .ok ()

def validateHandoffAgainstMetadata (metadata : ControlMetadata ι) (d : PendingHandoffDescriptor ι)
    (allowPublished : Bool) : Except (ControlHeadError ι) Unit :=
  match metadata.cohorts[d.source.cohortId]? with
  | none => .error (.invalid "pending handoff source cohort is absent")
  | some source =>
    if source.members ≠ d.source.memberIds ∨ ¬sourceStatusAllowed d.stage source.status then
      .error .precondition
    else if ∃ id ∈ d.source.memberIds, ∀ member ∈ metadata.members[id]?,
        ¬memberStatusAllowed d.stage source.status member.status ∨
          member.cohortId ≠ d.source.cohortId then .error .precondition
    else
      let sourceMembers := d.source.memberIds.filterMap (metadata.members[·]?)
      if sourceMembers.length ≠ replicationFactor ∨
          hashOfMembers codec sourceMembers ≠ d.source.memberHash then .error .precondition
      else match metadata.cohorts[d.targetCohortId]? with
        | none => .error (.invalid "pending handoff target cohort is absent")
        | some target =>
          if target.members ≠ d.targetMembers.map (·.id) ∨
              ¬(target.status = .joining ∨ target.status = .active) ∨
              target.tier ≠ d.targetTier ∨ target.maxAppendBytes ≠ d.targetMaxAppendBytes ∨
              hashOfMembers codec d.targetMembers ≠ d.targetMemberHash then .error .precondition
          else if ∃ expected ∈ d.targetMembers, ∀ member ∈ metadata.members[expected.id]?,
              ¬sameMemberIncarnation member expected ∨
                ¬(member.status = .joining ∨ member.status = .active) then .error .precondition
          else match metadata.manifest.streamSegments[d.stream]? with
            | none => .error .precondition
            | some ranges =>
              if d.stage ≠ .routePublished then
                if ranges.getLast? ≠ some d.source then .error .precondition else .ok ()
              else if ¬allowPublished then .error .precondition
              else validatePublishedRanges d ranges

def claimPendingHandoff (stored : Option (ControlHead ι δ)) (expected : ControlHead ι δ)
    (d : PendingHandoffDescriptor ι) : Except (ControlHeadError ι) (Reply ι δ) :=
  (d.validate codec.toNaming (some d.stream)).bind fun _ =>
  if d.stage ≠ .prepared then
    .error (.invalid "pending handoff claims must start in prepared stage")
  else (load codec stored).bind fun current =>
  (pendingOperationId codec d.operationId d.stream "claim").bind fun claimOperation =>
    match current.metadata.pendingHandoffs[d.stream]? with
    | some existing =>
      if existing.ImmutableEq d then .ok (.done current)
      else .error (.pendingHandoffConflict d.stream existing.operationId)
    | none =>
      if current.completedOperations.contains claimOperation then
        .error (.operationConflict d.operationId)
      else (validateExpected expected current).bind fun _ =>
        (validateHandoffAgainstMetadata codec current.metadata d false).bind fun _ =>
        (headWithMetadata codec current { current.metadata with
          pendingHandoffs := current.metadata.pendingHandoffs.insert d.stream d }
          claimOperation).bind fun next => .ok (.exact next none)

def replayStage (current : ControlHead ι δ) (existing d : PendingHandoffDescriptor ι)
    (operation : ι) : Except (ControlHeadError ι) (Reply ι δ) :=
  let exactPhase := d.archivedLsn = existing.archivedLsn ∧ d.successor = existing.successor ∧
    (d.successorPlacement = none ∨ d.successorPlacement = existing.successorPlacement)
  if d.stage.rank < existing.stage.rank ∧ exactPhase then
    if current.completedOperations.contains operation then .ok (.done current)
    else .error .precondition
  else if d.stage = existing.stage then
    if exactPhase ∧ current.completedOperations.contains operation then .ok (.done current)
    else .error (.operationConflict d.operationId)
  else .error .precondition

def advancedHead (current : ControlHead ι δ) (d : PendingHandoffDescriptor ι) (operation : ι)
    (retry : Option (Advance ι)) : Except (ControlHeadError ι) (Reply ι δ) :=
  (validateHandoffAgainstMetadata codec current.metadata d true).bind fun _ =>
  (headWithMetadata codec current { current.metadata with
    pendingHandoffs := current.metadata.pendingHandoffs.insert d.stream d }
    operation).bind fun next => .ok (.exact next retry)

def advancePendingHandoff (stored : Option (ControlHead ι δ)) (expected : ControlHead ι δ)
    (d : PendingHandoffDescriptor ι) : Except (ControlHeadError ι) (Reply ι δ) :=
  (d.validate codec.toNaming (some d.stream)).bind fun _ =>
  if d.stage = .prepared then
    .error (.invalid "pending handoff advance must move beyond prepared stage")
  else (load codec stored).bind fun current =>
  (pendingOperationId codec d.operationId d.stream d.stage.operationSuffix).bind fun operation =>
    match current.metadata.pendingHandoffs[d.stream]? with
    | none =>
      if current.completedOperations.contains operation then .ok (.done current)
      else .error .precondition
    | some existing =>
      if existing.operationId ≠ d.operationId then
        .error (.pendingHandoffConflict d.stream existing.operationId)
      else if ¬existing.ImmutableEq d then .error (.operationConflict d.operationId)
      else if d.stage.rank ≤ existing.stage.rank then replayStage current existing d operation
      else match validateExpected expected current with
        | .error .precondition => .ok (.rebase ⟨d, operation, existing⟩)
        | .error e => .error e
        | .ok _ => advancedHead codec current d operation (some ⟨d, operation, existing⟩)

def rebasePendingHandoffAdvance (stored : Option (ControlHead ι δ)) (a : Advance ι) :
    Except (ControlHeadError ι) (Reply ι δ) :=
  (load codec stored).bind fun latest =>
    match latest.metadata.pendingHandoffs[a.descriptor.stream]? with
    | none => .error .precondition
    | some claim =>
      if claim.operationId ≠ a.descriptor.operationId then
        .error (.pendingHandoffConflict a.descriptor.stream claim.operationId)
      else if claim = a.descriptor ∧ latest.completedOperations.contains a.operation then
        .ok (.done latest)
      else if claim ≠ a.observed then
        if a.descriptor.stage.rank ≤ claim.stage.rank then .error .precondition
        else .error (.operationConflict a.descriptor.operationId)
      else advancedHead codec latest a.descriptor a.operation none

def publishPendingHandoff (stored : Option (ControlHead ι δ)) (expected : ControlHead ι δ)
    (metadata : ControlMetadata ι) (d : PendingHandoffDescriptor ι) :
    Except (ControlHeadError ι) (Reply ι δ) :=
  (d.validate codec.toNaming (some d.stream)).bind fun _ =>
  if d.stage ≠ .routePublished then
    .error (.invalid "pending handoff publication requires route_published stage")
  else if metadata.pendingHandoffs[d.stream]? ≠ some d then .error .precondition
  else (load codec stored).bind fun current =>
    match current.metadata.pendingHandoffs[d.stream]? with
    | none => .error .precondition
    | some existing =>
      if existing.operationId ≠ d.operationId then
        .error (.pendingHandoffConflict d.stream existing.operationId)
      else (pendingOperationId codec d.operationId d.stream
          d.stage.operationSuffix).bind fun operation =>
        if existing = d ∧ existing.stage = .routePublished ∧
            current.completedOperations.contains operation then .ok (.done current)
        else if ¬existing.ImmutableEq d ∨ d.stage.rank ≤ existing.stage.rank ∨
            existing.stage.rank < PendingHandoffStage.archiveVerified.rank then .error .precondition
        else (validateExpected expected current).bind fun _ =>
          (validateHandoffAgainstMetadata codec metadata d true).bind fun _ =>
          (headWithMetadata codec current metadata operation).bind fun next =>
            .ok (.exact next none)

def completePendingHandoff (stored : Option (ControlHead ι δ)) (expected : ControlHead ι δ)
    (stream operationId : ι) : Except (ControlHeadError ι) (Reply ι δ) :=
  (load codec stored).bind fun current =>
  (pendingOperationId codec operationId stream "complete").bind fun completeOperation =>
    match current.metadata.pendingHandoffs[stream]? with
    | none =>
      if current.completedOperations.contains completeOperation then .ok (.done current)
      else .error .precondition
    | some existing =>
      if existing.operationId ≠ operationId then
        .error (.pendingHandoffConflict stream existing.operationId)
      else if existing.stage ≠ .routePublished then .error .precondition
      else (validateExpected expected current).bind fun _ =>
        (validateHandoffAgainstMetadata codec current.metadata existing true).bind fun _ =>
        (headWithMetadata codec current { current.metadata with
          pendingHandoffs := current.metadata.pendingHandoffs.erase stream }
          completeOperation).bind fun next => .ok (.exact next none)

end Handoff

/-- A call of the store. All but the first carry the snapshot their caller expects. -/
inductive HeadCall (ι δ : Type) [LinearOrder ι] where
  | create (head : ControlHead ι δ)
  | update (next : ControlHead ι δ)
  | claim (descriptor : PendingHandoffDescriptor ι)
  | advance (descriptor : PendingHandoffDescriptor ι)
  | publish (metadata : ControlMetadata ι) (descriptor : PendingHandoffDescriptor ι)
  | complete (stream operationId : ι)
deriving DecidableEq

def HeadCall.isUpdate : HeadCall ι δ → Bool
  | .update _ => true
  | _ => false

structure HeadWrite (ι δ : Type) [LinearOrder ι] where
  head : ControlHead ι δ
  call : HeadCall ι δ
deriving DecidableEq

/-- What a call does next: the read of `update_exact`, a conditional put, or the read of a
rebase. -/
inductive HeadPhase (ι δ : Type) [LinearOrder ι] where
  | exact (next : ControlHead ι δ) (retry : Option (Advance ι))
  | put (next : ControlHead ι δ) (retry : Option (Advance ι))
  | rebase (advance : Advance ι)
deriving DecidableEq

/-- A call under way, with the version its next write is conditional on. -/
structure HeadTask (ι δ : Type) [LinearOrder ι] where
  call : HeadCall ι δ
  seen : Nat
  phase : HeadPhase ι δ
deriving DecidableEq

/-- The heads the object took in order, and the calls. A call stays listed, so that any of its
requests may come late or more than once. -/
structure HeadStore (ι δ : Type) [LinearOrder ι] where
  writes : List (HeadWrite ι δ)
  tasks : List (HeadTask ι δ)
deriving DecidableEq

inductive HeadStep (ι δ : Type) [LinearOrder ι] where
  | call (seen : Nat) (call : HeadCall ι δ)
  | resume (task : Nat)
deriving DecidableEq

namespace HeadStore

variable (codec : HeadCodec ι δ)

def new : HeadStore ι δ := ⟨[], []⟩

def stored (s : HeadStore ι δ) : Option (ControlHead ι δ) := s.writes.getLast?.map (·.head)

def heads (s : HeadStore ι δ) : List (ControlHead ι δ) := s.writes.map (·.head)

def push (s : HeadStore ι δ) (call : HeadCall ι δ) (seen : Nat) (phase : HeadPhase ι δ) :
    HeadStore ι δ :=
  { s with tasks := s.tasks ++ [⟨call, seen, phase⟩] }

def start (stored : Option (ControlHead ι δ)) (expected : ControlHead ι δ) :
    HeadCall ι δ → Except (ControlHeadError ι) (Reply ι δ)
  | .create _ => .error .alreadyExists
  | .update next => updateInner codec stored expected next true
  | .claim d => claimPendingHandoff codec stored expected d
  | .advance d => advancePendingHandoff codec stored expected d
  | .publish metadata d => publishPendingHandoff codec stored expected metadata d
  | .complete stream operationId => completePendingHandoff codec stored expected stream operationId

def follow (s : HeadStore ι δ) (call : HeadCall ι δ) (seen : Nat) (retry : Option (Advance ι)) :
    Except (ControlHeadError ι) (Reply ι δ) → HeadStore ι δ
  | .ok (.done _) => s
  | .ok (.put next) => s.push call seen (.put next retry)
  | .ok (.exact next retry) => s.push call s.writes.length (.exact next retry)
  | .ok (.rebase a) => s.push call s.writes.length (.rebase a)
  | .error .precondition =>
    match retry with
    | some a => s.push call s.writes.length (.rebase a)
    | none => s
  | .error _ => s

def resume (s : HeadStore ι δ) (task : HeadTask ι δ) : Option (HeadStore ι δ) :=
  match task.phase with
  | .exact next retry =>
    (valueAt s.writes task.seen).map fun expected =>
      s.follow task.call task.seen retry
        (updateInner codec s.stored expected.head next false)
  | .put next retry =>
    match putIf s.writes task.seen ⟨next, task.call⟩ with
    | some writes => some { s with writes := writes }
    | none => some (s.follow task.call task.seen retry (reconcileLostPut codec s.stored next))
  | .rebase a =>
    some (s.follow task.call s.writes.length none (rebasePendingHandoffAdvance codec s.stored a))

def create (s : HeadStore ι δ) (head : ControlHead ι δ) : Option (HeadStore ι δ) :=
  match validateSizeAndHead codec head with
  | .error _ => none
  | .ok _ => (putIf s.writes 0 ⟨head, .create head⟩).map fun writes => { s with writes := writes }

/-- One step: a call starts from a version its caller has read, or a call under way goes on. -/
def step (s : HeadStore ι δ) : HeadStep ι δ → Option (HeadStore ι δ)
  | .call _ (.create head) => s.create codec head
  | .call seen call =>
    (valueAt s.writes seen).map fun expected =>
      s.follow call seen none (start codec s.stored expected.head call)
  | .resume i => s.tasks[i]?.bind (s.resume codec)

end HeadStore

end Walleye.Control
