import Walleye.Control.Head

namespace Walleye.Control

open Walleye.Base Walleye.Base.BTreeMap

def controlStateVersion : Nat := 1

inductive UrlForm where
  | malformed
  | unsupported
  | http
deriving DecidableEq, Repr

/-- The names of a control document. Hashes are hexadecimal texts, which are never empty. -/
structure ControlNaming (ι : Type) [LinearOrder ι] extends HeadCodec ι ι where
  urlForm : ι → UrlForm
  /-- `"manifest-migration"`. -/
  manifestMigration : ι
  blank_empty : blank empty = true
  blank_manifestMigration : blank manifestMigration = false
  memberHash_ne_empty : ∀ members, memberHash members ≠ empty
  manifestDigest_ne_empty : ∀ ranges, manifestDigest ranges ≠ empty

def numbered : ControlNaming ℕ where
  empty := 0
  blank name := name == 0
  length _ := 1
  memberHash members := members.foldl (fun sum m => 100 * sum + 10 * m.1 + m.2) 0 + 1
  manifestDigest ranges :=
    (ranges.toList.flatMap (·.2)).foldl (fun sum segment =>
      100 * sum + 10 * segment.startLsn + segment.endLsn.getD 0 + segment.placementEpoch) 0 + 1
  phaseId operationId stream phase := 100 * operationId + 10 * stream + phase.length
  metadataDigest metadata := 100 * metadata.membershipEpoch + metadata.manifest.digest + 1
  blankDigest digest := digest == 0
  digestLength _ := 1
  encodedLength _ := 1
  urlForm _ := .http
  manifestMigration := 1
  blank_empty := rfl
  blank_manifestMigration := rfl
  memberHash_ne_empty _ := Nat.succ_ne_zero _
  manifestDigest_ne_empty _ := Nat.succ_ne_zero _

/-- The fence that ends metadata writes through the old control members. -/
structure MetadataFreeze (ι : Type) where
  operationId : ι
  source : ControlSourceMarker ι ι
  targetAuthorityEpoch : Nat
  controlCohortId : Nat
deriving DecidableEq, Repr

structure MembershipSnapshot (ι : Type) [LinearOrder ι] where
  membershipEpoch : Nat
  manifestRevision : Nat
  manifestDigest : ι
  writeCohortId : Nat
  controlAuthorityEpoch : Nat
  controlHeadRevision : Nat
  controlHeadDigest : ι
  controlAuthorityCohortId : Nat
  metadataFreeze : Option (MetadataFreeze ι)
  manifest : Option (ReplicaManifest ι)
  members : List (DurableMember ι)
  cohorts : List (DurableCohort ι)
  streamSegments : StreamRanges ι
deriving DecidableEq

structure DurableControlState (ι : Type) [LinearOrder ι] where
  version : Nat
  membershipEpoch : Nat
  manifestRevision : Nat
  manifestDigest : ι
  manifestOperationId : ι
  manifestWriterEpoch : Nat
  manifestCohortId : Nat
  manifestMemberHash : ι
  /-- The cohort that receives the next route; zero leaves the choice to the ring. -/
  writeCohortId : Nat
  controlAuthorityEpoch : Nat
  controlHeadRevision : Nat
  controlHeadDigest : ι
  controlAuthorityCohortId : Nat
  metadataFreeze : Option (MetadataFreeze ι)
  members : BTreeMap ι (DurableMember ι)
  operations : BTreeMap ι (MembershipSnapshot ι)
  manifestOperations : BTreeMap ι (ReplicaManifest ι)
  cohorts : BTreeMap Nat (DurableCohort ι)
  streamSegments : StreamRanges ι
deriving DecidableEq

section Ranges

variable {α ι : Type} [LinearOrder ι]

/-- The largest element in an order, and the last of those that are as large. -/
def maxBy (before : α → α → Bool) : List α → Option α
  | [] => none
  | x :: rest => some (rest.foldl (fun best y => if before y best then best else y) x)

theorem maxBy_mem {x : α} (h : maxBy before xs = some x) : x ∈ xs := by
  cases xs with
  | nil => cases h
  | cons y rest =>
    have hf : ∀ (rest : List α) (best : α),
        rest.foldl (fun best y => if before y best then best else y) best ∈ best :: rest := by
      intro rest
      induction rest with
      | nil => simp
      | cons z rest ih =>
        intro best
        rw [List.foldl_cons]
        rcases List.mem_cons.mp (ih (if before z best then best else z)) with he | hm
        · rw [he]
          split <;> simp
        · simp [hm]
    cases h
    exact hf rest y

def allSegments (ranges : StreamRanges ι) : List (StreamSegment ι) :=
  ranges.valuesOf.flatten

theorem mem_allSegments {segment : StreamSegment ι} :
    segment ∈ allSegments ranges ↔
      ∃ (stream : ι) (segments : List (StreamSegment ι)),
        ranges[stream]? = some segments ∧ segment ∈ segments := by
  simp only [allSegments,List.mem_flatten,mem_valuesOf]
  constructor
  · intro h
    obtain ⟨segments,⟨stream,hs⟩,hm⟩ := h
    exact ⟨stream,segments,hs,hm⟩
  · intro h
    obtain ⟨stream,segments,hs,hm⟩ := h
    exact ⟨segments,⟨stream,hs⟩,hm⟩

def olderSegment (a b : StreamSegment ι) : Bool :=
  a.manifestRevision < b.manifestRevision ∨
    (a.manifestRevision = b.manifestRevision ∧ a.startLsn < b.startLsn)

end Ranges

structure ManifestBinding (ι : Type) where
  writerEpoch : Nat
  cohortId : Nat
  memberHash : ι
deriving DecidableEq, Repr

section Manifest

variable {ι : Type} [LinearOrder ι] (naming : ControlNaming ι)

def latestManifestBinding (segments : StreamRanges ι) : ManifestBinding ι :=
  match maxBy olderSegment (allSegments segments) with
  | none => ⟨0, 0, naming.empty⟩
  | some segment => ⟨segment.writerEpoch, segment.cohortId, segment.memberHash⟩

def memberSetHash (state : DurableControlState ι) (memberIds : List ι) : Option ι :=
  (memberIds.mapM fun id => state.members[id]?.map fun m => (m.id, m.url)).map naming.memberHash

def cohortMemberHash (state : DurableControlState ι) (cohortId : Nat) : Option ι :=
  state.cohorts[cohortId]?.bind fun cohort => memberSetHash naming state cohort.members

def DurableCohort.complete (cohort : DurableCohort ι) : Bool :=
  cohort.status = .active ∧ cohort.members.length = replicationFactor

def newestActiveCohort (state : DurableControlState ι) : Option (DurableCohort ι) :=
  maxBy (fun a b => a.id < b.id) (state.cohorts.valuesOf.filter (·.complete))

def manifestMetadataForState (state : DurableControlState ι) (segments : StreamRanges ι) :
    ManifestBinding ι :=
  let latest := latestManifestBinding naming segments
  let writerEpoch := max state.manifestWriterEpoch latest.writerEpoch
  if state.writeCohortId ≠ 0 then
    ⟨writerEpoch, state.writeCohortId,
      (cohortMemberHash naming state state.writeCohortId).getD naming.empty⟩
  else if latest.memberHash ≠ naming.empty then ⟨writerEpoch, latest.cohortId, latest.memberHash⟩
  else
    let cohortId := ((newestActiveCohort state).map (·.id)).getD state.manifestCohortId
    let memberHash := (cohortMemberHash naming state cohortId).getD naming.empty
    ⟨writerEpoch, cohortId,
      if memberHash = naming.empty then state.manifestMemberHash else memberHash⟩

def manifestPolicyForState (state : DurableControlState ι) (segments : StreamRanges ι)
    (cohortId : Nat) : ι × Nat :=
  let newest := maxBy olderSegment ((allSegments segments).filter (·.cohortId = cohortId))
  let policy := newest.map fun segment => (segment.tier, segment.maxAppendBytes)
  let named := policy.filter fun p => p.1 ≠ naming.empty ∨ p.2 ≠ 0
  let cohort := state.cohorts[cohortId]?.map fun c => (c.tier, c.maxAppendBytes)
  (named.or cohort).getD (naming.empty, 0)

def currentDigest (state : DurableControlState ι) : ι :=
  if state.manifestDigest = naming.empty then naming.manifestDigest state.streamSegments
  else state.manifestDigest

def manifestCohort (state : DurableControlState ι) : Nat :=
  if state.writeCohortId ≠ 0 then state.writeCohortId else state.manifestCohortId

def manifestFromState (state : DurableControlState ι) : ReplicaManifest ι :=
  let revision := state.manifestRevision
  let policy := manifestPolicyForState naming state state.streamSegments (manifestCohort state)
  { version := manifestVersion
    revision := revision
    digest := if revision = 0 then naming.empty else currentDigest naming state
    writerEpoch := state.manifestWriterEpoch
    cohortId := manifestCohort state
    memberSetHash :=
      if revision = 0 then naming.empty
      else if state.manifestMemberHash = naming.empty then
        (cohortMemberHash naming state (manifestCohort state)).getD naming.empty
      else state.manifestMemberHash
    writeCohortId := state.writeCohortId
    streamSegments := state.streamSegments
    operationId := state.manifestOperationId
    tier := if revision = 0 then naming.empty else policy.1
    maxAppendBytes := if revision = 0 then 0 else policy.2 }

def MembershipSnapshot.fromState (state : DurableControlState ι) : MembershipSnapshot ι where
  membershipEpoch := state.membershipEpoch
  manifestRevision := state.manifestRevision
  manifestDigest := state.manifestDigest
  writeCohortId := state.writeCohortId
  controlAuthorityEpoch := state.controlAuthorityEpoch
  controlHeadRevision := state.controlHeadRevision
  controlHeadDigest := state.controlHeadDigest
  controlAuthorityCohortId := state.controlAuthorityCohortId
  metadataFreeze := state.metadataFreeze
  manifest := some (manifestFromState naming state)
  members := state.members.valuesOf
  cohorts := state.cohorts.valuesOf
  streamSegments := state.streamSegments

def controlMetadataFromState (state : DurableControlState ι) : ControlMetadata ι where
  membershipEpoch := state.membershipEpoch
  members := state.members
  cohorts := state.cohorts
  manifest := manifestFromState naming state
  pendingHandoffs := ∅

def DurableControlState.default : DurableControlState ι where
  version := controlStateVersion
  membershipEpoch := 0
  manifestRevision := 0
  manifestDigest := naming.empty
  manifestOperationId := naming.empty
  manifestWriterEpoch := 0
  manifestCohortId := 0
  manifestMemberHash := naming.empty
  writeCohortId := 0
  controlAuthorityEpoch := 1
  controlHeadRevision := 0
  controlHeadDigest := naming.empty
  controlAuthorityCohortId := 0
  metadataFreeze := none
  members := ∅
  operations := ∅
  manifestOperations := ∅
  cohorts := ∅
  streamSegments := ∅

def manifestRoute (manifest : ReplicaManifest ι) (stream : ι) (lsn : Nat) :
    Option (StreamSegment ι) :=
  manifest.streamSegments[stream]?.bind fun segments =>
    segments.find? fun segment => segment.startLsn ≤ lsn ∧ ∀ last ∈ segment.endLsn, lsn ≤ last

end Manifest

end Walleye.Control
