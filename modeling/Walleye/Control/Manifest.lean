import Walleye.Base.Maps
import Walleye.Bitr.Record
import Walleye.Engine.Arrival

namespace Walleye.Control

open Walleye.Base Walleye.Base.BTreeMap
open Walleye.Bitr (ReplicaError)
open Walleye.Engine (u64Max)

inductive MemberStatus where
  | joining
  | active
  | draining
  | removed
deriving DecidableEq, Repr

structure DurableMember (ι : Type) where
  id : ι
  url : ι
  status : MemberStatus
  cohortId : Nat
  name : ι
  machineId : ι
  volumeId : ι
  ordinal : Nat
  tier : ι
  maxAppendBytes : Nat
deriving DecidableEq, Repr

inductive CohortStatus where
  | joining
  | active
  | draining
  | retired
deriving DecidableEq, Repr

structure DurableCohort (ι : Type) where
  id : Nat
  members : List ι
  status : CohortStatus
  tier : ι
  maxAppendBytes : Nat
deriving DecidableEq, Repr

/-- A range of a stream's LSNs and the cohort that holds it; the last one may be open. -/
structure StreamSegment (ι : Type) where
  startLsn : Nat
  endLsn : Option Nat
  cohortId : Nat
  memberIds : List ι
  memberHash : ι
  writerEpoch : Nat
  manifestRevision : Nat
  placementEpoch : Nat
  operationId : ι
  tier : ι
  maxAppendBytes : Nat
deriving DecidableEq, Repr

abbrev StreamRanges (ι : Type) [LinearOrder ι] := BTreeMap ι (List (StreamSegment ι))

structure ReplicaManifest (ι : Type) [LinearOrder ι] where
  version : Nat
  revision : Nat
  digest : ι
  writerEpoch : Nat
  cohortId : Nat
  memberSetHash : ι
  writeCohortId : Nat
  streamSegments : BTreeMap ι (List (StreamSegment ι))
  operationId : ι
  tier : ι
  maxAppendBytes : Nat
deriving DecidableEq

structure PlacementEpoch (ι : Type) where
  epoch : Nat
  routeDigest : ι
deriving DecidableEq, Repr

structure Naming (ι : Type) [LinearOrder ι] where
  /-- The empty name. -/
  empty : ι
  /-- Empty once trimmed. -/
  blank : ι → Bool
  length : ι → Nat
  /-- The digest of member ids with their URLs. -/
  memberHash : List (ι × ι) → ι
  manifestDigest : StreamRanges ι → ι

def replicationFactor : Nat := 3

def manifestVersion : Nat := 1

section Validation

variable {ι : Type} [LinearOrder ι] (naming : Naming ι)

def validateStreamRanges (expected : Nat) : List (StreamSegment ι) → Except ReplicaError Unit
  | [] => .ok ()
  | segment :: rest =>
    if segment.startLsn ≠ expected ∨ (∃ last ∈ segment.endLsn, last < segment.startLsn) ∨
        (segment.endLsn = none ∧ rest ≠ []) ∨ ¬segment.memberIds.IsChain (· < ·) then
      .error (.protocol "placement manifest stream ranges are not contiguous")
    else if segment.memberIds = [] ∨ segment.memberHash = naming.empty ∨
        segment.manifestRevision = 0 ∨ naming.blank segment.operationId then
      .error (.protocol "placement manifest stream range is missing its member binding")
    else if segment.memberIds.length ≠ replicationFactor then
      .error (.protocol "placement manifest stream range must have exactly three members")
    else match segment.endLsn with
      | none => .ok ()
      | some last =>
        if u64Max ≤ last then .error (.protocol "placement manifest LSN range exhausted")
        else validateStreamRanges (last + 1) rest

def validateStreamSegments (ranges : StreamRanges ι) : Except ReplicaError Unit :=
  ranges.toList.forM fun (stream, segments) =>
    if naming.blank stream ∨ segments = [] then
      .error (.protocol "placement manifest contains an invalid stream range map")
    else validateStreamRanges naming 1 segments

def ReplicaManifest.validate (m : ReplicaManifest ι) : Except ReplicaError Unit :=
  if m.version ≠ manifestVersion then
    .error (.protocol "unsupported replica placement manifest version")
  else if m.revision = 0 then
    if m.operationId ≠ naming.empty ∨ m.streamSegments ≠ ∅ ∨ m.writerEpoch ≠ 0 ∨ m.cohortId ≠ 0 ∨
        m.memberSetHash ≠ naming.empty ∨ m.writeCohortId ≠ 0 ∨ m.tier ≠ naming.empty ∨
        m.maxAppendBytes ≠ 0 then
      .error (.protocol "non-empty placement manifest has zero revision")
    else .ok ()
  else if naming.blank m.operationId then
    .error (.protocol "placement manifest operation_id must not be empty")
  else if m.memberSetHash = naming.empty then
    .error (.protocol "placement manifest is missing its member-set hash")
  else if m.digest ≠ naming.manifestDigest m.streamSegments then
    .error (.protocol "placement manifest digest does not match its ranges")
  else validateStreamSegments naming m.streamSegments

end Validation

end Walleye.Control
