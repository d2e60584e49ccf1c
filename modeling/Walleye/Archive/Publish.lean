import Walleye.Base.Cas
import Walleye.Archive.Layout

namespace Walleye.Archive

open Walleye.Base Walleye.Bitr
open Walleye.Engine (saturatingAdd)

def headUpdateAttempts : Nat := 8

/-- The stream and records of an `archive_committed` call past its first checks, and the head
updates lost since its last success. -/
structure Call (σ β : Type) where
  stream : σ
  records : List (EncryptedRecord σ β)
  contentionAttempts : Nat
deriving DecidableEq, Repr

/-- Where the loop of a call stands: before its head read, its segment or its head update.
`seen` is the version of the head it read. -/
inductive Point (σ β κ δ : Type) where
  | loading
  | putting (head : ArchiveHead σ κ δ) (seen : Nat) (batch : List (EncryptedRecord σ β))
  | publishing (next : ArchiveHead σ κ δ) (seen : Nat) (batch : List (EncryptedRecord σ β))
deriving DecidableEq, Repr

inductive Task (σ β κ δ : Type) where
  | running (call : Call σ β) (point : Point σ β κ δ)
  | returned (result : Except (ArchiveError κ) Nat)
deriving DecidableEq, Repr

/-- An object store and the archive calls that run against it. `heads` lists every value of a
stream's head object; `published`, for the proofs, what the updates that took effect archived. -/
structure ArchiveStore (σ β κ δ ω : Type) where
  heads : σ → List (ArchiveHead σ κ δ)
  object : κ → Option ω
  tasks : List (Task σ β κ δ)
  published : σ → List (EncryptedRecord σ β)

/-- What the network does to one request: it may be lost, or its answer. -/
structure Reply where
  delivered : Bool
  answered : Bool
deriving DecidableEq, Repr

inductive Step (σ β : Type) where
  | call (records : List (EncryptedRecord σ β))
  | resume (i : Nat) (reply : Reply)

structure ArchiveConfig (σ β κ δ ω : Type) where
  codec : ArchiveCodec σ β κ δ ω
  emptyName : σ → Bool
  maxRecordsPerSegment : Nat
  maxRecordsPerSegment_pos : 0 < maxRecordsPerSegment

variable {σ β κ δ ω : Type}

def checkWindows : List (EncryptedRecord σ β) → Except (ArchiveError κ) Unit
  | [] => .ok ()
  | [_] => .ok ()
  | r :: q :: rest =>
    if q.lsn ≠ saturatingAdd r.lsn 1 ∨ q.committedLsn ≠ r.lsn ∨ q.writerEpoch < r.writerEpoch then
      .error (.contiguity ("expected LSN " ++ toString (saturatingAdd r.lsn 1) ++ " after " ++
        toString r.lsn))
    else checkWindows (q :: rest)

namespace ArchiveStore

def new : ArchiveStore σ β κ δ ω := ⟨fun _ => [], fun _ => none, [], fun _ => []⟩

def contents (s : ArchiveStore σ β κ δ ω) : Contents σ κ δ ω :=
  ⟨fun stream => (s.heads stream).getLast?, s.object⟩

variable [DecidableEq σ] [DecidableEq κ] [DecidableEq δ] [DecidableEq ω]
  (config : ArchiveConfig σ β κ δ ω)

def start (records : List (EncryptedRecord σ β)) : Task σ β κ δ :=
  match records with
  | [] => .returned (.ok 0)
  | first :: _ =>
    if config.emptyName first.stream = true ∨ ∃ r ∈ records, r.stream ≠ first.stream then
      .returned (.error (.contiguity "one archive call must contain exactly one non-empty stream"))
    else
      match checkWindows (κ := κ) records with
      | .error e => .returned (.error e)
      | .ok () => .running ⟨first.stream, records, 0⟩ .loading

/-- The first half of the loop: what to archive after the head that was read. -/
def choose (call : Call σ β) (head : ArchiveHead σ κ δ) (seen : Nat) : Task σ β κ δ :=
  let expected := saturatingAdd head.archivedLsn 1
  match call.records.filter fun r => decide (expected ≤ r.lsn) with
  | [] => .returned (.ok head.archivedLsn)
  | first :: rest =>
    if first.lsn ≠ expected ∨ first.committedLsn ≠ expected - 1 ∨
        first.writerEpoch < head.writerEpoch then
      .returned (.error (.contiguity ("expected LSN " ++ toString expected ++ ", received " ++
        toString first.lsn)))
    else .running call (.putting head seen ((first :: rest).take config.maxRecordsPerSegment))

def extend (head : ArchiveHead σ κ δ) (stream : σ) (batch : List (EncryptedRecord σ β)) :
    ArchiveHead σ κ δ :=
  { head with
    archivedLsn := (segmentRef config.codec stream batch).lastLsn,
    writerEpoch := lastEpoch head.writerEpoch batch,
    segments := head.segments ++ [segmentRef config.codec stream batch] }

def putSegment (s : ArchiveStore σ β κ δ ω) (stream : σ) (batch : List (EncryptedRecord σ β)) :
    Except (ArchiveError κ) (κ → Option ω) :=
  let bytes := config.codec.encode (.ofBatch stream batch)
  let key := (segmentRef config.codec stream batch).key
  match s.object key with
  | none => .ok (Function.update s.object key (some bytes))
  | some existing => if existing ≠ bytes then .error (.checksum key) else .ok s.object

/-- The loop after a head update: a success may end the call, a conflict may end its patience. -/
def afterUpdate (call : Call σ β) (updated : Option Nat) : Task σ β κ δ :=
  match updated with
  | some archivedLsn =>
    if archivedLsn = call.records.getLast?.elim 0 (·.lsn) then .returned (.ok archivedLsn)
    else .running { call with contentionAttempts := 0 } .loading
  | none =>
    if headUpdateAttempts ≤ call.contentionAttempts + 1 then .returned (.error .contended)
    else .running { call with contentionAttempts := call.contentionAttempts + 1 } .loading

/-- A call that hears nothing gives up; its request may have taken effect. -/
def orLost (reply : Reply) (task : Task σ β κ δ) : Task σ β κ δ :=
  if reply.answered = true then task else .returned (.error .objectStore)

def stepPoint (s : ArchiveStore σ β κ δ ω) (i : Nat) (reply : Reply) (call : Call σ β) :
    Point σ β κ δ → ArchiveStore σ β κ δ ω
  | .loading =>
    let task := match loadHead config.codec s.contents call.stream with
      | .error e => .returned (.error e)
      | .ok head => choose config call head (s.heads call.stream).length
    { s with tasks := s.tasks.set i (orLost reply task) }
  | .putting head seen batch =>
    if reply.delivered = false then
      { s with tasks := s.tasks.set i (.returned (.error .objectStore)) }
    else
      match s.putSegment config call.stream batch with
      | .error e => { s with tasks := s.tasks.set i (orLost reply (.returned (.error e))) }
      | .ok object =>
        { s with
          object := object,
          tasks := s.tasks.set i (orLost reply (.running call
            (.publishing (extend config head call.stream batch) seen batch))) }
  | .publishing next seen batch =>
    if reply.delivered = false then
      { s with tasks := s.tasks.set i (.returned (.error .objectStore)) }
    else
      match putIf (s.heads call.stream) seen next with
      | none => { s with tasks := s.tasks.set i (orLost reply (afterUpdate call none)) }
      | some heads =>
        { s with
          heads := Function.update s.heads call.stream heads,
          published := Function.update s.published call.stream
            (s.published call.stream ++ batch),
          tasks := s.tasks.set i (orLost reply (afterUpdate call (some next.archivedLsn))) }

def step (s : ArchiveStore σ β κ δ ω) : Step σ β → Option (ArchiveStore σ β κ δ ω)
  | .call records => some { s with tasks := s.tasks ++ [start config records] }
  | .resume i reply =>
    s.tasks[i]?.bind fun
      | .running call point => some (s.stepPoint config i reply call point)
      | .returned _ => none

end ArchiveStore

end Walleye.Archive
