import Walleye.Base.Maps
import Walleye.Bitr.Record
import Walleye.Engine.Arrival

namespace Walleye.Lance

open Walleye.Base Walleye.Base.BTreeMap
open Walleye.Bitr (ReplicaError)
open Walleye.Engine (u64Max saturatingAdd)

/-- What the quorum writer answers instead of an acknowledgement or a tail. -/
inductive WriterError (ν : Type) where
  | replica (error : ReplicaError)
  | recoveryStreamMismatch (expected received : ν)
deriving DecidableEq, Repr

inductive WalBackendError (ν : Type) where
  | replica (error : ReplicaError)
  | fenced
  | poisoned (cause : WalBackendError ν)
  | lsnConflict (position : Nat) (reason : String)
  | recoveryGap (expected received : Nat)
  | recoveryStreamMismatch (expected received : ν)
  | corruptIpc (reason : String)
  | ownerMissing
  | ownerMismatch (expected received : ν)
  | invalidPosition (position : Nat)
  | invalidCommit (reason : String)
  | commitCertificateMissing
deriving DecidableEq, Repr

/-- A decoded entry of the log: the batches of one write, or the fence of a new writer. -/
structure IpcEntry (β : Type) where
  writerEpoch : Nat
  fenceSentinel : Bool
  batches : List β
deriving DecidableEq, Repr

structure WalCodec (ν π β : Type) where
  decodeIpcEntry : π → Except (WalBackendError ν) (IpcEntry β)
  owner : β → Option ν
  /-- A certificate that is there but empty. -/
  emptyCertificate : ν → Bool

structure AppendRecord (ν π : Type) where
  stream : ν
  writerEpoch : Nat
  lsn : Nat
  /-- The highest LSN that was committed when the record was proposed. -/
  committedLsn : Nat
  payload : π
deriving DecidableEq, Repr

structure CommitKnowledge (ν : Type) where
  stream : ν
  writerEpoch : Nat
  committedLsn : Nat
  certificate : Option ν
deriving DecidableEq, Repr

def CommitKnowledge.replica {ν : Type} (stream : ν) (writerEpoch committedLsn : Nat) :
    CommitKnowledge ν :=
  ⟨stream, writerEpoch, committedLsn, none⟩

structure RecoveredEntry (π β : Type) where
  position : Nat
  writerEpoch : Nat
  fenceSentinel : Bool
  batches : List β
  payload : π
deriving DecidableEq, Repr

structure PendingWrite (π : Type) where
  position : Nat
  payload : π
deriving DecidableEq, Repr

structure CommittedEntry (ν π : Type) where
  payload : π
  knowledge : CommitKnowledge ν
deriving DecidableEq, Repr

structure BackendState (ν π : Type) where
  nextPosition : Option Nat
  pending : Option (PendingWrite π)
  committed : BTreeMap Nat (CommittedEntry ν π)
  checkpointedPosition : Nat
  knowledge : CommitKnowledge ν
  recoveredTailPosition : Nat
  fenceSentinelPosition : Option Nat
  /-- The error that poisoned the adapter. -/
  poisoned : Option (WalBackendError ν)

structure BitrWalBackend (ν : Type) where
  stream : ν
  shardId : ν
  writerEpoch : Nat
  ownerDoId : ν

structure WalWrite (ν π : Type) where
  shardId : ν
  writerEpoch : Nat
  entryPosition : Nat
  payload : π

structure WalCommit (ν : Type) where
  entryPosition : Nat
  knowledge : CommitKnowledge ν
deriving DecidableEq, Repr

inductive WalWriteResult (ν : Type) where
  | committed (commit : WalCommit ν)
  | alreadyExists
deriving DecidableEq, Repr

variable {ν π β : Type}

abbrev WalResult (ν α : Type) := Except (WalBackendError ν) α

abbrev AppendAnswer (ν : Type) := Except (WriterError ν) (CommitKnowledge ν)

abbrev RecoverAnswer (ν π : Type) := Except (WriterError ν) (List (AppendRecord ν π))

def BitrWalBackend.start (backend : BitrWalBackend ν) : BackendState ν π where
  nextPosition := none
  pending := none
  committed := ∅
  checkpointedPosition := 0
  knowledge := .replica backend.stream backend.writerEpoch 0
  recoveredTailPosition := 0
  fenceSentinelPosition := none
  poisoned := none

def mapReplicaError : WriterError ν → WalBackendError ν
  | .replica .writerFenced => .fenced
  | .replica .lsnConflict =>
    .lsnConflict 0 "Bitr replica rejected the append as out of order"
  | .replica (.recoveryGap expected received) => .recoveryGap expected received
  | .recoveryStreamMismatch expected received => .recoveryStreamMismatch expected received
  | .replica error => .replica error

def WalBackendError.structural : WalBackendError ν → Bool
  | .fenced => true
  | .poisoned _ => true
  | .lsnConflict _ _ => true
  | .recoveryGap _ _ => true
  | .recoveryStreamMismatch _ _ => true
  | .corruptIpc _ => true
  | .ownerMissing => true
  | .ownerMismatch _ _ => true
  | .invalidCommit _ => true
  | .replica _ => false
  | .invalidPosition _ => false
  | .commitCertificateMissing => false

def poisonIfStructural (state : BackendState ν π) (error : WalBackendError ν) :
    BackendState ν π :=
  if error.structural ∧ state.poisoned = none then { state with poisoned := some error } else state

def ensureNotPoisoned (state : BackendState ν π) : WalResult ν Unit :=
  match state.poisoned with
  | some cause => .error (.poisoned cause)
  | none => .ok ()

section Decode

variable [DecidableEq ν] (backend : BitrWalBackend ν) (codec : WalCodec ν π β)

def validateOwner (expected : ν) (batches : List β) : WalResult ν Unit :=
  batches.forM fun batch =>
    match codec.owner batch with
    | none => .error .ownerMissing
    | some received =>
      if received ≠ expected then .error (.ownerMismatch expected received) else .ok ()

def validateEntry (entry : IpcEntry β) : WalResult ν Unit :=
  if entry.fenceSentinel then .ok () else validateOwner codec backend.ownerDoId entry.batches

def decodeForWrite (payload : π) (fence : Bool) (writerEpoch : Nat) :
    WalResult ν (IpcEntry β) :=
  (codec.decodeIpcEntry payload).bind fun entry =>
  if writerEpoch = 0 ∨ entry.writerEpoch ≠ writerEpoch then .error .fenced
  else if entry.fenceSentinel ≠ fence then
    .error (.corruptIpc (if fence then "fence write must carry a fence sentinel"
      else "data write must not carry a fence sentinel"))
  else (validateEntry backend codec entry).map fun _ => entry

def decodeRecord (maximumWriterEpoch : Option Nat) (expected : Nat) (record : AppendRecord ν π) :
    WalResult ν (RecoveredEntry π β) :=
  if record.stream ≠ backend.stream then
    .error (.recoveryStreamMismatch backend.stream record.stream)
  else if record.lsn ≠ expected then .error (.recoveryGap expected record.lsn)
  else if record.committedLsn ≠ expected - 1 then
    .error (.recoveryGap (expected - 1) record.committedLsn)
  else if ∃ epoch ∈ maximumWriterEpoch, epoch < record.writerEpoch then .error .fenced
  else (codec.decodeIpcEntry record.payload).bind fun decoded =>
    if decoded.writerEpoch ≠ record.writerEpoch then
      .error (.corruptIpc "IPC writer epoch differs from Bitr record epoch")
    else (validateEntry backend codec decoded).bind fun _ =>
      if u64Max ≤ expected then .error (.invalidPosition record.lsn)
      else .ok
        { position := record.lsn
          writerEpoch := decoded.writerEpoch
          fenceSentinel := decoded.fenceSentinel
          batches := decoded.batches
          payload := record.payload }

def decodeRecordsFrom (maximumWriterEpoch : Option Nat) :
    Nat → List (AppendRecord ν π) → WalResult ν (List (RecoveredEntry π β))
  | _, [] => .ok []
  | expected, record :: rest =>
    (decodeRecord backend codec maximumWriterEpoch expected record).bind fun entry =>
      (decodeRecordsFrom maximumWriterEpoch (expected + 1) rest).map (entry :: ·)

def decodeRecoveryRecordsWithEpochBound (afterLsn : Nat) (records : List (AppendRecord ν π))
    (maximumWriterEpoch : Option Nat) : WalResult ν (List (RecoveredEntry π β)) :=
  if u64Max ≤ afterLsn then .error (.invalidPosition afterLsn)
  else decodeRecordsFrom backend codec maximumWriterEpoch (afterLsn + 1) records

/-- A tail for the adapter's own calls: of no epoch beyond its own. -/
def loadRecovery (afterLsn : Nat) (answer : RecoverAnswer ν π) :
    WalResult ν (List (RecoveredEntry π β)) :=
  (answer.mapError mapReplicaError).bind fun records =>
    decodeRecoveryRecordsWithEpochBound backend codec afterLsn records (some backend.writerEpoch)

def loadRecoveryForLance (afterLsn : Nat) (answer : RecoverAnswer ν π) :
    WalResult ν (List (RecoveredEntry π β)) :=
  (answer.mapError mapReplicaError).bind fun records =>
    decodeRecoveryRecordsWithEpochBound backend codec afterLsn records none

end Decode

section Recovery

/-- Move the next position past a tail and past what is retained, never backwards. -/
def advanceNextPosition (state : BackendState ν π) (entries : List (RecoveredEntry π β)) :
    BackendState ν π :=
  let recovered := entries.getLast?.map fun entry => saturatingAdd entry.position 1
  let committed := state.committed.keys.max?.map fun position => saturatingAdd position 1
  { state with
    nextPosition := some
      ((state.nextPosition.toList ++ recovered.toList ++ committed.toList).max?.getD 1) }

def retainEntry (state : BackendState ν π) (entry : RecoveredEntry π β)
    (knowledge : CommitKnowledge ν) : BackendState ν π :=
  { state with
    committed :=
      if state.checkpointedPosition < entry.position then
        state.committed.insert entry.position ⟨entry.payload, knowledge⟩
      else state.committed
    knowledge := knowledge
    recoveredTailPosition := max state.recoveredTailPosition entry.position }

def finishTail (entries : List (RecoveredEntry π β)) :
    WalResult ν Unit × BackendState ν π → WalResult ν Unit × BackendState ν π
  | (.error error, state) => (.error error, state)
  | (.ok (), state) => (.ok (), advanceNextPosition state entries)

variable [DecidableEq π]

def retainForLance (backend : BitrWalBackend ν) (state : BackendState ν π) :
    List (RecoveredEntry π β) → WalResult ν Unit × BackendState ν π
  | [] => (.ok (), state)
  | entry :: rest =>
    if ∃ existing ∈ state.committed[entry.position]?, existing.payload ≠ entry.payload then
      (.error (.lsnConflict entry.position "Lance recovery bytes differ from the cached entry"),
        state)
    else
      let knowledge :=
        if entry.position ≤ state.knowledge.committedLsn then state.knowledge
        else .replica backend.stream entry.writerEpoch entry.position
      retainForLance backend (retainEntry state entry knowledge) rest

def applyRecoveryForLance (backend : BitrWalBackend ν) (state : BackendState ν π)
    (entries : List (RecoveredEntry π β)) : WalResult ν Unit × BackendState ν π :=
  finishTail entries (retainForLance backend state entries)

/-- The entries of a strict tail, up to one that differs from the outstanding write. A retained
entry is replaced, and the differing one is retained as well. -/
def retainStrict (knowledge : CommitKnowledge ν) (state : BackendState ν π) :
    List (RecoveredEntry π β) → WalResult ν Unit × BackendState ν π
  | [] => (.ok (), state)
  | entry :: rest =>
    let retained := retainEntry state entry knowledge
    match retained.pending with
    | none => retainStrict knowledge retained rest
    | some pending =>
      if pending.position ≠ entry.position then retainStrict knowledge retained rest
      else if pending.payload ≠ entry.payload then
        (.error (.lsnConflict entry.position "recovery bytes differ from pending retry"), retained)
      else retainStrict knowledge { retained with pending := none } rest

/-- What is known of a strict tail: the watermark it was asked with, or what was acknowledged. -/
def recoveredKnowledge (state : BackendState ν π) (entries : List (RecoveredEntry π β))
    (persisted : Option (CommitKnowledge ν)) : WalResult ν (CommitKnowledge ν) :=
  match persisted with
  | some knowledge => .ok knowledge
  | none =>
    if (entries.getLast?.map (·.position)).getD 0 ≤ state.knowledge.committedLsn then
      .ok state.knowledge
    else .error .commitCertificateMissing

def applyRecovery (state : BackendState ν π) (entries : List (RecoveredEntry π β))
    (persisted : Option (CommitKnowledge ν)) : WalResult ν Unit × BackendState ν π :=
  match recoveredKnowledge state entries persisted with
  | .error error => (.error error, state)
  | .ok knowledge => finishTail entries (retainStrict knowledge state entries)

end Recovery

section Calls

variable [DecidableEq ν] [DecidableEq π] (backend : BitrWalBackend ν) (codec : WalCodec ν π β)

def takeStrict (state : BackendState ν π)
    (loaded : WalResult ν (List (RecoveredEntry π β))) (persisted : Option (CommitKnowledge ν)) :
    WalResult ν (List (RecoveredEntry π β)) × BackendState ν π :=
  match loaded with
  | .error error => (.error error, poisonIfStructural state error)
  | .ok entries =>
    match applyRecovery state entries persisted with
    | (.error error, state) => (.error error, state)
    | (.ok (), state) => (.ok entries, state)

def ensurePosition (state : BackendState ν π) (answer : RecoverAnswer ν π) :
    WalResult ν Nat × BackendState ν π :=
  match state.nextPosition with
  | some position => (.ok position, state)
  | none =>
    match takeStrict state (loadRecovery backend codec 0 answer) none with
    | (.error error, state) => (.error error, state)
    | (.ok entries, state) =>
      let position := (entries.getLast?.map fun entry => saturatingAdd entry.position 1).getD 1
      (.ok position, { state with nextPosition := some position })

structure SentRecord (ν π : Type) where
  next : Option Nat
  record : AppendRecord ν π
deriving DecidableEq, Repr

structure Appended (ν π : Type) where
  result : WalResult ν (WalWriteResult ν)
  state : BackendState ν π
  sent : Option (SentRecord ν π)

def commitWrite (state : BackendState ν π) (write : WalWrite ν π) (entry : IpcEntry β)
    (knowledge : CommitKnowledge ν) : WalResult ν (WalWriteResult ν) × BackendState ν π :=
  let retained :=
    { state with
      committed := state.committed.insert write.entryPosition ⟨write.payload, knowledge⟩ }
  if u64Max ≤ write.entryPosition then
    (.error (.invalidPosition write.entryPosition), retained)
  else
    (.ok (.committed ⟨write.entryPosition, knowledge⟩),
      { retained with
        nextPosition := some (write.entryPosition + 1)
        pending := none
        knowledge := knowledge
        fenceSentinelPosition :=
          if entry.fenceSentinel then some write.entryPosition
          else state.fenceSentinelPosition })

def settleWrite (state : BackendState ν π) (write : WalWrite ν π) (entry : IpcEntry β)
    (answer : AppendAnswer ν) : WalResult ν (WalWriteResult ν) × BackendState ν π :=
  match answer with
  | .error error =>
    let mapped := mapReplicaError error
    (.error mapped, if mapped = .fenced then poisonIfStructural state mapped else state)
  | .ok knowledge =>
    if knowledge.stream ≠ backend.stream ∨ knowledge.writerEpoch ≠ write.writerEpoch ∨
        knowledge.committedLsn ≠ write.entryPosition then
      let error := .invalidCommit "replica acknowledgement does not match stream, epoch, or LSN"
      (.error error, poisonIfStructural state error)
    else commitWrite state write entry knowledge

def repeatWrite (state : BackendState ν π) (write : WalWrite ν π) (expected : Nat) :
    WalResult ν (WalWriteResult ν) × BackendState ν π :=
  let conflict := .lsnConflict write.entryPosition s!"expected next position {expected}"
  if write.entryPosition < expected then
    match state.committed[write.entryPosition]? with
    | none => (.error conflict, poisonIfStructural state conflict)
    | some existing =>
      if existing.payload = write.payload then
        (.ok (.committed ⟨write.entryPosition, existing.knowledge⟩), state)
      else (.error conflict, poisonIfStructural state conflict)
  else (.error conflict, poisonIfStructural state conflict)

def appendLocked (state : BackendState ν π) (write : WalWrite ν π) (entry : IpcEntry β)
    (answer : AppendAnswer ν) : Appended ν π :=
  let expected := state.nextPosition.getD 1
  if write.entryPosition ≠ expected then
    let (result, state) := repeatWrite state write expected
    ⟨result, state, none⟩
  else if ∃ pending ∈ state.pending,
      pending.position ≠ write.entryPosition ∨ pending.payload ≠ write.payload then
    let error := .lsnConflict write.entryPosition "pending retry has different bytes"
    ⟨.error error, poisonIfStructural state error, none⟩
  else
    let waiting := { state with pending := some ⟨write.entryPosition, write.payload⟩ }
    let (result, settled) := settleWrite backend waiting write entry answer
    ⟨result, settled, some ⟨state.nextPosition, backend.stream, write.writerEpoch,
      write.entryPosition, write.entryPosition - 1, write.payload⟩⟩

def recoverFencePosition (state : BackendState ν π) (position writerEpoch : Nat)
    (answer : RecoverAnswer ν π) : WalResult ν (WalWriteResult ν) × BackendState ν π :=
  match loadRecoveryForLance backend codec (position - 1) answer with
  | .error error => (.error error, poisonIfStructural state error)
  | .ok entries =>
    if ∃ entry ∈ entries, writerEpoch < entry.writerEpoch then
      (.error .fenced, poisonIfStructural state .fenced)
    else if entries.head?.map (·.position) ≠ some position ∨
        ∃ entry ∈ entries, entry.writerEpoch = writerEpoch then
      (.error (.lsnConflict position
        "fence conflict is not backed by a recovered predecessor tail"), state)
    else
      match applyRecoveryForLance backend state entries with
      | (.error error, state) => (.error error, poisonIfStructural state error)
      | (.ok (), state) => (.ok .alreadyExists, { state with pending := none })

/-- An append at the next position: the adapter's own calls. -/
def appendPayload (state : BackendState ν π) (payload : π) (fence : Bool)
    (tail : RecoverAnswer ν π) (answer : AppendAnswer ν) : Appended ν π :=
  match decodeForWrite backend codec payload fence backend.writerEpoch with
  | .error error => ⟨.error error, state, none⟩
  | .ok entry =>
    match ensureNotPoisoned state with
    | .error error => ⟨.error error, state, none⟩
    | .ok () =>
      match ensurePosition backend codec state tail with
      | (.error error, state) => ⟨.error error, state, none⟩
      | (.ok position, state) =>
        appendLocked backend state ⟨backend.shardId, backend.writerEpoch, position, payload⟩ entry
          answer

def appendAtPosition (state : BackendState ν π) (write : WalWrite ν π) (fence : Bool)
    (tail : RecoverAnswer ν π) (answer : AppendAnswer ν) (occupied : RecoverAnswer ν π) :
    Appended ν π :=
  if write.shardId ≠ backend.shardId then
    ⟨.error (.lsnConflict write.entryPosition "write targets a different shard"), state, none⟩
  else
    match decodeForWrite backend codec write.payload fence write.writerEpoch with
    | .error error => ⟨.error error, state, none⟩
    | .ok entry =>
      match ensureNotPoisoned state with
      | .error error => ⟨.error error, state, none⟩
      | .ok () =>
        match ensurePosition backend codec state tail with
        | (.error error, state) => ⟨.error error, state, none⟩
        | (.ok _, state) =>
          let appended := appendLocked backend state write entry answer
          match appended.result with
          | .error (.lsnConflict _ _) =>
            if fence ∧ appended.state.poisoned = none then
              let (result, state) := recoverFencePosition backend codec appended.state
                write.entryPosition write.writerEpoch occupied
              ⟨result, state, appended.sent⟩
            else appended
          | _ => appended

def recover (state : BackendState ν π) (afterLsn : Nat) (answer : RecoverAnswer ν π) :
    WalResult ν (List (RecoveredEntry π β)) × BackendState ν π :=
  match ensureNotPoisoned state with
  | .error error => (.error error, state)
  | .ok () => takeStrict state (loadRecovery backend codec afterLsn answer) none

def recoverWithWatermark (state : BackendState ν π) (afterLsn : Nat)
    (knowledge : CommitKnowledge ν) (answer : RecoverAnswer ν π) :
    WalResult ν (List (RecoveredEntry π β)) × BackendState ν π :=
  if knowledge.stream ≠ backend.stream ∨ backend.writerEpoch < knowledge.writerEpoch then
    (.error (.invalidCommit
      "persisted commit knowledge does not match this stream or is from a future epoch"), state)
  else if knowledge.certificate.filter (fun c => !codec.emptyCertificate c) = none then
    (.error .commitCertificateMissing, state)
  else
    match ensureNotPoisoned state with
    | .error error => (.error error, state)
    | .ok () =>
      let loaded := (loadRecovery backend codec afterLsn answer).bind fun entries =>
        if afterLsn < knowledge.committedLsn ∧
            entries.getLast?.map (·.position) ≠ some knowledge.committedLsn then
          .error (.recoveryGap knowledge.committedLsn
            ((entries.getLast?.map (·.position)).getD afterLsn))
        else .ok entries
      takeStrict state loaded (some knowledge)

def nextPosition (state : BackendState ν π) (answer : RecoverAnswer ν π) :
    WalResult ν Nat × BackendState ν π :=
  match ensureNotPoisoned state with
  | .error error => (.error error, state)
  | .ok () => ensurePosition backend codec state answer

def decodeRetained (position : Nat) (existing : CommittedEntry ν π) :
    WalResult ν (Option (RecoveredEntry π β)) :=
  (codec.decodeIpcEntry existing.payload).map fun decoded => some
    { position
      writerEpoch := decoded.writerEpoch
      fenceSentinel := decoded.fenceSentinel
      batches := decoded.batches
      payload := existing.payload }

def readEntry (state : BackendState ν π) (position : Nat) (answer : RecoverAnswer ν π) :
    WalResult ν (Option (RecoveredEntry π β)) × BackendState ν π :=
  if position = 0 then (.error (.invalidPosition position), state)
  else
    match ensureNotPoisoned state with
    | .error error => (.error error, state)
    | .ok () =>
      match state.committed[position]? with
      | some existing => (decodeRetained codec position existing, state)
      | none =>
        let (result, state) :=
          takeStrict state (loadRecovery backend codec (position - 1) answer) none
        (result.map fun entries => entries.find? (·.position = position), state)

def finishReadForLance (state : BackendState ν π) (position : Nat) (answer : RecoverAnswer ν π) :
    WalResult ν (Option (RecoveredEntry π β)) × BackendState ν π :=
  match loadRecoveryForLance backend codec (position - 1) answer with
  | .error error => (.error error, state)
  | .ok entries =>
    match ensureNotPoisoned state with
    | .error error => (.error error, state)
    | .ok () =>
      match applyRecoveryForLance backend state entries with
      | (.error error, state) => (.error error, state)
      | (.ok (), state) => (.ok (entries.find? (·.position = position)), state)

def readEntryForLance (state : BackendState ν π) (position : Nat) (answer : RecoverAnswer ν π) :
    WalResult ν (Option (RecoveredEntry π β)) × BackendState ν π :=
  if position = 0 then (.error (.invalidPosition position), state)
  else
    match ensureNotPoisoned state with
    | .error error => (.error error, state)
    | .ok () =>
      match state.committed[position]? with
      | some existing => (decodeRetained codec position existing, state)
      | none => finishReadForLance backend codec state position answer

def finishNextPositionForLance (state : BackendState ν π) (afterLsn : Nat)
    (answer : RecoverAnswer ν π) : WalResult ν Nat × BackendState ν π :=
  match loadRecoveryForLance backend codec afterLsn answer with
  | .error error => (.error error, state)
  | .ok entries =>
    match ensureNotPoisoned state with
    | .error error => (.error error, state)
    | .ok () =>
      match state.nextPosition with
      | some position => (.ok position, state)
      | none =>
        if entries = [] then
          let position := max (saturatingAdd afterLsn 1) 1
          (.ok position,
            { state with
              recoveredTailPosition := max state.recoveredTailPosition (position - 1)
              nextPosition := some position })
        else
          match applyRecoveryForLance backend state entries with
          | (.error error, state) => (.error error, state)
          | (.ok (), state) => (.ok (state.nextPosition.getD 1), state)

def nextPositionForLance (state : BackendState ν π) (afterLsn : Nat)
    (answer : RecoverAnswer ν π) : WalResult ν Nat × BackendState ν π :=
  match ensureNotPoisoned state with
  | .error error => (.error error, state)
  | .ok () =>
    match state.nextPosition with
    | some position => (.ok position, state)
    | none => finishNextPositionForLance backend codec state afterLsn answer

def checkpointed (state : BackendState ν π) (shardId : ν) (coveredPosition : Nat) :
    BackendState ν π :=
  if shardId ≠ backend.shardId then state
  else
    let covered := max state.checkpointedPosition coveredPosition
    { state with
      checkpointedPosition := covered
      committed := (state.committed.keys.filter (· ≤ covered)).foldl
        (fun kept position => kept.erase position) state.committed }

end Calls

end Walleye.Lance
