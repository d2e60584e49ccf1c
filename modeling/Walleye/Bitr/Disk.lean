import Walleye.Bitr.Record

namespace Walleye.Bitr

open Walleye.Base

/-- A durable trim fence: the archive holds the stream up to `archivedLsn`. -/
structure TrimmedPrefix (σ : Type) where
  stream : σ
  archivedLsn : Nat
  writerEpoch : Nat
deriving DecidableEq, Repr

structure MaintenanceFence where
  owner : String
  generation : Nat
  signature : String
deriving DecidableEq, Repr

structure DiskState (σ β : Type) where
  highestEpoch : σ → Nat
  records : List (EncryptedRecord σ β)
  committed : List (EncryptedRecord σ β)
  trimmed : List (TrimmedPrefix σ)
  maintenance : Option MaintenanceFence

structure NodeSnapshot (σ β : Type) where
  records : List (EncryptedRecord σ β)
  committed : List (EncryptedRecord σ β)
  trimmed : List (TrimmedPrefix σ)
deriving DecidableEq, Repr

variable {σ β : Type}

def DiskState.empty : DiskState σ β := ⟨fun _ => 0, [], [], [], none⟩

def DiskState.snapshot (s : DiskState σ β) : NodeSnapshot σ β :=
  ⟨s.records, s.committed, s.trimmed⟩

variable [DecidableEq σ]

def recordAt (records : List (EncryptedRecord σ β)) (stream : σ) (lsn : Nat) :
    Option (EncryptedRecord σ β) :=
  records.find? fun r => decide (r.stream = stream ∧ r.lsn = lsn)

def prefixOf (trimmed : List (TrimmedPrefix σ)) (stream : σ) : Option (TrimmedPrefix σ) :=
  trimmed.find? fun p => decide (p.stream = stream)

def floorOf (trimmed : List (TrimmedPrefix σ)) (stream : σ) : Nat :=
  ((trimmed.filter (·.stream = stream)).map (·.archivedLsn)).foldl max 0

variable [DecidableEq β]

/-- The records of a batch that a node does not hold yet, after its checks. `boundary` is the
manifest's proof that a record opens a range. -/
def DiskState.checkNew (boundary : EncryptedRecord σ β → Bool) (s : DiskState σ β) :
    List (EncryptedRecord σ β) → List (EncryptedRecord σ β) →
      Except ReplicaError (List (EncryptedRecord σ β))
  | [], fresh => .ok fresh
  | r :: rest, fresh =>
    if r.writerEpoch < s.highestEpoch r.stream then .error .writerFenced
    else if (prefixOf s.trimmed r.stream).any fun p => decide (r.lsn ≤ p.archivedLsn) then
      .error .lsnConflict
    else match recordAt s.records r.stream r.lsn with
      | some existing =>
        if existing ≠ r then .error .lsnConflict else s.checkNew boundary rest fresh
      | none =>
        if 1 < r.lsn ∧ recordAt fresh r.stream (r.lsn - 1) = none ∧
            recordAt s.records r.stream (r.lsn - 1) = none ∧
            (prefixOf s.trimmed r.stream).any (fun p => decide (p.archivedLsn = r.lsn - 1)) = false ∧
            boundary r = false then .error .lsnConflict
        else s.checkNew boundary rest (fresh ++ [r])

def DiskState.checkCommits (s : DiskState σ β) (fresh : List (EncryptedRecord σ β)) :
    List (EncryptedRecord σ β) → List (EncryptedRecord σ β) →
      Except ReplicaError (List (EncryptedRecord σ β))
  | [], commits => .ok commits
  | r :: rest, commits =>
    if (prefixOf s.trimmed r.stream).any fun p => decide (r.lsn ≤ p.archivedLsn) then
      s.checkCommits fresh rest commits
    else match recordAt s.committed r.stream r.lsn with
      | some marked =>
        if marked ≠ r then .error .lsnConflict else s.checkCommits fresh rest commits
      | none =>
        if recordAt s.records r.stream r.lsn ≠ some r ∧ r ∉ fresh then .error .lsnConflict
        else s.checkCommits fresh rest (commits ++ [r])

def DiskState.raiseEpoch (s : DiskState σ β) (fresh : List (EncryptedRecord σ β)) (stream : σ) :
    Nat :=
  ((fresh.filter (·.stream = stream)).map (·.writerEpoch)).foldl max (s.highestEpoch stream)

/-- The node's batch append: all records and markers reach the disk, or none. -/
def DiskState.appendMany (boundary : EncryptedRecord σ β → Bool) (s : DiskState σ β)
    (token : Option MaintenanceFence) (commit : Bool) (batch : List (EncryptedRecord σ β)) :
    Except ReplicaError (DiskState σ β) :=
  (validateAppendBatch batch).bind fun _ =>
    if s.maintenance ≠ token then .error .writerFenced
    else (s.checkNew boundary batch []).bind fun fresh =>
      (if commit then s.checkCommits fresh batch [] else .ok []).bind fun commits =>
        .ok { s with
          highestEpoch := s.raiseEpoch fresh
          records := s.records ++ fresh
          committed := s.committed ++ commits }

def DiskState.append (boundary : EncryptedRecord σ β → Bool) (s : DiskState σ β)
    (token : Option MaintenanceFence) (r : EncryptedRecord σ β) :
    Except ReplicaError (DiskState σ β) :=
  if s.maintenance ≠ token then .error .writerFenced
  else if r.lsn ≤ r.committedLsn then .error (.invalidWatermark r.lsn r.committedLsn)
  else if r.writerEpoch < s.highestEpoch r.stream then .error .writerFenced
  else if (prefixOf s.trimmed r.stream).any fun p => decide (r.lsn ≤ p.archivedLsn) then
    .error .lsnConflict
  else match recordAt s.records r.stream r.lsn with
    | some existing => if existing ≠ r then .error .lsnConflict else .ok s
    | none =>
      if 1 < r.lsn ∧ recordAt s.records r.stream (r.lsn - 1) = none ∧
          (prefixOf s.trimmed r.stream).any (fun p => decide (p.archivedLsn = r.lsn - 1)) = false ∧
          boundary r = false then .error .lsnConflict
      else .ok { s with
        highestEpoch := Function.update s.highestEpoch r.stream
          (max r.writerEpoch (s.highestEpoch r.stream))
        records := s.records ++ [r] }

def DiskState.commit (s : DiskState σ β) (token : Option MaintenanceFence)
    (r : EncryptedRecord σ β) : Except ReplicaError (DiskState σ β) :=
  if s.maintenance ≠ token then .error .writerFenced
  else if r.lsn ≤ r.committedLsn then .error (.invalidWatermark r.lsn r.committedLsn)
  else if (prefixOf s.trimmed r.stream).any fun p => decide (r.lsn ≤ p.archivedLsn) then .ok s
  else if recordAt s.records r.stream r.lsn ≠ some r then .error .lsnConflict
  else match recordAt s.committed r.stream r.lsn with
    | some marked => if marked ≠ r then .error .lsnConflict else .ok s
    | none => .ok { s with committed := s.committed ++ [r] }

/-- A stream's records from `from` on go, and their markers; the highest epoch seen is
that of what is left. -/
def DiskState.withdrawSuffix (s : DiskState σ β) (stream : σ) (start : Nat) : DiskState σ β :=
  let keep := fun r : EncryptedRecord σ β => decide (r.stream ≠ stream ∨ r.lsn < start)
  let records := s.records.filter keep
  { s with
    records := records
    committed := s.committed.filter keep
    highestEpoch := Function.update s.highestEpoch stream
      (((records.filter (·.stream = stream)).map (·.writerEpoch)).foldl max
        ((prefixOf s.trimmed stream).elim 0 (·.writerEpoch))) }

def DiskState.supersede (s : DiskState σ β) (stream : σ) (start writerEpoch : Nat) :
    Except ReplicaError (DiskState σ β) :=
  if start = 0 then .error .lsnConflict
  else if (prefixOf s.trimmed stream).any fun p => decide (start ≤ p.archivedLsn) then
    .error .lsnConflict
  else
    let doomed := s.records.filter fun r => decide (r.stream = stream ∧ start ≤ r.lsn)
    if doomed = [] then .ok s
    else if doomed.any fun r => decide (writerEpoch ≤ r.writerEpoch) then .error .writerFenced
    else .ok (s.withdrawSuffix stream start)

/-- The trim fences after a compaction: none moves backward, and each keeps the highest
epoch the node has seen. -/
def DiskState.nextTrimmed (s : DiskState σ β) :
    List (TrimmedPrefix σ) → List (TrimmedPrefix σ) → Except ReplicaError (List (TrimmedPrefix σ))
  | [], next => .ok next
  | p :: rest, next =>
    if p.archivedLsn = 0 then
      .error (.nodeStorage "compaction requires a stream and nonzero archive watermark")
    else if (prefixOf s.trimmed p.stream).any fun q => decide (p.archivedLsn < q.archivedLsn) then
      .error (.nodeStorage "archive compaction watermark cannot move backward")
    else
      let epoch := max (max (s.highestEpoch p.stream) p.writerEpoch)
        ((prefixOf s.trimmed p.stream).elim 0 (·.writerEpoch))
      s.nextTrimmed rest
        (⟨p.stream, p.archivedLsn, epoch⟩ :: next.filter (·.stream ≠ p.stream))

def DiskState.compactArchivedBatch (s : DiskState σ β) (prefixes : List (TrimmedPrefix σ)) :
    Except ReplicaError (DiskState σ β) :=
  (s.nextTrimmed prefixes s.trimmed).bind fun next =>
    let keep := fun r : EncryptedRecord σ β =>
      (prefixOf next r.stream).all fun p => decide (p.archivedLsn < r.lsn)
    .ok { s with
      highestEpoch := fun stream =>
        (prefixOf next stream).elim (s.highestEpoch stream) fun p =>
          max (s.highestEpoch stream) p.writerEpoch
      records := s.records.filter keep
      committed := s.committed.filter keep
      trimmed := next }

end Walleye.Bitr
