import Walleye.Bitr.Log

namespace Walleye.Bitr

open Walleye.Base

inductive LogEntry (σ β : Type)
  | record (r : EncryptedRecord σ β)
  | commit (r : EncryptedRecord σ β)
  | supersede (stream : σ) (fromLsn writerEpoch : Nat)
  | trim (p : TrimmedPrefix σ)
deriving DecidableEq, Repr

/-- The maps a node rebuilds from its log when it opens. The highest epoch of a stream is absent,
not zero, before its first record or fence. -/
structure NodeMaps (σ β : Type) where
  highestEpoch : σ → Option Nat
  records : List (EncryptedRecord σ β)
  committed : List (EncryptedRecord σ β)
  trimmed : List (TrimmedPrefix σ)

/-- How a call changes the file: it appends lines, or replaces the file by a new one. -/
inductive LogWrite (σ β : Type)
  | extend (entries : List (LogEntry σ β))
  | rewrite (entries : List (LogEntry σ β))

variable {σ β : Type}

def NodeMaps.empty : NodeMaps σ β := ⟨fun _ => none, [], [], []⟩

def NodeMaps.disk (m : NodeMaps σ β) (fence : Option MaintenanceFence) : DiskState σ β :=
  ⟨fun stream => (m.highestEpoch stream).getD 0, m.records, m.committed, m.trimmed, fence⟩

variable [DecidableEq σ]

def raiseTo (h : σ → Option Nat) (stream : σ) (epoch : Nat) : σ → Option Nat :=
  Function.update h stream (some ((h stream).elim epoch (max · epoch)))

def seenEpochs (records : List (EncryptedRecord σ β)) (trimmed : List (TrimmedPrefix σ))
    (stream : σ) : List Nat :=
  (records.filter (·.stream = stream)).map (·.writerEpoch) ++
    ((prefixOf trimmed stream).toList).map (·.writerEpoch)

def NodeMaps.withdrawSuffix (m : NodeMaps σ β) (stream : σ) (fromLsn : Nat) : NodeMaps σ β :=
  let keep := fun r : EncryptedRecord σ β => decide (r.stream ≠ stream ∨ r.lsn < fromLsn)
  let records := m.records.filter keep
  { m with
    records := records
    committed := m.committed.filter keep
    highestEpoch :=
      Function.update m.highestEpoch stream (seenEpochs records m.trimmed stream).max? }

/-- A map insert: the entry of a key is replaced. -/
def insertRecord (records : List (EncryptedRecord σ β)) (r : EncryptedRecord σ β) :
    List (EncryptedRecord σ β) :=
  records.filter (fun q => decide (¬(q.stream = r.stream ∧ q.lsn = r.lsn))) ++ [r]

variable [DecidableEq β]

def NodeMaps.indexRecord (m : NodeMaps σ β) (r : EncryptedRecord σ β) :
    Except ReplicaError (NodeMaps σ β) :=
  let highest := raiseTo m.highestEpoch r.stream r.writerEpoch
  match recordAt m.records r.stream r.lsn with
  | some existing =>
    if existing ≠ r then
      .error (.nodeStorage "replica log contains conflicting records for one LSN")
    else .ok { m with highestEpoch := highest }
  | none => .ok { m with highestEpoch := highest, records := m.records ++ [r] }

def NodeMaps.replay (m : NodeMaps σ β) : LogEntry σ β → Except ReplicaError (NodeMaps σ β)
  | .record r =>
    if (prefixOf m.trimmed r.stream).any fun p => decide (r.lsn ≤ p.archivedLsn) then
      .error (.nodeStorage "node log contains a record below its compacted prefix")
    else m.indexRecord r
  | .commit r =>
    if recordAt m.records r.stream r.lsn = some r then
      .ok { m with committed := insertRecord m.committed r }
    else .ok m
  | .supersede stream fromLsn _ => .ok (m.withdrawSuffix stream fromLsn)
  | .trim p =>
    if p.archivedLsn = 0 ∨ (prefixOf m.trimmed p.stream).isSome then
      .error (.nodeStorage "invalid or duplicate node trim entry")
    else .ok { m with
      highestEpoch := Function.update m.highestEpoch p.stream (some p.writerEpoch)
      trimmed := m.trimmed ++ [p] }

def NodeMaps.replayAll (m : NodeMaps σ β) : List (LogEntry σ β) → Except ReplicaError (NodeMaps σ β)
  | [] => .ok m
  | e :: rest => (m.replay e).bind fun m => m.replayAll rest

/-- A call on a storage node. `boundary` is what its control manifest says at the time. -/
inductive NodeCall (σ β : Type)
  | append (boundary : EncryptedRecord σ β → Bool) (token : Option MaintenanceFence)
      (r : EncryptedRecord σ β)
  | appendMany (boundary : EncryptedRecord σ β → Bool) (token : Option MaintenanceFence)
      (commit : Bool) (batch : List (EncryptedRecord σ β))
  | commit (token : Option MaintenanceFence) (r : EncryptedRecord σ β)
  | supersede (stream : σ) (fromLsn writerEpoch : Nat)
  | compactArchivedBatch (prefixes : List (TrimmedPrefix σ))

def NodeMaps.append (m : NodeMaps σ β) (fence : Option MaintenanceFence)
    (boundary : EncryptedRecord σ β → Bool) (token : Option MaintenanceFence)
    (r : EncryptedRecord σ β) : Except ReplicaError (NodeMaps σ β × LogWrite σ β) :=
  ((m.disk fence).append boundary token r).bind fun _ =>
    match recordAt m.records r.stream r.lsn with
    | some _ => .ok (m, .extend [])
    | none => .ok ({ m with
        highestEpoch := Function.update m.highestEpoch r.stream
          (some (max r.writerEpoch ((m.highestEpoch r.stream).getD 0)))
        records := m.records ++ [r] }, .extend [.record r])

def NodeMaps.appendMany (m : NodeMaps σ β) (fence : Option MaintenanceFence)
    (boundary : EncryptedRecord σ β → Bool) (token : Option MaintenanceFence) (commit : Bool)
    (batch : List (EncryptedRecord σ β)) : Except ReplicaError (NodeMaps σ β × LogWrite σ β) :=
  (validateAppendBatch batch).bind fun _ =>
    if fence ≠ token then .error .writerFenced
    else ((m.disk fence).checkNew boundary batch []).bind fun fresh =>
      (if commit then (m.disk fence).checkCommits fresh batch [] else .ok []).bind fun commits =>
        .ok ({ m with
          highestEpoch := fresh.foldl (fun h r => raiseTo h r.stream r.writerEpoch) m.highestEpoch
          records := m.records ++ fresh
          committed := m.committed ++ commits },
          .extend (fresh.map .record ++ commits.map .commit))

def NodeMaps.commit (m : NodeMaps σ β) (fence : Option MaintenanceFence)
    (token : Option MaintenanceFence) (r : EncryptedRecord σ β) :
    Except ReplicaError (NodeMaps σ β × LogWrite σ β) :=
  ((m.disk fence).commit token r).bind fun _ =>
    if (prefixOf m.trimmed r.stream).any fun p => decide (r.lsn ≤ p.archivedLsn) then
      .ok (m, .extend [])
    else match recordAt m.committed r.stream r.lsn with
      | some _ => .ok (m, .extend [])
      | none => .ok ({ m with committed := m.committed ++ [r] }, .extend [.commit r])

def NodeMaps.supersede (m : NodeMaps σ β) (fence : Option MaintenanceFence) (stream : σ)
    (fromLsn writerEpoch : Nat) : Except ReplicaError (NodeMaps σ β × LogWrite σ β) :=
  ((m.disk fence).supersede stream fromLsn writerEpoch).bind fun _ =>
    if m.records.any fun r => decide (r.stream = stream ∧ fromLsn ≤ r.lsn) then
      .ok (m.withdrawSuffix stream fromLsn, .extend [.supersede stream fromLsn writerEpoch])
    else .ok (m, .extend [])

/-- The lines of a compacted log: the fences, then every record kept, each with its marker. -/
def compactedLog (next : List (TrimmedPrefix σ)) (retained committed : List (EncryptedRecord σ β)) :
    List (LogEntry σ β) :=
  next.map .trim ++ retained.flatMap fun r =>
    if recordAt committed r.stream r.lsn = some r then [.record r, .commit r] else [.record r]

def NodeMaps.compactArchivedBatch (m : NodeMaps σ β) (fence : Option MaintenanceFence)
    (prefixes : List (TrimmedPrefix σ)) : Except ReplicaError (NodeMaps σ β × LogWrite σ β) :=
  if prefixes = [] then .ok (m, .extend [])
  else ((m.disk fence).nextTrimmed prefixes m.trimmed).bind fun next =>
    let keep := fun r : EncryptedRecord σ β =>
      (prefixOf next r.stream).all fun p => decide (p.archivedLsn < r.lsn)
    if m.records.all keep ∧ next.all (· ∈ m.trimmed) ∧ m.trimmed.all (· ∈ next) then
      .ok (m, .extend [])
    else .ok ({ m with
        highestEpoch := next.foldl (fun h p => raiseTo h p.stream p.writerEpoch) m.highestEpoch
        records := m.records.filter keep
        committed := m.committed.filter keep
        trimmed := next },
      .rewrite (compactedLog next (m.records.filter keep) m.committed))

def NodeMaps.call (m : NodeMaps σ β) (fence : Option MaintenanceFence) :
    NodeCall σ β → Except ReplicaError (NodeMaps σ β × LogWrite σ β)
  | .append boundary token r => m.append fence boundary token r
  | .appendMany boundary token commit batch => m.appendMany fence boundary token commit batch
  | .commit token r => m.commit fence token r
  | .supersede stream fromLsn writerEpoch => m.supersede fence stream fromLsn writerEpoch
  | .compactArchivedBatch prefixes => m.compactArchivedBatch fence prefixes

end Walleye.Bitr
