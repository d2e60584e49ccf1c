import Walleye.Archive.Contents
import Walleye.Bitr.HotTail

namespace Walleye.Recovery

open Walleye.Bitr
open Walleye.Engine (saturatingAdd)
open Walleye.Archive (Contents ArchiveCodec ArchiveError)

/-- The answers to one round of snapshot requests; a member that did not answer has none. -/
abbrev Snapshots (ν σ β : Type) := List (ν × Option (NodeSnapshot σ β))

variable {σ β ν κ δ ω : Type}

/-- What one recovery reads. `owns` are the members that own a stream at an LSN, `early` the first
round of snapshots, behind everything that can fail before it; `recovery` the round over all
retained members of a certified recovery. `verify` checks the caller's certificate. -/
structure Inputs (σ β ν κ δ ω : Type) where
  codec : ArchiveCodec σ β κ δ ω
  showError : ArchiveError κ → String
  showStream : σ → String
  archive : Contents σ κ δ ω
  lateArchive : Contents σ κ δ ω
  owns : ν → σ → Nat → Bool
  early : Except ReplicaError (Snapshots ν σ β)
  recovery : Except ReplicaError (Snapshots ν σ β)
  verify : EncryptedRecord σ β → Option (Except ReplicaError Unit)

section Evidence

variable [DecidableEq ν] [DecidableEq σ] [DecidableEq β] (owns : ν → σ → Nat → Bool)
  (snapshots : Snapshots ν σ β)

def shown (stream : σ) : List (EncryptedRecord σ β) :=
  snapshots.flatMap fun (n, snapshot) => snapshot.elim [] fun s =>
    s.records.filter fun r => decide (r.stream = stream) && owns n r.stream r.lsn

def membersWith (p : ν → NodeSnapshot σ β → Bool) : List ν :=
  (snapshots.filterMap fun (n, snapshot) => snapshot.bind fun s => if p n s then some n else none).dedup

def dataNodes (r : EncryptedRecord σ β) : List ν :=
  membersWith snapshots fun n s => owns n r.stream r.lsn && decide (r ∈ s.records)

def committedNodes (r : EncryptedRecord σ β) : List ν :=
  membersWith snapshots fun n s =>
    owns n r.stream r.lsn && decide (r ∈ s.records) && decide (r ∈ s.committed)

def answeringOwners (r : EncryptedRecord σ β) : Nat :=
  snapshots.countP fun (n, snapshot) => snapshot.isSome && owns n r.stream r.lsn

def eligible (r : EncryptedRecord σ β) : Bool :=
  decide (r.committedLsn < r.lsn) &&
    (decide (ackQuorum ≤ (committedNodes owns snapshots r).length) ||
      (decide (committedNodes owns snapshots r ≠ []) &&
        decide (answeringOwners owns snapshots r - (dataNodes owns snapshots r).length <
          ackQuorum)))

/-- `collect_candidates_from_snapshots`: the record of each LSN with exactly one eligible value,
in the order of the LSNs. -/
def candidatesOf (stream : σ) : List (EncryptedRecord σ β) :=
  sortByLsn ((shown owns snapshots stream).dedup.filter fun r =>
    eligible owns snapshots r && (shown owns snapshots stream).all fun q =>
      decide (q.lsn = r.lsn → eligible owns snapshots q = true → q = r))

/-- `reject_ambiguous_quorum_records`: a data quorum above `after` without a marker quorum. -/
def ambiguousRecord (stream : σ) (after : Nat) : Option (EncryptedRecord σ β) :=
  (sortByLsn (shown owns snapshots stream)).find? fun r =>
    decide (after < r.lsn) && decide (r.committedLsn < r.lsn) &&
      decide (ackQuorum ≤ (dataNodes owns snapshots r).length) &&
      decide ((committedNodes owns snapshots r).length < ackQuorum)

def watermarkCandidates (stream : σ) (after committed : Nat) : List (EncryptedRecord σ β) :=
  let inRange := (shown owns snapshots stream).filter fun r =>
    decide (after < r.lsn) && decide (r.lsn ≤ committed) && decide (r.committedLsn < r.lsn) &&
      decide (r.committedLsn ≤ committed)
  sortByLsn (inRange.dedup.filter fun r => inRange.all fun q => decide (q.lsn = r.lsn → q = r))

def hasDurableMarker (r : EncryptedRecord σ β) : Bool :=
  snapshots.any fun (_, snapshot) => snapshot.any fun s => decide (r ∈ s.committed)

end Evidence

/-- The highest trim checkpoint a member reports, or the caller's watermark, within the bound. -/
def trimmedFloor [DecidableEq σ] (stream : σ) (after : Nat) (committed : Option Nat)
    (snapshots : Snapshots ν σ β) : Nat :=
  let trimmed := snapshots.foldl
    (fun high (_, snapshot) => max high (snapshot.elim 0 fun s => floorOf s.trimmed stream)) 0
  max after (committed.elim trimmed fun limit => min trimmed limit)

def ensureExactWatermark (after committed : Nat) (records : List (EncryptedRecord σ β)) :
    Except ReplicaError Unit :=
  if committed = after then .ok ()
  else if records.getLast?.any (fun r => r.lsn = committed) = true then .ok ()
  else
    .error (.recoveryIncomplete
      (records.getLast?.elim (saturatingAdd after 1) fun r => saturatingAdd r.lsn 1) committed)

/-- The walk of an ordinary recovery: a record past a missing LSN is a gap, one that does not
continue the chain ends it. -/
def ordinaryWalk : Nat → Nat → List (EncryptedRecord σ β) →
    Except ReplicaError (List (EncryptedRecord σ β))
  | _, _, [] => .ok []
  | expected, epoch, r :: rest =>
    if r.lsn < expected then ordinaryWalk expected epoch rest
    else if r.lsn ≠ expected then .error (.recoveryGap expected r.lsn)
    else if r.committedLsn ≠ expected - 1 ∨ r.writerEpoch < epoch then .ok []
    else (ordinaryWalk (saturatingAdd expected 1) r.writerEpoch rest).map (r :: ·)

/-- The walk of a certified recovery: whatever does not continue the chain ends it. -/
def certifiedWalk (committed : Nat) : Nat → Nat → List (EncryptedRecord σ β) →
    List (EncryptedRecord σ β)
  | _, _, [] => []
  | expected, epoch, r :: rest =>
    if r.lsn < expected then certifiedWalk committed expected epoch rest
    else if r.lsn ≠ expected ∨ committed < r.lsn ∨ r.committedLsn ≠ expected - 1 ∨
        r.writerEpoch < epoch then []
    else r :: certifiedWalk committed (saturatingAdd expected 1) r.writerEpoch rest

def dedupAfter (r : EncryptedRecord σ β) : List (EncryptedRecord σ β) → List (EncryptedRecord σ β)
  | [] => [r]
  | q :: rest => if q.lsn = r.lsn then dedupAfter r rest else r :: dedupAfter q rest

def dedupByLsn : List (EncryptedRecord σ β) → List (EncryptedRecord σ β)
  | [] => []
  | r :: rest => dedupAfter r rest

section Recover

variable [DecidableEq ν] [DecidableEq σ] [DecidableEq β] [DecidableEq δ]
  (inputs : Inputs σ β ν κ δ ω) (stream : σ)

def ordinaryOffer (after : Nat) (snapshots : Snapshots ν σ β) : Nat × List (EncryptedRecord σ β) :=
  let floor := trimmedFloor stream after none snapshots
  (floor, (candidatesOf inputs.owns snapshots stream).filter fun r => decide (floor < r.lsn))

/-- Those of a certified recovery: the candidates first, then what the wider round shows. -/
def certifiedOffer (after committed : Nat) (early recovery : Snapshots ν σ β) :
    Nat × List (EncryptedRecord σ β) :=
  let floor := trimmedFloor stream after (some committed) recovery
  let records := (candidatesOf inputs.owns early stream).filter fun r => decide (floor < r.lsn)
  (floor, dedupByLsn (sortByLsn
    (records ++ watermarkCandidates inputs.owns recovery stream floor committed)))

def recoverHotTail (after : Nat) (committed : Option Nat) :
    Except ReplicaError (List (EncryptedRecord σ β) × Nat) :=
  match committed with
  | none =>
    inputs.early.bind fun snapshots =>
      let (floor, offered) := ordinaryOffer inputs stream after snapshots
      match ambiguousRecord inputs.owns snapshots stream floor with
      | some r => .error (.recoveryAmbiguous r.lsn
          (committedNodes inputs.owns snapshots r).length ackQuorum)
      | none => (ordinaryWalk (saturatingAdd floor 1) 0 offered).map fun hot => (hot, floor)
  | some committed =>
    if committed < after then .error (.recoveryGap (saturatingAdd after 1) committed)
    else
      inputs.early.bind fun early =>
        inputs.recovery.bind fun recovery =>
          let (floor, offered) := certifiedOffer inputs stream after committed early recovery
          let contiguous := certifiedWalk committed (saturatingAdd floor 1) 0 offered
          (ensureExactWatermark floor committed contiguous).bind fun _ =>
            match contiguous.getLast? with
            | none => .ok (contiguous, floor)
            | some last =>
              if contiguous.all (fun r => decide (r ∈ candidatesOf inputs.owns early stream) ||
                  hasDurableMarker recovery r) = true then .ok (contiguous, floor)
              else
                match inputs.verify last with
                | none => .error .commitCertificateMissing
                | some result => result.map fun _ => (contiguous, floor)

def archivedRecords (archive : Contents σ κ δ ω) (after : Nat) (committed : Option Nat) :
    Except ReplicaError (List (EncryptedRecord σ β)) :=
  match Archive.recover inputs.codec archive stream after with
  | .error e => .error (.nodeStorage (inputs.showError e))
  | .ok records =>
    .ok (records.filter fun r => committed.all fun limit => decide (r.lsn ≤ limit))

def recoverWithWatermarkCertificate (after : Nat) (committed : Option Nat) :
    Except ReplicaError (List (EncryptedRecord σ β)) :=
  (archivedRecords inputs stream inputs.archive after committed).bind fun archived =>
    let hotAfter := max (archived.getLast?.elim after (·.lsn)) after
    (recoverHotTail inputs stream hotAfter committed).bind fun (hot, floor) =>
      (if hotAfter < floor then
        (archivedRecords inputs stream inputs.lateArchive hotAfter committed).bind fun late =>
          let reached := late.getLast?.elim hotAfter (·.lsn)
          if reached < floor then
            .error (.nodeStorage ("member trim checkpoint " ++ toString floor ++ " for " ++
              inputs.showStream stream ++ " exceeds the archive tail " ++ toString reached))
          else .ok (archived ++ late ++ hot.filter fun r => decide (reached < r.lsn))
      else .ok (archived ++ hot)).bind fun records =>
        match committed with
        | none => .ok records
        | some limit => (ensureExactWatermark after limit records).map fun _ => records

end Recover

end Walleye.Recovery
