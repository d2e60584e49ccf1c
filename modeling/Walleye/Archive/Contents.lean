import Walleye.Bitr.Record
import Walleye.Engine.Arrival

namespace Walleye.Archive

open Walleye.Bitr
open Walleye.Engine (u64Max saturatingAdd)

inductive ArchiveError (κ : Type) where
  | objectStore
  | json
  | contiguity (message : String)
  | checksum (key : κ)
  | contended
deriving DecidableEq, Repr

structure Segment (σ β : Type) where
  stream : σ
  firstLsn : Nat
  lastLsn : Nat
  records : List (EncryptedRecord σ β)
deriving DecidableEq, Repr

structure SegmentRef (κ δ : Type) where
  firstLsn : Nat
  lastLsn : Nat
  key : κ
  digest : δ
deriving DecidableEq, Repr

structure ArchiveHead (σ κ δ : Type) where
  stream : σ
  archivedLsn : Nat
  writerEpoch : Nat
  segments : List (SegmentRef κ δ)
deriving DecidableEq, Repr

/-- The formats of an archive: the JSON text of a segment, its SHA-256, and the object keys under
the archive's prefix. -/
structure ArchiveCodec (σ β κ δ ω : Type) where
  encode : Segment σ β → ω
  decode : ω → Option (Segment σ β)
  digest : ω → δ
  hexDigest : δ → Bool
  headPath : σ → κ
  segmentKey : σ → Nat → Nat → δ → κ
  underStream : σ → κ → Bool
  keyText : κ → String
  decode_encode : ∀ segment, decode (encode segment) = some segment
  digest_hex : ∀ bytes, hexDigest (digest bytes) = true
  segmentKey_under : ∀ stream first last digest,
    underStream stream (segmentKey stream first last digest) = true

structure Contents (σ κ δ ω : Type) where
  head : σ → Option (ArchiveHead σ κ δ)
  object : κ → Option ω

variable {σ β κ δ ω : Type}

def expectedSegment (expected received : Nat) : ArchiveError κ :=
  .contiguity
    ("expected segment at LSN " ++ toString expected ++ ", received " ++ toString received)

def ArchiveHead.empty (stream : σ) : ArchiveHead σ κ δ := ⟨stream, 0, 0, []⟩

variable (codec : ArchiveCodec σ β κ δ ω)

def validateReferences (stream : σ) :
    Nat → List (SegmentRef κ δ) → Except (ArchiveError κ) Nat
  | expected, [] => .ok expected
  | expected, reference :: rest =>
    if reference.firstLsn ≠ expected ∨ reference.lastLsn < reference.firstLsn then
      .error (expectedSegment expected reference.firstLsn)
    else if codec.underStream stream reference.key = false ∨
        codec.hexDigest reference.digest = false then
      .error (.checksum reference.key)
    else if u64Max ≤ reference.lastLsn then .error (.contiguity "archive LSN range exhausted")
    else validateReferences stream (reference.lastLsn + 1) rest

section Readers

variable [DecidableEq σ]

def validateHeadChain (stream : σ) (head : ArchiveHead σ κ δ) : Except (ArchiveError κ) Unit :=
  if head.stream ≠ stream then .error (.checksum (codec.headPath stream))
  else
    (validateReferences codec stream 1 head.segments).bind fun expected =>
      if head.archivedLsn ≠ expected - 1 then
        .error (.contiguity ("head watermark " ++ toString head.archivedLsn ++
          " does not match segment tail " ++ toString (expected - 1)))
      else if head.archivedLsn = 0 ∧ head.writerEpoch ≠ 0 then
        .error (.contiguity "empty archive head has a nonzero writer epoch")
      else .ok ()

def verifyRecords (key : κ) (stream : σ) :
    Nat → Nat → List (EncryptedRecord σ β) → Except (ArchiveError κ) Unit
  | _, _, [] => .ok ()
  | expected, writerEpoch, r :: rest =>
    if r.stream ≠ stream ∨ r.lsn ≠ expected ∨ r.committedLsn ≠ expected - 1 ∨
        r.writerEpoch < writerEpoch then
      .error (.contiguity ("expected LSN " ++ toString expected ++ " in " ++ codec.keyText key))
    else verifyRecords key stream (saturatingAdd expected 1) r.writerEpoch rest

def verifySegment (segment : Segment σ β) (reference : SegmentRef κ δ) (stream : σ) :
    Except (ArchiveError κ) Unit :=
  if segment.stream ≠ stream ∨ segment.firstLsn ≠ reference.firstLsn ∨
      segment.lastLsn ≠ reference.lastLsn ∨
      segment.records.head?.map (·.lsn) ≠ some reference.firstLsn ∨
      segment.records.getLast?.map (·.lsn) ≠ some reference.lastLsn then
    .error (.contiguity
      ("segment " ++ codec.keyText reference.key ++ " metadata does not match its head entry"))
  else verifyRecords codec reference.key stream reference.firstLsn 0 segment.records

def loadHead (store : Contents σ κ δ ω) (stream : σ) :
    Except (ArchiveError κ) (ArchiveHead σ κ δ) :=
  match store.head stream with
  | none => .ok (.empty stream)
  | some head =>
    if head.stream ≠ stream then .error (.checksum (codec.headPath stream)) else .ok head

variable [DecidableEq δ]

def fetchSegment (store : Contents σ κ δ ω) (stream : σ) (reference : SegmentRef κ δ) :
    Except (ArchiveError κ) (Segment σ β) :=
  match store.object reference.key with
  | none => .error .objectStore
  | some bytes =>
    if codec.digest bytes ≠ reference.digest then .error (.checksum reference.key)
    else
      match codec.decode bytes with
      | none => .error .json
      | some segment => (verifySegment codec segment reference stream).map fun _ => segment

/-- The loop of `recover` and `archived_tail`: the references from `expected` on, of which those
that reach past `after` are fetched. It answers the next LSN, the last epoch and the records past
`after`. -/
def readTail (store : Contents σ κ δ ω) (stream : σ) (after : Nat) :
    Nat → Nat → List (SegmentRef κ δ) →
      Except (ArchiveError κ) (Nat × Nat × List (EncryptedRecord σ β))
  | expected, epoch, [] => .ok (expected, epoch, [])
  | expected, epoch, reference :: rest =>
    if reference.firstLsn ≠ expected ∨ reference.lastLsn < reference.firstLsn then
      .error (expectedSegment expected reference.firstLsn)
    else if reference.lastLsn ≤ after then
      readTail store stream after (saturatingAdd reference.lastLsn 1) epoch rest
    else
      (fetchSegment codec store stream reference).bind fun segment =>
        if segment.records.head?.any (fun r => r.writerEpoch < epoch) = true then
          .error (.contiguity "writer epoch moved backward between archive segments")
        else
          (readTail store stream after (saturatingAdd reference.lastLsn 1)
            (segment.records.getLast?.elim epoch (·.writerEpoch)) rest).bind
              fun (expected, epoch, tail) =>
                .ok (expected, epoch,
                  segment.records.filter (fun r => decide (after < r.lsn)) ++ tail)

def recover (store : Contents σ κ δ ω) (stream : σ) (after : Nat) :
    Except (ArchiveError κ) (List (EncryptedRecord σ β)) :=
  (loadHead codec store stream).bind fun head =>
    (readTail codec store stream after 1 0 head.segments).bind fun (expected, epoch, recovered) =>
      if head.archivedLsn ≠ expected - 1 then
        .error (.contiguity ("head " ++ toString head.archivedLsn ++
          " does not match segment tail " ++ toString (expected - 1)))
      else if after < head.archivedLsn ∧ head.writerEpoch ≠ epoch then
        .error (.contiguity "head writer epoch does not match its archived tail")
      else .ok recovered

def archivedTail (store : Contents σ κ δ ω) (stream : σ) (after : Nat) :
    Except (ArchiveError κ) (Option (Nat × Nat)) :=
  (loadHead codec store stream).bind fun head =>
    if head.archivedLsn < after then
      .error (.contiguity ("archive watermark " ++ toString head.archivedLsn ++
        " trails compacted LSN " ++ toString after))
    else if head.archivedLsn = after then .ok none
    else
      (readTail codec store stream after 1 0 head.segments).bind fun (expected, epoch, _) =>
        if head.archivedLsn ≠ expected - 1 ∨ epoch ≠ head.writerEpoch then
          .error (.contiguity "archive head does not match its verified tail")
        else .ok (some (head.archivedLsn, head.writerEpoch))

end Readers

end Walleye.Archive
