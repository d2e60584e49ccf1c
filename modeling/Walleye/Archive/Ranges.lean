import Walleye.Archive.Linked
import Walleye.Archive.Layout

namespace Walleye.Archive

open Walleye.Base Walleye.Bitr
open Walleye.Engine (u64Max saturatingAdd)

variable {σ β κ δ ω : Type}

/-- How far a range is verified: the LSN that is next, the epoch of the last record in the range,
and whether its end was met. -/
structure RangeProgress where
  expected : Nat
  epoch : Option Nat
  complete : Bool
deriving DecidableEq, Repr

def verifyRangeRecords (startLsn endLsn : Nat) :
    Nat → Option Nat → List (EncryptedRecord σ β) → Except (ArchiveError κ) RangeProgress
  | expected, epoch, [] => .ok ⟨expected, epoch, false⟩
  | expected, epoch, r :: rest =>
    if r.lsn < startLsn then verifyRangeRecords startLsn endLsn expected epoch rest
    else if endLsn < r.lsn then .ok ⟨expected, epoch, false⟩
    else if r.lsn ≠ expected then
      .error (.contiguity ("expected LSN " ++ toString expected ++
        " in requested archive range, received " ++ toString r.lsn))
    else if ∃ seen ∈ epoch, r.writerEpoch < seen then
      .error (.contiguity "writer epoch moved backward in requested archive range")
    else if r.lsn = endLsn then .ok ⟨expected, some r.writerEpoch, true⟩
    else verifyRangeRecords startLsn endLsn (saturatingAdd r.lsn 1) (some r.writerEpoch) rest

section Readers

variable [DecidableEq σ] [DecidableEq δ] (codec : ArchiveCodec σ β κ δ ω) (store : Contents σ κ δ ω)
  (stream : σ)

def verifyRangeSegments (startLsn endLsn : Nat) :
    Nat → Option Nat → List (SegmentRef κ δ) → Except (ArchiveError κ) RangeProgress
  | expected, epoch, [] => .ok ⟨expected, epoch, false⟩
  | expected, epoch, reference :: rest =>
    if reference.lastLsn < startLsn ∨ endLsn < reference.firstLsn then
      verifyRangeSegments startLsn endLsn expected epoch rest
    else (fetchSegment codec store stream reference).bind fun segment =>
      (verifyRangeRecords startLsn endLsn expected epoch segment.records).bind fun progress =>
        if progress.complete then .ok progress
        else verifyRangeSegments startLsn endLsn progress.expected progress.epoch rest

def verifyRange (blank : σ) (startLsn endLsn : Nat) : Except (ArchiveError κ) Unit :=
  if stream = blank ∨ startLsn = 0 ∨ endLsn < startLsn then
    .error (.contiguity
      "archive verification range must be non-empty and start at LSN 1 or later")
  else (loadHead codec store stream).bind fun head =>
    (validateHeadChain codec stream head).bind fun _ =>
    if head.archivedLsn < endLsn then
      .error (.contiguity ("archive watermark " ++ toString head.archivedLsn ++
        " trails requested range through LSN " ++ toString endLsn))
    else (verifyRangeSegments codec store stream startLsn endLsn startLsn none head.segments).bind
      fun progress =>
        if ¬progress.complete then
          .error (.contiguity ("archive range " ++ toString startLsn ++ "-" ++ toString endLsn ++
            " is not fully verified"))
        else if endLsn = head.archivedLsn ∧ progress.epoch ≠ some head.writerEpoch then
          .error (.contiguity "archive head writer epoch does not match its verified tail")
        else .ok ()

def archivedLsn : Except (ArchiveError κ) Nat :=
  (loadHead codec store stream).bind fun head =>
    (validateHeadChain codec stream head).map fun _ => head.archivedLsn

def HoldsVerified (head : ArchiveHead σ κ δ) (lsn : Nat) : Prop :=
  ∃ reference ∈ head.segments, ∃ segment, fetchSegment codec store stream reference = .ok segment ∧
    ∃ r ∈ segment.records, r.stream = stream ∧ r.lsn = lsn

end Readers

section Verified

variable {startLsn endLsn expected : Nat}

variable {codec : ArchiveCodec σ β κ δ ω} {store : Contents σ κ δ ω} {stream : σ}

variable [DecidableEq σ]

variable [DecidableEq δ]

structure RangeArchived (codec : ArchiveCodec σ β κ δ ω) (store : Contents σ κ δ ω) (stream : σ)
    (head : ArchiveHead σ κ δ) (startLsn endLsn : Nat) : Prop where
  loaded : loadHead codec store stream = .ok head
  chain : validateHeadChain codec stream head = .ok ()
  reaches : endLsn ≤ head.archivedLsn
  named : ∀ lsn, 1 ≤ lsn → lsn ≤ endLsn →
    ∃ reference ∈ head.segments, reference.firstLsn ≤ lsn ∧ lsn ≤ reference.lastLsn
  held : ∀ lsn, startLsn ≤ lsn → lsn ≤ endLsn → HoldsVerified codec store stream head lsn

end Verified

end Walleye.Archive
