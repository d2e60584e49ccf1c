import Walleye.Archive.Ranges
import Walleye.Archive.Refines
import Walleye.Control.Cas

namespace Walleye.Control

open Walleye.Base Walleye.Base.BTreeMap
open Walleye.Bitr (ReplicaError)
open Walleye.Archive (ArchiveCodec ArchiveError ArchiveHead Contents HoldsVerified RangeArchived
  verifyRange archivedLsn)

structure OnlineCohortReplacementReceipt (ι α : Type) where
  operationId : ι
  cohortId : Nat
  oldMembersRemoved : Bool
  allRangesArchived : Bool
  hotTailArchived : Bool
  metadataAuthorityMoved : Bool
  canRetire : Bool
  archiveProof : α
  authorityMarker : String
deriving DecidableEq, Repr

structure RetirementReads (ι β γ κ δ ω α : Type) [LinearOrder ι] where
  heads : HeadCodec ι γ
  archive : ArchiveCodec ι β κ δ ω
  showHeadError : ControlHeadError ι → String
  showArchiveError : ArchiveError κ → String
  showDigest : γ → String
  /-- The hash of what was proven, for the operation, cohorts and metadata it was proven for. -/
  proofDigest : ι → Nat → Nat → γ → List (ι × Nat × Nat) → α
  /-- The head in the object store. -/
  stored : Option (ControlHead ι γ)
  /-- The head revision that the gateway's own control document knows. -/
  knownRevision : Option Nat
  contents : Contents ι κ δ ω

def notProven (reason : String) : ReplicaError :=
  .protocol ("cohort retirement is not proven: " ++ reason)

variable {ι β γ κ δ ω α : Type} [LinearOrder ι]

section Prefixes

def checkSourceMember (metadata : ControlMetadata ι) (cohortId : Nat) (id : ι) :
    Except ReplicaError Unit :=
  match metadata.members[id]? with
  | none => .error (notProven "source member is absent")
  | some member =>
    if member.cohortId ≠ cohortId ∨ member.status ≠ .removed then
      .error (notProven "a source member still participates in writes")
    else .ok ()

def eligibleSuccessor (metadata : ControlMetadata ι) (sourceCohortId receiptCohortId : Nat)
    (cohort : DurableCohort ι) : Prop :=
  cohort.id ≠ sourceCohortId ∧
    (receiptCohortId = sourceCohortId ∨ cohort.id = receiptCohortId) ∧
    cohort.status = .active ∧ cohort.members.length = replicationFactor ∧
    ∀ id ∈ cohort.members, ∃ member ∈ metadata.members[id]?,
      member.cohortId = cohort.id ∧ member.status = .active

instance (metadata : ControlMetadata ι) (sourceCohortId receiptCohortId : Nat) :
    DecidablePred (eligibleSuccessor metadata sourceCohortId receiptCohortId) := fun _ =>
  inferInstanceAs (Decidable (_ ∧ _ ∧ _ ∧ _ ∧ _))

def sourceRanges (sourceCohortId : Nat) (segments : List (StreamSegment ι)) :
    List (StreamSegment ι) :=
  segments.filter (·.cohortId = sourceCohortId)

def requirePrefix (source : DurableCohort ι) (stream : ι) (required : BTreeMap ι Nat)
    (segment : StreamSegment ι) : Except ReplicaError (BTreeMap ι Nat) :=
  match segment.endLsn with
  | none => .error (notProven "a source stream range is still open")
  | some last =>
    if segment.memberIds ≠ source.members ∨ last < segment.startLsn then
      .error (notProven "source range identity or boundary is inconsistent")
    else .ok (required.insert stream ((required[stream]?.map (max · last)).getD last))

def requiredArchivePrefixes (heads : HeadCodec ι γ) (head : ControlHead ι γ)
    (operationId : ι) (sourceCohortId receiptCohortId : Nat) :
    Except ReplicaError (BTreeMap ι Nat) :=
  if heads.blank operationId ∨ head.authorityEpoch < 2 ∨
      head.completedOperations[operationId]? = none then
    .error (notProven "the operation has no committed object-head receipt")
  else match head.metadata.cohorts[sourceCohortId]? with
    | none => .error (notProven "source cohort is absent")
    | some source =>
      if source.status ≠ .retired ∨ source.members.length ≠ replicationFactor then
        .error (notProven "source cohort has not retired")
      else (source.members.forM (checkSourceMember head.metadata sourceCohortId)).bind fun _ =>
        if ¬∃ cohort ∈ head.metadata.cohorts.valuesOf,
            eligibleSuccessor head.metadata sourceCohortId receiptCohortId cohort then
          .error (notProven "no complete successor cohort remains")
        else head.metadata.manifest.streamSegments.toList.foldlM (fun required entry =>
          (sourceRanges sourceCohortId entry.2).foldlM (requirePrefix source entry.1) required) ∅

end Prefixes

section Receipt

variable (reads : RetirementReads ι β γ κ δ ω α)

def loadAuthoritativeHead [DecidableEq γ] : Except ReplicaError (Option (ControlHead ι γ)) :=
  match reads.stored with
  | none =>
    if ∃ revision ∈ reads.knownRevision, revision ≠ 0 then
      .error (.nodeStorage "authoritative control head is missing after migration")
    else .ok none
  | some head =>
    ((head.validate reads.heads).mapError fun e => .nodeStorage (reads.showHeadError e)).map
      fun _ => some head

variable [DecidableEq δ]

def verifySourceArchiveRanges (manifest : ReplicaManifest ι) (sourceCohortId : Nat) :
    Except ReplicaError Unit :=
  manifest.streamSegments.toList.forM fun (stream, segments) =>
    (sourceRanges sourceCohortId segments).forM fun segment =>
      match segment.endLsn with
      | none => .error (notProven "source archive proof contains an open range")
      | some last =>
        (verifyRange reads.archive reads.contents stream reads.heads.empty segment.startLsn
          last).mapError fun e => .nodeStorage (reads.showArchiveError e)

def proveArchived (entry : ι × Nat) : Except ReplicaError (ι × Nat × Nat) :=
  ((archivedLsn reads.archive reads.contents entry.1).mapError
      fun e => .nodeStorage (reads.showArchiveError e)).bind fun archived =>
    if archived < entry.2 then
      .error (notProven "an archive head is below a sealed source range")
    else .ok (entry.1, entry.2, archived)

def verifiedOnlineRetirementReceipt [DecidableEq γ] (operationId : ι)
    (sourceCohortId receiptCohortId : Nat) :
    Except ReplicaError (OnlineCohortReplacementReceipt ι α) :=
  (loadAuthoritativeHead reads).bind fun
    | none => .error (notProven "object-store metadata authority is absent")
    | some head =>
      (requiredArchivePrefixes reads.heads head operationId sourceCohortId receiptCohortId).bind
        fun required =>
      (verifySourceArchiveRanges reads head.metadata.manifest sourceCohortId).bind fun _ =>
      (required.toList.mapM (proveArchived reads)).map fun proofs =>
        { operationId := operationId
          cohortId := receiptCohortId
          oldMembersRemoved := true
          allRangesArchived := true
          hotTailArchived := true
          metadataAuthorityMoved := true
          canRetire := true
          archiveProof := reads.proofDigest operationId sourceCohortId receiptCohortId
            head.metadataDigest proofs
          authorityMarker := "object-head:" ++ toString head.authorityEpoch ++ ":" ++
            toString head.revision ++ ":" ++ reads.showDigest head.metadataDigest }

end Receipt

section Safety

variable {reads : RetirementReads ι β γ κ δ ω α} {head : ControlHead ι γ} {sourceCohortId : Nat}

/-- Every range of the source cohort is sealed; the archive's references chain from the stream's
first LSN to its end, and each of its records is held. -/
def RangesArchived [DecidableEq δ] (reads : RetirementReads ι β γ κ δ ω α)
    (manifest : ReplicaManifest ι) (sourceCohortId : Nat) : Prop :=
  ∀ (stream : ι) (segments : List (StreamSegment ι)),
    manifest.streamSegments[stream]? = some segments →
    ∀ segment ∈ segments, segment.cohortId = sourceCohortId →
      ∃ last ∈ segment.endLsn, ∃ archive,
        RangeArchived reads.archive reads.contents stream archive segment.startLsn last

def PrefixesArchived [DecidableEq δ] (reads : RetirementReads ι β γ κ δ ω α)
    (manifest : ReplicaManifest ι) (sourceCohortId : Nat) : Prop :=
  ∀ (stream : ι) (segments : List (StreamSegment ι)),
    manifest.streamSegments[stream]? = some segments →
    ∀ segment ∈ segments, segment.cohortId = sourceCohortId →
      ∃ last ∈ segment.endLsn, ∃ archive,
        RangeArchived reads.archive reads.contents stream archive 1 last

/-- A manifest takes a range away only if its cohort acknowledged no record from its first LSN on. -/
def DropsEmpty (acknowledged : ι → Nat → Nat → Prop) (previous next : StreamRanges ι) : Prop :=
  ∀ (stream : ι) (index : Nat) (segment : StreamSegment ι),
    (previous[stream]?.getD [])[index]? = some segment →
    (next[stream]?.getD []).length ≤ index →
    ∀ lsn, segment.startLsn ≤ lsn → ¬acknowledged stream segment.cohortId lsn

/-- The ranges after accepted manifests, each of which passed the check of a transition and met a
condition. -/
def FollowsFrom (naming : ControlNaming ι) (ok : StreamRanges ι → StreamRanges ι → Prop) :
    StreamRanges ι → StreamRanges ι → Prop :=
  Relation.ReflTransGen fun previous next =>
    validateManifestTransition naming previous next = .ok () ∧ ok previous next

def RoutedArchived [DecidableEq δ] (reads : RetirementReads ι β γ κ δ ω α)
    (acknowledged : ι → Nat → Nat → Prop) (ok : StreamRanges ι → StreamRanges ι → Prop)
    (manifest : ReplicaManifest ι) (sourceCohortId : Nat) : Prop :=
  ∀ (naming : ControlNaming ι) (earlier : StreamRanges ι),
    FollowsFrom naming ok earlier manifest.streamSegments →
    ∀ (stream : ι) (index : Nat) (segment : StreamSegment ι),
      (earlier[stream]?.getD [])[index]? = some segment → segment.cohortId = sourceCohortId →
      (∀ lsn, segment.startLsn ≤ lsn → ¬acknowledged stream sourceCohortId lsn) ∨
        ∃ kept last, (manifest.streamSegments[stream]?.getD [])[index]? = some kept ∧
          kept.startLsn = segment.startLsn ∧ kept.endLsn = some last ∧
          (∀ sealed ∈ segment.endLsn, sealed = last) ∧ ∃ archive,
          RangeArchived reads.archive reads.contents stream archive segment.startLsn last

/-- A range stays in its place, or its cohort acknowledged nothing of it. -/
theorem FollowsFrom.kept_or_empty {acknowledged : ι → Nat → Nat → Prop}
    {earlier after : StreamRanges ι} {stream : ι} {index : Nat} {segment : StreamSegment ι}
    (h : FollowsFrom naming (DropsEmpty acknowledged) earlier after)
    (hseg : (earlier[stream]?.getD [])[index]? = some segment) :
    (∀ lsn, segment.startLsn ≤ lsn → ¬acknowledged stream segment.cohortId lsn) ∨
      ∃ kept, (after[stream]?.getD [])[index]? = some kept ∧ kept.startLsn = segment.startLsn ∧
        kept.cohortId = segment.cohortId ∧ ∀ last ∈ segment.endLsn, kept.endLsn = some last := by
  induction h with
  | refl => exact .inr ⟨segment,hseg,rfl,rfl,fun _ hl => hl⟩
  | @tail before after hb hnex ih =>
    rcases ih with hd | ⟨kept,hk,hs,hc,he⟩
    · exact .inl hd
    · cases hr : before[stream]? with
      | none => simp [hr] at hk
      | some ranges =>
        have hch := validateManifestTransition_stream hnex.1 hr
        have hkr := hk
        rw [hr,Option.getD_some] at hkr
        rcases validateStreamTransition_keeps hch hkr with ⟨new,hn,hsa,hse⟩ | ⟨-,hg⟩
        · refine .inr ⟨new,hn,hsa.1.symm.trans hs,hsa.2.1.symm.trans hc,?_⟩
          intro last hl
          exact hse last (he last hl)
        · have hem := hnex.2 stream index kept hk hg
          rw [hs,hc] at hem
          exact .inl hem

theorem RangesArchived.routed [DecidableEq δ] {manifest : ReplicaManifest ι}
    (h : RangesArchived reads manifest sourceCohortId) (acknowledged : ι → Nat → Nat → Prop) :
    RoutedArchived reads acknowledged (DropsEmpty acknowledged) manifest sourceCohortId := by
  intro naming earlier hf stream index segment hseg hc
  rcases FollowsFrom.kept_or_empty hf hseg with hd | ⟨kept,hk,hs,hsa,he⟩
  · exact .inl (hc ▸ hd)
  · cases hr : manifest.streamSegments[stream]? with
    | none => simp [hr] at hk
    | some ranges =>
      rw [hr,Option.getD_some] at hk
      obtain ⟨last,hl,archive,ha⟩ :=
        h stream ranges hr kept (List.mem_of_getElem? hk) (hsa.trans hc)
      refine .inr ⟨kept,last,hk,hs,hl,?_,archive,hs ▸ ha⟩
      intro sealed hse
      exact Option.some.inj ((he sealed hse).symm.trans hl)

variable [DecidableEq γ]

end Safety

section Concrete

def replacedMember (id : ℕ) : ℕ × DurableMember ℕ :=
  (id, { id, url := 10 + id, status := if id ≤ 3 then .removed else .active,
         cohortId := if id ≤ 3 then 0 else 1, name := 0, machineId := 0, volumeId := 0,
         ordinal := 0, tier := 0, maxAppendBytes := 0 })

def replacedCohorts : BTreeMap ℕ (DurableCohort ℕ) :=
  ((∅ : BTreeMap ℕ (DurableCohort ℕ)).insert 0 ⟨0, [1, 2, 3], .retired, 0, 0⟩).insert 1
    ⟨1, [4, 5, 6], .active, 0, 0⟩

def rangeOf (cohortId startLsn : ℕ) (endLsn : Option ℕ) : StreamSegment ℕ :=
  { rangeOfThree startLsn endLsn with
    cohortId, memberIds := if cohortId = 0 then [1, 2, 3] else [4, 5, 6] }

def replacedMetadata (segments : StreamRanges ℕ) : ControlMetadata ℕ where
  membershipEpoch := 1
  members := .ofList ([1, 2, 3, 4, 5, 6].map replacedMember)
  cohorts := replacedCohorts
  manifest :=
    { version := 1, revision := 1, digest := numbered.manifestDigest segments, writerEpoch := 1,
      cohortId := 1, memberSetHash := 1, writeCohortId := 1, streamSegments := segments,
      operationId := 1, tier := 0, maxAppendBytes := 0 }
  pendingHandoffs := ∅

def archivedPair (first : ℕ) : Archive.Segment ℕ Unit :=
  ⟨5, first, first + 1, [⟨5, 1, first, first - 1, ()⟩, ⟨5, 1, first + 1, first, ()⟩]⟩

def referenceTo (segment : Archive.Segment ℕ Unit) :
    Archive.SegmentRef (Option (ℕ × ℕ × ℕ × Archive.Segment ℕ Unit)) (Archive.Segment ℕ Unit) :=
  ⟨segment.firstLsn, segment.lastLsn,
    some (5, segment.firstLsn, segment.lastLsn, segment), segment⟩

def pairsArchived (named held : List ℕ) : Contents ℕ
    (Option (ℕ × ℕ × ℕ × Archive.Segment ℕ Unit)) (Archive.Segment ℕ Unit)
    (Archive.Segment ℕ Unit) where
  head stream :=
    if stream = 5 then some ⟨5, 2 * named.length, 1, named.map (referenceTo <| archivedPair ·)⟩
    else none
  object key := key.bind fun parts =>
    if parts.2.2.2 ∈ held.map archivedPair then some parts.2.2.2 else none

def replacedReads (segments : StreamRanges ℕ) (named held : List ℕ) :
    RetirementReads ℕ Unit ℕ (Option (ℕ × ℕ × ℕ × Archive.Segment ℕ Unit))
      (Archive.Segment ℕ Unit) (Archive.Segment ℕ Unit) Unit where
  heads := numbered.toHeadCodec
  archive := Archive.plainCodec
  showHeadError _ := ""
  showArchiveError _ := ""
  showDigest _ := ""
  proofDigest _ _ _ _ _ := ()
  stored := (ControlHead.new numbered.toHeadCodec 2 1 7 ⟨1, 1, 1, 1⟩
    (replacedMetadata segments)).toOption
  knownRevision := none
  contents := pairsArchived named held

/-- Cohort 0 held the third and the fourth record; the object with the two before them is gone. -/
def laterRangeReads :=
  replacedReads (.ofList [(5, [rangeOf 1 1 (some 2), rangeOf 0 3 (some 4), rangeOf 1 5 none])])
    [1, 3] [3]

theorem firstPair_missing (head : ArchiveHead ℕ _ _)
    (hl : Archive.loadHead laterRangeReads.archive laterRangeReads.contents 5 = .ok head) :
    ¬HoldsVerified laterRangeReads.archive laterRangeReads.contents 5 head 1 := by
  cases hl
  rintro ⟨reference,hre,segment,hf,r,hr,-,hls⟩
  have hn : reference ∈ [referenceTo (archivedPair 1),referenceTo (archivedPair 3)] :=
    hre
  simp only [List.mem_cons,List.not_mem_nil,or_false] at hn
  rcases hn with rfl | rfl
  · cases hf
  · cases hf
    have hlsn : r.lsn ∈ [3,4] := List.mem_map_of_mem hr
    rw [hls] at hlsn
    simp at hlsn

/-- The records before a range of the source cohort are not looked at. -/
theorem receipt_without_earlier_object :
    ∃ receipt head, verifiedOnlineRetirementReceipt laterRangeReads 7 0 0 = .ok receipt ∧
      laterRangeReads.stored = some head ∧
      ¬PrefixesArchived laterRangeReads head.metadata.manifest 0 := by
  have hg : (verifiedOnlineRetirementReceipt laterRangeReads 7 0 0).toOption.isSome := by
    decide +kernel
  obtain ⟨receipt,hr⟩ := Option.isSome_iff_exists.mp hg
  have hs : (laterRangeReads.stored.map (·.metadata.manifest.streamSegments[5]?)) =
      some (some [rangeOf 1 1 (some 2),rangeOf 0 3 (some 4),rangeOf 1 5 none]) := by
    decide +kernel
  obtain ⟨head,hh,hra⟩ := Option.map_eq_some_iff.mp hs
  refine ⟨receipt,head,Except.toOption_eq_some.mp hr,hh,?_⟩
  intro ha
  obtain ⟨last,hl,archive,har⟩ :=
    ha 5 _ hra (rangeOf 0 3 (some 4)) (by simp) rfl
  cases hl
  exact firstPair_missing archive har.loaded (har.held 1 (by decide) (by decide))

end Concrete

end Walleye.Control
