import Walleye.Control.Reopen
import Walleye.Recovery.Seams

namespace Walleye.Recovery

open Walleye.Base Walleye.Base.BTreeMap
open Walleye.Bitr
open Walleye.Control
open Walleye.Engine (saturatingAdd)

section Certificates

/-- What a commit certificate says about the range that its record was routed to. -/
structure CertificateBinding (ι : Type) where
  cohortId : Nat
  segmentStartLsn : Nat
  manifestRevision : Nat
  manifestDigest : ι
  segmentEndLsn : Option Nat
  memberHash : ι
  segmentOperationId : ι
deriving DecidableEq, Repr

structure CommitCertificatePayload (ι : Type) where
  version : Nat
  stream : ι
  writerEpoch : Nat
  committedLsn : Nat
  recordDigest : ι
  binding : CertificateBinding ι
deriving DecidableEq, Repr

/-- Payloads signed with the root key of the gateways. `verified` checks the signature. -/
structure CertificateScheme (ι β χ : Type) where
  recordDigest : EncryptedRecord ι β → ι
  sign : CommitCertificatePayload ι → χ
  verified : χ → Option (CommitCertificatePayload ι)
  verified_sign : ∀ payload, verified (sign payload) = some payload

def commitCertificateVersion : Nat := 1

structure ExpectedBinding (ι : Type) where
  cohortId : Option Nat
  segmentStartLsn : Option Nat
  manifestRevision : Option Nat
  manifestDigest : Option ι
  segmentEndLsn : Option (Option Nat)
  memberHash : Option ι
  segmentOperationId : Option ι

variable {ι β χ : Type}

def ExpectedBinding.Refuses (expected : ExpectedBinding ι) (binding : CertificateBinding ι) :
    Prop :=
  (∃ cohortId ∈ expected.cohortId, binding.cohortId ≠ cohortId) ∨
    (∃ start ∈ expected.segmentStartLsn, binding.segmentStartLsn ≠ start) ∨
    (∃ revision ∈ expected.manifestRevision, binding.manifestRevision ≠ revision) ∨
    (∃ digest ∈ expected.manifestDigest, binding.manifestDigest ≠ digest) ∨
    (∃ last ∈ expected.segmentEndLsn, binding.segmentEndLsn ≠ last) ∨
    (∃ hash ∈ expected.memberHash, binding.memberHash ≠ hash) ∨
    (∃ operationId ∈ expected.segmentOperationId, binding.segmentOperationId ≠ operationId)

instance [DecidableEq ι] (expected : ExpectedBinding ι) :
    DecidablePred expected.Refuses := fun _ =>
  inferInstanceAs (Decidable (_ ∨ _ ∨ _ ∨ _ ∨ _ ∨ _ ∨ _))

variable (scheme : CertificateScheme ι β χ)

def issueCommitCertificateBound (record : EncryptedRecord ι β) (binding : CertificateBinding ι) :
    χ :=
  scheme.sign
    { version := commitCertificateVersion
      stream := record.stream
      writerEpoch := record.writerEpoch
      committedLsn := record.lsn
      recordDigest := scheme.recordDigest record
      binding := binding }

def verifyCommitCertificate [DecidableEq ι] (certificate : χ) (stream : ι) (committedLsn : Nat)
    (record : EncryptedRecord ι β) (expected : ExpectedBinding ι) : Except ReplicaError Unit :=
  match scheme.verified certificate with
  | none => .error .gatewayUnauthorized
  | some payload =>
    if payload.version ≠ commitCertificateVersion ∨ payload.stream ≠ stream ∨
        payload.committedLsn ≠ committedLsn ∨ payload.writerEpoch ≠ record.writerEpoch ∨
        payload.committedLsn ≠ record.lsn ∨ payload.recordDigest ≠ scheme.recordDigest record ∨
        expected.Refuses payload.binding then
      .error .gatewayUnauthorized
    else .ok ()

theorem verify_issued [DecidableEq ι] (record : EncryptedRecord ι β)
    (binding : CertificateBinding ι) (expected : ExpectedBinding ι) :
    verifyCommitCertificate scheme (issueCommitCertificateBound scheme record binding)
        record.stream record.lsn record expected = .ok () ↔ ¬expected.Refuses binding := by
  simp [verifyCommitCertificate,issueCommitCertificateBound,scheme.verified_sign]

end Certificates

section Gateway

/-- The records of a stream that a gateway knows, and how far it acknowledged them. -/
structure StreamState (ι β : Type) where
  committedLsn : Nat
  records : BTreeMap Nat (EncryptedRecord ι β)

variable {ι β χ : Type} [LinearOrder ι]

/-- What a gateway reads when it asks the quorum for the manifest; without control members there
is none. -/
abbrev ManifestRead (ι : Type) [LinearOrder ι] := Except ReplicaError (Option (ReplicaManifest ι))

def Acknowledges (streams : BTreeMap ι (StreamState ι β)) (record : EncryptedRecord ι β) : Prop :=
  ∃ known ∈ streams[record.stream]?, record.lsn ≤ known.committedLsn ∧
    known.records[record.lsn]? = some record

instance [DecidableEq β] (streams : BTreeMap ι (StreamState ι β)) :
    DecidablePred (Acknowledges streams) := fun _ => inferInstanceAs (Decidable (∃ _ ∈ _, _))

def requireManifest (read : ManifestRead ι) : Except ReplicaError (ReplicaManifest ι) :=
  read.bind fun
    | none => .error .quorumUnavailable
    | some manifest => .ok manifest

variable (naming : ControlNaming ι) (scheme : CertificateScheme ι β χ)

def unboundCertificate : CertificateBinding ι :=
  ⟨0, 0, 0, naming.empty, none, naming.empty, naming.empty⟩

def segmentBinding (manifest : ReplicaManifest ι) (segment : StreamSegment ι) :
    CertificateBinding ι :=
  { cohortId := segment.cohortId
    segmentStartLsn := segment.startLsn
    manifestRevision := manifest.revision
    manifestDigest := manifest.digest
    segmentEndLsn := segment.endLsn
    memberHash := segment.memberHash
    segmentOperationId := segment.operationId }

def certificateBinding (manifest : Option (ReplicaManifest ι)) (record : EncryptedRecord ι β) :
    CertificateBinding ι :=
  match manifest with
  | none => unboundCertificate naming
  | some manifest =>
    match manifestRoute manifest record.stream record.lsn with
    | none => unboundCertificate naming
    | some segment => segmentBinding manifest segment

/-- A certificate for an acknowledged record; in direct mode it is bound to the manifest that the
quorum answers with. -/
def issueCommitCertificate [DecidableEq β] (direct : Bool) (read : ManifestRead ι)
    (streams : BTreeMap ι (StreamState ι β)) (record : EncryptedRecord ι β) :
    Except ReplicaError χ :=
  if ¬Acknowledges streams record then
    .error (.protocol "commit certificate requested for an unacknowledged record")
  else
    (if direct then (requireManifest read).map some else .ok none).map fun manifest =>
      issueCommitCertificateBound scheme record (certificateBinding naming manifest record)

def expectedBinding (manifest : Option (ReplicaManifest ι)) (route : Option (StreamSegment ι)) :
    ExpectedBinding ι :=
  { cohortId := route.map (·.cohortId)
    segmentStartLsn := route.map (·.startLsn)
    manifestRevision := manifest.map (·.revision)
    manifestDigest := manifest.map (·.digest)
    segmentEndLsn := route.map (·.endLsn)
    memberHash := route.map (·.memberHash)
    segmentOperationId := route.map (·.operationId) }

def routeForRecord (direct : Bool) (read : ManifestRead ι) (record : EncryptedRecord ι β) :
    Except ReplicaError (Option (StreamSegment ι)) :=
  if direct then
    (requireManifest read).map fun manifest => manifestRoute manifest record.stream record.lsn
  else .ok none

/-- The check of the caller's certificate against the record at the watermark. It reads the manifest
for the route, and for revision and digest. -/
def checkCertificate (direct : Bool) (routeRead read : ManifestRead ι) (certificate : Option χ)
    (stream : ι) (committedLsn : Nat) (last : EncryptedRecord ι β) :
    Option (Except ReplicaError Unit) :=
  certificate.map fun certificate =>
    (routeForRecord direct routeRead last).bind fun route =>
    read.bind fun manifest =>
    if direct ∧ manifest = none then .error .quorumUnavailable
    else verifyCommitCertificate scheme certificate stream committedLsn last
      (expectedBinding manifest route)

end Gateway

section Routes

variable {ι : Type} [LinearOrder ι] {naming : ControlNaming ι} {state : DurableControlState ι}

def KeepsRoute (naming : ControlNaming ι) (stream : ι) (lsn : Nat)
    (state : DurableControlState ι) (operation : ControlOperation ι) : Prop :=
  ∀ next ∈ operate naming state operation,
    manifestRoute (manifestFromState naming next) stream lsn =
      manifestRoute (manifestFromState naming state) stream lsn

instance (stream : ι) (lsn : Nat) : DecidablePred (KeepsRoute naming stream lsn state) :=
  fun _ => inferInstanceAs (Decidable (∀ _ ∈ _, _))

end Routes

section Stability

variable {ι β χ ν κ δ ω : Type} [LinearOrder ι] [DecidableEq β] [DecidableEq ν]
  {naming : ControlNaming ι} {scheme : CertificateScheme ι β χ} {certificate : χ}
  {streams : BTreeMap ι (StreamState ι β)} {record : EncryptedRecord ι β}
  {state : DurableControlState ι}

structure Issued (naming : ControlNaming ι) (scheme : CertificateScheme ι β χ)
    (streams : BTreeMap ι (StreamState ι β)) (record : EncryptedRecord ι β) (certificate : χ)
    (state : DurableControlState ι) : Prop where
  issued : issueCommitCertificate naming scheme true
    (.ok (some (manifestFromState naming state))) streams record = .ok certificate
  routed : manifestRoute (manifestFromState naming state) record.stream record.lsn ≠ none

def certifiedTail (inputs : Inputs ι β ν κ δ ω) (record : EncryptedRecord ι β) (after : Nat)
    (early recovery : Snapshots ν ι β) : List (EncryptedRecord ι β) :=
  certifiedWalk record.lsn
    (saturatingAdd (certifiedOffer inputs record.stream after record.lsn early recovery).1 1) 0
    (certifiedOffer inputs record.stream after record.lsn early recovery).2

def EndsWith (inputs : Inputs ι β ν κ δ ω) (record : EncryptedRecord ι β) (after : Nat) : Prop :=
  ∃ early recovery, inputs.early = .ok early ∧ inputs.recovery = .ok recovery ∧
    (certifiedTail inputs record after early recovery).getLast? = some record

def Vouched (inputs : Inputs ι β ν κ δ ω) (record : EncryptedRecord ι β) (after : Nat) : Prop :=
  ∃ early recovery, inputs.early = .ok early ∧ inputs.recovery = .ok recovery ∧
    ∀ r ∈ certifiedTail inputs record after early recovery,
      r ∈ candidatesOf inputs.owns early record.stream ∨ hasDurableMarker recovery r = true

def Recovers (inputs : Inputs ι β ν κ δ ω) (record : EncryptedRecord ι β) (after : Nat) : Prop :=
  ∃ hot floor, recoverHotTail inputs record.stream after (some record.lsn) = .ok (hot, floor) ∧
    hot.getLast? = some record

def checkAgainst (naming : ControlNaming ι) (scheme : CertificateScheme ι β χ) (certificate : χ)
    (record : EncryptedRecord ι β) (state : DurableControlState ι) :
    EncryptedRecord ι β → Option (Except ReplicaError Unit) :=
  checkCertificate scheme true (.ok (some (manifestFromState naming state)))
    (.ok (some (manifestFromState naming state))) (some certificate) record.stream record.lsn

def AcceptsCertificate (ν κ δ ω : Type) [DecidableEq ν] (naming : ControlNaming ι)
    (scheme : CertificateScheme ι β χ) (certificate : χ) (record : EncryptedRecord ι β)
    (state : DurableControlState ι) : Prop :=
  ∀ (inputs : Inputs ι β ν κ δ ω) (after : Nat), after ≤ record.lsn →
    EndsWith inputs record after →
    inputs.verify = checkAgainst naming scheme certificate record state →
    Recovers inputs record after

theorem Issued.certificate_eq (h : Issued naming scheme streams record certificate state) :
    ∃ segment, manifestRoute (manifestFromState naming state) record.stream record.lsn =
        some segment ∧
      certificate = issueCommitCertificateBound scheme record
        (segmentBinding (manifestFromState naming state) segment) := by
  obtain ⟨segment,hr⟩ := Option.ne_none_iff_exists'.mp h.routed
  refine ⟨segment,hr,?_⟩
  have hi := h.issued
  simp only [issueCommitCertificate,requireManifest,guard_ok,not_not,if_true,
    Except.map_eq_ok,Except.bind_eq_ok] at hi
  obtain ⟨-,manifest,⟨found,⟨read,hre,hf⟩,rfl⟩,rfl⟩ := hi
  cases hre
  cases hf
  simp only [certificateBinding,hr]

/-- With the record's range as it was, the certificate is accepted under the revision and digest
it was issued under, and under no others. -/
theorem checkAgainst_issued (h : Issued naming scheme streams record certificate issuing)
    (hr : manifestRoute (manifestFromState naming state) record.stream record.lsn =
      manifestRoute (manifestFromState naming issuing) record.stream record.lsn) :
    checkAgainst naming scheme certificate record state record = some (.ok ()) ↔
      (manifestFromState naming issuing).revision = (manifestFromState naming state).revision ∧
        (manifestFromState naming issuing).digest = (manifestFromState naming state).digest := by
  obtain ⟨segment,hs,rfl⟩ := h.certificate_eq
  have hc : checkAgainst naming scheme (issueCommitCertificateBound scheme record
        (segmentBinding (manifestFromState naming issuing) segment)) record state record =
      some (verifyCommitCertificate scheme (issueCommitCertificateBound scheme record
        (segmentBinding (manifestFromState naming issuing) segment)) record.stream record.lsn record
          (expectedBinding (some (manifestFromState naming state)) (some segment))) := by
    rw [hs] at hr
    simp [checkAgainst,checkCertificate,routeForRecord,requireManifest,Except.bind,Except.map,
      hr]
  rw [hc,Option.some.injEq,verify_issued]
  simp [ExpectedBinding.Refuses,expectedBinding,segmentBinding]

/-- What decides a certified recovery whose tail ends with the record. -/
theorem recovers_iff {inputs : Inputs ι β ν κ δ ω} (ha : after ≤ record.lsn)
    (he : EndsWith inputs record after) :
    Recovers inputs record after ↔
      Vouched inputs record after ∨ inputs.verify record = some (.ok ()) := by
  obtain ⟨early,recovery,hea,hre,hl⟩ := he
  have hex : ensureExactWatermark
      (certifiedOffer inputs record.stream after record.lsn early recovery).1 record.lsn
      (certifiedTail inputs record after early recovery) = .ok () := by
    simp [ensureExactWatermark,hl]
  have hvo : Vouched inputs record after ↔
      (certifiedTail inputs record after early recovery).all
        (fun r => decide (r ∈ candidatesOf inputs.owns early record.stream) ||
          hasDurableMarker recovery r) = true := by
    simp [Vouched,hea,hre]
  have hre : recoverHotTail inputs record.stream after (some record.lsn) =
      if (certifiedTail inputs record after early recovery).all
          (fun r => decide (r ∈ candidatesOf inputs.owns early record.stream) ||
            hasDurableMarker recovery r) = true then
        .ok (certifiedTail inputs record after early recovery,
          (certifiedOffer inputs record.stream after record.lsn early recovery).1)
      else
        (inputs.verify record).elim (.error .commitCertificateMissing) fun result =>
          result.map fun _ => (certifiedTail inputs record after early recovery,
            (certifiedOffer inputs record.stream after record.lsn early recovery).1) := by
    unfold certifiedTail at hl hex
    simp only [recoverHotTail,if_neg (Nat.not_lt.mpr ha),hea,hre,Except.bind,hex,hl]
    cases inputs.verify record <;> rfl
  unfold Recovers
  rw [hre,hvo]
  split
  · rename_i hv
    exact ⟨fun _ => .inl hv,fun _ => ⟨_,_,rfl,hl⟩⟩
  · rename_i hv
    rcases inputs.verify record with _ | _ | ⟨⟩
    · simp [hv]
    · simp [hv,Except.map]
    · exact ⟨fun _ => .inr rfl,fun _ => ⟨_,_,rfl,hl⟩⟩

/-- After any operations that keep a record's range, a recovery up to the record accepts its
certificate exactly under the revision and digest it was issued under, and else exactly when it
does not need the certificate. -/
theorem certificate_accepted_iff {inputs : Inputs ι β ν κ δ ω}
    (hi : Issued naming scheme streams record certificate issuing)
    (h : Reachable (· = issuing) (operate naming) (KeepsRoute naming record.stream record.lsn) state)
    (ha : after ≤ record.lsn) (he : EndsWith inputs record after)
    (hv : inputs.verify = checkAgainst naming scheme certificate record state) :
    Recovers inputs record after ↔
      ((manifestFromState naming issuing).revision = (manifestFromState naming state).revision ∧
        (manifestFromState naming issuing).digest = (manifestFromState naming state).digest) ∨
      Vouched inputs record after := by
  have hr : manifestRoute (manifestFromState naming state) record.stream record.lsn =
      manifestRoute (manifestFromState naming issuing) record.stream record.lsn := by
    apply h.invariant (P := fun s =>
      manifestRoute (manifestFromState naming s) record.stream record.lsn =
        manifestRoute (manifestFromState naming issuing) record.stream record.lsn)
    · rintro s rfl
      rfl
    · exact fun s operation s' hs ho hst => (ho s' hst).trans hs
  rw [recovers_iff ha he,hv,checkAgainst_issued hi hr,or_comm]

end Stability

section Examples

def plainScheme : CertificateScheme Nat Unit (CommitCertificatePayload Nat) where
  recordDigest record := record.lsn
  sign payload := payload
  verified := some
  verified_sign _ := rfl

def firstRecord : EncryptedRecord Nat Unit := ⟨5, 1, 1, 0, ()⟩

def firstAcknowledged : BTreeMap Nat (StreamState Nat Unit) :=
  Std.ExtTreeMap.ofList [(5, ⟨1, Std.ExtTreeMap.ofList [(1, firstRecord)] compare⟩)] compare

def firstRoute : ControlOperation Nat := .manifest (routeRequest 0 [rangeOfThree 1 none] none)

def routedOnce : DurableControlState Nat :=
  (operate numbered threeMembers firstRoute).getD threeMembers

def firstCertificate : CommitCertificatePayload Nat :=
  ⟨1, 5, 1, 1, 1, segmentBinding (manifestFromState numbered routedOnce) (rangeOfThree 1 none)⟩

theorem firstCertificate_issued :
    Issued numbered plainScheme firstAcknowledged firstRecord firstCertificate routedOnce :=
  ⟨rfl,fun hn => nomatch hn⟩

def loneCopy (state : DurableControlState Nat) :
    Inputs Nat Unit Nat (Option (Nat × Nat × Nat × Archive.Segment Nat Unit))
      (Archive.Segment Nat Unit) (Archive.Segment Nat Unit) :=
  { inputsOf (archiveOf [] 1 1 1) [] with
    early := .ok [(1, some ⟨[firstRecord], [], []⟩), (2, none), (3, none)]
    recovery := .ok [(1, some ⟨[firstRecord], [], []⟩), (2, none), (3, none)]
    verify := checkAgainst numbered plainScheme firstCertificate firstRecord state }

def secondRoute : ControlOperation Nat :=
  .manifest { routeRequest 1 [] none with
    streamSegments := Std.ExtTreeMap.ofList
      [(5, [rangeOfThree 1 none]), (6, [rangeOfThree 1 none])] compare }

def markedCopy (state : DurableControlState Nat) :
    Inputs Nat Unit Nat (Option (Nat × Nat × Nat × Archive.Segment Nat Unit))
      (Archive.Segment Nat Unit) (Archive.Segment Nat Unit) :=
  { loneCopy state with
    recovery := .ok [(1, some ⟨[firstRecord], [firstRecord], []⟩), (2, none), (3, none)] }

/-- Another stream is routed and a receipt adopted: a recovery that finds the record with its marker
goes on without the certificate. -/
theorem certificate_accepted_after_receipt :
    ∃ state, Reachable (· = routedOnce) (operate numbered) (KeepsRoute numbered 5 1) state ∧
      state.controlHeadRevision = 1 ∧ state.manifestRevision = 2 ∧
      Recovers (markedCopy state) firstRecord 0 := by
  have hr : (runs (operate numbered) (KeepsRoute numbered 5 1) routedOnce
      [secondRoute,.adoptAuthority 1 1 1 0]).map (fun s => (s.controlHeadRevision,
        s.manifestRevision)) = some (1,2) := by
    decide +kernel
  obtain ⟨state,hrun,he⟩ := Option.map_eq_some_iff.mp hr
  have hst : Reachable (· = routedOnce) (operate numbered) (KeepsRoute numbered 5 1) routedOnce :=
    .start rfl
  have hru := hst.of_runs _ hrun
  have ht : certifiedTail (markedCopy state) firstRecord 0
      [(1,some ⟨[firstRecord],[],[]⟩),(2,none),(3,none)]
      [(1,some ⟨[firstRecord],[firstRecord],[]⟩),(2,none),(3,none)] = [firstRecord] := rfl
  refine ⟨state,hru,congrArg Prod.fst he,congrArg Prod.snd he,?_⟩
  refine (certificate_accepted_iff firstCertificate_issued hru (by decide)
    ⟨_,_,rfl,rfl,by rw [ht]; rfl⟩ rfl).mpr (.inr ⟨_,_,rfl,rfl,?_⟩)
  rw [ht]
  intro r hr
  exact .inr (by rw [List.mem_singleton.mp hr]; rfl)

/-- Another stream is routed, and recovery refuses the certificate. -/
theorem unrelated_route_voids_certificate :
    ¬∀ state, Reachable
        (Issued numbered plainScheme firstAcknowledged firstRecord firstCertificate)
        (operate numbered) (KeepsRoute numbered 5 1) state →
      AcceptsCertificate Nat (Option (Nat × Nat × Nat × Archive.Segment Nat Unit))
        (Archive.Segment Nat Unit) (Archive.Segment Nat Unit) numbered plainScheme
        firstCertificate firstRecord state := by
  intro ha
  have hs : Reachable
      (Issued numbered plainScheme firstAcknowledged firstRecord firstCertificate)
      (operate numbered) (KeepsRoute numbered 5 1) routedOnce := .start firstCertificate_issued
  have hr := hs.of_runs [secondRoute] rfl
  obtain ⟨ho,floor,hre,-⟩ := ha _ hr (loneCopy _) 0 (by decide)
    ⟨_,_,rfl,rfl,by decide⟩ rfl
  cases hre

end Examples

end Walleye.Recovery
