import Walleye.Control.Receipts

namespace Walleye.Control

open Walleye.Base Walleye.Base.BTreeMap

section Claim

variable {ι δ : Type}

structure PendingHandoffDescriptor.SameHandoff (d d' : PendingHandoffDescriptor ι) : Prop where
  operationId : d'.operationId = d.operationId
  source : d'.source = d.source
  cohort : d'.targetCohortId = d.targetCohortId
  members : List.Forall₂ sameMemberIncarnation d.targetMembers d'.targetMembers
  hash : d'.targetMemberHash = d.targetMemberHash
  tier : d'.targetTier = d.targetTier
  maxAppendBytes : d'.targetMaxAppendBytes = d.targetMaxAppendBytes
  writerEpoch : d'.targetWriterEpoch = d.targetWriterEpoch

theorem sameMemberIncarnation_refl (m : DurableMember ι) : sameMemberIncarnation m m :=
  ⟨rfl,rfl,rfl,rfl,rfl,rfl,rfl,rfl,rfl⟩

theorem PendingHandoffDescriptor.SameHandoff.refl (d : PendingHandoffDescriptor ι) :
    d.SameHandoff d where
  operationId := rfl
  source := rfl
  cohort := rfl
  members := List.forall₂_same.mpr fun m _ => sameMemberIncarnation_refl m
  hash := rfl
  tier := rfl
  maxAppendBytes := rfl
  writerEpoch := rfl

theorem PendingHandoffDescriptor.ImmutableEq.sameHandoff {d d' : PendingHandoffDescriptor ι}
    (h : d.ImmutableEq d') (hl : d.targetMembers.length = d'.targetMembers.length) :
    d.SameHandoff d' := by
  obtain ⟨ho,-,hs,hc,hmem,hh,ht,hb,he,-⟩ := h
  refine ⟨ho.symm,hs.symm,hc.symm,?_,hh.symm,ht.symm,hb.symm,
    he.symm⟩
  apply List.forall₂_iff_zip.mpr
  exact ⟨hl,fun {a b} hm => hmem (a,b) hm⟩

variable [LinearOrder ι]

abbrev ControlHead.claim (head : ControlHead ι δ) (stream : ι) :
    Option (PendingHandoffDescriptor ι) :=
  head.metadata.pendingHandoffs[stream]?

def HeadCall.stream? : HeadCall ι δ → Option ι
  | .create _ => none
  | .update _ => none
  | .claim d => some d.stream
  | .advance d => some d.stream
  | .publish _ d => some d.stream
  | .complete stream _ => some stream

def keepsClaims : Policy ι δ := fun stored call =>
  match call with
  | .create head => head.metadata.pendingHandoffs = ∅
  | .update next => ∀ current ∈ stored, ∀ e ∈ next.metadata.pendingHandoffs.toList,
      current.metadata.pendingHandoffs.contains e.1 = true
  | .publish metadata d => ∀ current ∈ stored, metadata.pendingHandoffs.erase d.stream =
      current.metadata.pendingHandoffs.erase d.stream
  | .claim _ => True
  | .advance _ => True
  | .complete _ _ => True

instance (stored : Option (ControlHead ι δ)) : DecidablePred (keepsClaims stored)
  | .create head => inferInstanceAs (Decidable (head.metadata.pendingHandoffs = ∅))
  | .update next => inferInstanceAs (Decidable (∀ current ∈ stored,
      ∀ e ∈ next.metadata.pendingHandoffs.toList,
        current.metadata.pendingHandoffs.contains e.1 = true))
  | .publish metadata d => inferInstanceAs (Decidable (∀ current ∈ stored,
      metadata.pendingHandoffs.erase d.stream = current.metadata.pendingHandoffs.erase d.stream))
  | .claim _ => .isTrue trivial
  | .advance _ => .isTrue trivial
  | .complete _ _ => .isTrue trivial

def RouteIn (metadata : ControlMetadata ι) (d : PendingHandoffDescriptor ι) : Prop :=
  ∃ successor ranges, d.successor = some successor ∧
    metadata.manifest.streamSegments[d.stream]? = some ranges ∧ successor ∈ ranges

theorem validatePublishedRanges_spec
    {ranges : List (StreamSegment ι)} (h : validatePublishedRanges d ranges = .ok ()) :
    ∃ successor, d.successor = some successor ∧ successor ∈ ranges := by
  unfold validatePublishedRanges at h
  split at h
  · cases h
  · rename_i successor hs
    split at h
    · cases h
    · rename_i index hi
      refine ⟨successor,hs,?_⟩
      obtain ⟨hl,he,-⟩ := List.findIdx?_eq_some_iff_getElem.mp hi
      rw [← of_decide_eq_true he]
      exact List.getElem_mem hl

theorem validateHandoff_published {metadata : ControlMetadata ι}
     (hs : d.stage = .routePublished)
    (h : validateHandoffAgainstMetadata codec metadata d allow = .ok ()) : RouteIn metadata d := by
  unfold validateHandoffAgainstMetadata at h
  split at h
  · cases h
  · simp only [guard_ok] at h
    obtain ⟨-,-,-,h⟩ := h
    split at h
    · cases h
    · simp only [guard_ok] at h
      obtain ⟨-,-,h⟩ := h
      split at h
      · cases h
      · rename_i ranges hr
        rw [if_neg (by simp [hs])] at h
        simp only [guard_ok] at h
        obtain ⟨successor,hsu,hm⟩ := validatePublishedRanges_spec h.2
        exact ⟨successor,ranges,hsu,hr,hm⟩

theorem update_keeps_claims {y next n : ControlHead ι δ} (hp : keepsClaims (some y) (.update next))
    (hn : preservePendingHandoffs codec y next = .ok n) (stream : ι) :
    n.metadata.pendingHandoffs[stream]? = y.metadata.pendingHandoffs[stream]? := by
  obtain ⟨pending,rfl,ha,hg⟩ := preservePendingHandoffs_eq_ok.mp hn
  change pending[stream]? = _
  rw [hg]
  cases hd : next.metadata.pendingHandoffs[stream]? with
  | none => rfl
  | some d =>
    have hm := Std.ExtTreeMap.mem_toList_iff_getElem?_eq_some.mpr hd
    have hc := hp y rfl _ hm
    rw [Std.ExtTreeMap.contains_eq_isSome_getElem?,Option.isSome_iff_exists] at hc
    obtain ⟨v,hv⟩ := hc
    rw [hv,ha stream v d hv hd]
    rfl

theorem getElem?_insert_self_or {m : BTreeMap ι (PendingHandoffDescriptor ι)}
    (d : PendingHandoffDescriptor ι) (stream : ι) :
    (d.stream = stream ∧ (m.insert d.stream d)[stream]? = some d) ∨
      (m.insert d.stream d)[stream]? = m[stream]? := by
  by_cases h : d.stream = stream
  · subst h
    simp
  · simp [Std.ExtTreeMap.getElem?_insert,h]

inductive ClaimStep (codec : HeadCodec ι δ) (y : ControlHead ι δ) (x : HeadWrite ι δ)
    (stream : ι) : Prop
  | kept : x.head.metadata.pendingHandoffs[stream]? = y.metadata.pendingHandoffs[stream]? →
      ClaimStep codec y x stream
  | claimed {d : PendingHandoffDescriptor ι} : x.call.stream? = some stream →
      y.metadata.pendingHandoffs[stream]? = none →
      x.head.metadata.pendingHandoffs[stream]? = some d →
      y.completedOperations[codec.phaseId d.operationId stream "claim"]? = none →
      x.head.completedOperations[codec.phaseId d.operationId stream "claim"]? ≠ none →
      ClaimStep codec y x stream
  | advanced {d d' : PendingHandoffDescriptor ι} : x.call.stream? = some stream →
      y.metadata.pendingHandoffs[stream]? = some d →
      x.head.metadata.pendingHandoffs[stream]? = some d' → d.SameHandoff d' →
      d.stage.rank < d'.stage.rank → ClaimStep codec y x stream
  | completed {d : PendingHandoffDescriptor ι} : x.call.stream? = some stream →
      y.metadata.pendingHandoffs[stream]? = some d → d.stage = .routePublished →
      RouteIn y.metadata d → x.head.metadata.pendingHandoffs[stream]? = none →
      ClaimStep codec y x stream

section Stream

variable {stream : ι}

theorem ClaimStep.frame (h : ClaimStep codec y x stream) (hc : x.call.stream? ≠ some stream) :
    x.head.metadata.pendingHandoffs[stream]? = y.metadata.pendingHandoffs[stream]? := by
  cases h with
  | kept hg => exact hg
  | claimed hs => exact absurd hs hc
  | advanced hs => exact absurd hs hc
  | completed hs => exact absurd hs hc

theorem ClaimStep.goes_on (h : ClaimStep codec y x stream)
    (hd : y.metadata.pendingHandoffs[stream]? = some d) :
    (∃ d', x.head.metadata.pendingHandoffs[stream]? = some d' ∧ d.SameHandoff d' ∧
        d.stage.rank ≤ d'.stage.rank) ∨
      (x.head.metadata.pendingHandoffs[stream]? = none ∧ d.stage = .routePublished ∧
        RouteIn y.metadata d) := by
  cases h with
  | kept hg => exact .inl ⟨d,hg.trans hd,.refl d,Nat.le_refl _⟩
  | claimed _ hn =>
    rw [hd] at hn
    cases hn
  | advanced _ ho hne hs hr =>
    cases hd.symm.trans ho
    exact .inl ⟨_,hne,hs,Nat.le_of_lt hr⟩
  | completed _ ho hst hro hne =>
    cases hd.symm.trans ho
    exact .inr ⟨hne,hst,hro⟩

theorem ClaimStep.origin (h : ClaimStep codec y x stream)
    (hd : x.head.metadata.pendingHandoffs[stream]? = some d) :
    (∃ d', y.metadata.pendingHandoffs[stream]? = some d' ∧ d'.operationId = d.operationId) ∨
      (y.completedOperations[codec.phaseId d.operationId stream "claim"]? = none ∧
        x.head.completedOperations[codec.phaseId d.operationId stream "claim"]? ≠ none) := by
  cases h with
  | kept hg => exact .inl ⟨d,hg.symm.trans hd,rfl⟩
  | claimed _ _ hn hf hr =>
    cases hd.symm.trans hn
    exact .inr ⟨hf,hr⟩
  | advanced _ ho hn hs =>
    cases hd.symm.trans hn
    exact .inl ⟨_,ho,hs.operationId.symm⟩
  | completed _ _ _ _ hn =>
    rw [hd] at hn
    cases hn

end Stream

end Claim

section Step

variable {ι δ : Type} [LinearOrder ι] [DecidableEq δ]

/-- One write moves the claim of a stream by one step at most. -/
theorem Follows.claimStep {w x : HeadWrite ι δ} (h : Follows codec keepsClaims (some w) x)
    (hw : w.head.Valid codec) (hx : x.head.Valid codec) (stream : ι) :
    ClaimStep codec w.head x stream := by
  obtain ⟨next,preserve,n,⟨hp,hi⟩,hn,hc⟩ := h
  obtain ⟨ho,-,-,hm,-⟩ := hc.fields
  generalize hca : x.call = call at hp hi
  cases hi with
  | update =>
    apply ClaimStep.kept
    rw [hm,update_keeps_claims hp hn]
  | @claim _ _ d hs hno hf hne =>
    cases hn
    obtain ⟨-,hope,hmet⟩ := headWithMetadata_spec hne
    rw [hmet] at hm
    rcases getElem?_insert_self_or d stream with ⟨rfl,hg⟩ | hg
    · have hd : x.head.metadata.pendingHandoffs[d.stream]? = some d := by
        rw [hm]
        exact hg
      refine .claimed (by rw [hca]; rfl) hno hd hf ?_
      rw [← hope,← ho,hx.receipt]
      exact Option.some_ne_none _
    · apply ClaimStep.kept
      rw [hm]
      exact hg
  | @advance _ _ d existing _ hcl hsa hr hne =>
    cases hn
    obtain ⟨-,-,hmet⟩ := headWithMetadata_spec hne
    rw [hmet] at hm
    rcases getElem?_insert_self_or d stream with ⟨rfl,hg⟩ | hg
    · have hd : x.head.metadata.pendingHandoffs[d.stream]? = some d := by
        rw [hm]
        exact hg
      have hl := (hw.pending _ _ hcl).2.trans (hx.pending _ _ hd).2.symm
      exact .advanced (by rw [hca]; rfl) hcl hd (hsa.sameHandoff hl) hr
    · apply ClaimStep.kept
      rw [hm]
      exact hg
  | @publish _ _ metadata d existing _ how hcl hsa hr hne =>
    cases hn
    obtain ⟨-,-,hmet⟩ := headWithMetadata_spec hne
    rw [hmet] at hm
    by_cases he : d.stream = stream
    · subst he
      have hd : x.head.metadata.pendingHandoffs[d.stream]? = some d := by rw [hm,how]
      have hl := (hw.pending _ _ hcl).2.trans (hx.pending _ _ hd).2.symm
      exact .advanced (by rw [hca]; rfl) hcl hd (hsa.sameHandoff hl) hr
    · apply ClaimStep.kept
      have her := congrArg (·[stream]?) (hp w.head rfl)
      rw [hm]
      simpa [Std.ExtTreeMap.getElem?_erase,he] using her
  | @complete _ _ existing t _ hcl hs hro hne =>
    cases hn
    obtain ⟨-,-,hmet⟩ := headWithMetadata_spec hne
    rw [hmet] at hm
    by_cases he : t = stream
    · subst he
      refine .completed (by rw [hca]; rfl) hcl hs
        (validateHandoff_published hs hro) ?_
      rw [hm]
      simp
    · apply ClaimStep.kept
      rw [hm]
      simp [Std.ExtTreeMap.getElem?_erase,he]

namespace HeadStore

variable {s : HeadStore ι δ}

theorem Linear.claimStep (h : s.Linear codec keepsClaims)
    (hy : s.writes[n]? = some y) (hx : s.writes[n + 1]? = some x) (stream : ι) :
    ClaimStep codec y.head x stream :=
  (h.follows hy hx).claimStep (validateSizeAndHead_spec (h.valid hy))
    (validateSizeAndHead_spec (h.valid hx)) stream

theorem Linear.claim_receipt (h : s.Linear codec keepsClaims) {n : Nat} (hw : s.writes[n]? = some w)
    (hd : w.head.metadata.pendingHandoffs[stream]? = some d) :
    w.head.completedOperations[codec.phaseId d.operationId stream "claim"]? ≠ none := by
  induction n generalizing w d with
  | zero =>
    obtain ⟨hc,hp,-⟩ := h.history 0 w hw
    rw [hc] at hp
    have he : w.head.metadata.pendingHandoffs = ∅ := hp
    rw [he] at hd
    simp at hd
  | succ n ih =>
    have hl : n < s.writes.length := by
      have := (List.getElem?_eq_some_iff.mp hw).1
      omega
    have hy := List.getElem?_eq_getElem hl
    rcases (h.claimStep hy hw stream).origin hd with ⟨d',hd',ho⟩ | ⟨-,hre⟩
    · have hol := ih hy hd'
      rw [ho] at hol
      obtain ⟨r,hr⟩ := Option.ne_none_iff_exists'.mp hol
      rw [h.receipts (Nat.le_succ n) hy hw hr]
      exact Option.some_ne_none r
    · exact hre

theorem Linear.stays_gone (h : s.Linear codec keepsClaims) {i j k : Nat}
    (hi : i ≤ j) (hj : j ≤ k) (hu : s.writes[i]? = some u) (hv : s.writes[j]? = some v)
    (hw : s.writes[k]? = some w) {stream : ι}
    (hd : u.head.metadata.pendingHandoffs[stream]? = some d)
    (hg : ∀ e, v.head.metadata.pendingHandoffs[stream]? = some e →
      e.operationId ≠ d.operationId) :
    ∀ e, w.head.metadata.pendingHandoffs[stream]? = some e → e.operationId ≠ d.operationId := by
  obtain ⟨r,hr⟩ := Option.ne_none_iff_exists'.mp (h.claim_receipt hu hd)
  refine (persists (P := fun w : HeadWrite ι δ =>
    w.head.completedOperations[codec.phaseId d.operationId stream "claim"]? = some r ∧
      ∀ e, w.head.metadata.pendingHandoffs[stream]? = some e → e.operationId ≠ d.operationId)
    ?_ hj hv hw ⟨h.receipts hi hu hv hr,hg⟩).2
  rintro n y x hy hx ⟨hre,hn⟩
  refine ⟨h.receipts (Nat.le_succ n) hy hx hre,?_⟩
  intro e he heq
  rcases (h.claimStep hy hx stream).origin he with ⟨d',hd',ho⟩ | ⟨hf,-⟩
  · exact hn d' hd' (ho.trans heq)
  · rw [heq,hre] at hf
    cases hf

/-- In every run that passes claims on as they are, a stream has one claim, which keeps its handoff
and stages, is removed once its successor is in the manifest, never comes back, and is out of reach
of calls for other streams. -/
theorem claims_keep_their_discipline
    (h : Reachable (· = HeadStore.new) (HeadStore.step codec) (HeadStore.Meets keepsClaims) s) :
    (∀ (n : Nat) w stream d, s.writes[n]? = some w → w.head.claim stream = some d →
      d.stream = stream) ∧
    (∀ (n : Nat) y x stream d, s.writes[n]? = some y → s.writes[n + 1]? = some x →
      y.head.claim stream = some d →
      (∃ d', x.head.claim stream = some d' ∧ d.SameHandoff d' ∧ d.stage.rank ≤ d'.stage.rank) ∨
      (x.head.claim stream = none ∧ d.stage = .routePublished ∧ RouteIn y.head.metadata d)) ∧
    (∀ (i j k : Nat) u v w stream d, i < j → j < k → s.writes[i]? = some u →
      s.writes[j]? = some v → s.writes[k]? = some w → u.head.claim stream = some d →
      (∀ e, v.head.claim stream = some e → e.operationId ≠ d.operationId) →
      ∀ e, w.head.claim stream = some e → e.operationId ≠ d.operationId) ∧
    (∀ (n : Nat) y x stream, s.writes[n]? = some y → s.writes[n + 1]? = some x →
      x.call.stream? ≠ some stream → x.head.claim stream = y.head.claim stream) := by
  have hl := HeadStore.Linear.reachable (fun _ _ => trivial) h
  refine ⟨?_,?_,?_,?_⟩
  · intro n w stream d hw hd
    exact ((validateSizeAndHead_spec (hl.valid hw)).pending stream d hd).1.symm
  · intro n y x stream d hy hx hd
    exact (hl.claimStep hy hx stream).goes_on hd
  · intro i j k u v w stream d hi hj hu hv hw hd hg
    exact hl.stays_gone (Nat.le_of_lt hi) (Nat.le_of_lt hj) hu hv hw hd hg
  · intro n y x stream hy hx hc
    exact (hl.claimStep hy hx stream).frame hc

end HeadStore

end Step

section Examples

def successorRange : StreamSegment Nat := ⟨11, none, 2, [4, 5, 6], 1456, 1, 2, 3, 9, 0, 0⟩

def archivedClaim (stream : Nat) (stage : PendingHandoffStage) : PendingHandoffDescriptor Nat :=
  { plainClaim stream with
    stage := stage
    archivedLsn := some 10
    successorPlacement := some ⟨3, 1⟩
    successor := some successorRange }

def publishedMetadata (claims : BTreeMap Nat (PendingHandoffDescriptor Nat)) :
    ControlMetadata Nat :=
  { routedMetadata with
    manifest := { routedMetadata.manifest with
      streamSegments := .ofList
        [(1, [{ sourceRange with endLsn := some 10 }, successorRange]), (2, [sourceRange])] }
    pendingHandoffs := claims }

/-- A handoff of stream 1 up to its publication, with a claim on stream 2 beside it. Each call is
followed by its second read and its put. -/
def handoffCalls (published : BTreeMap Nat (PendingHandoffDescriptor Nat)) :
    List (HeadStep Nat (ControlMetadata Nat)) :=
  [.call 0 (.create (plainHead 1 1 routedMetadata)),
    .call 1 (.claim (plainClaim 1)), .resume 0, .resume 1,
    .call 2 (.advance (archivedClaim 1 .archiveVerified)), .resume 2, .resume 3,
    .call 3 (.claim (plainClaim 2)), .resume 4, .resume 5,
    .call 4 (.publish (publishedMetadata published) (archivedClaim 1 .routePublished)),
    .resume 6, .resume 7]

/-- A whole handoff of stream 1 that leaves the claim on stream 2 alone. -/
theorem HeadStore.handoff_keeps_its_discipline :
    ∃ s : HeadStore Nat (ControlMetadata Nat),
      Reachable (· = HeadStore.new) (HeadStore.step plainCodec) (HeadStore.Meets keepsClaims) s ∧
      s.writes.length = 6 ∧
      ∀ (n : Nat) y x stream, s.writes[n]? = some y → s.writes[n + 1]? = some x →
        x.call.stream? ≠ some stream → x.head.claim stream = y.head.claim stream := by
  exact Reachable.exists_of_runs rfl
    (handoffCalls
    (.ofList [(1,archivedClaim 1 .routePublished),(2,plainClaim 2)]) ++
      [.call 5 (.complete 1 9),.resume 8,.resume 9]) rfl
    fun hr => ⟨by decide,(HeadStore.claims_keep_their_discipline hr).2.2.2⟩

/-- A publication for one stream may leave out the claim of another, which is then gone
before its handoff has begun. -/
theorem HeadStore.publication_drops_another_claim :
    ¬∀ s : HeadStore Nat (ControlMetadata Nat),
      Reachable (· = HeadStore.new) (HeadStore.step plainCodec) anyStep s →
      ∀ (n : Nat) y x stream, s.writes[n]? = some y → s.writes[n + 1]? = some x →
        x.call.stream? ≠ some stream → x.head.claim stream = y.head.claim stream := by
  intro ha
  have hr := ha _ (.of_start rfl
    (handoffCalls (.ofList [(1,archivedClaim 1 .routePublished)])) rfl)
  exact absurd (hr 3 _ _ 2 rfl rfl (by decide)) (by decide)

end Examples

end Walleye.Control
