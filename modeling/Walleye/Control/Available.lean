import Walleye.Control.Binding
import Walleye.Control.Operations
import Walleye.Control.Routes
import Walleye.Control.Settle

namespace Walleye.Control

open Walleye.Base Walleye.Base.BTreeMap
open Walleye.Engine (u64Max)

variable {ι : Type} [LinearOrder ι] {naming : ControlNaming ι}
  {state next : DurableControlState ι}

section Ranges

structure CompleteRange (naming : ControlNaming ι) (segment : StreamSegment ι) : Prop where
  members : segment.memberIds ≠ []
  hash : segment.memberHash ≠ naming.empty
  revision : segment.manifestRevision ≠ 0
  operation : naming.blank segment.operationId = false
  sorted : segment.memberIds.IsChain (· < ·)
  size : segment.memberIds.length = replicationFactor

theorem validateSegmentBinding_complete {segment : StreamSegment ι}
    (h : validateSegmentBinding naming state revision segment = .ok ()) (hr : 0 < revision) :
    CompleteRange naming segment := by
  simp only [validateSegmentBinding,guard_ok] at h
  obtain ⟨-,h⟩ := h
  by_cases he : segment.memberIds = []
  · simp [he,hr] at h
  · rw [if_neg he] at h
    cases hc : state.cohorts[segment.cohortId]? with
    | none => simp [hc] at h
    | some cohort =>
      simp only [hc,guard_ok,not_or,not_not,not_and,Bool.not_eq_true] at h
      obtain ⟨⟨hs,hsi,-,hh,hb⟩,-⟩ := h
      exact ⟨he,hh,(hb hr).1,(hb hr).2,hs,hsi⟩

theorem validateSegmentsFrom_complete
    (h : validateSegmentsFrom naming state revision first previousEnd segments = .ok ())
    (hrev : 0 < revision) : ∀ segment ∈ segments, CompleteRange naming segment := by
  induction segments generalizing first previousEnd with
  | nil => simp
  | cons x rest ih =>
    simp only [validateSegmentsFrom,guard_ok,Except.bind_eq_ok] at h
    obtain ⟨-,_,hx,hr⟩ := h
    intro segment hs
    cases List.mem_cons.mp hs with
    | inl he => exact he ▸ validateSegmentBinding_complete hx hrev
    | inr hm => exact ih hr segment hm

theorem validateManifestSegments_complete
    (h : validateManifestSegments naming state ranges revision = .ok ())
    (hr : revision ≠ 0) : ∀ segment ∈ allSegments ranges, CompleteRange naming segment := by
  intro segment hs
  obtain ⟨stream,segments,hst,hm⟩ := mem_allSegments.mp hs
  exact validateSegmentsFrom_complete (validateManifestSegments_stream h hst).2
    (Nat.pos_of_ne_zero hr) segment hm

def Contiguous (ranges : StreamRanges ι) : Prop :=
  ∀ entry ∈ ranges.toList, entry.2 ≠ [] ∧ entry.2.IsChain lsnRange.Adjacent ∧
    ∀ segment ∈ entry.2, ∀ last ∈ segment.endLsn, last < u64Max

instance (ranges : StreamRanges ι) : Decidable (Contiguous ranges) :=
  inferInstanceAs (Decidable (∀ entry ∈ ranges.toList, _ ∧ _ ∧ ∀ segment ∈ entry.2,
    ∀ last ∈ segment.endLsn, last < u64Max))

/-- Adjacent ranges that pass the check of a document pass that of a manifest. -/
theorem validateStreamRanges_of_adjacent
    (h : validateSegmentsFrom naming state revision first previousEnd segments = .ok ())
    (hrev : 0 < revision) (hc : segments.IsChain lsnRange.Adjacent)
    (hend : ∀ segment ∈ segments, ∀ last ∈ segment.endLsn, last < u64Max)
    (hst : ∀ segment ∈ segments.head?, segment.startLsn = expected) :
    validateStreamRanges naming.toNaming expected segments = .ok () := by
  have hco := validateSegmentsFrom_complete h hrev
  induction segments generalizing first previousEnd expected with
  | nil => rfl
  | cons x rest ih =>
    have hx := hco x List.mem_cons_self
    simp only [validateSegmentsFrom,guard_ok,not_or,Except.bind_eq_ok] at h
    obtain ⟨⟨-,he,-,-,ho,-⟩,_,-,hr⟩ := h
    simp only [validateStreamRanges,guard_ok,not_or,not_not]
    refine ⟨⟨hst x rfl,he,ho,hx.sorted⟩,⟨hx.members,hx.hash,hx.revision,?_⟩,
      hx.size,?_⟩
    · simpa using hx.operation
    · cases hl : x.endLsn with
      | none => rfl
      | some last =>
        have hlt := hend x List.mem_cons_self last hl
        simp only [guard_ok,not_le]
        refine ⟨hlt,ih hr hc.tail (fun s hs => hend s (List.mem_cons_of_mem x hs)) ?_
          (fun s hs => hco s (List.mem_cons_of_mem x hs))⟩
        intro y hy
        cases rest with
        | nil => cases hy
        | cons z rest =>
          cases hy
          exact hc.rel last hl

theorem validateStreamSegments_of_contiguous
    (h : validateManifestSegments naming state ranges revision = .ok ())
    (hr : revision ≠ 0) (hc : Contiguous ranges) :
    validateStreamSegments naming.toNaming ranges = .ok () := by
  apply forM_eq_ok.mpr
  intro entry hent
  obtain ⟨hn,hch,he⟩ := hc entry hent
  have hs := Std.ExtTreeMap.mem_toList_iff_getElem?_eq_some.mp hent
  obtain ⟨hb,hv⟩ := validateManifestSegments_stream h hs
  simp only [guard_ok,not_or]
  refine ⟨⟨by simpa using hb,hn⟩,
    validateStreamRanges_of_adjacent hv (Nat.pos_of_ne_zero hr) hch he ?_⟩
  intro segment hse
  cases hra : entry.2 with
  | nil => exact absurd hra hn
  | cons x rest =>
    rw [hra] at hse hv
    cases hse
    simp only [validateSegmentsFrom,guard_ok,not_or,not_and,not_not] at hv
    exact hv.1.2.2.2.1 trivial

end Ranges

section Policy

def Unnamed {β : Type} (blank : β) (ofCohort : DurableCohort ι → β) (ofMember : DurableMember ι → β)
    (members : BTreeMap ι (DurableMember ι)) (cohorts : BTreeMap Nat (DurableCohort ι))
    (id : Nat) : Prop :=
  (∀ cohort ∈ cohorts[id]?, ofCohort cohort = blank) ∧
    ∀ member ∈ members.valuesOf, member.cohortId = id → ofMember member = blank

instance {β : Type} [DecidableEq β] (blank : β) (ofCohort : DurableCohort ι → β)
    (ofMember : DurableMember ι → β) (members : BTreeMap ι (DurableMember ι))
    (cohorts : BTreeMap Nat (DurableCohort ι)) (id : Nat) :
    Decidable (Unnamed blank ofCohort ofMember members cohorts id) :=
  inferInstanceAs (Decidable (_ ∧ _))

/-- A range leaves its tier or its append limit open only where its cohort names none. -/
def NamesPolicy (naming : ControlNaming ι) (members : BTreeMap ι (DurableMember ι))
    (cohorts : BTreeMap Nat (DurableCohort ι)) (ranges : StreamRanges ι) : Prop :=
  ∀ segment ∈ allSegments ranges,
    (segment.tier = naming.empty →
      Unnamed naming.empty (·.tier) (·.tier) members cohorts segment.cohortId) ∧
    (segment.maxAppendBytes = 0 →
      Unnamed 0 (·.maxAppendBytes) (·.maxAppendBytes) members cohorts segment.cohortId)

instance (members : BTreeMap ι (DurableMember ι)) (cohorts : BTreeMap Nat (DurableCohort ι))
    (ranges : StreamRanges ι) : Decidable (NamesPolicy naming members cohorts ranges) :=
  inferInstanceAs (Decidable (∀ segment ∈ allSegments ranges, _ ∧ _))

theorem fillSegment_self {segment : StreamSegment ι}
    (hc : state.cohorts[segment.cohortId]? = some cohort) (hcom : CompleteRange naming segment)
    (ht : segment.tier = naming.empty → cohort.tier = naming.empty)
    (hl : segment.maxAppendBytes = 0 → cohort.maxAppendBytes = 0) :
    fillSegment naming state segment = .ok segment := by
  have ho : segment.operationId ≠ naming.empty := by
    intro he
    have hb := hcom.operation
    rw [he,naming.blank_empty] at hb
    cases hb
  simp only [fillSegment,hc,if_neg hcom.hash,if_neg hcom.members,
    hcom.revision,ho,false_and,if_false,Except.map]
  congr 1
  cases segment
  congr 1
  · simp only [ite_eq_right_iff]
    intro he
    exact (ht he).trans he.symm
  · simp only [ite_eq_right_iff]
    intro hz
    exact (hl hz).trans hz.symm

section Rebuild

variable {members : BTreeMap ι (DurableMember ι)} {cohorts : BTreeMap Nat (DurableCohort ι)}

/-- A policy that nobody names stays unnamed in the rebuilt cohorts. -/
theorem Unnamed.rebuild [DecidableEq β]
    {ofMember : DurableMember ι → β} {id : Nat} (hk : Keyed members)
    (hrec : ofCohort (reconcileCohort naming members cohorts id) =
      firstNamed blank (cohorts[id]?.map ofCohort)
        (((groupMembers members id).filterMap (members[·]?)).map ofMember))
    (hf : ∀ (rebuilt : BTreeMap Nat (DurableCohort ι)) member cohort,
      rebuilt[member.cohortId]? = some cohort →
        ofMember (fillMember naming rebuilt member) =
          if ofMember member = blank then ofCohort cohort else ofMember member)
    (h : Unnamed blank ofCohort ofMember members cohorts id) :
    Unnamed blank ofCohort ofMember
      (members.map fun _ => fillMember naming (rebuildCohorts naming members cohorts))
      (rebuildCohorts naming members cohorts) id := by
  have hb : ofCohort (reconcileCohort naming members cohorts id) = blank := by
    rw [hrec]
    apply firstNamed_eq_blank.mpr
    constructor
    · intro value hv
      obtain ⟨cohort,hc,rfl⟩ := Option.map_eq_some_iff.mp hv
      exact h.1 cohort hc
    · intro value hv
      obtain ⟨member,hm,rfl⟩ := List.mem_map.mp hv
      obtain ⟨x,hx,hfo⟩ := List.mem_filterMap.mp hm
      obtain ⟨member',hm',hc⟩ := (mem_groupMembers hk).mp hx
      rw [hfo] at hm'
      cases hm'
      exact h.2 member (mem_valuesOf.mpr ⟨x,hfo⟩) hc
  have hr : ∀ cohort ∈ (rebuildCohorts naming members cohorts)[id]?,
      ofCohort cohort = blank := by
    intro cohort hc
    rw [Option.mem_def,getElem?_rebuildCohorts] at hc
    split at hc
    · cases hc
      exact hb
    · cases hc
  refine ⟨hr,?_⟩
  intro member hm hc
  obtain ⟨x,hx⟩ := mem_valuesOf.mp hm
  rw [Std.ExtTreeMap.getElem?_map] at hx
  obtain ⟨old,ho,rfl⟩ := Option.map_eq_some_iff.mp hx
  rw [fillMember_cohortId] at hc
  have hn : ∃ cohort, (rebuildCohorts naming members cohorts)[old.cohortId]? = some cohort := by
    rw [getElem?_rebuildCohorts,if_pos ⟨old,mem_valuesOf.mpr ⟨x,ho⟩,rfl⟩]
    exact ⟨_,rfl⟩
  obtain ⟨cohort,hfo⟩ := hn
  rw [hf _ old cohort hfo,h.2 old (mem_valuesOf.mpr ⟨x,ho⟩) hc,if_pos rfl]
  exact hr cohort (hc ▸ hfo)

theorem NamesPolicy.rebuild {ranges : StreamRanges ι} (hk : Keyed members)
    (h : NamesPolicy naming members cohorts ranges) :
    NamesPolicy naming
      (members.map fun _ => fillMember naming (rebuildCohorts naming members cohorts))
      (rebuildCohorts naming members cohorts) ranges := by
  intro segment hs
  obtain ⟨ht,hl⟩ := h segment hs
  constructor
  · intro he
    apply (ht he).rebuild hk rfl
    intro rebuilt member cohort hc
    simp only [fillMember,hc]
  · intro hz
    apply (hl hz).rebuild hk rfl
    intro rebuilt member cohort hc
    simp only [fillMember,hc]

end Rebuild

theorem NamesPolicy.fill {ranges : StreamRanges ι}
    (h : NamesPolicy naming state.members state.cohorts ranges)
    (hcom : ∀ segment ∈ allSegments ranges, CompleteRange naming segment)
    {segment : StreamSegment ι} (hs : segment ∈ allSegments ranges)
    (hc : state.cohorts[segment.cohortId]? = some cohort) :
    fillSegment naming state segment = .ok segment :=
  fillSegment_self hc (hcom segment hs)
    (fun he => ((h segment hs).1 he).1 cohort hc)
    (fun hz => ((h segment hs).2 hz).1 cohort hc)

end Policy

section Available

structure Routed (naming : ControlNaming ι) (state : DurableControlState ι) : Prop where
  named : naming.blank state.manifestOperationId = false
  hash : state.manifestMemberHash ≠ naming.empty
  binding : manifestMetadataForState naming state state.streamSegments =
    ⟨state.manifestWriterEpoch, state.manifestCohortId, state.manifestMemberHash⟩
  ranges : validateStreamSegments naming.toNaming state.streamSegments = .ok ()

structure Unrouted (naming : ControlNaming ι) (state : DurableControlState ι) : Prop where
  ranges : state.streamSegments = ∅
  operation : state.manifestOperationId = naming.empty
  writerEpoch : state.manifestWriterEpoch = 0
  cohort : state.manifestCohortId = 0
  writeCohort : state.writeCohortId = 0

/-- A document that answers reads and that opening leaves as it is. -/
structure Available (naming : ControlNaming ι) (state : DurableControlState ι) : Prop where
  version : state.version = controlStateVersion
  valid : ValidControl naming state
  settled : Settled naming state.members state.cohorts
  policy : NamesPolicy naming state.members state.cohorts state.streamSegments
  unrouted : state.manifestRevision = 0 → Unrouted naming state
  routed : state.manifestRevision ≠ 0 → Routed naming state

theorem validateSegmentsFrom_cohort
    (h : validateSegmentsFrom naming state revision first previousEnd segments = .ok ()) :
    ∀ segment ∈ segments, ∃ cohort, state.cohorts[segment.cohortId]? = some cohort := by
  induction segments generalizing first previousEnd with
  | nil => simp
  | cons x rest ih =>
    simp only [validateSegmentsFrom,guard_ok,not_or,Except.bind_eq_ok] at h
    obtain ⟨⟨-,-,-,-,-,hc⟩,_,-,hr⟩ := h
    intro segment hs
    cases List.mem_cons.mp hs with
    | inl he => exact he ▸ Option.ne_none_iff_exists'.mp hc
    | inr hm => exact ih hr segment hm

theorem validateManifestSegments_cohort
    (h : validateManifestSegments naming state ranges revision = .ok ()) :
    ∀ segment ∈ allSegments ranges, ∃ cohort, state.cohorts[segment.cohortId]? = some cohort := by
  intro segment hs
  obtain ⟨stream,segments,hst,hm⟩ := mem_allSegments.mp hs
  exact validateSegmentsFrom_cohort (validateManifestSegments_stream h hst).2 segment hm

namespace Routed

theorem operation_ne (h : Routed naming state) : state.manifestOperationId ≠ naming.empty := by
  intro he
  have hn := h.named
  rw [he,naming.blank_empty] at hn
  cases hn

theorem manifestCohort_eq (h : Routed naming state) :
    manifestCohort state = state.manifestCohortId := by
  unfold manifestCohort
  split_ifs with hw
  · have hc := (metadata_of_writeCohort naming state.streamSegments hw).1
    rw [h.binding] at hc
    exact hc.symm
  · rfl

theorem manifest_eq (h : Routed naming state) (hv : ValidControl naming state)
    (hrev : state.manifestRevision ≠ 0) :
    state.manifest naming = .ok (manifestFromState naming state) := by
  have hd : currentDigest naming state = naming.manifestDigest state.streamSegments :=
    (hv.currentDigest_eq hrev).trans (hv.digest (Nat.pos_of_ne_zero hrev))
  have hr : (manifestFromState naming state).validate naming.toNaming = .ok () := by
    simp only [ReplicaManifest.validate,manifestFromState,if_neg hrev,if_neg h.hash,
      guard_ok,not_not,Bool.not_eq_true]
    exact ⟨trivial,h.named,hd,h.ranges⟩
  have ha : validateManifestAgainstState naming state (manifestFromState naming state) =
      .ok () := by
    rw [validateManifestAgainstState,hr]
    change (if _ then _ else if state.manifestRevision = 0 then _ else _) = _
    rw [if_neg hrev,h.binding]
    simp only [guard_ok,not_or,not_not,not_and]
    refine ⟨⟨rfl,fun _ => (if_neg hrev).trans hd⟩,
      ⟨rfl,h.manifestCohort_eq,?_,rfl⟩,?_,hv.segments⟩
    · exact (if_neg hrev).trans (if_neg h.hash)
    · simp only [manifestFromState,if_neg hrev]
  rw [DurableControlState.manifest,ha]
  rfl

end Routed

theorem Unrouted.manifest_eq (h : Unrouted naming state) (hr : state.manifestRevision = 0) :
    state.manifest naming = .ok (manifestFromState naming state) := by
  simp [DurableControlState.manifest,validateManifestAgainstState,ReplicaManifest.validate,
    manifestFromState,manifestCohort,hr,h.ranges,h.operation,h.writerEpoch,h.cohort,
    h.writeCohort,Except.map_eq_ok,Except.bind_eq_ok]

theorem settleDigest_published (hr : state.manifestRevision ≠ 0)
    (hd : state.manifestDigest = naming.manifestDigest state.streamSegments)
    (ho : state.manifestOperationId ≠ naming.empty)
    (hh : state.manifestMemberHash ≠ naming.empty) :
    settleDigest naming (migrateManifest naming state) = .ok state := by
  have hm : migrateManifest naming state = state :=
    if_neg fun hl => hr hl.1
  rw [hm]
  simp only [settleDigest,if_neg hr,← hd,ne_eq,not_true_eq_false,and_false,
    if_false,if_neg ho,if_neg hh]

namespace Available

theorem manifest_eq (h : Available naming state) :
    state.manifest naming = .ok (manifestFromState naming state) := by
  by_cases hr : state.manifestRevision = 0
  · exact (h.unrouted hr).manifest_eq hr
  · exact (h.routed hr).manifest_eq h.valid hr

theorem fill (h : Available naming state) :
    (state.streamSegments.mapValuesM fun segments => segments.mapM (fillSegment naming state)) =
      .ok state.streamSegments := by
  apply mapValuesM_self
  intro segments hseg
  apply mapM_eq_ok.mpr
  apply List.forall₂_same.mpr
  intro segment hs
  have hm : segment ∈ allSegments state.streamSegments :=
    List.mem_flatten.mpr ⟨segments,hseg,hs⟩
  have hr : state.manifestRevision ≠ 0 := by
    intro hz
    simp [(h.unrouted hz).ranges,allSegments,valuesOf] at hm
  obtain ⟨cohort,hc⟩ := validateManifestSegments_cohort h.valid.segments segment hm
  exact h.policy.fill (validateManifestSegments_complete h.valid.segments hr) hm hc

theorem settleDigest_eq (h : Available naming state) :
    settleDigest naming (migrateManifest naming state) = .ok state := by
  by_cases hr : state.manifestRevision = 0
  · simp [settleDigest,migrateManifest,hr,(h.unrouted hr).ranges]
  · have hro := h.routed hr
    exact settleDigest_published hr (h.valid.digest (Nat.pos_of_ne_zero hr))
      hro.operation_ne hro.hash

theorem reopen (h : Available naming state) (initial : List (ι × ι)) :
    openControl naming (some state) initial = .ok state := by
  have hr : reconcileCohorts naming state = .ok state := by
    simp only [reconcileCohorts,h.valid.members,reconcileMembers_of_settled h.settled,
      Except.bind,h.fill]
    exact h.settleDigest_eq
  simp only [openControl,Except.bind,h.version,ne_eq,not_true_eq_false,if_false,hr,
    validateControlState_eq_ok.mpr h.valid,Except.map]

end Available

end Available

section Hash

theorem mapM_exists {xs : List α} (h : ∀ x ∈ xs, ∃ y, f x = some y) : ∃ ys, xs.mapM f = some ys := by
  induction xs with
  | nil => exact ⟨[],rfl⟩
  | cons x xs ih =>
    obtain ⟨y,hy⟩ := h x List.mem_cons_self
    obtain ⟨ys,hys⟩ := ih fun z hz => h z (List.mem_cons_of_mem x hz)
    exact ⟨y :: ys,by simp [List.mapM_cons,hy,hys]⟩

theorem ValidControl.cohortHash (h : ValidControl naming state) {id : Nat}
    (hc : state.cohorts[id]? = some cohort) :
    (cohortMemberHash naming state id).getD naming.empty ≠ naming.empty := by
  have hmem : ∀ memberId ∈ cohort.members, ∃ pair,
      (state.members[memberId]?.map fun m => (m.id,m.url)) = some pair := by
    intro memberId hm
    obtain ⟨member,hf,-⟩ := (h.cohorts id cohort hc).known memberId hm
    exact ⟨(member.id,member.url),by rw [hf]; rfl⟩
  obtain ⟨pairs,hp⟩ := mapM_exists hmem
  rw [cohortMemberHash,hc,Option.bind_some,memberSetHash,hp]
  exact naming.memberHash_ne_empty pairs

theorem maxBy_eq_none : maxBy before xs = none ↔ xs = [] := by
  cases xs <;> simp [maxBy]

/-- A document with a range or an active cohort has a member hash. -/
theorem ValidControl.metadata_hash (h : ValidControl naming state) {segments : StreamRanges ι}
    (hcom : ∀ segment ∈ allSegments segments, CompleteRange naming segment)
    (hf : allSegments segments ≠ [] ∨
      ∃ cohort ∈ state.cohorts.valuesOf, cohort.status = .active) :
    (manifestMetadataForState naming state segments).memberHash ≠ naming.empty := by
  by_cases hw : state.writeCohortId = 0
  · cases hl : maxBy olderSegment (allSegments segments) with
    | some segment =>
      have hh : (latestManifestBinding naming segments).memberHash = segment.memberHash := by
        rw [latestManifestBinding,hl]
      have hn := (hcom segment (maxBy_mem hl)).hash
      rw [(metadata_of_tail naming segments hw (hh ▸ hn)).2,hh]
      exact hn
    | none =>
      have ht : (latestManifestBinding naming segments).memberHash = naming.empty := by
        rw [latestManifestBinding,hl]
      obtain ⟨cohort,hm,ha⟩ := hf.resolve_left (not_not.mpr (maxBy_eq_none.mp hl))
      obtain ⟨id,hi⟩ := mem_valuesOf.mp hm
      have hcom : cohort.complete = true := by
        simp [DurableCohort.complete,ha,((h.cohorts id cohort hi).active ha).1]
      cases hnew : newestActiveCohort state with
      | none =>
        have he := maxBy_eq_none.mp hnew
        rw [List.filter_eq_nil_iff] at he
        exact absurd hcom (he cohort hm)
      | some newest =>
        have hnewe := (List.mem_filter.mp (maxBy_mem hnew)).1
        obtain ⟨key,hk⟩ := mem_valuesOf.mp hnewe
        have hi : newest.id = key := (h.cohorts key newest hk).id_eq
        have hmet := metadata_of_newest naming segments hw ht
        rw [hnew,Option.map_some,Option.getD_some,hi] at hmet
        have hn := h.cohortHash hk
        rw [hmet.2,hmet.1,if_neg hn]
        exact hn
  · have hv := h.writeCohort
    rw [validateWriteCohort,if_neg hw] at hv
    cases hc : state.cohorts[state.writeCohortId]? with
    | none => simp [hc] at hv
    | some cohort =>
      rw [(metadata_of_writeCohort naming segments hw).2]
      exact h.cohortHash hc

theorem Routed.of_bound (base : DurableControlState ι) (hm : next.members = base.members)
    (hc : next.cohorts = base.cohorts) (hw : next.writeCohortId = base.writeCohortId)
    (hb : manifestMetadataForState naming base next.streamSegments =
      ⟨next.manifestWriterEpoch,next.manifestCohortId,next.manifestMemberHash⟩)
    (hv : ValidControl naming next) (hr : next.manifestRevision ≠ 0)
    (hn : naming.blank next.manifestOperationId = false)
    (hra : validateStreamSegments naming.toNaming next.streamSegments = .ok ())
    (hf : allSegments next.streamSegments ≠ [] ∨
      ∃ cohort ∈ next.cohorts.valuesOf, cohort.status = .active) : Routed naming next := by
  have ha : manifestMetadataForState naming next next.streamSegments =
      ⟨next.manifestWriterEpoch,next.manifestCohortId,next.manifestMemberHash⟩ :=
    (metadata_again hm hc hw hb).trans hb
  have hh := hv.metadata_hash (validateManifestSegments_complete hv.segments hr)
    hf
  rw [ha] at hh
  exact ⟨hn,hh,ha,hra⟩

end Hash

section Manifest

variable {request : ManifestCasRequest ι}

/-- A manifest CAS that is no replay has ranges without gaps that name their cohorts' policies;
without ranges it finds an active cohort. -/
def SustainsManifest (naming : ControlNaming ι) (state : DurableControlState ι)
    (request : ManifestCasRequest ι) : Prop :=
  state.manifestOperations[request.operationId]? = none →
    Contiguous request.streamSegments ∧
      NamesPolicy naming state.members state.cohorts request.streamSegments ∧
      (allSegments request.streamSegments ≠ [] ∨
        ∃ cohort ∈ state.cohorts.valuesOf, cohort.status = .active)

instance : Decidable (SustainsManifest naming state request) :=
  inferInstanceAs (Decidable (_ → _))

theorem Installs.available
    (h : Installs naming state request revision answer next) (hrev : revision ≠ 0)
    (hs : Available naming state) (hsu : SustainsManifest naming state request) :
    Available naming next := by
  obtain ⟨hc,hp,hf⟩ := hsu h.unrecorded
  have hv : ValidControl naming next := validateControlState_eq_ok.mp h.valid
  have hr : next = pruneOperationRecords naming (recordManifest state
      (nextManifest naming state revision request.operationId request.streamSegments)) := by
    rw [h.result,h.manifest]
  have hn : next.manifestRevision ≠ 0 := h.manifestRevision_eq ▸ hrev
  subst hr
  refine ⟨hs.version,hv,hs.settled,hp,fun hz => absurd hz hn,
    fun _ => ?_⟩
  refine Routed.of_bound state rfl rfl rfl rfl hv hn h.named ?_ hf
  exact validateStreamSegments_of_contiguous h.segments hrev hc

theorem ManifestCas.available (h : ManifestCas naming state request answer next)
    (hs : Available naming state) (hsu : SustainsManifest naming state request) :
    Available naming next := by
  cases h with
  | replayed _ => exact hs
  | held _ _ _ _ _ => exact hs
  | repaired _ hz _ _ hi => exact hi.available hz hs hsu
  | advanced _ _ _ _ _ _ hi =>
    exact hi.available (Nat.succ_ne_zero _) hs hsu

end Manifest

section Adopt

/-- An adopted manifest has the document's write cohort and member hash, and its ranges name their
cohorts' policies. -/
def SustainsAdoption (naming : ControlNaming ι) (state : DurableControlState ι)
    (manifest : ReplicaManifest ι) : Prop :=
  manifest.writeCohortId = state.writeCohortId ∧
    manifest.memberSetHash =
      (manifestMetadataForState naming state manifest.streamSegments).memberHash ∧
    NamesPolicy naming state.members state.cohorts manifest.streamSegments

instance (manifest : ReplicaManifest ι) : Decidable (SustainsAdoption naming state manifest) :=
  inferInstanceAs (Decidable (_ ∧ _ ∧ _))

theorem ReplicaManifest.validate_published {manifest : ReplicaManifest ι}
    (h : manifest.validate naming.toNaming = .ok ()) (hr : manifest.revision ≠ 0) :
    naming.blank manifest.operationId = false ∧ manifest.memberSetHash ≠ naming.empty ∧
      validateStreamSegments naming.toNaming manifest.streamSegments = .ok () := by
  simp only [ReplicaManifest.validate,if_neg hr,guard_ok,Bool.not_eq_true] at h
  exact ⟨h.2.1,h.2.2.1,h.2.2.2.2⟩

/-- An adopted manifest leaves the document available. -/
theorem Adopts.available {manifest : ReplicaManifest ι} (h : Adopts naming state manifest next)
    (hs : Available naming state) (hsu : SustainsAdoption naming state manifest) :
    Available naming next := by
  obtain ⟨hw,hh,hp⟩ := hsu
  have hv : ValidControl naming next := validateControlState_eq_ok.mp h.valid
  have hr := h.result
  subst hr
  have hrev : manifest.revision ≠ 0 := by
    intro hz
    apply naming.manifestDigest_ne_empty manifest.streamSegments
    exact h.digest.symm.trans (hv.noDigest hz)
  obtain ⟨hn,hne,hra⟩ := ReplicaManifest.validate_published h.validated hrev
  have ha : (adoptedState naming state manifest).manifestMemberHash =
      (manifestMetadataForState naming state manifest.streamSegments).memberHash :=
    (if_neg hne).trans hh
  refine ⟨hs.version,hv,hs.settled,hp,fun hz => absurd hz hrev,
    fun _ => ⟨hn,?_,?_,hra⟩⟩
  · change (adoptedState naming state manifest).manifestMemberHash ≠ naming.empty
    rw [ha,← hh]
    exact hne
  · have hb : manifestMetadataForState naming state manifest.streamSegments =
        ⟨(adoptedState naming state manifest).manifestWriterEpoch,
          (adoptedState naming state manifest).manifestCohortId,
          (adoptedState naming state manifest).manifestMemberHash⟩ := by
      rw [ha]
      rfl
    have hag : manifestMetadataForState naming (adoptedState naming state manifest)
        manifest.streamSegments = manifestMetadataForState naming state manifest.streamSegments :=
      metadata_again rfl rfl hw hb
    exact hag.trans hb

def headDocument (naming : ControlNaming ι) (metadata : ControlMetadata ι) :
    DurableControlState ι :=
  { DurableControlState.default naming with
    members := metadata.members
    cohorts := metadata.cohorts
    writeCohortId := metadata.manifest.writeCohortId
    manifestWriterEpoch := metadata.manifest.writerEpoch
    manifestCohortId := metadata.manifest.cohortId
    manifestMemberHash := metadata.manifest.memberSetHash
    streamSegments := metadata.manifest.streamSegments }

/-- The metadata of a head is settled, its ranges name their cohorts' policies, and its manifest is
bound as its members, cohorts and ranges bind it. -/
def SustainsHead (naming : ControlNaming ι) (metadata : ControlMetadata ι) : Prop :=
  (rebuildCohorts naming metadata.members metadata.cohorts = metadata.cohorts ∧
      metadata.members.map (fun _ => fillMember naming metadata.cohorts) = metadata.members) ∧
    NamesPolicy naming metadata.members metadata.cohorts metadata.manifest.streamSegments ∧
    (metadata.manifest.revision ≠ 0 →
      manifestMetadataForState naming (headDocument naming metadata)
          metadata.manifest.streamSegments =
        ⟨metadata.manifest.writerEpoch, metadata.manifest.cohortId,
          metadata.manifest.memberSetHash⟩)

instance (metadata : ControlMetadata ι) : Decidable (SustainsHead naming metadata) :=
  inferInstanceAs (Decidable (_ ∧ _ ∧ (_ → _)))

theorem adoptControlHead_available {head : ControlHead ι ι}
    (h : adoptControlHead naming state head = .ok next) (hs : Available naming state)
    (hsu : SustainsHead naming head.metadata) : Available naming next := by
  simp only [adoptControlHead,Except.bind_eq_ok,guard_ok,Except.map_eq_ok] at h
  obtain ⟨_,hr,-,_,hv,rfl⟩ := h
  obtain ⟨⟨hcoh,hm⟩,hp,hb⟩ := hsu
  refine ⟨hs.version,validateControlState_eq_ok.mp hv,⟨hcoh,hm⟩,hp,?_,
    ?_⟩
  · intro hz
    have hz : head.metadata.manifest.revision = 0 := hz
    simp only [ReplicaManifest.validate,if_pos hz,guard_ok,not_or,not_not] at hr
    obtain ⟨-,⟨ho,hra,he,hc,-,hw,-⟩,-⟩ := hr
    exact ⟨hra,ho,he,hc,hw⟩
  · intro hrev
    obtain ⟨hn,hne,hra⟩ := ReplicaManifest.validate_published hr hrev
    have hbi := hb hrev
    exact ⟨hn,hne,(metadata_again rfl rfl rfl hbi).trans hbi,hra⟩

theorem adoptAuthorityFields_available
    (h : adoptAuthorityFields naming state authorityEpoch headRevision headDigest
      authorityCohortId = .ok next) (hs : Available naming state) : Available naming next := by
  simp only [adoptAuthorityFields,guard_ok,Except.ok.injEq] at h
  obtain ⟨-,-,rfl⟩ := h
  refine ⟨hs.version,hs.valid.congr rfl rfl rfl rfl rfl rfl,hs.settled,
    hs.policy,?_,?_⟩
  · intro hz
    have hu := hs.unrouted hz
    exact ⟨hu.ranges,hu.operation,hu.writerEpoch,hu.cohort,
      hu.writeCohort⟩
  · intro hr
    have hro := hs.routed hr
    exact ⟨hro.named,hro.hash,hro.binding,hro.ranges⟩

end Adopt

end Walleye.Control
