import Walleye.Control.Available

namespace Walleye.Control

open Walleye.Base Walleye.Base.BTreeMap

variable {ι : Type} [LinearOrder ι] {naming : ControlNaming ι}
  {state next : DurableControlState ι}

section Membership

variable {request : MembershipCasRequest ι}

def askedState (state : DurableControlState ι) (request : MembershipCasRequest ι)
    (named : BTreeMap ι (DurableMember ι)) : DurableControlState ι :=
  stageMembership state request (placedMembers state request named) state.membershipEpoch

def askedMembers (state : DurableControlState ι) (request : MembershipCasRequest ι)
    (named : BTreeMap ι (DurableMember ι)) : BTreeMap ι (DurableMember ι) :=
  regroupMembers (askedState state request named)

def KeepsRevision (state : DurableControlState ι) (request : MembershipCasRequest ι) : Prop :=
  request.streamSegments ≠ none ∧
    request.manifestRevision.getD state.manifestRevision ≤ state.manifestRevision

instance : Decidable (KeepsRevision state request) :=
  inferInstanceAs (Decidable (_ ∧ _))

def leftRanges (state : DurableControlState ι) (request : MembershipCasRequest ι) :
    StreamRanges ι :=
  if KeepsRevision state request then state.streamSegments
  else request.streamSegments.getD state.streamSegments

def cohortUrls (members : BTreeMap ι (DurableMember ι)) (cohortId : Nat) : List (ι × ι) :=
  (members.valuesOf.filter (·.cohortId = cohortId)).map fun member => (member.id, member.url)

/-- The manifest stays bound to the members it names: the write cohort keeps its members with
their URLs; without a write cohort a range binds it. -/
def KeepsBinding (state : DurableControlState ι) (members : BTreeMap ι (DurableMember ι)) : Prop :=
  (state.writeCohortId = 0 → allSegments state.streamSegments ≠ []) ∧
    (state.writeCohortId ≠ 0 →
      cohortUrls members state.writeCohortId = cohortUrls state.members state.writeCohortId)

instance (members : BTreeMap ι (DurableMember ι)) : Decidable (KeepsBinding state members) :=
  inferInstanceAs (Decidable ((_ → _) ∧ (_ → _)))

/-- A membership CAS for the current epoch: newer ranges have no gaps, the ranges it leaves name the
policies asked for, and when it keeps the revision it names no write cohort before the first
manifest, and names one or keeps the binding after it. -/
def SustainsMembership (naming : ControlNaming ι) (state : DurableControlState ι)
    (request : MembershipCasRequest ι) : Prop :=
  state.membershipEpoch = request.expectedEpoch →
    ∀ named ∈ (requestMembers naming request.members).toOption,
      (¬KeepsRevision state request →
        ∀ ranges ∈ request.streamSegments, Contiguous ranges) ∧
      NamesPolicy naming (askedMembers state request named)
        (askedState state request named).cohorts (leftRanges state request) ∧
      (KeepsRevision state request →
        (state.manifestRevision = 0 → request.writeCohortId = none) ∧
        (state.manifestRevision ≠ 0 → request.writeCohortId = none →
          KeepsBinding state (askedMembers state request named)))

instance : Decidable (SustainsMembership naming state request) :=
  inferInstanceAs (Decidable (_ → ∀ named ∈ (requestMembers naming request.members).toOption, _))

/-- The routes of a membership change are those it leaves, under a revision that says so. -/
theorem nextRoutes_left (h : nextRoutes naming state staged request = .ok (revision,segments)) :
    segments = leftRanges state request ∧
      (KeepsRevision state request → revision = state.manifestRevision) ∧
      (¬KeepsRevision state request → state.manifestRevision < revision) := by
  rcases Option.eq_none_or_eq_some request.streamSegments with hr | ⟨incoming,hr⟩
  · have hk : ¬KeepsRevision state request := fun hk => hk.1 hr
    simp only [nextRoutes,hr,guard_ok,Except.ok.injEq,Prod.mk.injEq] at h
    obtain ⟨-,rfl,rfl⟩ := h
    exact ⟨by simp [leftRanges,hk,hr],fun h => absurd h hk,
      fun _ => Nat.lt_succ_self _⟩
  · by_cases hn : state.manifestRevision <
        request.manifestRevision.getD state.manifestRevision
    · have hk : ¬KeepsRevision state request := fun hk => Nat.not_le.mpr hn hk.2
      simp only [nextRoutes,hr,if_neg (Nat.ne_of_gt hn),if_pos hn,
        guard_ok,Except.bind_eq_ok,Except.map_eq_ok,Prod.mk.injEq] at h
      obtain ⟨-,-,-,-,-,rfl,rfl⟩ := h
      exact ⟨by simp [leftRanges,hk,hr],fun h => absurd h hk,fun _ => hn⟩
    · have hk : KeepsRevision state request := ⟨by simp [hr],Nat.not_lt.mp hn⟩
      obtain ⟨hrev,hs⟩ : revision = state.manifestRevision ∧
          segments = state.streamSegments := by
        simp only [nextRoutes,hr,if_neg hn] at h
        split at h
        · simp only [guard_ok,Except.ok.injEq,Prod.mk.injEq] at h
          exact ⟨h.2.1.symm,h.2.2.symm⟩
        · simp only [Except.ok.injEq,Prod.mk.injEq] at h
          exact ⟨h.1.symm,h.2.symm⟩
      exact ⟨by simp [leftRanges,hk,hs],fun _ => hrev,fun h => absurd hk h⟩

theorem regroupMembers_congr
    (hm : other.members = state.members) (hc : other.cohorts = state.cohorts) :
    regroupMembers other = regroupMembers state := by
  simp only [regroupMembers,hm,hc]

section Reconciled

theorem ChangesMembership.candidate_asked
    (h : ChangesMembership naming state request named members epoch revision segments reconciled) :
    (candidateState naming state request members epoch revision segments).members =
        (askedState state request named).members ∧
      (candidateState naming state request members epoch revision segments).cohorts =
        (askedState state request named).cohorts ∧
      (candidateState naming state request members epoch revision segments).writeCohortId =
        (askedState state request named).writeCohortId ∧
      (candidateState naming state request members epoch revision segments).version =
        state.version := by
  rw [h.placed]
  unfold candidateState
  simp only
  split <;> exact ⟨rfl,rfl,rfl,rfl⟩

theorem ChangesMembership.reconciled_members
    (h : ChangesMembership naming state request named members epoch revision segments reconciled) :
    reconciled.members = (askedMembers state request named).map (fun _ => fillMember naming
        (rebuildCohorts naming (askedMembers state request named)
          (askedState state request named).cohorts)) ∧
      reconciled.cohorts = rebuildCohorts naming (askedMembers state request named)
        (askedState state request named).cohorts ∧
      reconciled.writeCohortId = (askedState state request named).writeCohortId ∧
      reconciled.version = state.version := by
  obtain ⟨_,_,_,_,_,_,_,rfl⟩ := reconcileCohorts_frame h.reconciles
  obtain ⟨hm,hc,hw,hv⟩ := h.candidate_asked
  have hr : regroupMembers (candidateState naming state request members epoch revision
      segments) = askedMembers state request named :=
    regroupMembers_congr hm hc
  refine ⟨?_,?_,hw,hv⟩
  · simp only [reconcileMembers,hr,hc]
  · simp only [reconcileMembers,hr,hc]

theorem ChangesMembership.asked_keyed
    (h : ChangesMembership naming state request named members epoch revision segments reconciled) :
    Keyed (askedMembers state request named) := by
  have hr := h.reconciles
  simp only [reconcileCohorts,Except.bind_eq_ok] at hr
  obtain ⟨_,hv,-⟩ := hr
  rw [h.candidate_asked.1] at hv
  exact regroupMembers_keyed fun _ _ hm => validateMembersState_key naming hv hm

theorem ChangesMembership.settled
    (h : ChangesMembership naming state request named members epoch revision segments reconciled) :
    Settled naming reconciled.members reconciled.cohorts := by
  obtain ⟨hm,hc,-⟩ := h.reconciled_members
  rw [hm,hc]
  exact rebuildCohorts_settled h.asked_keyed

theorem ChangesMembership.policy
    (h : ChangesMembership naming state request named members epoch revision segments reconciled)
    (hp : NamesPolicy naming (askedMembers state request named)
      (askedState state request named).cohorts ranges) :
    NamesPolicy naming reconciled.members reconciled.cohorts ranges := by
  obtain ⟨hm,hc,-⟩ := h.reconciled_members
  rw [hm,hc]
  exact hp.rebuild h.asked_keyed

theorem leftRanges_validate (hs : Available naming state) (hk : ¬KeepsRevision state request)
    (hc : ∀ ranges ∈ request.streamSegments, Contiguous ranges)
    (hrev : revision ≠ 0) (hv : validateManifestSegments naming next
      (leftRanges state request) revision = .ok ()) :
    validateStreamSegments naming.toNaming (leftRanges state request) = .ok () := by
  rcases Option.eq_none_or_eq_some request.streamSegments with hr | ⟨incoming,hr⟩
  · have hl : leftRanges state request = state.streamSegments := by
      simp [leftRanges,hk,hr]
    rw [hl]
    by_cases hz : state.manifestRevision = 0
    · rw [(hs.unrouted hz).ranges]
      rfl
    · exact (hs.routed hz).ranges
  · have hl : leftRanges state request = incoming := by
      simp [leftRanges,hk,hr]
    rw [hl] at hv ⊢
    exact validateStreamSegments_of_contiguous hv hrev (hc incoming hr)

/-- A change that keeps the revision only settles members and cohorts. -/
theorem ChangesMembership.reconciled_same
    (h : ChangesMembership naming state request named members epoch revision segments reconciled)
    (hs : Available naming state) (hsa : ¬state.manifestRevision < revision)
    (hp : NamesPolicy naming (askedMembers state request named)
      (askedState state request named).cohorts state.streamSegments) :
    reconciled = reconcileMembers naming (stageMembership state request members epoch) := by
  have hrec := h.reconciles
  rw [h.candidate_same hsa] at hrec
  by_cases hz : state.manifestRevision = 0
  · exact reconcileCohorts_unrouted hrec hz (hs.unrouted hz).ranges
  · have hr := hs.routed hz
    have hcom := validateManifestSegments_complete hs.valid.segments hz
    have hg : NamesPolicy naming
        (reconcileMembers naming (stageMembership state request members epoch)).members
        (reconcileMembers naming (stageMembership state request members epoch)).cohorts
        state.streamSegments := by
      obtain ⟨_,_,_,_,_,_,_,hf⟩ := reconcileCohorts_frame hrec
      have hreco := h.policy hp
      rw [hf] at hreco
      exact hreco
    simp only [reconcileCohorts,Except.bind_eq_ok] at hrec
    obtain ⟨_,-,filled,hfi,hse⟩ := hrec
    have hk : filled = state.streamSegments := by
      apply eq_of_mapValuesM hfi
      intro ranges hra result hre
      apply eq_of_mapM hre
      intro segment hseg other ho
      have hm : segment ∈ allSegments state.streamSegments :=
        List.mem_flatten.mpr ⟨ranges,hra,hseg⟩
      cases hc : (reconcileMembers naming
          (stageMembership state request members epoch)).cohorts[segment.cohortId]? with
      | none => simp [fillSegment,hc] at ho
      | some cohort =>
        rw [hg.fill hcom hm hc] at ho
        cases ho
        rfl
    rw [hk] at hse
    have hset : settleDigest naming (migrateManifest naming
        (reconcileMembers naming (stageMembership state request members epoch))) =
          .ok (reconcileMembers naming (stageMembership state request members epoch)) :=
      settleDigest_published hz (hs.valid.digest (Nat.pos_of_ne_zero hz))
        hr.operation_ne hr.hash
    exact Except.ok.inj (hse.symm.trans hset)

theorem ChangesMembership.available_newer
    (h : ChangesMembership naming state request named members epoch revision segments reconciled)
    (hs : Available naming state) (hn : state.manifestRevision < revision)
    (hc : ¬KeepsRevision state request →
      ∀ ranges ∈ request.streamSegments, Contiguous ranges)
    (hp : NamesPolicy naming (askedMembers state request named)
      (askedState state request named).cohorts (leftRanges state request))
    (hv : ValidControl naming (recordManifest reconciled
      (nextManifest naming reconciled revision request.operationId segments)))
    (ha : ∃ cohort ∈ reconciled.cohorts.valuesOf, cohort.status = .active) :
    Available naming (recordManifest reconciled
      (nextManifest naming reconciled revision request.operationId segments)) := by
  obtain ⟨hl,hk,-⟩ := nextRoutes_left h.routes
  have hkee : ¬KeepsRevision state request := by
    intro hkee
    have := hk hkee
    omega
  have hr : revision ≠ 0 := by omega
  subst hl
  refine ⟨h.reconciled_members.2.2.2.trans hs.version,hv,h.settled,h.policy hp,
    fun hz => absurd hz hr,fun _ => ?_⟩
  refine Routed.of_bound reconciled rfl rfl rfl rfl hv hr h.nonblank ?_ (.inr ha)
  exact leftRanges_validate hs hkee (hc hkee) hr hv.segments

theorem mapM_congr_mem {f g : α → Option β} {xs : List α}
    (h : ∀ x ∈ xs, f x = g x) : xs.mapM f = xs.mapM g := by
  induction xs with
  | nil => rfl
  | cons x xs ih =>
    rw [List.mapM_cons,List.mapM_cons,h x List.mem_cons_self,
      ih fun y hy => h y (List.mem_cons_of_mem x hy)]

/-- The hash of a cohort depends on the ids and URLs of its members only. -/
theorem cohortMemberHash_of_urls {cohortId : Nat}
    {cohort cohort' : DurableCohort ι} (hkey : Keyed state.members) (hk' : Keyed other.members)
    (hc : state.cohorts[cohortId]? = some cohort) (hc' : other.cohorts[cohortId]? = some cohort')
    (hg : cohort.members = groupMembers state.members cohortId)
    (hg' : cohort'.members = groupMembers other.members cohortId)
    (hu : cohortUrls other.members cohortId = cohortUrls state.members cohortId) :
    cohortMemberHash naming other cohortId = cohortMemberHash naming state cohortId := by
  have hids : ∀ members : BTreeMap ι (DurableMember ι), groupMembers members cohortId =
      ((cohortUrls members cohortId).map (·.1)).insertionSort (· ≤ ·) := by
    intro members
    rw [groupMembers,cohortUrls,List.map_map]
    rfl
  have hmem : cohort'.members = cohort.members := by
    rw [hg',hg,hids,hids,hu]
  have hl : ∀ id ∈ cohort.members,
      (other.members[id]?.map fun m => (m.id,m.url)) =
        state.members[id]?.map fun m => (m.id,m.url) := by
    intro id hi
    rw [hg] at hi
    obtain ⟨member,hm,ho⟩ := (mem_groupMembers hkey).mp hi
    have hp : (member.id,member.url) ∈ cohortUrls other.members cohortId := by
      rw [hu]
      exact List.mem_map.mpr ⟨member,List.mem_filter.mpr
        ⟨mem_valuesOf.mpr ⟨id,hm⟩,by simpa using ho⟩,rfl⟩
    obtain ⟨member',hm',he⟩ := List.mem_map.mp hp
    obtain ⟨key,hk⟩ := mem_valuesOf.mp (List.mem_filter.mp hm').1
    have hi' : key = id := by
      rw [← hk' key member' hk,← hkey id member hm]
      exact (Prod.mk.inj he).1
    rw [← hi',hk,hi',hm]
    exact congrArg some he
  rw [cohortMemberHash,cohortMemberHash,hc,hc',Option.bind_some,Option.bind_some,
    memberSetHash,memberSetHash,hmem,mapM_congr_mem hl]

theorem Settled.group (h : Settled naming members cohorts) {id : Nat}
    (hc : cohorts[id]? = some cohort) :
    cohort.members = groupMembers members id := by
  rw [← h.rebuilt,getElem?_rebuildCohorts] at hc
  split at hc
  · cases hc
    rfl
  · cases hc

theorem ValidControl.keyed (h : ValidControl naming state) : Keyed state.members :=
  fun _ _ hm => validateMembersState_key naming h.members hm

theorem ValidControl.writeCohort_known (h : ValidControl naming state)
    (hw : state.writeCohortId ≠ 0) :
    ∃ cohort, state.cohorts[state.writeCohortId]? = some cohort := by
  have hv := h.writeCohort
  rw [validateWriteCohort,if_neg hw] at hv
  cases hc : state.cohorts[state.writeCohortId]? with
  | none => simp [hc] at hv
  | some cohort => exact ⟨cohort,rfl⟩

/-- A routed document stays routed while the binding of its ranges is kept. -/
theorem Routed.keep (h : Routed naming state) (hs : Available naming state)
    (hr : state.manifestRevision ≠ 0) (hv : ValidControl naming next)
    (hse : Settled naming next.members next.cohorts)
    (hw : next.writeCohortId = state.writeCohortId)
    (hseg : next.streamSegments = state.streamSegments)
    (he : next.manifestWriterEpoch = state.manifestWriterEpoch)
    (hk : KeepsBinding state next.members) :
    manifestMetadataForState naming next next.streamSegments =
      ⟨state.manifestWriterEpoch,state.manifestCohortId,state.manifestMemberHash⟩ := by
  rw [hseg,← h.binding]
  have hwri : (manifestMetadataForState naming next state.streamSegments).writerEpoch =
      (manifestMetadataForState naming state state.streamSegments).writerEpoch := by
    rw [metadata_writerEpoch,metadata_writerEpoch,he]
  by_cases hz : state.writeCohortId = 0
  · have ht : (latestManifestBinding naming state.streamSegments).memberHash ≠ naming.empty := by
      cases hl : maxBy olderSegment (allSegments state.streamSegments) with
      | none => exact absurd (maxBy_eq_none.mp hl) (hk.1 hz)
      | some segment =>
        rw [latestManifestBinding,hl]
        exact (validateManifestSegments_complete hs.valid.segments hr segment
          (maxBy_mem hl)).hash
    have ho := metadata_of_tail naming state.streamSegments hz ht
    have hn := metadata_of_tail naming state.streamSegments (hw.trans hz) ht
    exact ManifestBinding.ext_fields hwri (hn.1.trans ho.1.symm) (hn.2.trans ho.2.symm)
  · have ho := metadata_of_writeCohort naming state.streamSegments hz
    have hn := metadata_of_writeCohort naming state.streamSegments (hw.trans_ne hz)
    obtain ⟨cohort,hc⟩ := hs.valid.writeCohort_known hz
    obtain ⟨cohort',hc'⟩ := hv.writeCohort_known (hw.trans_ne hz)
    rw [hw] at hc'
    have hh : cohortMemberHash naming next state.writeCohortId =
        cohortMemberHash naming state state.writeCohortId :=
      cohortMemberHash_of_urls hs.valid.keyed hv.keyed hc hc'
        (hs.settled.group hc) (hse.group hc') (hk.2 hz)
    apply ManifestBinding.ext_fields hwri
    · rw [hn.1,ho.1,hw]
    · rw [hn.2,ho.2,hw,hh]

theorem cohortUrls_fill (members : BTreeMap ι (DurableMember ι))
    (cohorts : BTreeMap Nat (DurableCohort ι)) (id : Nat) :
    cohortUrls (members.map fun _ => fillMember naming cohorts) id = cohortUrls members id := by
  have hv : valuesOf (members.map fun _ => fillMember naming cohorts) =
      members.valuesOf.map (fillMember naming cohorts) := by
    rw [valuesOf_map,valuesOf,List.map_map]
    rfl
  unfold cohortUrls
  rw [hv,List.filter_map,List.map_map]
  simp only [Function.comp_def,fillMember_cohortId,fillMember_id,fillMember_url]

theorem ChangesMembership.keepsBinding
    (h : ChangesMembership naming state request named members epoch revision segments reconciled)
    (hk : KeepsBinding state (askedMembers state request named)) :
    KeepsBinding state reconciled.members := by
  refine ⟨hk.1,fun hw => ?_⟩
  rw [h.reconciled_members.1,cohortUrls_fill]
  exact hk.2 hw

/-- A change that keeps the revision leaves the document available. -/
theorem ChangesMembership.available_same
    (h : ChangesMembership naming state request named members epoch revision segments reconciled)
    (hs : Available naming state) (hsa : ¬state.manifestRevision < revision)
    (hp : NamesPolicy naming (askedMembers state request named)
      (askedState state request named).cohorts (leftRanges state request))
    (hn : state.manifestRevision = 0 → request.writeCohortId = none)
    (hk : state.manifestRevision ≠ 0 → request.writeCohortId = none →
      KeepsBinding state (askedMembers state request named))
    (hv : ValidControl naming (bindManifest naming state reconciled request revision segments))
    (ha : ∃ cohort ∈ reconciled.cohorts.valuesOf, cohort.status = .active) :
    Available naming (bindManifest naming state reconciled request revision segments) := by
  obtain ⟨hl,-,hnew⟩ := nextRoutes_left h.routes
  obtain ⟨hr,hseg⟩ := (nextRoutes_cases h.routes).resolve_left hsa
  rw [← hl,hseg] at hp
  have hse := h.settled
  have hna := h.policy hp
  have hve := h.reconciled_members.2.2.2.trans hs.version
  have hf := h.reconciled_same hs hsa hp
  by_cases hw : request.writeCohortId = none
  · have hb : bindManifest naming state reconciled request revision segments = reconciled := by
      simp only [bindManifest,if_neg hsa,hw,ne_eq,not_true_eq_false,if_false]
    rw [hb] at hv ⊢
    have hwri : reconciled.writeCohortId = state.writeCohortId := by
      rw [hf]
      show request.writeCohortId.getD state.writeCohortId = state.writeCohortId
      rw [hw,Option.getD_none]
    refine ⟨hve,hv,hse,?_,?_,?_⟩
    · rw [show reconciled.streamSegments = state.streamSegments from hf ▸ rfl]
      exact hna
    · intro hz
      have hz : state.manifestRevision = 0 := by
        rw [hf] at hz
        exact hz
      have hu := hs.unrouted hz
      refine ⟨?_,?_,?_,?_,hwri.trans hu.writeCohort⟩
      · exact (congrArg (·.streamSegments) hf).trans hu.ranges
      · exact (congrArg (·.manifestOperationId) hf).trans hu.operation
      · exact (congrArg (·.manifestWriterEpoch) hf).trans hu.writerEpoch
      · exact (congrArg (·.manifestCohortId) hf).trans hu.cohort
    · intro hne
      have hne : state.manifestRevision ≠ 0 := by
        rw [hf] at hne
        exact hne
      have hro := hs.routed hne
      have hstr : reconciled.streamSegments = state.streamSegments :=
        congrArg (·.streamSegments) hf
      have he : reconciled.manifestWriterEpoch = state.manifestWriterEpoch :=
        congrArg (·.manifestWriterEpoch) hf
      have hc : reconciled.manifestCohortId = state.manifestCohortId :=
        congrArg (·.manifestCohortId) hf
      have hh : reconciled.manifestMemberHash = state.manifestMemberHash :=
        congrArg (·.manifestMemberHash) hf
      have hbin := hro.keep hs hne hv hse hwri hstr he
        (h.keepsBinding (hk hne hw))
      refine ⟨(congrArg (naming.blank ·.manifestOperationId) hf).trans hro.named,
        hh ▸ hro.hash,?_,hstr ▸ hro.ranges⟩
      rw [hbin,he,hc,hh]
  · have hne : state.manifestRevision ≠ 0 := fun hz => hw (hn hz)
    have hstr : reconciled.streamSegments = state.streamSegments :=
      congrArg (·.streamSegments) hf
    have hb : bindManifest naming state reconciled request revision segments =
        { reconciled with
          manifestOperationId := request.operationId
          manifestWriterEpoch :=
            (manifestMetadataForState naming reconciled reconciled.streamSegments).writerEpoch
          manifestCohortId :=
            (manifestMetadataForState naming reconciled reconciled.streamSegments).cohortId
          manifestMemberHash :=
            (manifestMetadataForState naming reconciled reconciled.streamSegments).memberHash
          manifestOperations := reconciled.manifestOperations.insert request.operationId
            (nextManifest naming reconciled revision request.operationId segments) } := by
      simp only [bindManifest,if_neg hsa,ne_eq,hw,not_false_eq_true,if_true,hstr,
        hseg]
      rfl
    rw [hb] at hv ⊢
    have hr' : reconciled.manifestRevision ≠ 0 := by
      rw [hf]
      exact hne
    refine ⟨hve,hv,hse,?_,fun hz => absurd hz hr',fun _ => ?_⟩
    · exact hstr ▸ hna
    · refine Routed.of_bound reconciled rfl rfl rfl rfl hv hr' h.nonblank ?_
        (.inr ha)
      exact hstr ▸ (hs.routed hne).ranges

end Reconciled

theorem Available.records (h : Available naming state) :
    Available naming (pruneOperationRecords naming { state with operations := operations }) := by
  refine ⟨h.version,h.valid.congr rfl rfl rfl rfl rfl rfl,h.settled,h.policy,?_,?_⟩
  · intro hz
    have hu := h.unrouted hz
    exact ⟨hu.ranges,hu.operation,hu.writerEpoch,hu.cohort,
      hu.writeCohort⟩
  · intro hr
    have hro := h.routed hr
    exact ⟨hro.named,hro.hash,hro.binding,hro.ranges⟩

/-- A membership CAS that sustains the policies leaves the document available. -/
theorem MembershipCas.available
    (h : MembershipCas naming state request answer next) (hs : Available naming state)
    (hsu : SustainsMembership naming state request) : Available naming next := by
  cases h with
  | replayed _ _ => exact hs
  | held _ => exact hs
  | @changed named members epoch revision segments reconciled _ _ hc hr =>
    obtain ⟨hv,ha,-,rfl⟩ := recordMembership_eq_ok.mp hr
    obtain ⟨hco,hp,hk⟩ := hsu hc.expected named
      (Except.toOption_eq_some.mpr hc.requested)
    apply Available.records
    rw [(bindManifest_frame naming state reconciled request revision segments).2.1] at ha
    by_cases hn : state.manifestRevision < revision
    · rw [bindManifest_newer naming request reconciled segments hn] at hv ⊢
      exact hc.available_newer hs hn hco hp hv ha
    · have hkee : KeepsRevision state request := by
        by_contra hkee
        exact hn ((nextRoutes_left hc.routes).2.2 hkee)
      obtain ⟨hno,hb⟩ := hk hkee
      exact hc.available_same hs hn hp hno hb hv ha

end Membership

section Runs

theorem openControl_available
    (h : openControl naming none initial = .ok state) : Available naming state := by
  simp only [openControl,Except.bind_eq_ok,guard_ok,Except.map_eq_ok,not_not] at h
  obtain ⟨start,hs,hv,opened,hrec,_,hva,rfl⟩ := h
  simp only [bootstrap,Except.map_eq_ok] at hs
  obtain ⟨nodes,-,hs⟩ := hs
  have hr : start.streamSegments = ∅ := hs ▸ rfl
  have hre : start.manifestRevision = 0 := hs ▸ rfl
  have hk : Keyed start.members := by
    simp only [reconcileCohorts,Except.bind_eq_ok] at hrec
    obtain ⟨_,hmem,-⟩ := hrec
    exact fun _ _ hm => validateMembersState_key naming hmem hm
  have ho := reconcileCohorts_unrouted hrec hre hr
  subst ho
  refine ⟨hv,validateControlState_eq_ok.mp hva,reconcileMembers_settled hk,?_,?_,
    fun hn => absurd hre hn⟩
  · intro segment hse
    have he : (reconcileMembers naming start).streamSegments = ∅ := hr
    simp [he,allSegments,valuesOf] at hse
  · intro _
    exact ⟨hr,hs ▸ rfl,hs ▸ rfl,hs ▸ rfl,hs ▸ rfl⟩

inductive ControlOperation (ι : Type) [LinearOrder ι] where
  | membership (request : MembershipCasRequest ι)
  | manifest (request : ManifestCasRequest ι)
  | adoptManifest (manifest : ReplicaManifest ι) (forceSameRevision : Bool)
  | adoptHead (head : ControlHead ι ι)
  | adoptAuthority (authorityEpoch headRevision : Nat) (headDigest : ι) (authorityCohortId : Nat)

def operate (naming : ControlNaming ι) (state : DurableControlState ι) :
    ControlOperation ι → Option (DurableControlState ι)
  | .membership request =>
    ((casMembershipDocumentWithOptions naming state request).map (·.2)).toOption
  | .manifest request => manifestStep naming state request
  | .adoptManifest manifest force => (adoptManifest naming state manifest force).toOption
  | .adoptHead head => (adoptControlHead naming state head).toOption
  | .adoptAuthority authorityEpoch headRevision headDigest authorityCohortId =>
    (adoptAuthorityFields naming state authorityEpoch headRevision headDigest
      authorityCohortId).toOption

def Sustains (naming : ControlNaming ι) (state : DurableControlState ι) :
    ControlOperation ι → Prop
  | .membership request => SustainsMembership naming state request
  | .manifest request => SustainsManifest naming state request
  | .adoptManifest manifest _ => SustainsAdoption naming state manifest
  | .adoptHead head => SustainsHead naming head.metadata
  | .adoptAuthority _ _ _ _ => True

instance : DecidablePred (Sustains naming state)
  | .membership request => inferInstanceAs (Decidable (SustainsMembership naming state request))
  | .manifest request => inferInstanceAs (Decidable (SustainsManifest naming state request))
  | .adoptManifest manifest _ => inferInstanceAs (Decidable (SustainsAdoption naming state manifest))
  | .adoptHead head => inferInstanceAs (Decidable (SustainsHead naming head.metadata))
  | .adoptAuthority _ _ _ _ => inferInstanceAs (Decidable True)

theorem operate_available (hs : Available naming state) (hsu : Sustains naming state operation)
    (h : operate naming state operation = some next) : Available naming next := by
  cases operation with
  | membership request =>
    obtain ⟨⟨answer,s⟩,hc,rfl⟩ := Except.map_eq_ok.mp (Except.toOption_eq_some.mp h)
    exact (casMembership_cases hc).available hs hsu
  | manifest request =>
    obtain ⟨answer,hc⟩ := manifestStep_cases h
    exact hc.available hs hsu
  | adoptManifest manifest force =>
    exact (adoptManifest_adopts (Except.toOption_eq_some.mp h)).available hs hsu
  | adoptHead head =>
    exact adoptControlHead_available (Except.toOption_eq_some.mp h) hs hsu
  | adoptAuthority authorityEpoch headRevision headDigest authorityCohortId =>
    exact adoptAuthorityFields_available (Except.toOption_eq_some.mp h) hs

def Opened (naming : ControlNaming ι) (state : DurableControlState ι) : Prop :=
  ∃ initial, openControl naming none initial = .ok state

def ReadsAndReopens (naming : ControlNaming ι) (state : DurableControlState ι) : Prop :=
  (∃ manifest, state.manifest naming = .ok manifest) ∧
    ∀ initial, openControl naming (some state) initial = .ok state

/-- As long as the successful operations sustain it, every document reads its manifest and opens
again as it is. -/
theorem control_stays_available
    (h : Reachable (Opened naming) (operate naming) (Sustains naming) state) :
    ReadsAndReopens naming state := by
  have ha : Available naming state := by
    apply h.invariant
    · intro start hsta
      obtain ⟨initial,ho⟩ := hsta
      exact openControl_available ho
    · intro s operation s' hs hok hst
      exact operate_available hs hok hst
  exact ⟨⟨_,ha.manifest_eq⟩,ha.reopen⟩

/-- A stream is routed and cut over, and then a fourth member joins. -/
theorem cutover_and_join_stay_available :
    ∃ state, Reachable (Opened numbered) (operate numbered) (Sustains numbered) state ∧
      state.membershipEpoch = 2 ∧ state.manifestRevision = 3 ∧ ReadsAndReopens numbered state := by
  exact Reachable.exists_of_runs ⟨[(1,11),(2,12),(3,13)],rfl⟩
    [.manifest (routeRequest 0 [rangeOfThree 1 none] none),
     .manifest (routeRequest 1 [rangeOfThree 1 (some 5),rangeOfThree 6 none] (some 5)),
     .membership (membersRequest 1 [(1,.active),(2,.active),(3,.active),(4,.joining)])] rfl
    fun hr => ⟨rfl,rfl,control_stays_available hr⟩

/-- A stream is cut over at LSN 5 to a range from LSN 10, and the manifest is not read again. -/
theorem cutover_gap_unreadable :
    ¬∀ state, Reachable (Opened numbered) (operate numbered) anyStep state →
      ReadsAndReopens numbered state := by
  intro ha
  have hr := ha _ (.of_start ⟨[(1,11),(2,12),(3,13)],rfl⟩
    [.manifest (routeRequest 0 [rangeOfThree 1 none] none),
     .manifest (routeRequest 1 [rangeOfThree 1 (some 5),rangeOfThree 10 none] (some 5))] rfl)
  obtain ⟨⟨manifest,hre⟩,-⟩ := hr
  cases hre

end Runs

end Walleye.Control
