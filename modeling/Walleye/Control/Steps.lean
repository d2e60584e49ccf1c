import Walleye.Control.Cas

namespace Walleye.Control

open Walleye.Base Walleye.Base.BTreeMap
open Walleye.Engine (u64Max)

variable {ι : Type} [LinearOrder ι] {naming : ControlNaming ι}

section Manifest

variable {state next : DurableControlState ι} {request : ManifestCasRequest ι}
  {answer : ReplicaManifest ι}

structure Installs (naming : ControlNaming ι) (state : DurableControlState ι)
    (request : ManifestCasRequest ι) (revision : Nat) (answer : ReplicaManifest ι)
    (next : DurableControlState ι) : Prop where
  unrecorded : state.manifestOperations[request.operationId]? = none
  named : naming.blank request.operationId = false
  unfenced : ¬metadataFenced state
  segments : validateManifestSegments naming state request.streamSegments revision = .ok ()
  manifest : answer =
    nextManifest naming state revision request.operationId request.streamSegments
  result : next = pruneOperationRecords naming (recordManifest state answer)
  valid : validateControlState naming next = .ok ()

inductive ManifestCas (naming : ControlNaming ι) (state : DurableControlState ι)
    (request : ManifestCasRequest ι) : ReplicaManifest ι → DurableControlState ι → Prop
  | replayed {answer : ReplicaManifest ι} :
      state.manifestOperations[request.operationId]? = some answer →
      ManifestCas naming state request answer state
  | held : state.manifestOperations[request.operationId]? = none → request.repair = true →
      request.expectedRevision ≠ 0 → state.manifestRevision = request.expectedRevision →
      currentDigest naming state = naming.manifestDigest request.streamSegments →
      ManifestCas naming state request (manifestFromState naming state) state
  | repaired {answer : ReplicaManifest ι} {next : DurableControlState ι} :
      request.repair = true → request.expectedRevision ≠ 0 →
      state.manifestRevision ≤ request.expectedRevision →
      (state.manifestRevision = request.expectedRevision →
        currentDigest naming state ≠ naming.manifestDigest request.streamSegments) →
      Installs naming state request request.expectedRevision answer next →
      ManifestCas naming state request answer next
  | advanced {answer : ReplicaManifest ι} {next : DurableControlState ι} :
      request.repair = false → state.manifestRevision = request.expectedRevision →
      (request.expectedDigest ≠ naming.empty →
        currentDigest naming state = request.expectedDigest) →
      request.expectedRevision < u64Max →
      validateManifestTransition naming state.streamSegments request.streamSegments = .ok () →
      validateManifestCutover state.streamSegments request.streamSegments request.cutoverLsn =
        .ok () →
      Installs naming state request (request.expectedRevision + 1) answer next →
      ManifestCas naming state request answer next

theorem installManifest_eq_ok :
    installManifest naming state manifest = .ok (answer,next) ↔
      answer = manifest ∧ next = pruneOperationRecords naming (recordManifest state manifest) ∧
        validateControlState naming next = .ok () := by
  simp only [installManifest,Except.map_eq_ok,Prod.mk.injEq]
  constructor
  · intro h
    obtain ⟨u,hv,rfl,rfl⟩ := h
    exact ⟨rfl,rfl,hv⟩
  · intro h
    obtain ⟨rfl,rfl,hv⟩ := h
    exact ⟨(),hv,rfl,rfl⟩

theorem repairManifest_cases (hn : naming.blank request.operationId = false)
    (hne : state.manifestOperations[request.operationId]? = none)
    (hf : ¬metadataFenced state) (hre : request.repair = true)
    (h : repairManifest naming state request = .ok (answer,next)) :
    ManifestCas naming state request answer next := by
  unfold repairManifest at h
  simp only [guard_ok,not_or,not_not,not_lt] at h
  obtain ⟨⟨hz,-,hl⟩,h⟩ := h
  by_cases hh : state.manifestRevision = request.expectedRevision ∧
      currentDigest naming state = naming.manifestDigest request.streamSegments
  · rw [if_pos hh] at h
    cases h
    exact .held hne hre hz hh.1 hh.2
  · simp only [if_neg hh,Except.bind_eq_ok,installManifest_eq_ok] at h
    obtain ⟨u,hs,ha,hnex,hv⟩ := h
    exact .repaired hre hz hl (fun hr hd => hh ⟨hr,hd⟩)
      ⟨hne,hn,hf,hs,ha,ha ▸ hnex,hv⟩

theorem advanceManifest_cases (hn : naming.blank request.operationId = false)
    (hne : state.manifestOperations[request.operationId]? = none)
    (hf : ¬metadataFenced state) (hr : request.repair = false)
    (h : advanceManifest naming state request = .ok (answer,next)) :
    ManifestCas naming state request answer next := by
  simp only [advanceManifest,guard_ok,not_or,not_not,not_and,not_le,
    Except.bind_eq_ok,installManifest_eq_ok] at h
  obtain ⟨⟨hrev,hd⟩,hl,u,hs,v,ht,w,hc,ha,hnex,
    hv⟩ := h
  exact .advanced hr hrev hd hl ht hc
    ⟨hne,hn,hf,hs,ha,ha ▸ hnex,hv⟩

/-- All that an accepted manifest CAS can do. -/
theorem casManifest_cases (h : casManifestWithCutover naming state request = .ok (answer,next)) :
    ManifestCas naming state request answer next := by
  unfold casManifestWithCutover at h
  simp only [guard_ok,Bool.not_eq_true] at h
  obtain ⟨hn,h⟩ := h
  cases hr : state.manifestOperations[request.operationId]? with
  | some previous =>
    rw [hr] at h
    cases h
    exact .replayed hr
  | none =>
    simp only [hr,guard_ok] at h
    obtain ⟨hf,h⟩ := h
    cases hrep : request.repair with
    | true =>
      rw [hrep,if_pos rfl] at h
      exact repairManifest_cases hn hr hf hrep h
    | false =>
      rw [hrep,if_neg Bool.false_ne_true] at h
      exact advanceManifest_cases hn hr hf hrep h

theorem ManifestCas.installs (h : ManifestCas naming state request answer next) :
    next = state ∨ ∃ revision, Installs naming state request revision answer next := by
  cases h with
  | replayed _ => exact .inl rfl
  | held _ _ _ _ _ => exact .inl rfl
  | repaired _ _ _ _ hi => exact .inr ⟨_,hi⟩
  | advanced _ _ _ _ _ _ hi => exact .inr ⟨_,hi⟩

namespace Installs

variable {revision : Nat}

theorem streamSegments_eq (h : Installs naming state request revision answer next) :
    next.streamSegments = request.streamSegments := by
  rw [h.result,h.manifest]
  rfl

theorem manifestRevision_eq (h : Installs naming state request revision answer next) :
    next.manifestRevision = revision := by
  rw [h.result,h.manifest]
  rfl

end Installs

end Manifest

section Membership

variable {state next : DurableControlState ι} {request : MembershipCasRequest ι}
  {answer : MembershipSnapshot ι}

def placedMembers (state : DurableControlState ι) (request : MembershipCasRequest ι)
    (members : BTreeMap ι (DurableMember ι)) : BTreeMap ι (DurableMember ι) :=
  if request.cohorts = none then normalizeMembersForCas members state else members

def routedState (state : DurableControlState ι) (request : MembershipCasRequest ι)
    (members : BTreeMap ι (DurableMember ι)) (epoch : Nat) (segments : StreamRanges ι) :
    DurableControlState ι :=
  { stageMembership state request members epoch with streamSegments := segments }

def candidateState (naming : ControlNaming ι) (state : DurableControlState ι)
    (request : MembershipCasRequest ι) (members : BTreeMap ι (DurableMember ι))
    (epoch revision : Nat) (segments : StreamRanges ι) : DurableControlState ι :=
  let routed := routedState state request members epoch segments
  if state.manifestRevision < revision then
    { routed with
      manifestRevision := revision
      manifestDigest := naming.manifestDigest segments }
  else routed

structure ChangesMembership (naming : ControlNaming ι) (state : DurableControlState ι)
    (request : MembershipCasRequest ι) (named members : BTreeMap ι (DurableMember ι))
    (epoch revision : Nat) (segments : StreamRanges ι) (reconciled : DurableControlState ι) :
    Prop where
  requested : requestMembers naming request.members = .ok named
  placed : members = placedMembers state request named
  nonblank : naming.blank request.operationId = false
  unfenced : ¬metadataFenced state
  expected : state.membershipEpoch = request.expectedEpoch
  known : members.toList.forM
    (validateKnownMember state (mayAdoptAuthoritativeBootstrap state request.repair)) = .ok ()
  epoch_eq : epoch = request.targetEpoch.getD (request.expectedEpoch + 1)
  later : request.expectedEpoch + 1 ≤ epoch
  routes : nextRoutes naming state (stageMembership state request members epoch) request =
    .ok (revision, segments)
  writeCohort : request.writeCohortId ≠ some 0
  online : request.online = true → ¬mayAdoptAuthoritativeBootstrap state request.repair →
    (if request.replacement then
        validateOnlineReplacementTransition state (routedState state request members epoch segments)
      else
        validateOnlineMembershipTransition state
          (routedState state request members epoch segments)) = .ok ()
  reconciles : reconcileCohorts naming
    (candidateState naming state request members epoch revision segments) = .ok reconciled

inductive MembershipCas (naming : ControlNaming ι) (state : DurableControlState ι)
    (request : MembershipCasRequest ι) : MembershipSnapshot ι → DurableControlState ι → Prop
  | replayed {answer : MembershipSnapshot ι} : request.repair = false →
      state.operations[request.operationId]? = some answer →
      MembershipCas naming state request answer state
  | held : request.targetEpoch = some state.membershipEpoch →
      MembershipCas naming state request (MembershipSnapshot.fromState naming state) state
  | changed {named members : BTreeMap ι (DurableMember ι)} {epoch revision : Nat}
      {segments : StreamRanges ι} {reconciled next : DurableControlState ι}
      {answer : MembershipSnapshot ι} :
      ChangesMembership naming state request named members epoch revision segments reconciled →
      recordMembership naming (bindManifest naming state reconciled request revision segments)
        request.operationId = .ok (answer, next) →
      MembershipCas naming state request answer next

theorem changeMembership_cases (hn : requestMembers naming request.members = .ok named)
    (ho : naming.blank request.operationId = false) (hf : ¬metadataFenced state)
    (h : changeMembership naming state request named = .ok (answer,next)) :
    MembershipCas naming state request answer next := by
  simp only [changeMembership,guard_ok,Except.bind_eq_ok,not_not,not_or,not_lt] at h
  obtain ⟨he,u,hk,v,-,-,⟨hl,-⟩,hw,⟨revision,segments⟩,hr,w,
    honl,reconciled,hrec,hre⟩ := h
  refine .changed ⟨hn,rfl,ho,hf,he,hk,rfl,hl,hr,hw,?_,
    hrec⟩ hre
  intro hon hne
  rw [if_pos ⟨hon,hne⟩] at honl
  exact honl

/-- All that an accepted membership CAS can do. -/
theorem casMembership_cases
    (h : casMembershipDocumentWithOptions naming state request = .ok (answer,next)) :
    MembershipCas naming state request answer next := by
  simp only [casMembershipDocumentWithOptions,guard_ok,Bool.not_eq_true,
    Except.bind_eq_ok] at h
  obtain ⟨ho,named,hn,u,-,h⟩ := h
  cases hr : (if request.repair then none else state.operations[request.operationId]?) with
  | some previous =>
    rw [hr] at h
    cases h
    cases hrep : request.repair with
    | true => simp [hrep] at hr
    | false =>
      simp only [hrep,Bool.false_eq_true,if_false] at hr
      exact .replayed hrep hr
  | none =>
    simp only [hr] at h
    by_cases hh : alreadyRepaired state request named
    · rw [if_pos hh] at h
      cases h
      exact .held hh.2.1
    · simp only [if_neg hh,guard_ok] at h
      exact changeMembership_cases hn ho h.1 h.2

/-- The members of a request are those it lists, each under its own id. -/
theorem requestMembers_getElem?
    (h : requestMembers naming members = .ok found)
    (id : ι) (m : DurableMember ι) : found[id]? = some m ↔ m ∈ members ∧ m.id = id := by
  have hf : ∀ (members : List (DurableMember ι)) (start : BTreeMap ι (DurableMember ι)),
      members.foldlM (fun (found : BTreeMap ι (DurableMember ι)) member =>
        (validateNode naming member.id member.url).bind fun _ =>
          if found[member.id]? ≠ none then .error .lsnConflict
          else .ok (found.insert member.id member)) start = .ok found →
      (found[id]? = some m ↔ start[id]? = some m ∨ (m ∈ members ∧ m.id = id)) := by
    intro members
    induction members with
    | nil =>
      intro start hs
      cases hs
      simp
    | cons x rest ih =>
      intro start hs
      obtain ⟨next,hx,hr⟩ := Except.bind_eq_ok.mp hs
      obtain ⟨-,-,hx⟩ := Except.bind_eq_ok.mp hx
      simp only [ne_eq,guard_ok,not_not,Except.ok.injEq] at hx
      obtain ⟨hn,rfl⟩ := hx
      rw [ih _ hr,Std.ExtTreeMap.getElem?_insert]
      by_cases hi : x.id = id
      · subst hi
        simp only [Std.compare_self,if_true,hn,List.mem_cons,reduceCtorEq,false_or]
        constructor
        · intro h
          cases h with
          | inl he => exact ⟨.inl (Option.some.inj he).symm,by rw [Option.some.inj he]⟩
          | inr hm => exact ⟨.inr hm.1,hm.2⟩
        · intro h
          cases h.1 with
          | inl he => exact .inl (congrArg some he.symm)
          | inr hm => exact .inr ⟨hm,h.2⟩
      · have hx : m = x → m.id ≠ id := fun he => he ▸ hi
        simp only [compare_eq_iff_eq,if_neg hi,List.mem_cons]
        constructor
        · intro h
          cases h with
          | inl hs => exact .inl hs
          | inr hm => exact .inr ⟨.inr hm.1,hm.2⟩
        · intro h
          cases h with
          | inl hs => exact .inl hs
          | inr hm =>
            cases hm.1 with
            | inl he => exact absurd hm.2 (hx he)
            | inr hr => exact .inr ⟨hr,hm.2⟩
  rw [hf members ∅ h]
  simp

theorem normalizeMembersForCas_status (members : BTreeMap ι (DurableMember ι))
    (current : DurableControlState ι) (id : ι) :
    (normalizeMembersForCas members current)[id]?.map (·.status) =
      members[id]?.map (·.status) := by
  unfold normalizeMembersForCas
  simp only
  split
  · rw [Std.ExtTreeMap.getElem?_map,Option.map_map]
    rfl
  · simp only [Std.ExtTreeMap.getElem?_map,Option.map_map]
    congr 1
    funext member
    simp only [Function.comp_apply]
    split <;> rfl

theorem normalizeMembersForCas_known
    {current : DurableControlState ι} {id : ι}
    (h : current.members[id]? = some previous) :
    (normalizeMembersForCas members current)[id]? =
      members[id]?.map fun member => { member with cohortId := previous.cohortId } := by
  have hp : ∀ known : BTreeMap ι (DurableMember ι), id ∉ pendingMembers known current := by
    intro known hm
    obtain ⟨entry,he,rfl⟩ := List.mem_map.mp hm
    have hn := (List.mem_filter.mp he).2
    simp only [h,reduceCtorEq,false_and,decide_false,Bool.false_eq_true] at hn
  unfold normalizeMembersForCas
  simp only
  split
  · rw [Std.ExtTreeMap.getElem?_map,h]
    rfl
  · simp only [Std.ExtTreeMap.getElem?_map,Option.map_map,h]
    congr 1
    funext member
    simp [hp]

theorem placedMembers_status (state : DurableControlState ι) (request : MembershipCasRequest ι)
    (members : BTreeMap ι (DurableMember ι)) (id : ι) :
    (placedMembers state request members)[id]?.map (·.status) = members[id]?.map (·.status) := by
  unfold placedMembers
  split
  · exact normalizeMembersForCas_status members state id
  · rfl

/-- A membership is recorded exactly for a valid document with an active cohort. -/
theorem recordMembership_eq_ok :
    recordMembership naming staged operationId = .ok (answer,next) ↔
      ValidControl naming staged ∧ (∃ cohort ∈ staged.cohorts.valuesOf, cohort.status = .active) ∧
        answer = MembershipSnapshot.fromState naming staged ∧
        next = pruneOperationRecords naming
          { staged with operations := staged.operations.insert operationId answer } := by
  simp only [recordMembership,Except.bind_eq_ok,guard_ok,not_or,Except.ok.injEq,
    Prod.mk.injEq]
  constructor
  · intro h
    obtain ⟨u,hv,⟨ha,-⟩,rfl,rfl⟩ := h
    refine ⟨validateControlState_eq_ok.mp hv,?_,rfl,rfl⟩
    obtain ⟨cohort,hc⟩ := List.exists_mem_of_ne_nil _ ha
    exact ⟨cohort,by simpa using hc⟩
  · intro h
    obtain ⟨hv,⟨cohort,hm,ha⟩,rfl,rfl⟩ := h
    refine ⟨(),validateControlState_eq_ok.mpr hv,⟨?_,?_⟩,rfl,rfl⟩
    · exact List.ne_nil_of_mem (List.mem_filter.mpr ⟨hm,by simpa using ha⟩)
    · intro ho
      obtain ⟨other,ho,hl⟩ := ho
      obtain ⟨hm,ha⟩ := List.mem_filter.mp ho
      obtain ⟨id,hi⟩ := mem_valuesOf.mp hm
      exact hl ((hv.cohorts id other hi).active (by simpa using ha)).1

theorem nextRoutes_cases (h : nextRoutes naming state staged request =
      .ok (revision,segments)) :
    state.manifestRevision < revision ∨
      (revision = state.manifestRevision ∧ segments = state.streamSegments) := by
  unfold nextRoutes at h
  split at h
  · simp only [guard_ok,Except.ok.injEq,Prod.mk.injEq] at h
    obtain ⟨-,rfl,-⟩ := h
    exact .inl (Nat.lt_succ_self _)
  · simp only at h
    split at h
    · simp only [guard_ok,Except.ok.injEq,Prod.mk.injEq] at h
      exact .inr ⟨h.2.1.symm,h.2.2.symm⟩
    · split at h
      · rename_i hn
        simp only [guard_ok,Except.bind_eq_ok,Except.map_eq_ok,Prod.mk.injEq] at h
        obtain ⟨-,-,-,-,-,rfl,-⟩ := h
        exact .inl hn
      · simp only [Except.ok.injEq,Prod.mk.injEq] at h
        exact .inr ⟨h.1.symm,h.2.symm⟩

theorem bindManifest_frame (naming : ControlNaming ι) (state reconciled : DurableControlState ι)
    (request : MembershipCasRequest ι) (revision : Nat) (segments : StreamRanges ι) :
    (bindManifest naming state reconciled request revision segments).members =
        reconciled.members ∧
      (bindManifest naming state reconciled request revision segments).cohorts =
        reconciled.cohorts ∧
      (bindManifest naming state reconciled request revision segments).membershipEpoch =
        reconciled.membershipEpoch ∧
      (bindManifest naming state reconciled request revision segments).operations =
        reconciled.operations := by
  unfold bindManifest
  simp only
  split
  · exact ⟨rfl,rfl,rfl,rfl⟩
  · split
    · exact ⟨rfl,rfl,rfl,rfl⟩
    · exact ⟨rfl,rfl,rfl,rfl⟩

end Membership

end Walleye.Control
