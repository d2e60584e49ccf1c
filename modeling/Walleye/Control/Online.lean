import Walleye.Control.Reconcile

namespace Walleye.Control

open Walleye.Base Walleye.Base.BTreeMap
open Walleye.Bitr (ReplicaError)

variable {ι : Type} [LinearOrder ι]

section Members

def onlineMemberStep : MemberStatus → MemberStatus → Bool
  | .joining, .joining | .joining, .active | .active, .active | .draining, .draining
  | .removed, .removed => true
  | _, _ => false

def replacementMemberStep : MemberStatus → MemberStatus → Bool
  | .active, .removed | .draining, .removed => true
  | old, new => onlineMemberStep old new

def validateOnlineMember (allowed : MemberStatus → MemberStatus → Bool)
    (next : DurableControlState ι) (entry : ι × DurableMember ι) : Except ReplicaError Unit :=
  match next.members[entry.1]? with
  | none => .error .lsnConflict
  | some candidate =>
    if ¬sameMemberIncarnation candidate entry.2 ∨ ¬allowed entry.2.status candidate.status then
      .error .lsnConflict
    else .ok ()

def validateAddedMember (current : DurableControlState ι) (entry : ι × DurableMember ι) :
    Except ReplicaError Unit :=
  if current.members[entry.1]? ≠ none then .ok ()
  else if entry.2.cohortId = 0 ∨ (entry.2.status ≠ .joining ∧ entry.2.status ≠ .active) then
    .error .lsnConflict
  else .ok ()

def validateOnlineMembers (allowed : MemberStatus → MemberStatus → Bool)
    (current next : DurableControlState ι) : Except ReplicaError Unit :=
  (current.members.toList.forM (validateOnlineMember allowed next)).bind fun _ =>
  next.members.toList.forM (validateAddedMember current)

def someInactive (state : DurableControlState ι) (members : List ι) : Prop :=
  ∃ id ∈ members, (state.members[id]?.map (·.status)) ≠ some .active

instance (state : DurableControlState ι) (members : List ι) :
    Decidable (someInactive state members) :=
  inferInstanceAs (Decidable (∃ id ∈ members, _))

end Members

section Membership

def validateOnlineCohort (next : DurableControlState ι) (entry : Nat × DurableCohort ι) :
    Except ReplicaError Unit :=
  let cohort := entry.2
  match next.cohorts[entry.1]? with
  | none => .error .lsnConflict
  | some candidate =>
    if candidate.id ≠ cohort.id ∨ candidate.tier ≠ cohort.tier ∨
        candidate.maxAppendBytes ≠ cohort.maxAppendBytes ∨
        candidate.members.length < cohort.members.length ∨
        (∃ id ∈ cohort.members, id ∉ candidate.members) ∨
        replicationFactor < candidate.members.length then
      .error .lsnConflict
    else match cohort.status, candidate.status with
      | .joining, .joining => .ok ()
      | .joining, .active =>
        if cohort.members.length ≠ replicationFactor ∨ someInactive next candidate.members then
          .error .quorumUnavailable
        else .ok ()
      | .active, .active | .draining, .draining | .retired, .retired => .ok ()
      | _, _ => .error .lsnConflict

def validateAddedCohort (current next : DurableControlState ι) (entry : Nat × DurableCohort ι) :
    Except ReplicaError Unit :=
  let cohort := entry.2
  if current.cohorts[entry.1]? ≠ none then .ok ()
  else if entry.1 = 0 ∨ cohort.members = [] ∨ replicationFactor < cohort.members.length ∨
      (cohort.status ≠ .joining ∧ cohort.status ≠ .active) then
    .error .lsnConflict
  else if cohort.status = .active ∧ (cohort.members.length ≠ replicationFactor ∨
      someInactive next cohort.members) then
    .error .quorumUnavailable
  else .ok ()

def validateOnlineRanges (next : DurableControlState ι)
    (entry : ι × List (StreamSegment ι)) : Except ReplicaError Unit :=
  match next.streamSegments[entry.1]? with
  | none => .error .lsnConflict
  | some segments =>
    if segments.length < entry.2.length ∨ ∃ pair ∈ entry.2.zip segments, pair.1 ≠ pair.2 then
      .error .lsnConflict
    else .ok ()

def validateOnlineMembershipTransition (current next : DurableControlState ι) :
    Except ReplicaError Unit :=
  (validateOnlineMembers onlineMemberStep current next).bind fun _ =>
  (current.cohorts.toList.forM (validateOnlineCohort next)).bind fun _ =>
  (next.cohorts.toList.forM (validateAddedCohort current next)).bind fun _ =>
  current.streamSegments.toList.forM (validateOnlineRanges next)

end Membership

section Replacement

def replacementCohortStep : CohortStatus → CohortStatus → Bool
  | .active, .retired | .active, .draining | .draining, .retired | .joining, .joining
  | .joining, .active | .active, .active | .draining, .draining | .retired, .retired => true
  | _, _ => false

def retiredCohorts (current next : DurableControlState ι) : List Nat :=
  current.members.toList.filterMap fun entry =>
    if entry.2.status = .active ∧ next.members[entry.1]?.map (·.status) = some .removed then
      some entry.2.cohortId
    else none

def validateReplacedCohort (next : DurableControlState ι) (entry : Nat × DurableCohort ι) :
    Except ReplicaError Unit :=
  let cohort := entry.2
  match next.cohorts[entry.1]? with
  | none => .error .lsnConflict
  | some candidate =>
    if candidate.id ≠ cohort.id ∨ candidate.tier ≠ cohort.tier ∨
        candidate.maxAppendBytes ≠ cohort.maxAppendBytes ∨
        candidate.members ≠ cohort.members ∨
        ¬replacementCohortStep cohort.status candidate.status then
      .error .lsnConflict
    else .ok ()

def validateSuccessorCohort (current next : DurableControlState ι)
    (entry : Nat × DurableCohort ι) : Except ReplicaError Unit :=
  if current.cohorts[entry.1]? ≠ none then .ok ()
  else if entry.1 = 0 ∨ entry.2.members.length ≠ replicationFactor ∨ entry.2.status ≠ .active ∨
      someInactive next entry.2.members then
    .error .quorumUnavailable
  else .ok ()

def validateReplacedRange (retired : List Nat) (pair : StreamSegment ι × StreamSegment ι) :
    Except ReplicaError Unit :=
  let (old, new) := pair
  if old.endLsn ≠ none then if old ≠ new then .error .lsnConflict else .ok ()
  else if old.cohortId ∈ retired then
    if old.startLsn ≠ new.startLsn ∨ old.cohortId ≠ new.cohortId ∨
        old.memberIds ≠ new.memberIds ∨ old.memberHash ≠ new.memberHash ∨
        old.writerEpoch ≠ new.writerEpoch ∨ new.endLsn = none then
      .error .lsnConflict
    else .ok ()
  else if old ≠ new then .error .lsnConflict
  else .ok ()

def validateReplacedRanges (retired : List Nat) (next : DurableControlState ι)
    (entry : ι × List (StreamSegment ι)) : Except ReplicaError Unit :=
  let old := entry.2
  match next.streamSegments[entry.1]? with
  | none => .error .lsnConflict
  | some new =>
    if new.length < old.length then .error .lsnConflict
    else ((old.zip new).forM (validateReplacedRange retired)).bind fun _ =>
      if (∃ last ∈ old.getLast?, last.endLsn = none ∧ last.cohortId ∈ retired) ∧
          new.length = old.length then
        .error .lsnConflict
      else .ok ()

def validateOnlineReplacementTransition (current next : DurableControlState ι) :
    Except ReplicaError Unit :=
  let retired := retiredCohorts current next
  (validateOnlineMembers replacementMemberStep current next).bind fun _ =>
  (current.cohorts.toList.forM (validateReplacedCohort next)).bind fun _ =>
  (next.cohorts.toList.forM (validateSuccessorCohort current next)).bind fun _ =>
  (current.streamSegments.toList.forM (validateReplacedRanges retired next)).bind fun _ =>
  if ∃ segment ∈ allSegments next.streamSegments,
      segment.cohortId ∈ retired ∧ segment.endLsn = none then
    .error .lsnConflict
  else .ok ()

end Replacement

section Kept

variable {current next : DurableControlState ι}

theorem validateOnlineMembers_keeps
    (h : validateOnlineMembers allowed current next = .ok ()) {id : ι}
    (hm : current.members[id]? = some member) :
    ∃ candidate, next.members[id]? = some candidate ∧ sameMemberIncarnation candidate member := by
  obtain ⟨u,hmem,-⟩ := Except.bind_eq_ok.mp h
  have he := forM_eq_ok.mp hmem _ (Std.ExtTreeMap.mem_toList_iff_getElem?_eq_some.mpr hm)
  cases hc : next.members[id]? with
  | none => simp [validateOnlineMember,hc] at he
  | some candidate =>
    simp only [validateOnlineMember,hc,guard_ok,not_or,not_not] at he
    exact ⟨candidate,rfl,he.1.1⟩

theorem online_keeps_member {replacement : Bool}
    (h : (if replacement then validateOnlineReplacementTransition current next
      else validateOnlineMembershipTransition current next) = .ok ()) {id : ι}
    (hm : current.members[id]? = some member) :
    ∃ candidate, next.members[id]? = some candidate ∧ sameMemberIncarnation candidate member := by
  cases replacement with
  | true =>
    obtain ⟨u,hmem,-⟩ := Except.bind_eq_ok.mp h
    exact validateOnlineMembers_keeps hmem hm
  | false =>
    obtain ⟨u,hmem,-⟩ := Except.bind_eq_ok.mp h
    exact validateOnlineMembers_keeps hmem hm

theorem online_keeps_retired {replacement : Bool}
    (h : (if replacement then validateOnlineReplacementTransition current next
      else validateOnlineMembershipTransition current next) = .ok ()) {id : Nat}
    (hc : current.cohorts[id]? = some cohort) (hr : cohort.status = .retired) :
    next.cohorts[id]?.map (·.status) = some .retired := by
  have hm := Std.ExtTreeMap.mem_toList_iff_getElem?_eq_some.mpr hc
  cases replacement with
  | true =>
    obtain ⟨u,-,h⟩ := Except.bind_eq_ok.mp h
    obtain ⟨v,hcoh,-⟩ := Except.bind_eq_ok.mp h
    have he := forM_eq_ok.mp hcoh _ hm
    cases hca : next.cohorts[id]? with
    | none => simp [validateReplacedCohort,hca] at he
    | some candidate =>
      simp only [validateReplacedCohort,hca,hr,guard_ok,not_or,
        not_not] at he
      obtain ⟨⟨-,-,-,-,hs⟩,-⟩ := he
      cases hsta : candidate.status <;> simp_all [replacementCohortStep]
  | false =>
    obtain ⟨u,-,h⟩ := Except.bind_eq_ok.mp h
    obtain ⟨v,hcoh,-⟩ := Except.bind_eq_ok.mp h
    have he := forM_eq_ok.mp hcoh _ hm
    cases hca : next.cohorts[id]? with
    | none => simp [validateOnlineCohort,hca] at he
    | some candidate =>
      simp only [validateOnlineCohort,hca,hr,guard_ok] at he
      cases hsta : candidate.status <;> simp_all

end Kept

end Walleye.Control
