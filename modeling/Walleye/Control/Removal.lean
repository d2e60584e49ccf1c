import Walleye.Control.Steps

namespace Walleye.Control

open Walleye.Base Walleye.Base.BTreeMap

variable {ι : Type} [LinearOrder ι] {naming : ControlNaming ι}

def membershipStep (naming : ControlNaming ι) (state : DurableControlState ι)
    (request : MembershipCasRequest ι) : Option (DurableControlState ι) :=
  ((casMembershipDocumentWithOptions naming state request).map (·.2)).toOption

def Permanent (s t : DurableControlState ι) : Prop :=
  (∀ (id : ι) (member later : DurableMember ι), s.members[id]? = some member →
      member.status = .removed → t.members[id]? = some later → later.status = .removed) ∧
    ∀ (id : Nat) (cohort later : DurableCohort ι), s.cohorts[id]? = some cohort →
      cohort.status = .retired → t.cohorts[id]? = some later →
        later.status ≠ .joining ∧ later.status ≠ .active

structure ListsTombstones (state : DurableControlState ι) (request : MembershipCasRequest ι) :
    Prop where
  members : ∀ entry ∈ state.members.toList, entry.2.status = .removed →
    ∃ member ∈ request.members, member.id = entry.1
  cohorts : ∀ entry ∈ state.cohorts.toList, entry.2.status = .retired →
    ∃ member ∈ request.members, state.members[member.id]?.map (·.cohortId) = some entry.1 ∧
      (request.cohorts = none ∨ member.cohortId = entry.1)
  carried : ∀ entry ∈ state.cohorts.toList, entry.2.status = .retired →
    ∀ cohorts ∈ request.cohorts, (∃ cohort ∈ cohorts, cohort.id = entry.1) ∧
      ∀ cohort ∈ cohorts, cohort.id = entry.1 → cohort.status = .retired

instance (state : DurableControlState ι) (request : MembershipCasRequest ι) :
    Decidable (ListsTombstones state request) :=
  decidable_of_iff (_ ∧ _ ∧ _)
    ⟨fun h => ⟨h.1, h.2.1, h.2.2⟩, fun h => ⟨h.members, h.cohorts, h.carried⟩⟩

/-- A request for the epoch of the state lists the tombstones, unless it goes through the checks
of a live transition. -/
def KeepsTombstones (state : DurableControlState ι) (request : MembershipCasRequest ι) : Prop :=
  state.membershipEpoch = request.expectedEpoch →
    (request.online = true ∧ ¬mayAdoptAuthoritativeBootstrap state request.repair) ∨
      ListsTombstones state request

instance (state : DurableControlState ι) : DecidablePred (KeepsTombstones state) :=
  fun _ => inferInstanceAs (Decidable (_ → _))

section Step

structure Buries (s t : DurableControlState ι) : Prop where
  members : ∀ id : ι, s.members[id]?.map (·.status) = some .removed →
    t.members[id]?.map (·.status) = some .removed
  cohorts : ∀ id : Nat, s.cohorts[id]?.map (·.status) = some .retired →
    t.cohorts[id]?.map (·.status) = some .retired

theorem Buries.refl (s : DurableControlState ι) : Buries s s :=
  ⟨fun _ h => h,fun _ h => h⟩

theorem Buries.trans {s t u : DurableControlState ι} (h : Buries s t) (h' : Buries t u) :
    Buries s u :=
  ⟨fun id hi => h'.members id (h.members id hi),fun id hi => h'.cohorts id (h.cohorts id hi)⟩

theorem Buries.permanent {s t : DurableControlState ι} (h : Buries s t) : Permanent s t := by
  constructor
  · intro id member later hm hr hl
    have hb := h.members id (by rw [hm,Option.map_some,hr])
    rw [hl] at hb
    exact Option.some.inj hb
  · intro id cohort later hc hret hl
    have hb := h.cohorts id (by rw [hc,Option.map_some,hret])
    rw [hl] at hb
    have hs : later.status = .retired := Option.some.inj hb
    simp [hs]

section Change

theorem candidateState_frame (naming : ControlNaming ι) (state : DurableControlState ι)
    (request : MembershipCasRequest ι) (members : BTreeMap ι (DurableMember ι))
    (epoch revision : Nat) (segments : StreamRanges ι) :
    (candidateState naming state request members epoch revision segments).members = members ∧
      (candidateState naming state request members epoch revision segments).cohorts =
        (stageMembership state request members epoch).cohorts := by
  unfold candidateState
  simp only
  split <;> exact ⟨rfl,rfl⟩

/-- A removed member that is named again stays removed. -/
theorem ChangesMembership.removed
    (h : ChangesMembership naming state request named members epoch revision segments reconciled)
    {id : ι} (hr : state.members[id]?.map (·.status) = some .removed)
    (hm : members[id]? = some member) :
    reconciled.members[id]?.map (·.status) = some .removed := by
  have hs : member.status = .removed := by
    have he := forM_eq_ok.mp h.known _
      (Std.ExtTreeMap.mem_toList_iff_getElem?_eq_some.mpr hm)
    obtain ⟨previous,hp,ho⟩ := Option.map_eq_some_iff.mp hr
    simp only [validateKnownMember,hp,guard_ok] at he
    by_contra hn
    exact he.1 ⟨ho,hn⟩
  obtain ⟨_,_,_,_,_,_,_,rfl⟩ := reconcileCohorts_frame h.reconciles
  have hk := reconcileMembers_status naming
    (candidateState naming state request members epoch revision segments) id
  rw [(candidateState_frame naming state request members epoch revision segments).1,hm,
    Option.map_some,hs] at hk
  exact hk

/-- A retired cohort with members stays retired. -/
theorem ChangesMembership.retired
    (h : ChangesMembership naming state request named members epoch revision segments reconciled)
    {id : Nat}
    (hs : (stageMembership state request members epoch).cohorts[id]?.map (·.status) =
      some .retired)
    {memberId : ι} (hm : members[memberId]? = some member)
    (hc : member.cohortId = id) :
    reconciled.cohorts[id]?.map (·.status) = some .retired := by
  obtain ⟨hmem,hcoh⟩ :=
    candidateState_frame naming state request members epoch revision segments
  have hn : (candidateState naming state request members epoch revision segments).cohorts ≠ ∅ := by
    intro he
    rw [← hcoh,he] at hs
    simp at hs
  have hr := regroupMembers_of_cohorts hn
  obtain ⟨_,_,_,_,_,_,_,rfl⟩ := reconcileCohorts_frame h.reconciles
  have hl : ∃ m ∈ (regroupMembers
      (candidateState naming state request members epoch revision segments)).valuesOf,
      m.cohortId = id := by
    refine ⟨member,mem_valuesOf.mpr ⟨memberId,?_⟩,hc⟩
    rw [hr,hmem,hm]
  have hreb := reconcileMembers_cohorts naming
    (candidateState naming state request members epoch revision segments) id
  rw [if_pos hl] at hreb
  show (reconcileMembers naming _).cohorts[id]?.map (·.status) = some .retired
  rw [hreb,Option.map_some,reconcileCohort,hcoh,hs]
  rfl

/-- A change that lists its tombstones forgets no removal. -/
theorem ChangesMembership.buries_listed
    (h : ChangesMembership naming state request named members epoch revision segments reconciled)
    (hl : ListsTombstones state request) : Buries state reconciled := by
  have hlis : ∀ member ∈ request.members, ∃ placed, members[member.id]? = some placed := by
    intro member hmem
    have hs := placedMembers_status state request named member.id
    rw [← h.placed,(requestMembers_getElem? h.requested _ _).mpr ⟨hmem,rfl⟩] at hs
    obtain ⟨placed,hpla,-⟩ := Option.map_eq_some_iff.mp hs
    exact ⟨placed,hpla⟩
  constructor
  · intro id hr
    obtain ⟨previous,hpre,hs⟩ := Option.map_eq_some_iff.mp hr
    obtain ⟨member,hmem,rfl⟩ := hl.members (id,previous)
      (Std.ExtTreeMap.mem_toList_iff_getElem?_eq_some.mpr hpre) hs
    obtain ⟨placed,hpla⟩ := hlis member hmem
    exact h.removed hr hpla
  · intro id hret
    obtain ⟨cohort,hco,hs⟩ := Option.map_eq_some_iff.mp hret
    have he := Std.ExtTreeMap.mem_toList_iff_getElem?_eq_some.mpr hco
    obtain ⟨member,hmem,hk,hp⟩ := hl.cohorts _ he hs
    have hn := (requestMembers_getElem? h.requested _ _).mpr ⟨hmem,rfl⟩
    obtain ⟨previous,hpre,hpr⟩ := Option.map_eq_some_iff.mp hk
    cases hcoh : request.cohorts with
    | none =>
      have hpla : members[member.id]? =
          some { member with cohortId := previous.cohortId } := by
        rw [h.placed,placedMembers,if_pos hcoh,normalizeMembersForCas_known hpre,
          hn]
        rfl
      refine h.retired ?_ hpla hpr
      rw [stageMembership,hcoh]
      exact hret
    | some cohorts =>
      have hpla : members[member.id]? = some member := by
        rw [h.placed,placedMembers,if_neg (by simp [hcoh]),hn]
      have hi : member.cohortId = id := by
        cases hp with
        | inl hno => simp [hcoh] at hno
        | inr hi => exact hi
      obtain ⟨⟨carried,hca,hcar⟩,ha⟩ := hl.carried _ he hs cohorts
        hcoh
      have hke : id ∈ (cohorts.map fun c => (c.id,c)).map (·.1) := by
        rw [List.map_map]
        exact List.mem_map.mpr ⟨carried,hca,hcar⟩
      obtain ⟨last,hla,hm⟩ := getElem?_ofList hke
      obtain ⟨c,hc,hpa⟩ := List.mem_map.mp hm
      cases hpa
      refine h.retired ?_ hpla hi
      rw [stageMembership,hcoh]
      show Option.map _ _ = _
      rw [hla,Option.map_some,ha _ hc rfl]

theorem ChangesMembership.buries_online
    (h : ChangesMembership naming state request named members epoch revision segments reconciled)
    (hv : ValidControl naming state) (ho : request.online = true)
    (hn : ¬mayAdoptAuthoritativeBootstrap state request.repair) : Buries state reconciled := by
  have honl := h.online ho hn
  have hmem : ∀ (id : ι) (member : DurableMember ι), state.members[id]? = some member →
      ∃ candidate, members[id]? = some candidate ∧ candidate.cohortId = member.cohortId := by
    intro id member hm
    obtain ⟨candidate,hc,hs⟩ := online_keeps_member honl hm
    exact ⟨candidate,hc,hs.2.2.1⟩
  constructor
  · intro id hr
    obtain ⟨previous,hp,hst⟩ := Option.map_eq_some_iff.mp hr
    obtain ⟨candidate,hc,-⟩ := hmem id previous hp
    exact h.removed hr hc
  · intro id hret
    obtain ⟨cohort,hco,hst⟩ := Option.map_eq_some_iff.mp hret
    have hch := hv.cohorts id cohort hco
    obtain ⟨memberId,hmemb⟩ := List.exists_mem_of_ne_nil _ hch.nonempty
    obtain ⟨member,hm,hi⟩ := hch.known memberId hmemb
    obtain ⟨candidate,hc,hcan⟩ := hmem memberId member hm
    exact h.retired (online_keeps_retired honl hco hst) hc
      (hcan.trans hi)

end Change

theorem membershipStep_buries (hv : ValidControl naming state)
    (hk : KeepsTombstones state request) (h : membershipStep naming state request = some next) :
    Buries state next ∧ ValidControl naming next := by
  obtain ⟨⟨answer,s⟩,hc,rfl⟩ := Except.map_eq_ok.mp (Except.toOption_eq_some.mp h)
  cases casMembership_cases hc with
  | replayed _ _ => exact ⟨.refl state,hv⟩
  | held _ => exact ⟨.refl state,hv⟩
  | @changed named members epoch revision segments reconciled _ _ hch hr =>
    obtain ⟨hs,-,-,rfl⟩ := recordMembership_eq_ok.mp hr
    obtain ⟨hm,hco,-,-⟩ :=
      bindManifest_frame naming state reconciled request revision segments
    have hb : Buries state reconciled := by
      cases hk hch.expected with
      | inl ho => exact hch.buries_online hv ho.1 ho.2
      | inr hl => exact hch.buries_listed hl
    refine ⟨⟨?_,?_⟩,?_⟩
    · intro id hrem
      exact hm ▸ hb.members id hrem
    · intro id hret
      exact hco ▸ hb.cohorts id hret
    · exact hs.congr rfl rfl rfl rfl rfl rfl

end Step

section Runs

/-- As long as every CAS outside a live transition lists the removed members and the retired
cohorts, none of them comes back. -/
theorem removal_is_permanent {s t : DurableControlState ι}
    (hs : Reachable (ValidControl naming) (membershipStep naming) KeepsTombstones s)
    (ht : Reachable (· = s) (membershipStep naming) KeepsTombstones t) : Permanent s t := by
  have hv : ValidControl naming s := by
    apply hs.invariant (fun _ hi => hi)
    intro state request next hv hk hst
    exact (membershipStep_buries hv hk hst).2
  have hb : Buries s t ∧ ValidControl naming t := by
    apply ht.invariant (P := fun t => Buries s t ∧ ValidControl naming t)
    · intro t he
      subst he
      exact ⟨.refl t,hv⟩
    · intro state request next h hk hst
      obtain ⟨hst,hn⟩ := membershipStep_buries h.2 hk hst
      exact ⟨h.1.trans hst,hn⟩
  exact hb.1.permanent

theorem threeMembers_valid : ValidControl numbered threeMembers :=
  validateControlState_eq_ok.mp rfl

def removalOfFour : List (MembershipCasRequest ℕ) :=
  [membersRequest 1 [(1, .active), (2, .active), (3, .active), (4, .joining)],
   membersRequest 2 [(1, .active), (2, .active), (3, .active), (4, .removed)]]

def fourRemoved : DurableControlState ℕ :=
  (runs (membershipStep numbered) anyStep threeMembers removalOfFour).getD threeMembers

/-- The removed member is still listed when another one joins. -/
theorem listed_member_stays_removed :
    ∃ t, Reachable (ValidControl numbered) (membershipStep numbered) KeepsTombstones fourRemoved ∧
      Reachable (· = fourRemoved) (membershipStep numbered) KeepsTombstones t ∧
      fourRemoved.members[4]?.map (·.status) = some .removed ∧ t.membershipEpoch = 4 ∧
      Permanent fourRemoved t := by
  have hst : Reachable (ValidControl numbered) (membershipStep numbered) KeepsTombstones
      threeMembers := .start threeMembers_valid
  have hs : Reachable _ _ _ fourRemoved := hst.of_runs removalOfFour rfl
  have hl : Reachable (· = fourRemoved) (membershipStep numbered) KeepsTombstones
      fourRemoved := .start rfl
  have ht := hl.of_runs
    [membersRequest 3 [(1,.active),(2,.active),(3,.active),(4,.removed),(5,.joining)]] rfl
  exact ⟨_,hs,ht,rfl,rfl,removal_is_permanent hs ht⟩

/-- The removed member is left out of one request, and listed as joining in the next. -/
theorem omitted_member_returns :
    ¬∀ s t, Reachable (ValidControl numbered) (membershipStep numbered) anyStep s →
      Reachable (· = s) (membershipStep numbered) anyStep t → Permanent s t := by
  intro ha
  have hst : Reachable (ValidControl numbered) (membershipStep numbered) anyStep
      threeMembers := .start threeMembers_valid
  have hs : Reachable _ _ _ fourRemoved := hst.of_runs removalOfFour rfl
  have hl : Reachable (· = fourRemoved) (membershipStep numbered) anyStep fourRemoved :=
    .start rfl
  have ht := hl.of_runs
    [membersRequest 3 [(1,.active),(2,.active),(3,.active)],
     membersRequest 4 [(1,.active),(2,.active),(3,.active),(4,.joining)]] rfl
  have hsta := (ha _ _ hs ht).1 4 _ _ rfl rfl rfl
  cases hsta

end Runs

end Walleye.Control
