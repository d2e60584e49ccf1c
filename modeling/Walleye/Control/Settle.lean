import Walleye.Control.Steps

namespace Walleye.Control

open Walleye.Base Walleye.Base.BTreeMap

section Named

variable {β : Type} [DecidableEq β] {blank value : β} {old : Option β} {names : List β}

def firstNamed (blank : β) (old : Option β) (names : List β) : β :=
  (old.filter (· ≠ blank)).getD ((names.find? (· ≠ blank)).getD blank)

theorem firstNamed_eq_blank :
    firstNamed blank old names = blank ↔
      (∀ o ∈ old, o = blank) ∧ ∀ name ∈ names, name = blank := by
  have hn : (names.find? (· ≠ blank)).getD blank = blank ↔ ∀ name ∈ names, name = blank := by
    cases hf : names.find? (· ≠ blank) with
    | none => simpa using hf
    | some name =>
      have hne : name ≠ blank := by simpa using List.find?_some hf
      have hm := List.mem_of_find?_eq_some hf
      simp only [Option.getD_some,hne,false_iff]
      intro ha
      exact hne (ha name hm)
  cases old with
  | none => simpa [firstNamed] using hn
  | some o =>
    by_cases ho : o = blank
    · simpa [firstNamed,Option.filter_some,ho] using hn
    · simp [firstNamed,Option.filter_some,ho]

theorem firstNamed_again (h : firstNamed blank old names = value) :
    firstNamed blank (some value) (names.map fun name => if name = blank then value else name) =
      value := by
  by_cases hv : value = blank
  · subst hv
    obtain ⟨-,hnam⟩ := firstNamed_eq_blank.mp h
    apply firstNamed_eq_blank.mpr
    refine ⟨by simp,?_⟩
    intro name hn
    obtain ⟨name',hn',rfl⟩ := List.mem_map.mp hn
    simp [hnam name' hn']
  · simp [firstNamed,Option.filter_some,hv]

end Named

variable {ι : Type} [LinearOrder ι] (naming : ControlNaming ι)

structure Settled (members : BTreeMap ι (DurableMember ι))
    (cohorts : BTreeMap Nat (DurableCohort ι)) : Prop where
  rebuilt : rebuildCohorts naming members cohorts = cohorts
  filled : members.map (fun _ => fillMember naming cohorts) = members

variable {naming} {members : BTreeMap ι (DurableMember ι)}

theorem getElem?_rebuildCohorts (id : Nat) :
    (rebuildCohorts naming members cohorts)[id]? =
      if ∃ member ∈ members.valuesOf, member.cohortId = id then
        some (reconcileCohort naming members cohorts id)
      else none := by
  rw [rebuildCohorts,getElem?_tabulate]
  simp only [List.mem_map]

theorem Settled.regroup
    (h : Settled naming state.members state.cohorts) : regroupMembers state = state.members := by
  unfold regroupMembers
  rw [if_neg]
  intro hg
  obtain ⟨hcoh,hmem,-⟩ := hg
  apply hmem
  apply Std.ExtTreeMap.ext_getElem?
  intro id
  cases hm : state.members[id]? with
  | none => simp
  | some member =>
    have hc : state.cohorts[member.cohortId]? ≠ none := by
      rw [← h.rebuilt,getElem?_rebuildCohorts,
        if_pos ⟨member,mem_valuesOf.mpr ⟨id,hm⟩,rfl⟩]
      exact Option.some_ne_none _
    simp [hcoh] at hc

theorem reconcileMembers_of_settled
    (h : Settled naming state.members state.cohorts) : reconcileMembers naming state = state := by
  simp only [reconcileMembers,h.regroup,h.rebuilt,h.filled]

section Fill

theorem fillMember_id (member : DurableMember ι) :
    (fillMember naming cohorts member).id = member.id := by
  unfold fillMember
  split <;> rfl

theorem fillMember_url (member : DurableMember ι) :
    (fillMember naming cohorts member).url = member.url := by
  unfold fillMember
  split <;> rfl

theorem fillMember_again (member : DurableMember ι) :
    fillMember naming cohorts (fillMember naming cohorts member) =
      fillMember naming cohorts member := by
  unfold fillMember
  cases hc : cohorts[member.cohortId]? with
  | none => simp [hc]
  | some cohort =>
    simp only [hc]
    congr 1
    · split <;> simp_all
    · split <;> simp_all

theorem valuesOf_map :
    valuesOf (members.map f) = members.toList.map fun entry => f entry.1 entry.2 := by
  rw [valuesOf,Std.ExtTreeMap.toList_map,List.map_map]
  rfl

theorem groupMembers_fill (id : Nat) :
    groupMembers (members.map fun _ => fillMember naming cohorts) id = groupMembers members id := by
  have hv : valuesOf (members.map fun _ => fillMember naming cohorts) =
      members.valuesOf.map (fillMember naming cohorts) := by
    rw [valuesOf_map,valuesOf,List.map_map]
    rfl
  unfold groupMembers
  rw [hv,List.filter_map,List.map_map]
  simp only [Function.comp_def,fillMember_cohortId,fillMember_id]

theorem countStatus_fill (status : MemberStatus) (ids : List ι) :
    countStatus (members.map fun _ => fillMember naming cohorts) status ids =
      countStatus members status ids := by
  unfold countStatus
  congr 1
  funext id
  simp only [Std.ExtTreeMap.getElem?_map,Option.map_map,Function.comp_def,fillMember_status]

end Fill

theorem reconcileStatus_again (old : Option CohortStatus) (ids : List ι) :
    reconcileStatus members (some (reconcileStatus members old ids)) ids =
      reconcileStatus members old ids := by
  unfold reconcileStatus
  simp only
  rcases old with _ | _ | _ | _ | _ <;> simp only <;> split_ifs <;> simp_all

theorem reconcileTier_eq (old : Option (DurableCohort ι)) (ids : List ι) :
    reconcileTier naming members old ids =
      firstNamed naming.empty (old.map (·.tier)) ((ids.filterMap (members[·]?)).map (·.tier)) :=
  rfl

theorem reconcileLimit_eq (old : Option (DurableCohort ι)) (ids : List ι) :
    reconcileLimit members old ids =
      firstNamed 0 (old.map (·.maxAppendBytes))
        ((ids.filterMap (members[·]?)).map (·.maxAppendBytes)) :=
  rfl

def Keyed (members : BTreeMap ι (DurableMember ι)) : Prop :=
  ∀ (id : ι) (member : DurableMember ι), members[id]? = some member → member.id = id

theorem mem_groupMembers (hk : Keyed members) {id : ι} :
    id ∈ groupMembers members cohortId ↔
      ∃ member, members[id]? = some member ∧ member.cohortId = cohortId := by
  unfold groupMembers
  rw [(List.perm_insertionSort _ _).mem_iff]
  simp only [List.mem_map,List.mem_filter,mem_valuesOf,decide_eq_true_eq]
  constructor
  · intro h
    obtain ⟨member,⟨⟨key,hm⟩,hc⟩,rfl⟩ := h
    have hi := hk key member hm
    exact ⟨member,hi ▸ hm,hc⟩
  · intro h
    obtain ⟨member,hm,hc⟩ := h
    exact ⟨member,⟨⟨id,hm⟩,hc⟩,hk id member hm⟩

section Again

theorem names_fill [DecidableEq β] (blank value : β)
    {ids : List ι} (h : ∀ id ∈ ids, ∀ member, members[id]? = some member →
      field (fillMember naming cohorts member) =
        if field member = blank then value else field member) :
    (ids.filterMap ((members.map fun _ => fillMember naming cohorts)[·]?)).map field =
      ((ids.filterMap (members[·]?)).map field).map
        fun name => if name = blank then value else name := by
  have hf : ids.filterMap ((members.map fun _ => fillMember naming cohorts)[·]?) =
      (ids.filterMap (members[·]?)).map (fillMember naming cohorts) := by
    rw [List.map_filterMap]
    congr 1
    funext id
    exact Std.ExtTreeMap.getElem?_map
  rw [hf,List.map_map,List.map_map]
  apply List.map_congr_left
  intro member hm
  obtain ⟨id,hi,hfo⟩ := List.mem_filterMap.mp hm
  exact h id hi member hfo

/-- Reconciling a cohort a second time changes nothing. -/
theorem reconcileCohort_again (hk : Keyed members)
    {id : Nat} (hn : next[id]? = some (reconcileCohort naming members cohorts id)) :
    reconcileCohort naming (members.map fun _ => fillMember naming next) next id =
      reconcileCohort naming members cohorts id := by
  have hcoh : ∀ x ∈ groupMembers members id, ∀ member, members[x]? = some member →
      next[member.cohortId]? = some (reconcileCohort naming members cohorts id) := by
    intro x hx member hm
    obtain ⟨member',hm',hc⟩ := (mem_groupMembers hk).mp hx
    rw [hm] at hm'
    cases hm'
    rw [hc,hn]
  have hs : reconcileStatus (members.map fun _ => fillMember naming next)
      (some (reconcileCohort naming members cohorts id).status) (groupMembers members id) =
        (reconcileCohort naming members cohorts id).status := by
    have hf : ∀ old ids, reconcileStatus (members.map fun _ => fillMember naming next) old ids =
        reconcileStatus members old ids := by
      intro old ids
      simp only [reconcileStatus,countStatus_fill]
    rw [hf]
    exact reconcileStatus_again _ _
  have ht : reconcileTier naming (members.map fun _ => fillMember naming next)
      (some (reconcileCohort naming members cohorts id)) (groupMembers members id) =
        (reconcileCohort naming members cohorts id).tier := by
    rw [reconcileTier_eq,Option.map_some,names_fill naming.empty
      (reconcileCohort naming members cohorts id).tier]
    · exact firstNamed_again rfl
    · intro x hx member hm
      simp only [fillMember,hcoh x hx member hm]
  have hl : reconcileLimit (members.map fun _ => fillMember naming next)
      (some (reconcileCohort naming members cohorts id)) (groupMembers members id) =
        (reconcileCohort naming members cohorts id).maxAppendBytes := by
    rw [reconcileLimit_eq,Option.map_some,names_fill 0
      (reconcileCohort naming members cohorts id).maxAppendBytes]
    · exact firstNamed_again rfl
    · intro x hx member hm
      simp only [fillMember,hcoh x hx member hm]
  rw [reconcileCohort,groupMembers_fill,hn]
  simp only [Option.map_some,hs,ht,hl]
  rfl

/-- One reconciliation settles members and cohorts. -/
theorem rebuildCohorts_settled (hkey : Keyed members) :
    Settled naming
      (members.map fun _ => fillMember naming (rebuildCohorts naming members cohorts))
      (rebuildCohorts naming members cohorts) := by
  constructor
  · apply Std.ExtTreeMap.ext_getElem?
    intro id
    have hn : (∃ member ∈ valuesOf (members.map fun _ =>
          fillMember naming (rebuildCohorts naming members cohorts)), member.cohortId = id) ↔
        ∃ member ∈ members.valuesOf, member.cohortId = id := by
      simp only [mem_valuesOf,Std.ExtTreeMap.getElem?_map,Option.map_eq_some_iff]
      constructor
      · intro h
        obtain ⟨member,⟨key,member',hk,rfl⟩,hi⟩ := h
        exact ⟨member',⟨key,hk⟩,by rwa [fillMember_cohortId] at hi⟩
      · intro h
        obtain ⟨member,⟨key,hk⟩,hi⟩ := h
        exact ⟨_,⟨key,member,hk,rfl⟩,by rwa [fillMember_cohortId]⟩
    rw [getElem?_rebuildCohorts]
    by_cases hi : ∃ member ∈ members.valuesOf, member.cohortId = id
    · have hne : (rebuildCohorts naming members cohorts)[id]? =
          some (reconcileCohort naming members cohorts id) := by
        rw [getElem?_rebuildCohorts,if_pos hi]
      rw [if_pos (hn.mpr hi),reconcileCohort_again hkey hne,hne]
    · rw [if_neg (fun h => hi (hn.mp h)),getElem?_rebuildCohorts,if_neg hi]
  · apply Std.ExtTreeMap.ext_getElem?
    intro id
    simp only [Std.ExtTreeMap.getElem?_map,Option.map_map]
    congr 1
    funext member
    exact fillMember_again member

theorem regroupMembers_keyed {state : DurableControlState ι} (h : Keyed state.members) :
    Keyed (regroupMembers state) := by
  unfold regroupMembers
  split
  · intro id member hm
    rw [Std.ExtTreeMap.getElem?_map] at hm
    obtain ⟨member',hm',rfl⟩ := Option.map_eq_some_iff.mp hm
    exact h id member' hm'
  · exact h

theorem reconcileMembers_settled {state : DurableControlState ι} (h : Keyed state.members) :
    Settled naming (reconcileMembers naming state).members
      (reconcileMembers naming state).cohorts :=
  rebuildCohorts_settled (regroupMembers_keyed h)

end Again

end Walleye.Control
