import Walleye.Bitr.Recovery

namespace Walleye.Bitr

open Walleye.Base

variable {σ β : Type}

structure Members.Grows (s s' : Members σ β) : Prop where
  answered : s.answered ⊆ s'.answered
  archive : ∀ stream, s.archive stream <+: s'.archive stream

theorem Members.Grows.refl (s : Members σ β) : s.Grows s :=
  ⟨List.Subset.refl _,fun _ => List.prefix_rfl⟩

/-- Every record a member accepted, and every record a catch-up will send, names its
predecessor as committed. -/
structure Cohort.Chains (c : Cohort σ β) : Prop where
  accepted : ∀ m r, c.members.Accepted m r → r.Chained
  planned : ∀ t ∈ c.catchUps, ∀ plan ∈ t.plan, ∀ b ∈ plan.batches, ∀ r ∈ b, r.Chained

variable {c c' : Cohort σ β} {s s' : Members σ β} {m : Fin 3} {t : Recovery σ β}

theorem Cohort.Chains.setTask (h : c.Chains)
    (ht : ∀ plan ∈ t'.plan, ∀ b ∈ plan.batches, ∀ r ∈ b, r.Chained) :
    ∀ t ∈ c.catchUps.set i t', ∀ plan ∈ t.plan, ∀ b ∈ plan.batches, ∀ r ∈ b, r.Chained := by
  intro t hm
  rcases List.mem_or_eq_of_mem_set hm with ho | rfl
  · exact h.planned t ho
  · exact ht

variable [DecidableEq σ]

theorem Members.Grows.withdraw (h : s.withdraw m stream lsn epoch = .ok s') : s.Grows s' := by
  simp only [Members.withdraw,Except.bind_eq_ok] at h
  obtain ⟨node,_,he⟩ := h
  cases he
  exact ⟨List.Subset.refl _,fun _ => List.prefix_rfl⟩

theorem Members.Grows.compact (h : s.compact m heads = .ok s') : s.Grows s' := by
  simp only [Members.compact,guard_ok,Except.bind_eq_ok] at h
  obtain ⟨_,node,_,he⟩ := h
  cases he
  exact ⟨List.Subset.refl _,fun _ => List.prefix_rfl⟩

theorem Members.Grows.publish (hs : s.Consistent start)
    (h : s.publish limit stream records = .ok s') : s.Grows s' := by
  obtain ⟨_,rfl⟩ := hs.publish h
  refine ⟨List.Subset.refl _,fun st => ?_⟩
  by_cases hst : st = stream
  · subst hst
    simp
  · simp [hst]

structure Recovery.Sound (s : Members σ β) (t : Recovery σ β) : Prop where
  since : t.before ⊆ s.answered
  archived : ∀ archived ∈ t.archived, ∃ earlier, earlier <+: s.archive t.stream ∧
    archived = archiveRecover earlier t.after
  heard : ∀ m snapshot, t.heard m = some (some snapshot) →
    Heard (fun _ => 1) s t.before m snapshot
  complete : t.Complete

theorem Recovery.Sound.mono (h : t.Sound s) (hg : s.Grows s') : t.Sound s' := by
  refine ⟨fun x hx => hg.answered (h.since hx),?_,?_,h.complete⟩
  · intro archived ha
    obtain ⟨earlier,hp,he⟩ := h.archived archived ha
    exact ⟨earlier,hp.trans (hg.archive t.stream),he⟩
  · exact fun m snapshot hm => (h.heard m snapshot hm).mono hg.answered

theorem Recovery.Sound.hear (h : t.Sound s)
    (ha : ∀ snapshot ∈ answer, Heard (fun _ => 1) s t.before m snapshot) :
    Recovery.Sound s { t with heard := Function.update t.heard m (some answer) } := by
  refine ⟨h.since,h.archived,fun x snapshot hx => ?_,h.complete⟩
  by_cases hxm : x = m
  · subst hxm
    exact ha snapshot (by simpa using hx)
  · exact h.heard x snapshot (by simpa [hxm] using hx)

structure Replicas.Sound (s : Replicas σ β) : Prop where
  members : s.cohort.members.Sound fun _ => 1
  chains : s.cohort.Chains
  recoveries : ∀ t ∈ s.recoveries, t.Sound s.cohort.members

theorem Replicas.Sound.grow {s : Replicas σ β} (h : s.Sound) {members : Members σ β}
    (hm : members.Sound fun _ => 1) (hg : s.cohort.members.Grows members)
    (hs : members.answered = s.cohort.members.answered) : (s.setMembers members).Sound := by
  refine ⟨hm,⟨fun m r hr => ?_,h.chains.planned⟩,fun t ht => (h.recoveries t ht).mono hg⟩
  exact h.chains.accepted m r (AcceptedIn.mono hr (hs ▸ List.Subset.refl _))

theorem Replicas.Sound.setRecovery {s : Replicas σ β} (h : s.Sound)
    (ht : t.Sound s.cohort.members) : (s.setRecovery i t).Sound := by
  refine ⟨h.members,h.chains,fun t' hm => ?_⟩
  rcases List.mem_or_eq_of_mem_set hm with ho | rfl
  · exact h.recoveries t' ho
  · exact ht

variable [DecidableEq β]

theorem Members.Grows.append (h : s.append start m batch = .ok s') : s.Grows s' := by
  obtain ⟨_,_,node,fresh,_,rfl⟩ := Members.append_spec h
  exact ⟨fun x hx => List.mem_cons_of_mem _ hx,fun _ => List.prefix_rfl⟩

theorem Cohort.Moves.grows (h : Cohort.Moves start c c' a) : c.members.Grows c'.members := by
  cases h with
  | rest he => exact he ▸ Members.Grows.refl c.members
  | append m batch _ ha => exact .append ha
  | withdraw i t plan p _ _ _ _ hw => exact .withdraw hw

/-- What a member accepts stays chained. -/
theorem Cohort.Chains.moves (h : c.Chains) (hs : a.Sent) (hm : Cohort.Moves start c c' a) :
    ∀ m r, c'.members.Accepted m r → r.Chained := by
  cases hm with
  | rest he =>
    rw [he]
    exact h.accepted
  | append m batch hf ha =>
    obtain ⟨_,_,node,fresh,_,he⟩ := Members.append_spec ha
    intro x r hr
    rw [he] at hr
    rcases Members.accepted_take.mp hr with ⟨_,hr⟩ | hr
    · rcases hf with rfl | ⟨_,_,t,ht,plan,hp,hb⟩
      · exact hs r hr
      · exact h.planned t ht plan hp batch hb r hr
    · exact h.accepted x r hr
  | withdraw i t plan p _ _ _ _ hw =>
    simp only [Members.withdraw,Except.bind_eq_ok] at hw
    obtain ⟨node,_,he⟩ := hw
    rw [← Except.ok.inj he]
    exact h.accepted

/-- Every step of the cohort keeps the chains. -/
theorem Cohort.Chains.step (h : c.Chains)
    (hs : a.Sent) (hst : c.step start a = some c') : c'.Chains := by
  refine ⟨h.moves hs (Cohort.step_moves hst),?_⟩
  cases a with
  | append m batch =>
    obtain ⟨_,_,rfl⟩ := Option.map_eq_some_iff.mp hst
    exact h.planned
  | begin stream m acknowledged =>
    cases hst
    intro t ht
    rcases List.mem_append.mp ht with ht | ht
    · exact h.planned t ht
    · rw [List.mem_singleton] at ht
      subst ht
      simp
  | read i m | miss i m =>
    obtain ⟨t,ht,hst⟩ := Option.bind_eq_some_iff.mp hst
    split at hst <;> cases hst
    exact h.setTask (h.planned t (List.mem_of_getElem? ht))
  | decide i =>
    obtain ⟨t,ht,hst⟩ := Option.bind_eq_some_iff.mp hst
    obtain ⟨snapshots,_,hst⟩ := Option.bind_eq_some_iff.mp hst
    split at hst
    · cases hst
    · obtain ⟨plan,hpl,rfl⟩ := Option.map_eq_some_iff.mp hst
      refine h.setTask fun plan' hp => ?_
      cases hp
      exact catchUpMember_chained (Except.toOption_eq_some.mp hpl)
  | withdraw i =>
    obtain ⟨t,ht,hst⟩ := Option.bind_eq_some_iff.mp hst
    obtain ⟨plan,hpl,hst⟩ := Option.bind_eq_some_iff.mp hst
    obtain ⟨p,_,hst⟩ := Option.bind_eq_some_iff.mp hst
    obtain ⟨_,_,rfl⟩ := Option.map_eq_some_iff.mp hst
    refine h.setTask fun plan' hp => ?_
    cases hp
    exact h.planned t (List.mem_of_getElem? ht) plan hpl
  | copy i =>
    obtain ⟨t,ht,hst⟩ := Option.bind_eq_some_iff.mp hst
    obtain ⟨plan,hpl,hst⟩ := Option.bind_eq_some_iff.mp hst
    split at hst
    · rename_i batch rest _ hba
      obtain ⟨_,_,rfl⟩ := Option.map_eq_some_iff.mp hst
      refine h.setTask fun plan' hp b hb => ?_
      cases hp
      exact h.planned t (List.mem_of_getElem? ht) plan hpl b
        (hba ▸ List.mem_cons_of_mem _ hb)
    · cases hst
  | report batch answers retried =>
    simp only [Cohort.step] at hst
    split at hst
    · obtain ⟨_,_,rfl⟩ := Option.map_eq_some_iff.mp hst
      exact h.planned
    · cases hst

/-- An acknowledged record is in the archive part or the hot part of a recovery. -/
theorem Answered.mem_recoverRecords
    (ha : Answered start s before owns snapshots stream
      (trimmedFloor snapshots stream (hotAfter after (archiveRecover earlier after))))
    (hc : Unconflicted owns snapshots stream
      (trimmedFloor snapshots stream (hotAfter after (archiveRecover earlier after))))
    (he : earlier <+: s.archive stream)
    (h : recoverRecords owns snapshots stream after (archiveRecover earlier after)
      (s.archive stream) = .ok out)
    (hr : AckedIn before r) (hs : r.stream = stream) (hl : after < r.lsn) : r ∈ out := by
  have har := ha.sound.archived stream
  have hse : hotAfter after (archiveRecover earlier after) = max after (headLsn earlier) := by
    rw [hotAfter,archiveRecover_reached (har.of_prefix he)]
    omega
  have hm : r.lsn ≤ headLsn (s.archive stream) → r ∈ s.archive stream := by
    intro hle
    subst hs
    exact ha.sound.mem_archive (hr.mono ha.since) hle
  have hf : r.lsn ≤ headLsn earlier → r ∈ archiveRecover earlier after := by
    intro hle
    have hl' := Nat.le_trans hle (har.headLsn_mono he)
    exact List.mem_filter.mpr ⟨har.mem_earlier he (hm hl') hle,by simpa using hl⟩
  simp only [recoverRecords,Except.bind_eq_ok] at h
  obtain ⟨⟨ho,floor⟩,hh,h⟩ := h
  have hfl : floor = trimmedFloor snapshots stream
      (hotAfter after (archiveRecover earlier after)) := by
    simp only [recoverHotTail] at hh
    split at hh
    · cases hh
    · obtain ⟨_,_,heq⟩ := Except.bind_eq_ok.mp hh
      cases heq
      rfl
  have ht : floor < r.lsn → r ∈ ho := fun hl =>
    mem_recoverHotTail hh (hfl ▸ ha.reaches hc hr hs (hfl ▸ hl))
  rw [hse] at h
  simp only at h
  split at h
  · rw [archiveRecover_reached har] at h
    simp only [guard_ok,Nat.not_lt] at h
    obtain ⟨hre,hou⟩ := h
    cases hou
    by_cases h1 : r.lsn ≤ headLsn earlier
    · exact List.mem_append_left _ (List.mem_append_left _ (hf h1))
    · by_cases h2 : r.lsn ≤ headLsn (s.archive stream)
      · refine List.mem_append_left _ (List.mem_append_right _ ?_)
        exact List.mem_filter.mpr ⟨hm h2,decide_eq_true (by omega)⟩
      · refine List.mem_append_right _ (List.mem_filter.mpr ⟨ht (by omega),?_⟩)
        exact decide_eq_true (by omega)
  · cases h
    by_cases h1 : r.lsn ≤ headLsn earlier
    · exact List.mem_append_left _ (hf h1)
    · exact List.mem_append_right _ (ht (by omega))

/-- A recovery that heard its members returns every acknowledged record. -/
theorem Recovery.Sound.finish (h : t.Sound s)
    (hs : s.Sound fun _ => 1) (hc : ∀ m r, s.Accepted m r → r.Chained)
    {archived : List (EncryptedRecord σ β)} (ha : archived ∈ t.archived)
    (hh : allHeard t.heard = some snapshots) (hcl : Unconflicted ownsAll snapshots t.stream
      (trimmedFloor snapshots t.stream (hotAfter t.after archived))) :
    Recovery.Sound s
      { t with result := some (t.finish archived (s.archive t.stream) snapshots) } := by
  refine ⟨h.since,h.archived,h.heard,?_⟩
  intro out ho r hr hst hl
  obtain ⟨earlier,he,rfl⟩ := h.archived archived ha
  have ho' : t.finish (archiveRecover earlier t.after) (s.archive t.stream) snapshots = .ok out :=
    Option.some.inj ho
  simp only [Recovery.finish,guard_ok,Nat.not_lt] at ho'
  obtain ⟨hq,hre⟩ := ho'
  refine Answered.mem_recoverRecords ⟨hs,hc,h.since,?_,two_le_countOf.mp hq,?_,?_,?_⟩
    hcl he hre hr hst hl
  · exact fun m snapshot hm => h.heard m snapshot (allHeard_eq_some hh hm)
  · exact trimmedFloor_le.2
  · exact Nat.le_add_left _ _
  · exact fun _ _ _ _ => rfl

/-- Every step keeps the recoveries and archive passes sound. -/
theorem Replicas.Sound.step {s s' : Replicas σ β} {a : ReplicasStep σ β} (h : s.Sound)
    (ho : s.Certain a) (hst : s.step a = some s') : s'.Sound := by
  cases a with
  | cohort a =>
    simp only [Replicas.step] at hst
    split at hst
    · rename_i hse
      obtain ⟨cohort,hc,rfl⟩ := Option.map_eq_some_iff.mp hst
      have hm := Cohort.step_moves hc
      exact ⟨hm.sound h.members ho,h.chains.step hse hc,
        fun t ht => (h.recoveries t ht).mono hm.grows⟩
    · cases hst
  | recover stream after =>
    cases hst
    refine ⟨h.members,h.chains,fun t ht => ?_⟩
    rcases List.mem_append.mp ht with ht | ht
    · exact h.recoveries t ht
    · rw [List.mem_singleton] at ht
      subst ht
      exact ⟨List.Subset.refl _,by simp,by simp,by simp [Recovery.Complete]⟩
  | readArchive i =>
    obtain ⟨t,ht,hst⟩ := Option.bind_eq_some_iff.mp hst
    split at hst <;> cases hst
    have hol := h.recoveries t (List.mem_of_getElem? ht)
    refine h.setRecovery ⟨hol.since,fun archived ha => ?_,hol.heard,hol.complete⟩
    cases ha
    exact ⟨_,List.prefix_rfl,rfl⟩
  | hear i m =>
    obtain ⟨t,ht,hst⟩ := Option.bind_eq_some_iff.mp hst
    split at hst <;> cases hst
    have hol := h.recoveries t (List.mem_of_getElem? ht)
    refine h.setRecovery (hol.hear fun snapshot hs => ?_)
    cases hs
    exact .now h.members hol.since m
  | miss i m =>
    obtain ⟨t,ht,hst⟩ := Option.bind_eq_some_iff.mp hst
    split at hst <;> cases hst
    exact h.setRecovery ((h.recoveries t (List.mem_of_getElem? ht)).hear (by simp))
  | finish i =>
    obtain ⟨t,ht,hst⟩ := Option.bind_eq_some_iff.mp hst
    obtain ⟨archived,ha,hst⟩ := Option.bind_eq_some_iff.mp hst
    obtain ⟨snapshots,hs,hst⟩ := Option.bind_eq_some_iff.mp hst
    split at hst <;> cases hst
    exact h.setRecovery ((h.recoveries t (List.mem_of_getElem? ht)).finish h.members
      h.chains.accepted ha hs (ho t ht archived ha snapshots hs))
  | pass stream =>
    cases hst
    exact ⟨h.members,h.chains,h.recoveries⟩
  | hearPass i m | missPass i m =>
    obtain ⟨t,_,hst⟩ := Option.bind_eq_some_iff.mp hst
    split at hst <;> cases hst
    exact ⟨h.members,h.chains,h.recoveries⟩
  | settle i =>
    obtain ⟨t,_,hst⟩ := Option.bind_eq_some_iff.mp hst
    obtain ⟨snapshots,_,hst⟩ := Option.bind_eq_some_iff.mp hst
    obtain ⟨tail,_,rfl⟩ := Option.map_eq_some_iff.mp hst
    exact ⟨h.members,h.chains,h.recoveries⟩
  | publish i limit =>
    obtain ⟨t,ht,hst⟩ := Option.bind_eq_some_iff.mp hst
    obtain ⟨tail,hta,hst⟩ := Option.bind_eq_some_iff.mp hst
    obtain ⟨members,hm,rfl⟩ := Option.map_eq_some_iff.mp hst
    have hp := Except.toOption_eq_some.mp hm
    refine h.grow (h.members.publish hp fun r hr _ => ho t ht tail hta r hr)
      (.publish h.members.toConsistent hp) ?_
    simp only [Members.publish,Except.bind_eq_ok] at hp
    obtain ⟨_,_,he⟩ := hp
    cases he
    rfl
  | compact m heads =>
    obtain ⟨members,hm,rfl⟩ := Option.map_eq_some_iff.mp hst
    have hc := Except.toOption_eq_some.mp hm
    refine h.grow (h.members.compact hc) (.compact hc) ?_
    simp only [Members.compact,guard_ok,Except.bind_eq_ok] at hc
    obtain ⟨_,_,_,he⟩ := hc
    cases he
    rfl

theorem Replicas.sound_of_reachable {s : Replicas σ β}
    (h : Reachable (· = Replicas.empty) Replicas.step Replicas.Certain s) : s.Sound := by
  refine h.invariant (P := Replicas.Sound) ?_ fun s a s' hs ho hst => hs.step ho hst
  rintro s rfl
  exact ⟨Members.Sound.empty _,⟨by simp [Replicas.empty,Cohort.empty,Members.empty,
    Members.Accepted,AcceptedIn],by simp [Replicas.empty,Cohort.empty]⟩,by simp [Replicas.empty]⟩

/-- In a run whose withdrawals, recoveries and publications are certain, every recovery that
returns holds every record acknowledged before it. -/
theorem recoveries_are_complete {s : Replicas σ β}
    (h : Reachable (· = Replicas.empty) Replicas.step Replicas.Certain s) :
    ∀ t ∈ s.recoveries, t.Complete :=
  fun t ht => ((Replicas.sound_of_reachable h).recoveries t ht).complete

section Runs

def recoverRun (i : Nat) (silent : Fin 3) : List (ReplicasStep Nat Nat) :=
  [.recover 0 0, .readArchive i] ++ ([0, 1, 2].map fun m =>
    if m = silent then .miss i m else .hear i m) ++ [.finish i]

/-- Two of three acknowledged records are archived and trimmed, the first recovery hears all
that is left with a member silent. -/
theorem recoveries_are_complete_over_a_trim : ∃ s : Replicas Nat Nat,
    Reachable (· = .empty) Replicas.step Replicas.Certain s ∧
    (s.cohort.members.archive 0).length = 2 ∧
    (s.recoveries.map fun t => t.result.map fun r => (r.toOption.map List.length)) =
      [some (some 3)] ∧
    ∀ t ∈ s.recoveries, t.Complete := by
  exact Reachable.exists_of_runs rfl
    ([.cohort (.append 0 [⟨0,1,1,0,11⟩,⟨0,1,2,1,12⟩]),
    .cohort (.append 1 [⟨0,1,1,0,11⟩,⟨0,1,2,1,12⟩]),.pass 0,.hearPass 0 0,
    .hearPass 0 1,.hearPass 0 2,.settle 0,.publish 0 10,.compact 0 [(0,2)],
    .compact 1 [(0,2)],.compact 2 [(0,2)],.cohort (.append 1 [⟨0,1,3,2,13⟩]),
    .cohort (.append 2 [⟨0,1,3,2,13⟩])] ++ recoverRun 0 2) rfl
    fun hr => ⟨by decide,by decide,recoveries_are_complete hr⟩

/-- A record is acknowledged by members 0 and 1 while member 2 holds another at its LSN. A recovery
that member 0 does not answer takes neither and returns an empty stream. -/
theorem recovery_misses_a_record : ¬ ∀ s : Replicas Nat Nat,
    Reachable (· = .empty) Replicas.step anyStep s → ∀ t ∈ s.recoveries, t.Complete := by
  intro ha
  have hr := ha _ (.of_start rfl
    ([.cohort (.append 0 [⟨0,1,1,0,11⟩]),
    .cohort (.append 1 [⟨0,1,1,0,11⟩]),.cohort (.append 2 [⟨0,1,1,0,21⟩])] ++
    recoverRun 0 0) rfl)
  have hm := hr _ List.mem_cons_self [] rfl ⟨0,1,1,0,11⟩
    ⟨0,1,by decide,⟨[⟨0,1,1,0,11⟩],by decide,by decide⟩,
      ⟨[⟨0,1,1,0,11⟩],by decide,by decide⟩⟩ rfl (by decide)
  exact absurd hm (by decide)

end Runs

end Walleye.Bitr
