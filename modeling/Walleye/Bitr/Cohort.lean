import Walleye.Base.Runs
import Walleye.Bitr.Agreement
import Walleye.Bitr.CatchUp
import Walleye.Bitr.FanOut

namespace Walleye.Bitr

open Walleye.Base

/-- A catch-up in flight. `heard` is what each member answered, `some none` for a member
that stayed silent. -/
structure CatchUp (σ β : Type) where
  stream : σ
  member : Fin 3
  acknowledged : StreamWriterState σ β
  heard : Fin 3 → Option (Option (NodeSnapshot σ β))
  plan : Option (CatchUpPlan σ β)

/-- A cohort, the catch-ups any number of coordinators run on it, and the batches they
answered their writers with success. -/
structure Cohort (σ β : Type) where
  members : Members σ β
  catchUps : List (CatchUp σ β)
  acknowledged : List (List (EncryptedRecord σ β))

/-- An append is one member's part of a fan-out or of a retry, at any time after the coordinator
sent it: the answer may be lost. -/
inductive CohortStep (σ β : Type) where
  | append (m : Fin 3) (batch : List (EncryptedRecord σ β))
  | begin (stream : σ) (m : Fin 3) (acknowledged : StreamWriterState σ β)
  | read (i : Nat) (m : Fin 3)
  | miss (i : Nat) (m : Fin 3)
  | decide (i : Nat)
  | withdraw (i : Nat)
  | copy (i : Nat)
  | report (batch : List (EncryptedRecord σ β)) (answers : List (Fin 3 × Except ReplicaError Unit))
      (retried : Fin 3 → Option (Except ReplicaError Unit))

variable {σ β : Type}

def Cohort.empty : Cohort σ β := ⟨.empty, [], []⟩

def CatchUp.hear (t : CatchUp σ β) (m : Fin 3) (answer : Option (NodeSnapshot σ β)) :
    CatchUp σ β :=
  { t with heard := Function.update t.heard m (some answer) }

def Cohort.setTask (c : Cohort σ β) (i : Nat) (t : CatchUp σ β) : Cohort σ β :=
  { c with catchUps := c.catchUps.set i t }

def allHeard (heard : Fin 3 → Option (Option (NodeSnapshot σ β))) :
    Option (Fin 3 → Option (NodeSnapshot σ β)) :=
  if ∀ m, (heard m).isSome then some fun m => (heard m).join else none

theorem allHeard_eq_some (h : allHeard heard = some snapshots)
     (hm : snapshot ∈ snapshots m) :
    heard m = some (some snapshot) := by
  unfold allHeard at h
  split at h
  · cases h
    exact Option.join_eq_some_iff.mp hm
  · cases h

variable [DecidableEq σ] [DecidableEq β]

def Cohort.step (start : σ → Nat) (c : Cohort σ β) : CohortStep σ β → Option (Cohort σ β)
  | .append m batch =>
    (c.members.append start m batch).toOption.map fun members => { c with members }
  | .begin stream m acknowledged =>
    some { c with catchUps := c.catchUps ++ [⟨stream, m, acknowledged, fun _ => none, none⟩] }
  | .read i m => c.catchUps[i]?.bind fun t =>
    if (t.heard m).isNone then
      some (c.setTask i (t.hear m (some (c.members.nodes m).snapshot)))
    else none
  | .miss i m => c.catchUps[i]?.bind fun t =>
    if (t.heard m).isNone then some (c.setTask i (t.hear m none)) else none
  | .decide i => c.catchUps[i]?.bind fun t => (allHeard t.heard).bind fun snapshots =>
    if t.plan.isSome then none
    else (catchUpMember t.stream t.member snapshots t.acknowledged
        (c.members.archive t.stream)).toOption.map fun plan =>
      c.setTask i { t with plan := some plan }
  | .withdraw i => c.catchUps[i]?.bind fun t => t.plan.bind fun plan =>
    plan.supersede.bind fun p =>
      (c.members.withdraw t.member t.stream p.1 p.2).toOption.map fun members =>
        Cohort.setTask { c with members } i { t with plan := some { plan with supersede := none } }
  | .copy i => c.catchUps[i]?.bind fun t => t.plan.bind fun plan =>
    match plan.supersede, plan.batches with
    | none, batch :: rest =>
      (c.members.append start t.member batch).toOption.map fun members =>
        Cohort.setTask { c with members } i { t with plan := some { plan with batches := rest } }
    | _, _ => none
  | .report batch answers retried =>
    if (answers.map (·.1)).Nodup ∧
        (∀ a ∈ answers, a.2.isOk = true → (a.1, batch) ∈ c.members.answered) ∧
        (∀ m, (retried m).any Except.isOk = true → (m, batch) ∈ c.members.answered) then
      (appendNodesMany answers retried).toOption.map fun _ =>
        { c with acknowledged := batch :: c.acknowledged }
    else none

/-- A catch-up withdraws records only where both other members, or the archive, hold one
record of a newer epoch than everything that goes. -/
def Cohort.WithdrawsOutranked (start : σ → Nat) (c : Cohort σ β) : CohortStep σ β → Prop
  | .withdraw i => ∀ t ∈ c.catchUps[i]?, ∀ plan ∈ t.plan, ∀ p ∈ plan.supersede,
    c.members.Holds t.member t.stream p.1 → c.members.Outranked start t.member t.stream p.1
  | _ => True

instance (start : σ → Nat) (c : Cohort σ β) : DecidablePred (c.WithdrawsOutranked start) := fun a =>
  match a with
  | .withdraw _ => inferInstanceAs (Decidable (∀ t ∈ _, _))
  | .append .. | .begin .. | .read .. | .miss .. | .decide .. | .copy .. | .report .. =>
    instDecidableTrue

inductive Cohort.Moves (start : σ → Nat) (c c' : Cohort σ β) (a : CohortStep σ β) : Prop
  | rest : c'.members = c.members → Cohort.Moves start c c' a
  | append (m : Fin 3) (batch : List (EncryptedRecord σ β)) :
      (a = .append m batch ∨
        ∃ i, a = .copy i ∧ ∃ t ∈ c.catchUps, ∃ plan ∈ t.plan, batch ∈ plan.batches) →
      c.members.append start m batch = .ok c'.members → Cohort.Moves start c c' a
  | withdraw (i : Nat) (t : CatchUp σ β) (plan : CatchUpPlan σ β) (p : Nat × Nat) :
      a = .withdraw i → t ∈ c.catchUps[i]? → plan ∈ t.plan → p ∈ plan.supersede →
      c.members.withdraw t.member t.stream p.1 p.2 = .ok c'.members → Cohort.Moves start c c' a

variable {c c' : Cohort σ β}

/-- All that a step can do to the members. -/
theorem Cohort.step_moves (h : c.step start a = some c') : Cohort.Moves start c c' a := by
  cases a with
  | append m batch =>
    obtain ⟨members,hm,rfl⟩ := Option.map_eq_some_iff.mp h
    exact .append m batch (.inl rfl) (Except.toOption_eq_some.mp hm)
  | begin stream m acknowledged =>
    cases h
    exact .rest rfl
  | read i m =>
    obtain ⟨t,_,h⟩ := Option.bind_eq_some_iff.mp h
    split at h <;> cases h
    exact .rest rfl
  | miss i m =>
    obtain ⟨t,_,h⟩ := Option.bind_eq_some_iff.mp h
    split at h <;> cases h
    exact .rest rfl
  | decide i =>
    obtain ⟨t,_,h⟩ := Option.bind_eq_some_iff.mp h
    obtain ⟨snapshots,_,h⟩ := Option.bind_eq_some_iff.mp h
    split at h
    · cases h
    · obtain ⟨plan,_,rfl⟩ := Option.map_eq_some_iff.mp h
      exact .rest rfl
  | withdraw i =>
    obtain ⟨t,ht,h⟩ := Option.bind_eq_some_iff.mp h
    obtain ⟨plan,hpl,h⟩ := Option.bind_eq_some_iff.mp h
    obtain ⟨p,hp,h⟩ := Option.bind_eq_some_iff.mp h
    obtain ⟨members,hm,rfl⟩ := Option.map_eq_some_iff.mp h
    exact .withdraw i t plan p rfl ht hpl hp (Except.toOption_eq_some.mp hm)
  | copy i =>
    obtain ⟨t,ht,h⟩ := Option.bind_eq_some_iff.mp h
    obtain ⟨plan,hpl,h⟩ := Option.bind_eq_some_iff.mp h
    split at h
    · rename_i batch rest _ hb
      obtain ⟨members,hm,rfl⟩ := Option.map_eq_some_iff.mp h
      have hme : batch ∈ plan.batches := hb ▸ List.mem_cons_self
      exact .append t.member batch (.inr ⟨i,rfl,t,List.mem_of_getElem? ht,plan,hpl,hme⟩)
        (Except.toOption_eq_some.mp hm)
    · cases h
  | report batch answers retried =>
    simp only [Cohort.step] at h
    split at h
    · obtain ⟨_,_,rfl⟩ := Option.map_eq_some_iff.mp h
      exact .rest rfl
    · cases h

theorem Cohort.Moves.sound (h : Cohort.Moves start c c' a) (hs : c.members.Sound start)
    (ho : c.WithdrawsOutranked start a) : c'.members.Sound start := by
  cases h with
  | rest he => rwa [he]
  | append m batch _ ha => exact hs.append ha
  | withdraw i t plan p ha ht hpl hp hw =>
    subst ha
    exact hs.withdraw (ho t ht plan hpl p hp) hw

theorem Cohort.Moves.answered
    (h : Cohort.Moves start c c' a) : ∀ x ∈ c.members.answered, x ∈ c'.members.answered := by
  intro x hx
  cases h with
  | rest he => rwa [he]
  | append m batch _ ha =>
    obtain ⟨_,_,node,fresh,_,he⟩ := Members.append_spec ha
    rw [he]
    exact List.mem_cons_of_mem _ hx
  | withdraw i t plan p _ _ _ _ hw =>
    simp only [Members.withdraw,Except.bind_eq_ok] at hw
    obtain ⟨node,_,he⟩ := hw
    rw [← Except.ok.inj he]
    exact hx

/-- Only a batch that two members answered is acknowledged. -/
theorem Cohort.step_acknowledged (h : c.step start a = some c') : c'.acknowledged = c.acknowledged ∨
      ∃ batch, TwoOf (fun m => (m,batch) ∈ c.members.answered) ∧
        c'.acknowledged = batch :: c.acknowledged := by
  cases a <;> simp only [Cohort.step,Option.bind_eq_some_iff,Option.map_eq_some_iff,
    Except.toOption_eq_some,Option.ite_none_right_eq_some,Option.ite_none_left_eq_some,
    Option.some.injEq] at h
  case report batch answers retried =>
    obtain ⟨⟨hno,han,hr⟩,n,hn,rfl⟩ := h
    refine .inr ⟨batch,appendNodesMany_quorum hno ?_ ?_ hn,rfl⟩
    · exact fun a ha ho => han a ha (by rw [ho]; rfl)
    · exact fun m ho => hr m (by rw [ho]; rfl)
  case begin stream m acknowledged => exact .inl (h ▸ rfl)
  case append m batch =>
    obtain ⟨_,-,rfl⟩ := h
    exact .inl rfl
  case read i m | miss i m =>
    obtain ⟨t,-,-,rfl⟩ := h
    exact .inl rfl
  case decide i =>
    obtain ⟨_,-,_,-,-,_,-,rfl⟩ := h
    exact .inl rfl
  case withdraw i =>
    obtain ⟨_,-,_,-,_,-,_,-,rfl⟩ := h
    exact .inl rfl
  case copy i =>
    obtain ⟨_,-,_,-,h⟩ := h
    split at h
    · obtain ⟨members,_,rfl⟩ := Option.map_eq_some_iff.mp h
      exact .inl rfl
    · cases h

/-- In every run, two members took each acknowledged batch. -/
theorem Cohort.reported_of_reachable
    (h : Reachable (· = Cohort.empty) (Cohort.step start) anyStep c) :
    ∀ batch ∈ c.acknowledged, TwoOf fun m => (m,batch) ∈ c.members.answered := by
  refine h.invariant (P := fun c => ∀ batch ∈ c.acknowledged,
    TwoOf fun m => (m,batch) ∈ c.members.answered) ?_ ?_
  · rintro s rfl
    simp [Cohort.empty]
  · intro c a c' hc _ hs batch hb
    have hg := (Cohort.step_moves hs).answered
    rcases Cohort.step_acknowledged hs with he | ⟨new,hn,he⟩
    · exact (hc batch (he ▸ hb)).mono fun _ => hg _
    · rw [he] at hb
      rcases List.mem_cons.mp hb with rfl | hb
      · exact hn.mono fun _ => hg _
      · exact (hc batch hb).mono fun _ => hg _

/-- The batches two members answered with success carry one record at each LSN they share. -/
def Members.Agree (s : Members σ β) : Prop :=
  ∀ b b', TwoOf (fun m => (m, b) ∈ s.answered) → TwoOf (fun m => (m, b') ∈ s.answered) →
    ∀ r ∈ b, ∀ r' ∈ b', r.SameSlot r' → r = r'

theorem Cohort.sound_of_reachable
    (h : Reachable (· = Cohort.empty) (Cohort.step start) (Cohort.WithdrawsOutranked start) c) :
    c.members.Sound start := by
  refine h.invariant (P := fun c => c.members.Sound start) ?_ ?_
  · rintro s rfl
    exact Members.Sound.empty start
  · exact fun s a s' hs ho hst => (Cohort.step_moves hst).sound hs ho

/-- In a run whose withdrawals are all outranked, acknowledged batches agree. -/
theorem acknowledged_batches_agree {start : σ → Nat} {c : Cohort σ β}
    (h : Reachable (· = Cohort.empty) (Cohort.step start) (Cohort.WithdrawsOutranked start) c) :
    c.members.Agree := by
  have hso := Cohort.sound_of_reachable h
  intro b b' hb hb' r hr r' hr' hs
  exact hso.agree (hb.mono fun m hm => ⟨b,hm,hr⟩) (hb'.mono fun m hm => ⟨b',hm,hr'⟩) hs

section Runs

/-- A catch-up of member `m` that hears member `m'` and not the third, and copies one batch. -/
def catchUpRun (m m' silent : Fin 3) : List (CohortStep Nat Nat) :=
  [.begin 0 m .empty, .read 0 m, .read 0 m', .miss 0 silent, .decide 0, .withdraw 0, .copy 0]

/-- The retry makes the second copy. -/
theorem Cohort.reported_after_a_retry : ∃ c : Cohort Nat Nat,
    Reachable (· = .empty) (Cohort.step fun _ => 1) anyStep c ∧
    c.acknowledged = [[⟨0, 1, 1, 0, 11⟩]] ∧
    ∀ batch ∈ c.acknowledged, TwoOf fun m => (m, batch) ∈ c.members.answered := by
  exact Reachable.exists_of_runs rfl
    [.append 0 [⟨0,1,1,0,11⟩],.append 1 [⟨0,1,1,0,11⟩],
    .report [⟨0,1,1,0,11⟩] [(0,.ok ()),(1,.error .lsnConflict)]
      fun m => if m = 1 then some (.ok ()) else none] rfl
    fun hr => ⟨by decide,Cohort.reported_of_reachable hr⟩

/-- A one-copy record of an older writer goes for the batch both other members hold. -/
theorem acknowledged_batches_agree_over_a_withdrawal : ∃ c : Cohort Nat Nat,
    Reachable (· = .empty) (Cohort.step fun _ => 1) (Cohort.WithdrawsOutranked fun _ => 1) c ∧
    (c.members.nodes 0).records = [⟨0, 2, 1, 0, 21⟩, ⟨0, 2, 2, 1, 22⟩] ∧ c.members.Agree := by
  exact Reachable.exists_of_runs rfl
    ([.append 0 [⟨0,1,1,0,11⟩],
    .append 1 [⟨0,2,1,0,21⟩,⟨0,2,2,1,22⟩],.append 2 [⟨0,2,1,0,21⟩,⟨0,2,2,1,22⟩]] ++
    catchUpRun 0 1 2 ++ [.append 0 [⟨0,2,1,0,21⟩,⟨0,2,2,1,22⟩]]) rfl
    fun hr => ⟨by decide,acknowledged_batches_agree hr⟩

/-- Two members acknowledge a record of epoch 1. A coordinator that does not know it writes two
records of epoch 2 to the third and catches one of the two up from that single copy; its retry makes
a quorum. -/
theorem acknowledged_batches_disagree : ¬ ∀ c : Cohort Nat Nat,
    Reachable (· = .empty) (Cohort.step fun _ => 1) anyStep c → c.members.Agree := by
  intro ha
  have hr := ha _ (.of_start rfl
    ([.append 0 [⟨0,1,1,0,11⟩],.append 1 [⟨0,1,1,0,11⟩],
    .report [⟨0,1,1,0,11⟩] [(0,.ok ()),(1,.ok ())] fun _ => none,
    .append 2 [⟨0,2,1,0,21⟩,⟨0,2,2,1,22⟩]] ++ catchUpRun 0 2 1 ++
    [.append 0 [⟨0,2,1,0,21⟩,⟨0,2,2,1,22⟩],
    .report [⟨0,2,1,0,21⟩,⟨0,2,2,1,22⟩]
      [(2,.ok ()),(0,.error .lsnConflict),(1,.error .nodeUnavailable)]
      fun m => if m = 0 then some (.ok ()) else none]) rfl)
  have hag := hr [⟨0,1,1,0,11⟩] [⟨0,2,1,0,21⟩,⟨0,2,2,1,22⟩]
    ⟨0,1,by decide,by decide,by decide⟩ ⟨0,2,by decide,by decide,by decide⟩
    ⟨0,1,1,0,11⟩ (by decide) ⟨0,2,1,0,21⟩ (by decide) ⟨rfl,rfl⟩
  exact absurd hag (by decide)

end Runs

end Walleye.Bitr
