import Walleye.Admission.Effects
import Walleye.Base.Quorum

namespace Walleye.Admission

open Walleye.Base Walleye.Bitr

/-! The history of a gateway, newest event first. -/

/-- What happened after the begin call `b` installed its fence. -/
def sinceFence (b : Nat) (past : List Event) : List Event :=
  past.takeWhile fun e => e ≠ .fenced b

/-- What had happened when the begin call `b` installed its fence. -/
def beforeFence (b : Nat) (past : List Event) : List Event :=
  past.dropWhile fun e => e ≠ .fenced b

/-- What a drain promises of the next event: once a begin call returned, the earlier appends are
over, and until a release none passes the fence check or is admitted. -/
def Allowed (past : List Event) : Event → Prop
  | .returned b => ∀ i, .admitted i ∈ beforeFence b past → .completed i ∈ past
  | .admitted _ => ∀ b, .returned b ∈ sinceFence b past → .released ∈ sinceFence b past
  | .entered _ => ∀ b, .returned b ∈ sinceFence b past → .released ∈ sinceFence b past
  | .completed _ => True
  | .fenced _ => True
  | .released => True

def Drained : List Event → Prop
  | [] => True
  | e :: past => Allowed past e ∧ Drained past

theorem sinceFence_fenced (b : Nat) (past : List Event) :
    sinceFence b (.fenced b :: past) = [] := by
  simp [sinceFence]

theorem sinceFence_cons (he : e ≠ .fenced b) (past : List Event) :
    sinceFence b (e :: past) = e :: sinceFence b past := by
  simp [sinceFence,he]

theorem mem_of_mem_sinceFence (h : e ∈ sinceFence b past) : e ∈ past :=
  (List.takeWhile_subset _) h

theorem mem_of_mem_beforeFence (h : e ∈ beforeFence b past) : e ∈ past :=
  (List.dropWhile_subset _) h

namespace Gateway

variable {ι ν : Type} {config : GatewayConfig ι ν}
variable {s s' : Gateway ι ν} {i j b : Nat} {t t' u : Task ι}

theorem Advance.self (h : Advance s s' i t t') : s'.tasks[i]? = some t' := by
  obtain ⟨hl,-⟩ := List.getElem?_eq_some_iff.mp h.task
  rw [h.tasks]
  exact List.getElem?_set_self hl

theorem Advance.other (h : Advance s s' i t t') (hn : j ≠ i) : s'.tasks[j]? = s.tasks[j]? := by
  rw [h.tasks]
  exact List.getElem?_set_ne hn.symm

theorem Advance.get (h : Advance s s' i t t') (hj : s'.tasks[j]? = some u) :
    (j = i ∧ u = t') ∨ (j ≠ i ∧ s.tasks[j]? = some u) := by
  by_cases hn : j = i
  · subst hn
    rw [h.self] at hj
    cases hj
    exact .inl ⟨rfl,rfl⟩
  · rw [h.other hn] at hj
    exact .inr ⟨hn,hj⟩

def Locked (s : Gateway ι ν) : Prop :=
  ∀ i t, s.tasks[i]? = some t → t.holds = true → s.transition = some i

/-- A step keeps the transition lock with the one call that holds it. -/
theorem Locked.advance (hs : Locked s) (h : Advance s s' i t t') : Locked s' := by
  intro j u hj hh
  obtain ⟨rfl,rfl⟩ | ⟨hn,hj'⟩ := h.get hj
  · obtain ⟨ht,hk⟩ | ⟨-,hnew⟩ := h.locks hh
    · rw [hk,hs _ _ h.task ht]
    · exact hnew
  · have hhol := hs j u hj' hh
    cases ht' : t'.holds with
    | true =>
      obtain ⟨ht,-⟩ | ⟨hf,-⟩ := h.locks ht'
      · rw [hs _ _ h.task ht] at hhol
        exact absurd (Option.some.inj hhol).symm hn
      · rw [hf] at hhol
        cases hhol
    | false =>
      obtain ⟨-,hk⟩ | ⟨ht,-⟩ := h.unlocks ht'
      · rw [hk,hhol]
      · rw [hs _ _ h.task ht] at hhol
        exact absurd (Option.some.inj hhol).symm hn

def Tallied (s : Gateway ι ν) : Prop := s.activeRequests = s.tasks.countP Task.counted

theorem Tallied.advance (hs : Tallied s) (h : Advance s s' i t t') : Tallied s' := by
  obtain ⟨hl,hg⟩ := List.getElem?_eq_some_iff.mp h.task
  have hr := h.requests
  have hco := List.countP_set (p := Task.counted) (a := t') hl
  rw [hg] at hco
  unfold Tallied at hs ⊢
  rw [h.tasks,hco,hr,hs]
  have hp : t.counted = true → 0 < s.tasks.countP Task.counted := fun hc =>
    List.countP_pos_iff.mpr ⟨t,hg ▸ List.getElem_mem hl,hc⟩
  cases hc : t.counted with
  | false => cases t'.counted <;> simp
  | true =>
    have hp' := hp hc
    cases t'.counted <;> simp
    omega

theorem Tallied.counted_of_zero (hs : Tallied s) (hz : s.activeRequests = 0)
    (hj : s.tasks[j]? = some u) : u.counted = false := by
  rw [hs] at hz
  have hn := List.countP_eq_zero.mp hz u (List.mem_of_getElem? hj)
  simpa using hn

def Closed (config : GatewayConfig ι ν) (s : Gateway ι ν) : Prop :=
  s.fence ≠ .open ∧ AllFenced config s.nodes ∧
    ∀ (j : Nat) (u : Task ι), s.tasks[j]? = some u → u.opens = false

structure Sound (config : GatewayConfig ι ν) (s : Gateway ι ν) : Prop where
  locked : Locked s
  tallied : Tallied s
  admitted : ∀ i, .admitted i ∈ s.events → ∃ u, s.tasks[i]? = some u ∧ u.passed = true
  completed : ∀ i : Nat, s.tasks[i]? = some (.append .completed) → .completed i ∈ s.events
  returned : ∀ b, .returned b ∈ s.events → ∃ u, s.tasks[b]? = some u ∧ u.granted = true
  installing : ∀ (i : Nat) (u : Task ι), s.tasks[i]? = some u → u.installs = true →
    AllFenced config s.nodes
  held : ∀ (b : Nat) (u : Task ι), s.tasks[b]? = some u → u.granted = true →
    .released ∉ sinceFence b s.events → Closed config s

/-! What each effect does to the events and the calls. -/

theorem Effect.passed (h : Effect config s s' i t t') (ht : t.passed = true) :
    t'.passed = true := by
  cases h <;> simp_all [Task.passed]

theorem Effect.granted (h : Effect config s s' i t t') (ht : t.granted = true) :
    t'.granted = true := by
  cases h <;> simp_all [Task.granted]

theorem Effect.events_subset (h : Effect config s s' i t t') : s.events ⊆ s'.events := by
  cases h <;> simp_all

theorem Effect.mem_admitted (h : Effect config s s' i t t') (hj : .admitted j ∈ s'.events) :
    .admitted j ∈ s.events ∨ (j = i ∧ t'.passed = true) := by
  cases h <;> simp_all [Task.passed]
  exact hj.symm

theorem Effect.mem_returned (h : Effect config s s' i t t') (hj : .returned j ∈ s'.events) :
    .returned j ∈ s.events ∨ (j = i ∧ t'.granted = true) := by
  cases h <;> simp_all [Task.granted]
  exact hj.symm

theorem Effect.mem_completed (h : Effect config s s' i t t') (ht' : t' = .append .completed) :
    .completed i ∈ s'.events := by
  cases h <;> simp_all

theorem Effect.allFenced (h : Effect config s s' i t t') (hf : t.holds = false)
    (hs : AllFenced config s.nodes) : AllFenced config s'.nodes := by
  cases h <;> simp_all [Task.holds,Task.installs]

theorem Effect.installs (h : Effect config s s' i t t') (ht' : t'.installs = true) :
    AllFenced config s'.nodes := by
  cases h <;> simp_all [Task.installs]

theorem Effect.closed (h : Effect config s s' i t t') (ha : Advance s s' i t t')
    (hr : s'.events ≠ .released :: s.events) (hs : Closed config s) : Closed config s' := by
  obtain ⟨hf,hfen,hope⟩ := hs
  have ho := hope i t ha.task
  have hst : s'.fence ≠ .open ∧ AllFenced config s'.nodes ∧ t'.opens = false := by
    cases h <;> simp_all [Task.opens]
  refine ⟨hst.1,hst.2.1,?_⟩
  intro j u hj
  obtain ⟨rfl,rfl⟩ | ⟨-,hj'⟩ := ha.get hj
  · exact hst.2.2
  · exact hope j u hj'

theorem Effect.grants (h : Effect config s s' i t t') (ht : t.granted = false)
    (ht' : t'.granted = true) :
    t.installs = true ∧ s'.nodes = s.nodes ∧ s'.fence ≠ .open := by
  cases h with
  | install anonymous owner token allFenced events nodes fence before after =>
    subst before after
    refine ⟨?_,nodes,fence⟩
    cases allFenced
    · cases ht'
    · rfl
  | _ => simp_all [Task.granted]

theorem Effect.sinceFence_subset (h : Effect config s s' i t t') (hb : b ≠ i ∨ t.granted = true) :
    sinceFence b s.events ⊆ sinceFence b s'.events := by
  have hc : ∀ e : Event, e ≠ .fenced b →
      sinceFence b s.events ⊆ sinceFence b (e :: s.events) := by
    intro e he
    rw [sinceFence_cons he]
    exact List.subset_cons_self _ _
  cases h with
  | install anonymous owner token allFenced events nodes fence before after =>
    rw [events]
    apply hc
    rintro ⟨⟩
    subst before
    obtain hb | hb := hb
    · exact hb rfl
    · cases hb
  | _ => simp_all

theorem Effect.released_mem (hr : s'.events = .released :: s.events) :
    .released ∈ sinceFence b s'.events := by
  rw [hr,sinceFence_cons (by simp)]
  exact List.mem_cons_self

theorem Locked.opens_of_installs (hs : Locked s) (ht : s.tasks[i]? = some t)
    (hin : t.installs = true) (hj : s.tasks[j]? = some u) : u.opens = false := by
  by_contra ho
  have ho : u.opens = true := by simpa using ho
  have hi := hs i t ht (Task.installs_holds hin)
  have hj' := hs j u hj (Task.opens_holds ho)
  rw [hi] at hj'
  cases hj'
  rw [ht] at hj
  cases hj
  unfold Task.installs at hin
  split at hin
  · cases ho
  · cases hin

theorem Sound.held_advance (hs : Sound config s) (ha : Advance s s' i t t')
    (h : Effect config s s' i t t') (hb : s'.tasks[b]? = some u) (hu : u.granted = true)
    (hr : .released ∉ sinceFence b s'.events) : Closed config s' := by
  have hk : s'.events ≠ .released :: s.events :=
    fun he => hr (Effect.released_mem he)
  have ho : (b ≠ i ∨ t.granted = true) → ∀ v, s.tasks[b]? = some v → v.granted = true →
      Closed config s' := by
    intro hb v hv hv'
    apply h.closed ha hk
    exact hs.held b v hv hv' fun hm => hr (h.sinceFence_subset hb hm)
  obtain ⟨rfl,rfl⟩ | ⟨hn,hb'⟩ := ha.get hb
  · cases ht : t.granted with
    | true => exact ho (.inr ht) t ha.task ht
    | false =>
      obtain ⟨hi,hno,hf⟩ := h.grants ht hu
      refine ⟨hf,hno ▸ hs.installing b t ha.task hi,?_⟩
      intro j v hj
      obtain ⟨rfl,rfl⟩ | ⟨-,hj'⟩ := ha.get hj
      · exact Task.opens_of_granted hu
      · exact hs.locked.opens_of_installs ha.task hi hj'
  · exact ho (.inl hn) u hb' hu

/-- Every step of a call keeps the counters, the fences and the events in line. -/
theorem Sound.advance (hs : Sound config s) (ha : Advance s s' i t t')
    (h : Effect config s s' i t t') : Sound config s' where
  locked := hs.locked.advance ha
  tallied := hs.tallied.advance ha
  admitted j hj := by
    obtain ho | ⟨rfl,hp⟩ := h.mem_admitted hj
    · obtain ⟨u,hu,hp⟩ := hs.admitted j ho
      by_cases hn : j = i
      · subst hn
        rw [ha.task] at hu
        cases hu
        exact ⟨t',ha.self,h.passed hp⟩
      · exact ⟨u,(ha.other hn).trans hu,hp⟩
    · exact ⟨t',ha.self,hp⟩
  completed j hj := by
    obtain ⟨rfl,he⟩ | ⟨-,hj'⟩ := ha.get hj
    · exact h.mem_completed he.symm
    · exact h.events_subset (hs.completed j hj')
  returned b hb := by
    obtain ho | ⟨rfl,hg⟩ := h.mem_returned hb
    · obtain ⟨u,hu,hg⟩ := hs.returned b ho
      by_cases hn : b = i
      · subst hn
        rw [ha.task] at hu
        cases hu
        exact ⟨t',ha.self,h.granted hg⟩
      · exact ⟨u,(ha.other hn).trans hu,hg⟩
    · exact ⟨t',ha.self,hg⟩
  installing j u hj hu := by
    obtain ⟨rfl,rfl⟩ | ⟨hn,hj'⟩ := ha.get hj
    · exact h.installs hu
    · apply h.allFenced ?_ (hs.installing j u hj' hu)
      have hh := hs.locked j u hj' (Task.installs_holds hu)
      cases ht : t.holds with
      | false => exact rfl
      | true =>
        rw [hs.locked i t ha.task ht] at hh
        exact absurd (Option.some.inj hh).symm hn
  held b u hb hu hr := hs.held_advance ha h hb hu hr

theorem Sound.fence_ne_open (hs : Sound config s) (hb : .returned b ∈ sinceFence b s.events)
    (hr : .released ∉ sinceFence b s.events) : s.fence ≠ .open := by
  obtain ⟨u,hu,hg⟩ := hs.returned b (mem_of_mem_sinceFence hb)
  exact (hs.held b u hu hg hr).1

theorem Sound.drained_of_zero (hs : Sound config s) (hz : s.activeRequests = 0)
    (hc : .append .admitted ∉ s.tasks) (hj : .admitted j ∈ s.events) :
    .completed j ∈ s.events := by
  obtain ⟨u,hu,hp⟩ := hs.admitted j hj
  have hi := hs.tallied.counted_of_zero hz hu
  unfold Task.passed at hp
  split at hp
  · exact absurd (List.mem_of_getElem? hu) hc
  · cases hi
  · exact hs.completed j hu
  · cases hp

theorem sound_new : Sound config (new : Gateway ι ν) := by
  constructor <;> simp [Locked,Tallied,new]

theorem get_call (h : (s.tasks ++ [task])[j]? = some u) : s.tasks[j]? = some u ∨ u = task := by
  rw [List.getElem?_append] at h
  split at h
  · exact .inl h
  · obtain ⟨hl,hu⟩ := List.getElem?_eq_some_iff.mp h
    rw [List.getElem_singleton] at hu
    exact .inr hu.symm

theorem getElem?_call (h : s.tasks[j]? = some u) : (s.tasks ++ [task])[j]? = some u := by
  obtain ⟨hl,-⟩ := List.getElem?_eq_some_iff.mp h
  rw [List.getElem?_append_left hl,h]

/-- The history is as it should be, and while a returned fence stands no append is left between
the fence check and the counter. -/
structure Orderly (config : GatewayConfig ι ν) (s : Gateway ι ν) : Prop
    extends Sound config s where
  counted : ∀ b, .returned b ∈ sinceFence b s.events → .released ∉ sinceFence b s.events →
    .append .admitted ∉ s.tasks
  history : Drained s.events

/-- A drain that returns has found no admitted append. -/
theorem Orderly.allowed (hs : Orderly config s) (ha : Advance s s' i t t')
    (h : Effect config s s' i t t')
    (hc : t.drains = true → .append .admitted ∉ s.tasks) : Drained s'.events := by
  have hh := hs.history
  cases h with
  | grant events nodes fence isOpen point before after =>
    rw [events]
    refine ⟨fun b hb => ?_,hh⟩
    by_contra hr
    exact hs.fence_ne_open hb hr isOpen
  | enter events nodes fence before after =>
    rw [events]
    refine ⟨fun b hb => ?_,hh⟩
    by_contra hr
    exact hs.counted b hb hr (before ▸ List.mem_of_getElem? ha.task)
  | drain anonymous owner token events nodes fence idle before after =>
    rw [events]
    refine ⟨fun j hj => ?_,hh⟩
    apply hs.drained_of_zero idle (hc (before ▸ rfl))
    exact mem_of_mem_beforeFence hj
  | complete events => exact events ▸ ⟨trivial,hh⟩
  | install _ _ _ _ events => exact events ▸ ⟨trivial,hh⟩
  | release _ _ events => exact events ▸ ⟨trivial,hh⟩
  | quiet events => exact events ▸ hh
  | fencing _ _ _ _ events => exact events ▸ hh
  | miss _ _ events => exact events ▸ hh
  | opens _ events => exact events ▸ hh

/-- Only a drain adds a return after the fence that it waits for. -/
theorem Effect.returned_since (h : Effect config s s' i t t') (ht : t.drains = false)
    (hb : .returned b ∈ sinceFence b s'.events) :
    .returned b ∈ sinceFence b s.events ∧ sinceFence b s.events ⊆ sinceFence b s'.events := by
  have hc : ∀ e : Event, e ≠ .fenced b → e ≠ .returned b → s'.events = e :: s.events →
      .returned b ∈ sinceFence b s.events ∧ sinceFence b s.events ⊆ sinceFence b s'.events := by
    intro e he he' hev
    rw [hev,sinceFence_cons he] at hb ⊢
    refine ⟨?_,List.subset_cons_self _ _⟩
    exact (List.mem_cons.mp hb).resolve_left he'.symm
  have hs : s'.events = s.events →
      .returned b ∈ sinceFence b s.events ∧ sinceFence b s.events ⊆ sinceFence b s'.events := by
    intro hev
    rw [hev] at hb ⊢
    exact ⟨hb,List.Subset.refl _⟩
  cases h with
  | quiet events => exact hs events
  | grant events => exact hc _ (by simp) (by simp) events
  | enter events => exact hc _ (by simp) (by simp) events
  | complete events => exact hc _ (by simp) (by simp) events
  | fencing _ _ _ _ events => exact hs events
  | install _ _ _ _ events =>
    by_cases hbi : i = b
    · subst hbi
      rw [events,sinceFence_fenced] at hb
      cases hb
    · exact hc _ (by simpa using hbi) (by simp) events
  | drain _ _ _ _ _ _ _ before _ =>
    subst before
    cases ht
  | release _ _ events => exact hc _ (by simp) (by simp) events
  | miss _ _ events => exact hs events
  | opens _ events => exact hs events

theorem Effect.admits (h : Effect config s s' i t t') (ht' : t' = .append .admitted) :
    s.fence = .open ∧ t.drains = false := by
  cases h <;> simp_all [Task.drains]

theorem Orderly.counted_advance (hs : Orderly config s) (ha : Advance s s' i t t')
    (h : Effect config s s' i t t') (hc : t.drains = true → .append .admitted ∉ s.tasks)
    (hb : .returned b ∈ sinceFence b s'.events) (hr : .released ∉ sinceFence b s'.events) :
    .append .admitted ∉ s'.tasks := by
  intro hm
  obtain ⟨j,hj⟩ := List.mem_iff_getElem?.mp hm
  cases ht : t.drains with
  | true =>
    obtain ⟨rfl,he⟩ | ⟨-,hj'⟩ := ha.get hj
    · rw [(h.admits he.symm).2] at ht
      cases ht
    · exact hc ht (List.mem_of_getElem? hj')
  | false =>
    obtain ⟨hb',hsu⟩ := h.returned_since ht hb
    have hr' : .released ∉ sinceFence b s.events := fun hm => hr (hsu hm)
    obtain ⟨rfl,he⟩ | ⟨-,hj'⟩ := ha.get hj
    · exact hs.fence_ne_open hb' hr' (h.admits he.symm).1
    · exact hs.counted b hb' hr' (List.mem_of_getElem? hj')

variable [DecidableEq ι]

theorem starts_fresh (h : starts config task = true) :
    task.holds = false ∧ task.counted = false ∧ task.granted = false ∧ task.installs = false ∧
      task.opens = false ∧ task.passed = false := by
  cases task <;> simp_all [starts,Task.holds,Task.counted,Task.granted,Task.installs,
    Task.opens,Task.passed]

/-- A new call has taken nothing yet. -/
theorem Sound.call (hs : Sound config s) (h : starts config task = true) :
    Sound config { s with tasks := s.tasks ++ [task] } := by
  obtain ⟨hh,hc,hg,hi,ho,hp⟩ := starts_fresh h
  constructor
  case locked =>
    intro j u hj hu
    obtain hj | rfl := get_call hj
    · exact hs.locked j u hj hu
    · rw [hh] at hu
      cases hu
  case tallied => simpa [Tallied,hc] using hs.tallied
  case admitted =>
    intro j hj
    obtain ⟨u,hu,hp⟩ := hs.admitted j hj
    exact ⟨u,getElem?_call hu,hp⟩
  case completed =>
    intro j hj
    obtain hj | rfl := get_call hj
    · exact hs.completed j hj
    · cases hp
  case returned =>
    intro b hb
    obtain ⟨u,hu,hg⟩ := hs.returned b hb
    exact ⟨u,getElem?_call hu,hg⟩
  case installing =>
    intro j u hj hu
    obtain hj | rfl := get_call hj
    · exact hs.installing j u hj hu
    · rw [hi] at hu
      cases hu
  case held =>
    intro b u hb hu hr
    obtain hb | rfl := get_call hb
    · obtain ⟨hf,hfen,hn⟩ := hs.held b u hb hu hr
      refine ⟨hf,hfen,?_⟩
      intro j v hj
      obtain hj | rfl := get_call hj
      · exact hn j v hj
      · exact ho
    · rw [hg] at hu
      cases hu

/-- The condition of a drain that works: whenever a begin call reads `active_requests`, every
append that has passed the fence check is in it. -/
def CountedBeforeDrain (s : Gateway ι ν) : Step ι ν → Prop
  | .call _ => True
  | .resume i _ => s.tasks[i]?.any Task.drains = true → .append .admitted ∉ s.tasks

instance (s : Gateway ι ν) : DecidablePred (CountedBeforeDrain s)
  | .call _ => instDecidableTrue
  | .resume i _ =>
    inferInstanceAs (Decidable (s.tasks[i]?.any Task.drains = true → .append .admitted ∉ s.tasks))

theorem Orderly.step (hs : Orderly config s) (ho : CountedBeforeDrain s a)
    (h : Gateway.step config s a = some s') : Orderly config s' := by
  obtain ⟨task,rfl,hst,rfl⟩ | ⟨i,reply,t,rfl,t',ha,he⟩ := step_cases h
  · refine ⟨hs.toSound.call hst,?_,hs.history⟩
    intro b hb hr hm
    obtain hm | heq := List.mem_append.mp hm
    · exact hs.counted b hb hr hm
    · cases List.mem_singleton.mp heq
      cases (starts_fresh hst).2.2.2.2.2
  · have hc : t.drains = true → .append .admitted ∉ s.tasks := by
      intro hd
      apply ho
      simp [ha.task,hd]
    exact ⟨hs.toSound.advance ha he,
      fun b => hs.counted_advance ha he hc,
      hs.allowed ha he hc⟩

/-- In every run that counts each admitted append before a begin call reads the counter, a begin
call returns with the gateway drained, and no append enters before the release. -/
theorem maintenance_drains_gateway {s : Gateway ι ν}
    (h : Reachable (· = new) (Gateway.step config) CountedBeforeDrain s) : Drained s.events := by
  suffices hs : Orderly config s from hs.history
  apply h.invariant
  · rintro s rfl
    exact ⟨sound_new,by simp [new,sinceFence],trivial⟩
  · intro s a s' hs ho hst
    exact hs.step ho hst

def threeMemberConfig (direct : Bool) : GatewayConfig Nat (Fin 3) where
  direct := direct
  members := [0, 1, 2]
  active := [0, 1, 2]
  members_quorum := by decide
  bootId := 7
  blank := fun _ => false

def healthy : Reply (Fin 3) := ⟨fun _ => true, fun _ => true, 5⟩

/-- A fence goes up while an append is in flight; the begin call returns after the append, and an
append that comes under the fence is refused. -/
theorem maintenance_drains_one_append :
    ∃ s : Gateway Nat (Fin 3),
      Reachable (· = new) (Gateway.step (threeMemberConfig false)) CountedBeforeDrain s ∧
        s.events = [.returned 1, .completed 0, .fenced 1, .entered 0, .admitted 0] ∧
        s.tasks[2]? = some (.append .refused) ∧ Drained s.events := by
  exact Reachable.exists_of_runs rfl
    [.call (.append .calling),.resume 0 healthy,.resume 0 healthy,.resume 0 healthy,
      .resume 0 healthy,.call (.begin true 7 .calling),.resume 1 healthy,.resume 1 healthy,
      .resume 1 healthy,.resume 1 healthy,.resume 1 healthy,.resume 0 healthy,
      .resume 1 healthy,.call (.append .calling),.resume 2 healthy,.resume 2 healthy,
      .resume 2 healthy] rfl fun hr => ⟨by decide,by decide,maintenance_drains_gateway hr⟩

/-- An append has passed the fence check and not reached the counter; the begin call installs its
fence, reads a zero and returns. -/
theorem drain_misses_admitted_append :
    ¬ ∀ s : Gateway Nat (Fin 3),
      Reachable (· = new) (Gateway.step (threeMemberConfig true)) anyStep s →
        Drained s.events := by
  intro ha
  have hr := ha _ (.of_start rfl
    [.call (.append .calling),.resume 0 healthy,.call (.begin true 7 .calling),
      .resume 1 healthy,.resume 1 healthy,.resume 1 healthy,.resume 1 healthy,
      .resume 1 healthy,.resume 1 healthy] rfl)
  have hre := hr.1
  exact absurd (hre 0 (by decide)) (by decide)

end Gateway

end Walleye.Admission
