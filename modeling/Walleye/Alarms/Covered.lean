import Walleye.Alarms.Coverage

namespace Walleye.Alarms

open Walleye.Base
open Walleye.Engine (u64Max saturatingAdd)

namespace AlarmRun

variable {parse : String → Option Schedule} {repeats : Repeat} {firstMs horizon id : Nat}
  {s s' : AlarmRun} {alarm : Alarm} {n : Nat}

/-- No firing is open: the alarm points at the first unsettled occurrence and is due no earlier than
one later than all that were fired for. -/
structure Idle (parse : String → Option Schedule) (repeats : Repeat) (firstMs horizon : Nat)
    (s : AlarmRun) (alarm : Alarm) (n : Nat) : Prop where
  attempt : alarm.attempt = 0
  covers : alarm.coversFromMs = none
  scheduled : later (repeats.nextWithin parse horizon) n firstMs = some alarm.scheduledMs
  due : ∃ m t, n ≤ m ∧ later (repeats.nextWithin parse horizon) m firstMs = some t ∧
    t ≤ alarm.atMs ∧ ∀ f ∈ s.fired, f.scheduledMs < t
  current : s.current = none
  tries : s.tries = 0

/-- A firing is open: the alarm awaits it, no earlier firing, and its occurrences start at the first
one that is not settled. -/
structure Flying (parse : String → Option Schedule) (repeats : Repeat) (firstMs horizon : Nat)
    (s : AlarmRun) (alarm : Alarm) (n : Nat) (earlier : List Firing) (firing : Firing) :
    Prop where
  fired : s.fired = earlier ++ [firing]
  current : s.current = some earlier.length
  awaits : alarm.awaits firing
  attempt : 0 < alarm.attempt
  covers : ∃ t, later (repeats.nextWithin parse horizon) n firstMs = some t ∧
    alarm.coversFromMs = some t
  scheduled : later (repeats.nextWithin parse horizon) (n + firing.missed) firstMs =
    some alarm.scheduledMs
  walkable : repeats.Walkable firing.missed
  due : alarm.scheduledMs ≤ alarm.atMs
  past : alarm.scheduledMs ≤ horizon
  outdated : ∀ f ∈ earlier, f.scheduledMs < alarm.scheduledMs ∨
    (f.scheduledMs = alarm.scheduledMs ∧ f.attempt < alarm.attempt)
  tries : s.tries = alarm.attempt
  bounded : s.unreported = false → alarm.attempt ≤ maxAttempts ∧
    (s.reported = true → alarm.attempt < maxAttempts)

structure Kept (parse : String → Option Schedule) (repeats : Repeat) (firstMs horizon id : Nat)
    (s : AlarmRun) (alarm : Alarm) (n : Nat) : Prop where
  present : s.alarm = some alarm
  schedule : alarm.repeats = some repeats
  identity : alarm.id = id
  covers : Covers (repeats.nextWithin parse horizon) firstMs 0 s.settled n
  fired : ∀ f ∈ s.fired, 0 < f.attempt
  stage : Idle parse repeats firstMs horizon s alarm n ∨
    ∃ earlier firing, Flying parse repeats firstMs horizon s alarm n earlier firing

theorem Kept.start (repeats : Repeat) (firstMs id : Nat) :
    Kept parse repeats firstMs horizon id (new (.repeating repeats firstMs id))
      (.repeating repeats firstMs id) 0 where
  present := rfl
  schedule := rfl
  identity := rfl
  covers := rfl
  fired := by simp [new]
  stage := .inl
    { attempt := rfl
      covers := rfl
      scheduled := rfl
      due := ⟨0,firstMs,Nat.le_refl _,rfl,Nat.le_refl _,by simp [new]⟩
      current := rfl
      tries := rfl }

theorem Idle.not_awaits (h : Idle parse repeats firstMs horizon s alarm n)
    (hf : 0 < firing.attempt) : ¬alarm.awaits firing := by
  rintro ⟨-,ha,-⟩
  have := h.attempt
  omega

section Begin

theorem retry_le (hn : nowMs ≤ u64Max) (attempt : Nat) :
    nowMs ≤ saturatingAdd nowMs (backoffMs attempt) := by
  unfold saturatingAdd
  omega

/-- The first attempt stands for the occurrences from the scheduled one to the latest. -/
theorem Idle.begin (h : Idle parse repeats firstMs horizon s alarm n)
    (hi : Increasing (repeats.nextWithin parse horizon))
    (hrep : alarm.repeats = some repeats) (hn : nowMs ≤ horizon) (hma : horizon ≤ u64Max)
    (hrea : repeats.Reaches parse alarm.scheduledMs nowMs)
    (hs : Alarms.begin parse alarm nowMs = some (next,firing)) :
    ∃ t, alarm.scheduledMs = t ∧ next.coversFromMs = some t ∧ next.attempt = 1 ∧
      next.awaits firing ∧
      later (repeats.nextWithin parse horizon) (n + firing.missed) firstMs =
        some next.scheduledMs ∧
      repeats.Walkable firing.missed ∧ next.scheduledMs ≤ next.atMs ∧ next.scheduledMs ≤ horizon ∧
      ∀ f ∈ s.fired, f.scheduledMs < next.scheduledMs := by
  obtain ⟨m,t,hm,ht,hd,hfi⟩ := h.due
  unfold Alarms.begin at hs
  split at hs
  · cases hs
  rename_i hread
  have hl : alarm.scheduledMs ≤ nowMs := by
    by_contra hlt
    have := later_mono hi ht h.scheduled (by omega)
    obtain rfl : m = n := by omega
    have : t = alarm.scheduledMs := Option.some.inj (ht.symm.trans h.scheduled)
    omega
  obtain ⟨latest,skipped,hc,hlat,he,hw,hla⟩ := Repeat.catchUp_spec hi hl hn hma
  have hst : alarm.standsFor parse nowMs = some (latest,some alarm.scheduledMs,skipped) := by
    simp [Alarm.standsFor,hrep,h.attempt,h.covers,hc]
  rw [hst] at hs
  cases hs
  have ho : later (repeats.nextWithin parse horizon) (n + skipped) firstMs = some latest := by
    rw [later_add,h.scheduled,Option.bind_some,hlat]
  have hret := retry_le (show nowMs ≤ u64Max by omega) ((alarm.attempt + 1) % 2 ^ 32)
  refine ⟨_,rfl,rfl,by simp [h.attempt],⟨rfl,rfl,rfl⟩,ho,hw,
    Nat.le_trans he hret,Nat.le_trans he hn,?_⟩
  intro f hf
  have hb := hfi f hf
  suffices hreac : t ≤ latest from Nat.lt_of_lt_of_le hb hreac
  by_contra hsh
  have hlt : n + skipped < m := by
    by_contra hg
    rcases Nat.eq_or_lt_of_le (Nat.le_of_not_lt hg) with heq | hgt
    · rw [heq,ho] at ht
      cases ht
      omega
    · have := later_lt hi ht ho hgt
      omega
  have hsp := later_add (repeats.nextWithin parse horizon) firstMs (n + skipped + 1)
    (m - (n + skipped + 1))
  rw [show n + skipped + 1 + (m - (n + skipped + 1)) = m by omega,ht] at hsp
  obtain ⟨mid,hmi,hr⟩ := Option.bind_eq_some_iff.mp hsp.symm
  rw [later,ho,Option.bind_some] at hmi
  have := hla hrea mid hmi
  have := later_le hi hr
  omega

/-- A retry stands for the same occurrences as the attempt before it. -/
theorem Flying.begin (h : Flying parse repeats firstMs horizon s alarm n earlier last)
    (hi : Increasing (repeats.nextWithin parse horizon)) (hmax : horizon ≤ u64Max)
    (hrep : alarm.repeats = some repeats) (hm : nowMs ≤ u64Max)
    (hs : Alarms.begin parse alarm nowMs = some (next,firing)) :
    next.coversFromMs = alarm.coversFromMs ∧ next.attempt = (alarm.attempt + 1) % 2 ^ 32 ∧
      next.awaits firing ∧ firing.missed = last.missed ∧
      next.scheduledMs = alarm.scheduledMs ∧ next.scheduledMs ≤ next.atMs := by
  obtain ⟨t,ht,hc⟩ := h.covers
  have hca : repeats.catchUp parse t alarm.scheduledMs =
      some (alarm.scheduledMs,last.missed) := by
    apply Repeat.catchUp_eq hi h.past hmax h.walkable
    have hsp := h.scheduled
    rwa [later_add,ht,Option.bind_some] at hsp
  have hst : alarm.standsFor parse nowMs = some (alarm.scheduledMs,some t,last.missed) := by
    have := h.attempt
    simp [Alarm.standsFor,hrep,hc,hca,Nat.ne_of_gt this]
  unfold Alarms.begin at hs
  split at hs
  · cases hs
  rename_i hr
  rw [hst] at hs
  cases hs
  have hret := retry_le hm ((alarm.attempt + 1) % 2 ^ 32)
  have hd := h.due
  have hw : alarm.scheduledMs ≤ nowMs := by omega
  exact ⟨hc.symm,rfl,⟨rfl,rfl,rfl⟩,rfl,rfl,Nat.le_trans hw hret⟩

theorem begin_repeats (hs : Alarms.begin parse alarm nowMs = some (next,firing)) :
    next.repeats = alarm.repeats ∧ next.id = alarm.id ∧
      firing.attempt = (alarm.attempt + 1) % 2 ^ 32 := by
  unfold Alarms.begin at hs
  split at hs
  · cases hs
  · obtain ⟨_,-,he⟩ := Option.map_eq_some_iff.mp hs
    cases he
    exact ⟨rfl,rfl,rfl⟩

/-- The next attempt is later than every firing so far, the open one included. -/
theorem Flying.outdated_fired (h : Flying parse repeats firstMs horizon s alarm n earlier last) :
    ∀ f ∈ s.fired, f.scheduledMs < alarm.scheduledMs ∨
      (f.scheduledMs = alarm.scheduledMs ∧ f.attempt < alarm.attempt + 1) := by
  intro f hf
  rw [h.fired] at hf
  cases List.mem_append.mp hf with
  | inl ho =>
    rcases h.outdated f ho with hl | ⟨he,hl⟩
    · exact .inl hl
    · exact .inr ⟨he,by omega⟩
  | inr hla =>
    rw [List.mem_singleton.mp hla]
    obtain ⟨-,ha,hs⟩ := h.awaits
    exact .inr ⟨hs.symm,by omega⟩

/-- A begin keeps the account of the occurrences. -/
theorem Kept.begin (h : Kept parse repeats firstMs horizon id s alarm n)
    (hinc : Increasing (repeats.nextWithin parse horizon))
    (ho : Unhurried parse horizon s (.begin nowMs)) (hm : horizon ≤ u64Max)
    (hs : s.begin parse nowMs = some s') :
    ∃ next, Kept parse repeats firstMs horizon id s' next n := by
  unfold AlarmRun.begin at hs
  rw [h.present,Option.bind_some] at hs
  obtain ⟨⟨next,firing⟩,hb,rfl⟩ := Option.map_eq_some_iff.mp hs
  have hn : nowMs ≤ horizon := ho.1
  obtain ⟨hat,hre⟩ := ho.2 alarm h.present
  obtain ⟨hrep,hi,ha⟩ := begin_repeats hb
  rw [Nat.mod_eq_of_lt hat] at ha
  refine ⟨next,rfl,hrep.trans h.schedule,hi.trans h.identity,h.covers,?_,.inr ?_⟩
  · intro f hf
    cases List.mem_append.mp hf with
    | inl hol => exact h.fired f hol
    | inr hne =>
      rw [List.mem_singleton.mp hne,ha]
      exact Nat.succ_pos _
  · refine ⟨s.fired,firing,?_⟩
    rcases h.stage with hidl | ⟨earlier,last,hfl⟩
    · have hr := hre hidl.attempt repeats h.schedule
      obtain ⟨t,ht,hc,hon,haw,hsc,hw,hd,hp,hl⟩ :=
        hidl.begin hinc h.schedule hn hm hr hb
      exact
        { fired := rfl
          current := rfl
          awaits := haw
          attempt := by omega
          covers := ⟨t,ht ▸ hidl.scheduled,hc⟩
          scheduled := hsc
          walkable := hw
          due := hd
          past := hp
          outdated := fun f hf => .inl (hl f hf)
          tries := by simp [hidl.tries,hon]
          bounded := fun _ => ⟨by rw [hon]; decide,fun hrepo => by cases hrepo⟩ }
    · obtain ⟨hc,hnex,haw,hmi,hsc,hd⟩ :=
        hfl.begin hinc hm h.schedule (by omega) hb
      rw [Nat.mod_eq_of_lt hat] at hnex
      exact
        { fired := rfl
          current := rfl
          awaits := haw
          attempt := by omega
          covers := hc ▸ hfl.covers
          scheduled := by rw [hmi,hsc]; exact hfl.scheduled
          walkable := hmi ▸ hfl.walkable
          due := hd
          past := hsc ▸ hfl.past
          outdated := by
            rw [hsc,hnex]
            exact hfl.outdated_fired
          tries := by simp [hfl.tries,hnex]
          bounded := by
            intro hrepo
            simp only [hfl.current,Option.isSome_some,Bool.true_and,Bool.or_eq_false_iff,
              Bool.not_eq_false'] at hrepo
            have := (hfl.bounded hrepo.1).2 hrepo.2
            exact ⟨by omega,fun hfa => by cases hfa⟩ }

end Begin

section Complete

theorem Flying.not_awaits (h : Flying parse repeats firstMs horizon s alarm n earlier firing)
    (hf : f ∈ earlier) : ¬alarm.awaits f := by
  rintro ⟨-,ha,hs⟩
  rcases h.outdated f hf with hl | ⟨-,hl⟩
  · omega
  · omega

theorem Flying.find (h : Flying parse repeats firstMs horizon s alarm n earlier firing)
     (hf : s.fired[index]? = some f) :
    (s.current = some index ∧ f = firing) ∨ (s.current ≠ some index ∧ f ∈ earlier) := by
  rw [h.fired] at hf
  rw [h.current]
  rcases Nat.lt_trichotomy index earlier.length with hl | he | hg
  · rw [List.getElem?_append_left hl] at hf
    refine .inr ⟨?_,List.mem_of_getElem? hf⟩
    intro he
    cases he
    exact Nat.lt_irrefl _ hl
  · subst he
    simp only [List.getElem?_concat_length,Option.some.injEq] at hf
    exact .inl ⟨rfl,hf.symm⟩
  · rw [List.getElem?_eq_none (by simp; omega)] at hf
    cases hf

theorem Flying.fired_le (h : Flying parse repeats firstMs horizon s alarm n earlier firing) :
    ∀ f ∈ s.fired, f.scheduledMs ≤ alarm.scheduledMs := by
  intro f hf
  rcases h.outdated_fired f hf with hl | ⟨he,-⟩
  · exact Nat.le_of_lt hl
  · exact Nat.le_of_eq he

theorem complete_of_not_awaits (h : ¬alarm.awaits firing) (ok : Bool) (nowMs : Nat) :
    Alarms.complete parse alarm firing ok nowMs = (alarm,.keep) := if_pos h

theorem complete_of_awaits (h : alarm.awaits firing) (hr : alarm.repeats = some repeats)
    (hn : repeats.nextAfter parse firing.scheduledMs = some next) (nowMs : Nat) :
    Alarms.complete parse alarm firing true nowMs = alarm.moveOn (some next) ∧
      (Alarms.complete parse alarm firing false nowMs = alarm.handOver nowMs (some next) ∨
        (alarm.attempt < maxAttempts ∧ alarm.atMs < next ∧
          Alarms.complete parse alarm firing false nowMs = (alarm,.keep))) := by
  have hb : (alarm.repeats.bind fun r => r.nextAfter parse firing.scheduledMs) = some next := by
    rw [hr,Option.bind_some,hn]
  unfold Alarms.complete
  simp only [not_true_eq_false,h,if_false,hb,if_true,Bool.false_eq_true]
  refine ⟨trivial,?_⟩
  by_cases hl : maxAttempts ≤ firing.attempt
  · exact .inl (if_pos hl)
  · rw [if_neg hl]
    by_cases hs : next ≤ alarm.atMs
    · exact .inl (if_pos hs)
    · rw [if_neg hs]
      have ha := h.2.1
      exact .inr ⟨by omega,by omega,rfl⟩

/-- Once the open firing is settled, the next occurrence is awaited. -/
theorem Flying.idle (h : Flying parse repeats firstMs horizon s alarm n earlier firing)
    (hi : Increasing (repeats.nextWithin parse horizon))
    (hn : repeats.nextWithin parse horizon alarm.scheduledMs = some next)
    (ha : after.attempt = 0)
    (hc : after.coversFromMs = none) (hm : m ≤ n + firing.missed + 1)
    (hs : later (repeats.nextWithin parse horizon) m firstMs = some t)
    (ht : after.scheduledMs = t) (hd : next ≤ after.atMs) (hfi : s'.fired = s.fired)
    (hcu : s'.current = none) (htr : s'.tries = 0) :
    Idle parse repeats firstMs horizon s' after m where
  attempt := ha
  covers := hc
  scheduled := ht ▸ hs
  due := by
    refine ⟨n + firing.missed + 1,next,hm,?_,hd,?_⟩
    · rw [later,h.scheduled,Option.bind_some,hn]
    · intro f hf
      have hl := h.fired_le f (hfi ▸ hf)
      have := hi _ _ hn
      omega
  current := hcu
  tries := htr

/-- A report, late or not, keeps the account of the occurrences. -/
theorem Kept.complete (h : Kept parse repeats firstMs horizon id s alarm n)
    (hnex : ∀ t ≤ horizon, ∃ t', repeats.nextAfter parse t = some t' ∧ t < t')
    (hs : s.complete parse index ok nowMs = some s') :
    ∃ after m, Kept parse repeats firstMs horizon id s' after m := by
  unfold AlarmRun.complete at hs
  rw [h.present,Option.bind_some] at hs
  obtain ⟨f,hf,rfl⟩ := Option.map_eq_some_iff.mp hs
  have hst : ¬alarm.awaits f → s.current ≠ some index →
      Kept parse repeats firstMs horizon id
        { s with alarm := some alarm, reported := s.reported || (s.current == some index && !ok) }
        alarm n := by
    intro _ hn
    have hsa : ({ s with
        alarm := some alarm
        reported := s.reported || (s.current == some index && !ok) } : AlarmRun) = s := by
      have hb : (s.current == some index) = false := beq_false_of_ne hn
      rw [hb,Bool.false_and,Bool.or_false,← h.present]
    rw [hsa]
    exact h
  rcases h.stage with hi | ⟨earlier,firing,hfl⟩
  · have hno := hi.not_awaits (h.fired f (List.mem_of_getElem? hf))
    have hn : s.current ≠ some index := by simp [hi.current]
    simp only [complete_of_not_awaits hno,if_neg hno]
    exact ⟨alarm,n,hst hno hn⟩
  · rcases hfl.find hf with ⟨hc,rfl⟩ | ⟨hn,he⟩
    · have hinc := Repeat.nextWithin_increasing hnex
      obtain ⟨t',hne,-⟩ := hnex _ hfl.past
      have ht' : repeats.nextWithin parse horizon alarm.scheduledMs = some t' := by
        rw [Repeat.nextWithin_of_le hfl.past,hne]
      have hsc : repeats.nextAfter parse f.scheduledMs = some t' := hfl.awaits.2.2 ▸ hne
      obtain ⟨hm,hfa⟩ := complete_of_awaits hfl.awaits h.schedule hsc nowMs
      obtain ⟨t,ht,hco⟩ := hfl.covers
      cases ok with
      | true =>
        simp only [hm,Alarm.moveOn,if_pos hfl.awaits,if_true]
        refine ⟨_,n + f.missed + 1,rfl,h.schedule,h.identity,?_,h.fired,.inl ?_⟩
        · exact h.covers.append (hfl.awaits.2.2 ▸ hfl.scheduled)
        · refine hfl.idle hinc ht' rfl rfl (Nat.le_refl _) ?_ rfl (Nat.le_refl _) rfl rfl rfl
          rw [later,hfl.scheduled,Option.bind_some,ht']
      | false =>
        rcases hfa with ho | ⟨hmor,-,hk⟩
        · simp only [ho,Alarm.handOver,hco,if_pos hfl.awaits,Bool.false_eq_true,
            if_false,if_true]
          refine ⟨_,n,rfl,h.schedule,h.identity,h.covers,h.fired,.inl ?_⟩
          exact hfl.idle hinc ht' rfl rfl (by omega) ht rfl (Nat.le_max_left _ _) rfl rfl rfl
        · have hop : alarm.attempt ≠ 0 := Nat.ne_of_gt hfl.attempt
          simp only [hk,if_pos hfl.awaits,Bool.false_eq_true,if_false,if_neg hop]
          refine ⟨alarm,n,rfl,h.schedule,h.identity,h.covers,h.fired,.inr ⟨earlier,f,?_⟩⟩
          exact { hfl with bounded := fun ha => ⟨(hfl.bounded ha).1,fun _ => hmor⟩ }
    · have hno := hfl.not_awaits he
      simp only [complete_of_not_awaits hno,if_neg hno]
      exact ⟨alarm,n,hst hno hn⟩

end Complete

theorem Kept.step (h : Kept parse repeats firstMs horizon id s alarm n)
    (hn : ∀ t ≤ horizon, ∃ t', repeats.nextAfter parse t = some t' ∧ t < t')
    (hm : horizon ≤ u64Max)
    (ho : Unhurried parse horizon s a) (hs : s.step parse a = some s') :
    ∃ after m, Kept parse repeats firstMs horizon id s' after m := by
  cases a with
  | begin nowMs =>
    obtain ⟨after,hk⟩ := h.begin (Repeat.nextWithin_increasing hn) ho hm hs
    exact ⟨after,n,hk⟩
  | complete index ok nowMs => exact h.complete hn hs

/-- The account says that the settled firings partition the occurrences. -/
theorem Kept.covered (h : Kept parse repeats firstMs horizon id s alarm n)
    (hi : Increasing (repeats.nextWithin parse horizon)) :
    s.Covered parse repeats firstMs horizon where
  partition := h.covers.partition hi
  stale := by
    intro alarm' hala index f hf hn ok nowMs
    cases h.present.symm.trans hala
    apply complete_of_not_awaits
    rcases h.stage with hi | ⟨earlier,firing,hfl⟩
    · exact hi.not_awaits (h.fired f (List.mem_of_getElem? hf))
    · rcases hfl.find hf with ⟨hc,-⟩ | ⟨-,he⟩
      · exact absurd hc hn
      · exact hfl.not_awaits he
  due := by
    intro alarm' hala index f hf hc nowMs next hnex
    cases h.present.symm.trans hala
    rcases h.stage with hi | ⟨earlier,firing,hfl⟩
    · rw [hi.current] at hc
      cases hc
    · rcases hfl.find hf with ⟨-,rfl⟩ | ⟨hn,-⟩
      · obtain ⟨-,hfa⟩ := complete_of_awaits hfl.awaits h.schedule hnex nowMs
        rcases hfa with ho | ⟨-,hs,hk⟩
        · rw [ho]
          refine ⟨?_,rfl⟩
          simp only [Alarm.handOver]
          omega
        · rw [hk]
          exact ⟨Nat.le_trans (Nat.le_of_lt hs) (Nat.le_max_right _ _),rfl⟩
      · exact absurd hc hn
  bounded := by
    intro ha
    rcases h.stage with hi | ⟨earlier,firing,hfl⟩
    · rw [hi.tries]
      exact Nat.zero_le _
    · rw [hfl.tries]
      exact (hfl.bounded ha).1

/-- As long as every occurrence has a later one, no catch-up is cut off and no count of attempts
wraps, settled firings split up the occurrences of the schedule, late reports change nothing, and
failures are tried again in time and not too often. -/
theorem alarms_cover_their_schedule
    (hnext : ∀ t ≤ horizon, ∃ t', repeats.nextAfter parse t = some t' ∧ t < t')
    (hmax : horizon ≤ u64Max)
    (h : Reachable (· = new (.repeating repeats firstMs id)) (step parse)
      (Unhurried parse horizon) s) : s.Covered parse repeats firstMs horizon := by
  have hk : ∃ alarm n, Kept parse repeats firstMs horizon id s alarm n := by
    refine h.invariant (P := fun s => ∃ alarm n,
      Kept parse repeats firstMs horizon id s alarm n) ?_ ?_
    · rintro _ rfl
      exact ⟨_,0,.start repeats firstMs id⟩
    · rintro s a s' ⟨alarm,n,hs⟩ ho hst
      exact hs.step hnext hmax ho hst
  obtain ⟨alarm,n,hs⟩ := hk
  exact hs.covered (Repeat.nextWithin_increasing hnext)

/-- An interval of ten seconds misses three occurrences, fails once and settles them with the one
that is due. -/
theorem interval_settles_missed_occurrences :
    ∃ s, Reachable (· = new (.repeating (.every 10) 100000 1)) (step fun _ => none)
        (Unhurried (fun _ => none) 1000000) s ∧
      s.settled = [⟨1, 130000, 2, 3⟩] ∧ s.Covered (fun _ => none) (.every 10) 100000 1000000 := by
  have hst : Reachable (· = new (.repeating (.every 10) 100000 1)) (step fun _ => none)
    (Unhurried (fun _ => none) 1000000) _ := .start rfl
  have hrun : (runs (step fun _ => none) (Unhurried (fun _ => none) 1000000)
      (new (.repeating (.every 10) 100000 1)) [.begin 135000,.complete 0 false 136000,
        .begin 137000,.complete 0 false 138000,.complete 1 true 139000]).map (·.settled) =
      some [⟨1,130000,2,3⟩] := by
    decide +kernel
  obtain ⟨s,hs,hse⟩ := Option.map_eq_some_iff.mp hrun
  have hr := hst.of_runs _ hs
  refine ⟨s,hr,hse,alarms_cover_their_schedule ?_ (by decide) hr⟩
  intro t ht
  have hl : t + everyMs 10 ≤ u64Max := Nat.le_trans (Nat.add_le_add_right ht _) (by decide)
  exact ⟨t + everyMs 10,by rw [Repeat.nextAfter,if_pos hl],Nat.lt_add_of_pos_right (by decide)⟩

theorem begin_eq (ha : s.alarm = some alarm)
    (h : Alarms.begin parse alarm nowMs = some (next,firing)) :
    s.step parse (.begin nowMs) = some { s with
      alarm := some next
      fired := s.fired ++ [firing]
      current := some s.fired.length
      reported := false
      tries := s.tries + 1
      unreported := s.unreported || (s.current.isSome && !s.reported) } := by
  rw [step,AlarmRun.begin,ha,Option.bind_some,h]
  rfl

theorem complete_eq_handOn
    (ha : s.alarm = some alarm) (hf : s.fired[index]? = some firing) (haw : alarm.awaits firing)
    (h : Alarms.complete parse alarm firing false nowMs = (next,.keep)) (hat : next.attempt = 0) :
    s.step parse (.complete index false nowMs) = some ({ s with alarm := some next }).handOn := by
  rw [step,AlarmRun.complete,ha,Option.bind_some,hf,Option.map_some,h]
  simp [haw,hat,handOn]

section CutOff

def minutely : String → Option Schedule := fun _ => some .everyMinute

theorem minutely_nextAfter (h : 60000 * (k + 1) < 2 ^ 64) :
    Repeat.nextAfter minutely (.cron "* * * * *") (60000 * k) = some (60000 * (k + 1)) := by
  have hs : 60000 * k / 1000 = 60 * k := by omega
  have hm : ((60 * k : Nat) : Int).tdiv 60 = k := by
    rw [Int.tdiv_eq_ediv_of_nonneg (Int.natCast_nonneg _)]
    omega
  have ht : (max (((k : Int) + 1) * 60) 0).toNat * 1000 = 60000 * (k + 1) := by omega
  simp only [Repeat.nextAfter,minutely,Option.bind_some,hs,
    Schedule.everyMinute_nextAfter,hm,Option.map_some,ht,Nat.mod_eq_of_lt h]

theorem minutely_walk (steps start skipped : Nat) (h : 60000 * (start + steps) ≤ nowMs)
    (hm : nowMs ≤ u64Max) :
    walk (Repeat.nextAfter minutely (.cron "* * * * *")) nowMs steps (60000 * start) skipped =
      (60000 * (start + steps),skipped + steps) := by
  induction steps generalizing start skipped with
  | zero => rfl
  | succ steps ih =>
    have hn := minutely_nextAfter (show 60000 * (start + 1) < 2 ^ 64 by
      have hu : u64Max < 2 ^ 64 := by decide
      omega)
    unfold walk
    simp only [hn,if_pos (show 60000 * (start + 1) ≤ nowMs by omega)]
    rw [ih (start + 1) (skipped + 1) (by omega),Nat.add_right_comm start,
      Nat.add_right_comm skipped]
    rfl

theorem minutely_catchUp (h : 60000 * maxWalk ≤ nowMs) (hm : nowMs ≤ u64Max) :
    Repeat.catchUp minutely (.cron "* * * * *") 0 nowMs = some (60000 * maxWalk,maxWalk) := by
  have hp : 0 < maxWalk := by decide
  have hc : Repeat.catchUp minutely (.cron "* * * * *") 0 nowMs =
      some (walk (Repeat.nextAfter minutely (.cron "* * * * *")) nowMs maxWalk 0 0) :=
    if_neg (by omega)
  have hw := minutely_walk maxWalk 0 0 (by omega : 60000 * (0 + maxWalk) ≤ nowMs) hm
  rw [Nat.mul_zero,Nat.zero_add] at hw
  rw [hc,hw]

variable {lateMs walked : Nat}

def unsettledAlarm (atMs : Nat) : Alarm := ⟨atMs, 0, 0, 1, some (.cron "* * * * *"), none⟩

def lateAlarm (walked lateMs : Nat) : Alarm :=
  ⟨lateMs + 2000, 60000 * walked, 1, 1, some (.cron "* * * * *"), some 0⟩

def lateFiring (walked : Nat) : Firing := ⟨1, 60000 * walked, 1, walked⟩

theorem unsettledAlarm_begin (hwal : maxWalk = walked)
    (hl : 60000 * (walked + 1) = lateMs) (hm : lateMs + 2000 ≤ u64Max) (h : atMs ≤ lateMs) :
    Alarms.begin minutely (unsettledAlarm atMs) lateMs =
      some (lateAlarm walked lateMs,lateFiring walked) := by
  have hw : 60000 * maxWalk ≤ lateMs := by omega
  have hc := minutely_catchUp hw (by omega)
  rw [hwal] at hc
  have hs : (unsettledAlarm atMs).standsFor minutely lateMs =
      some (60000 * walked,some 0,walked) := by
    simp [Alarm.standsFor,unsettledAlarm,hc]
  have hr : saturatingAdd lateMs (backoffMs 1) = lateMs + 2000 := Nat.min_eq_left hm
  have hrea : ¬lateMs < (unsettledAlarm atMs).atMs := Nat.not_lt.mpr h
  rw [Alarms.begin,if_neg hrea,hs]
  simp [unsettledAlarm,lateAlarm,lateFiring,hr]

theorem lateAlarm_failed (hl : 60000 * (walked + 1) = lateMs) (hm : lateMs + 2000 ≤ u64Max) :
    Alarms.complete minutely (lateAlarm walked lateMs) (lateFiring walked) false lateMs =
      (unsettledAlarm lateMs,.keep) := by
  have hu : u64Max < 2 ^ 64 := by decide
  have hn := minutely_nextAfter (show 60000 * (walked + 1) < 2 ^ 64 by omega)
  rw [hl] at hn
  have ha : (lateAlarm walked lateMs).awaits (lateFiring walked) := ⟨rfl,rfl,rfl⟩
  obtain ⟨-,hf⟩ := complete_of_awaits ha rfl hn lateMs
  rcases hf with ho | ⟨-,hs,-⟩
  · rw [ho]
    simp [Alarm.handOver,lateAlarm,unsettledAlarm]
  · simp only [lateAlarm] at hs
    omega

/-- A failed firing is handed on and begun again. Its report, when it comes a second time, hands on
the firing begun after it. -/
theorem duplicate_report_hands_on_later_firing :
    ¬∀ s, Reachable (· = new (.repeating (.cron "* * * * *") 0 1)) (step minutely)
        (fun _ a => a.nowMs ≤ 60000 * (maxWalk + 1)) s →
      s.Covered minutely (.cron "* * * * *") 0 (60000 * (maxWalk + 1)) := by
  have hm : 60000 * (maxWalk + 1) + 2000 ≤ u64Max := by decide
  generalize hw : maxWalk = walked at hm ⊢
  generalize hl : 60000 * (walked + 1) = lateMs at hm ⊢
  intro ha
  have hs : Reachable (· = new (.repeating (.cron "* * * * *") 0 1)) (step minutely)
    (fun _ a => a.nowMs ≤ lateMs) (new (unsettledAlarm 0)) := .start rfl
  have hb : step minutely (new (unsettledAlarm 0)) (.begin lateMs) =
      some ⟨some (lateAlarm walked lateMs),[lateFiring walked],some 0,false,1,false,[]⟩ :=
    begin_eq rfl (unsettledAlarm_begin hw hl hm (Nat.zero_le _))
  have hf : step minutely
      ⟨some (lateAlarm walked lateMs),[lateFiring walked],some 0,false,1,false,[]⟩
      (.complete 0 false lateMs) =
      some ⟨some (unsettledAlarm lateMs),[lateFiring walked],none,false,0,false,[]⟩ :=
    complete_eq_handOn rfl rfl ⟨rfl,rfl,rfl⟩ (lateAlarm_failed hl hm) rfl
  have hag : step minutely
      ⟨some (unsettledAlarm lateMs),[lateFiring walked],none,false,0,false,[]⟩
      (.begin lateMs) =
      some ⟨some (lateAlarm walked lateMs),[lateFiring walked,lateFiring walked],some 1,false,
        1,false,[]⟩ :=
    begin_eq rfl (unsettledAlarm_begin hw hl hm (Nat.le_refl _))
  have hr := ((hs.next (Nat.le_refl _) hb).next (Nat.le_refl _) hf).next
    (Nat.le_refl _) hag
  have hlat : (some 1 : Option Nat) ≠ some 0 := by decide
  have hsta := (ha _ hr).stale _ rfl 0 _ rfl hlat false lateMs
  rw [lateAlarm_failed hl hm] at hsta
  cases congrArg (·.1.attempt) hsta

end CutOff

section NoPeriod

/-- The milliseconds of 2^61 seconds wrap to zero: the next occurrence is the settled one, which is
settled once more. -/
theorem interval_without_period_settles_again :
    ∃ s, Reachable (· = new (.repeating (.every (2 ^ 61)) 0 1)) (step fun _ => none)
        (Unhurried (fun _ => none) 0) s ∧
      ¬Partition (Repeat.nextWithin (fun _ => none) 0 (.every (2 ^ 61))) 0 s.settled := by
  have hst : Reachable (· = new (.repeating (.every (2 ^ 61)) 0 1)) (step fun _ => none)
    (Unhurried (fun _ => none) 0) _ := .start rfl
  have hrun : (runs (step fun _ => none) (Unhurried (fun _ => none) 0)
      (new (.repeating (.every (2 ^ 61)) 0 1)) [.begin 0,.complete 0 true 0,.begin 0,
        .complete 1 true 0]).map (·.settled) = some [⟨1,0,1,0⟩,⟨1,0,1,0⟩] := by
    decide +kernel
  obtain ⟨s,hs,hse⟩ := Option.map_eq_some_iff.mp hrun
  refine ⟨s,hst.of_runs _ hs,?_⟩
  rw [hse]
  intro hp
  have hf : Firing.StandsFor (Repeat.nextWithin (fun _ => none) 0 (.every (2 ^ 61))) 0
      ⟨1,0,1,0⟩ 0 := ⟨0,rfl,Nat.le_refl _,Nat.le_refl _⟩
  obtain ⟨i,-,hu⟩ := hp.once 0 ⟨_,List.mem_cons_self,0,rfl,Nat.le_refl _⟩
  have := hu 0 ⟨_,rfl,hf⟩
  have := hu 1 ⟨_,rfl,hf⟩
  omega

end NoPeriod

/-- Neither part survives: a report that comes twice hands on another firing, and an interval
without a period settles one occurrence twice. -/
theorem alarm_schedule_not_covered :
    (¬∀ s, Reachable (· = new (.repeating (.cron "* * * * *") 0 1)) (step minutely)
        (fun _ a => a.nowMs ≤ 60000 * (maxWalk + 1)) s →
      s.Covered minutely (.cron "* * * * *") 0 (60000 * (maxWalk + 1))) ∧
    ∃ s, Reachable (· = new (.repeating (.every (2 ^ 61)) 0 1)) (step fun _ => none)
        (Unhurried (fun _ => none) 0) s ∧
      ¬Partition (Repeat.nextWithin (fun _ => none) 0 (.every (2 ^ 61))) 0 s.settled :=
  ⟨duplicate_report_hands_on_later_firing,interval_without_period_settles_again⟩

end AlarmRun

end Walleye.Alarms
