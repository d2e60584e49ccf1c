import Walleye.Alarms.Alarm
import Walleye.Base.Occurrences

namespace Walleye.Alarms

open Walleye.Base
open Walleye.Engine (u64Max)

section Walk

variable {next : Nat → Option Nat}

/-- The walk stops at the last occurrence up to now, unless its steps run out first. -/
theorem walk_spec (next : Nat → Option Nat) (hl : instant ≤ nowMs) (steps skipped : Nat) :
    ∃ k, (walk next nowMs steps instant skipped).2 = skipped + k ∧ k ≤ steps ∧
      later next k instant = some (walk next nowMs steps instant skipped).1 ∧
      (walk next nowMs steps instant skipped).1 ≤ nowMs ∧
      (k < steps → ∀ t, next (walk next nowMs steps instant skipped).1 = some t → nowMs < t) := by
  induction steps generalizing instant skipped with
  | zero => exact ⟨0,rfl,Nat.le_refl _,rfl,hl,fun h => absurd h (Nat.not_lt_zero _)⟩
  | succ steps ih =>
    unfold walk
    cases hn : next instant with
    | none =>
      refine ⟨0,rfl,Nat.zero_le _,rfl,hl,?_⟩
      intro _ t ht
      rw [hn] at ht
      cases ht
    | some t =>
      by_cases hd : t ≤ nowMs
      · simp only [if_pos hd]
        obtain ⟨k,hk,hste,hla,hno,hs⟩ := ih hd (skipped + 1)
        refine ⟨k + 1,by omega,by omega,?_,hno,?_⟩
        · rw [later_succ_left,hn,Option.bind_some]
          exact hla
        · intro hlt
          exact hs (by omega)
      · simp only [if_neg hd]
        refine ⟨0,rfl,Nat.zero_le _,rfl,hl,?_⟩
        intro _ t' ht'
        rw [hn] at ht'
        cases ht'
        omega

theorem walk_eq (hn : Increasing next) (hk : k ≤ steps)
    (h : later next k instant = some other) (skipped : Nat) :
    walk next other steps instant skipped = (other,skipped + k) := by
  induction steps generalizing instant skipped k with
  | zero =>
    obtain rfl : k = 0 := by omega
    cases h
    rfl
  | succ steps ih =>
    cases k with
    | zero =>
      cases h
      unfold walk
      cases ht : next other with
      | none => rfl
      | some t =>
        have := hn _ _ ht
        simp only [if_neg (show ¬t ≤ other by omega),Nat.add_zero]
    | succ k =>
      rw [later_succ_left] at h
      obtain ⟨t,ht,hr⟩ := Option.bind_eq_some_iff.mp h
      have hl := later_le hn hr
      unfold walk
      simp only [ht,if_pos (show t ≤ other by omega)]
      rw [ih (by omega) hr]
      congr 1
      omega

theorem walk_congr {next' : Nat → Option Nat} (h : ∀ t ≤ nowMs, next t = next' t)
    (hl : instant ≤ nowMs) (steps skipped : Nat) :
    walk next nowMs steps instant skipped = walk next' nowMs steps instant skipped := by
  induction steps generalizing instant skipped with
  | zero => rfl
  | succ steps ih =>
    unfold walk
    rw [← h instant hl]
    cases next instant with
    | none => rfl
    | some t =>
      by_cases hd : t ≤ nowMs
      · simp only [if_pos hd]
        exact ih hd (skipped + 1)
      · simp only [if_neg hd]

end Walk

section Schedules

variable {parse : String → Option Schedule} {repeats : Repeat}

def Repeat.nextWithin (parse : String → Option Schedule) (horizon : Nat) (repeats : Repeat)
    (instant : Nat) : Option Nat :=
  if instant ≤ horizon then repeats.nextAfter parse instant else none

theorem Repeat.nextWithin_of_le (h : t ≤ horizon) :
    repeats.nextWithin parse horizon t = repeats.nextAfter parse t := if_pos h

theorem Repeat.nextAfter_within (parse : String → Option Schedule) (repeats : Repeat)
    (h : nowMs ≤ horizon) :
    ∀ t ≤ nowMs, repeats.nextAfter parse t = repeats.nextWithin parse horizon t :=
  fun _ ht => (Repeat.nextWithin_of_le (Nat.le_trans ht h)).symm

theorem Repeat.nextWithin_increasing
    (h : ∀ t ≤ horizon, ∃ t', repeats.nextAfter parse t = some t' ∧ t < t') :
    Increasing (repeats.nextWithin parse horizon) := by
  intro t t' ht
  unfold Repeat.nextWithin at ht
  split at ht
  · rename_i hl
    obtain ⟨t'',hn,hlt⟩ := h t hl
    rw [hn] at ht
    cases ht
    exact hlt
  · cases ht

/-- An interval whose occurrences increase has a period. -/
theorem everyMs_pos (hi : Increasing (Repeat.nextWithin parse horizon (.every seconds)))
    (ht : t ≤ horizon) (hm : horizon ≤ u64Max) : 0 < everyMs seconds := by
  by_contra hz
  have hn : Repeat.nextWithin parse horizon (.every seconds) t = some t := by
    rw [Repeat.nextWithin_of_le ht,Repeat.nextAfter,if_pos (by omega)]
    congr 1
    omega
  exact Nat.lt_irrefl _ (hi _ _ hn)

theorem later_every (h : later (Repeat.nextWithin parse horizon (.every seconds)) k t = some t') :
    t' = t + k * everyMs seconds := by
  induction k generalizing t' with
  | zero =>
    cases h
    simp
  | succ k ih =>
    obtain ⟨mid,hm,hl⟩ := Option.bind_eq_some_iff.mp h
    have hm := ih hm
    simp only [Repeat.nextWithin,Repeat.nextAfter] at hl
    split at hl
    · split at hl
      · cases hl
        rw [hm,Nat.succ_mul]
        omega
      · cases hl
    · cases hl

theorem later_every_of_le (hm : horizon ≤ u64Max) (h : t + k * everyMs seconds ≤ horizon) :
    later (Repeat.nextWithin parse horizon (.every seconds)) k t =
      some (t + k * everyMs seconds) := by
  induction k with
  | zero => simp [later]
  | succ k ih =>
    rw [Nat.succ_mul] at h
    rw [later,ih (by omega),Option.bind_some,Repeat.nextWithin_of_le (by omega),Repeat.nextAfter,
      if_pos (by omega),Nat.succ_mul,Nat.add_assoc]

def Repeat.Reaches (parse : String → Option Schedule) (repeats : Repeat) (fromMs nowMs : Nat) :
    Prop :=
  match repeats with
  | .every _ => True
  | .cron _ => ∀ caught ∈ repeats.catchUp parse fromMs nowMs, caught.2 < maxWalk

instance (fromMs nowMs : Nat) : Decidable (repeats.Reaches parse fromMs nowMs) := by
  unfold Repeat.Reaches
  split
  · exact instDecidableTrue
  · infer_instance

def Repeat.Walkable (repeats : Repeat) (steps : Nat) : Prop :=
  match repeats with
  | .every _ => True
  | .cron _ => steps ≤ maxWalk

/-- A catch-up passes over consecutive occurrences, and stops at the last one before now unless it
is cut off. -/
theorem Repeat.catchUp_spec (hi : Increasing (repeats.nextWithin parse horizon))
    (hl : fromMs ≤ nowMs) (hn : nowMs ≤ horizon) (hm : horizon ≤ u64Max) :
    ∃ latest skipped, repeats.catchUp parse fromMs nowMs = some (latest,skipped) ∧
      later (repeats.nextWithin parse horizon) skipped fromMs = some latest ∧ latest ≤ nowMs ∧
      repeats.Walkable skipped ∧
      (repeats.Reaches parse fromMs nowMs → ∀ t,
        repeats.nextWithin parse horizon latest = some t → nowMs < t) := by
  by_cases he : nowMs ≤ fromMs
  · have hc : repeats.catchUp parse fromMs nowMs = some (fromMs,0) := if_pos he
    refine ⟨fromMs,0,hc,rfl,hl,?_,?_⟩
    · cases repeats <;> simp [Repeat.Walkable]
    · intro _ t ht
      have := hi _ _ ht
      omega
  · cases repeats with
    | every seconds =>
      have hp := everyMs_pos hi hn hm
      have hc : Repeat.catchUp parse (.every seconds) fromMs nowMs =
          some (fromMs + (nowMs - fromMs) / everyMs seconds * everyMs seconds,
            (nowMs - fromMs) / everyMs seconds) := by
        simp only [Repeat.catchUp,if_neg he,if_neg (Nat.ne_of_gt hp)]
      have hd := Nat.div_mul_le_self (nowMs - fromMs) (everyMs seconds)
      refine ⟨_,_,hc,later_every_of_le hm (by omega),by omega,trivial,?_⟩
      intro _ t ht
      rw [Repeat.nextWithin_of_le (by omega),Repeat.nextAfter] at ht
      split at ht
      · cases ht
        have := Nat.lt_div_mul_add (a := nowMs - fromMs) hp
        omega
      · cases ht
    | cron expression =>
      have hw := walk_congr (nextAfter_within parse (.cron expression) hn) hl maxWalk 0
      have hc : Repeat.catchUp parse (.cron expression) fromMs nowMs =
          some (walk (Repeat.nextWithin parse horizon (.cron expression)) nowMs maxWalk fromMs
            0) := by
        rw [← hw]
        exact if_neg he
      obtain ⟨k,hk,hste,hla,hen,hs⟩ :=
        walk_spec (Repeat.nextWithin parse horizon (.cron expression)) hl maxWalk 0
      rw [Nat.zero_add] at hk
      refine ⟨_,k,hk ▸ hc,hla,hen,hste,?_⟩
      intro hr
      exact hs (hk ▸ hr _ hc)

theorem Repeat.catchUp_eq (hi : Increasing (repeats.nextWithin parse horizon)) (ht : t ≤ horizon)
    (hm : horizon ≤ u64Max) (hk : repeats.Walkable k)
    (h : later (repeats.nextWithin parse horizon) k fromMs = some t) :
    repeats.catchUp parse fromMs t = some (t,k) := by
  have hl := later_le hi h
  unfold Repeat.catchUp
  split
  · obtain rfl : k = 0 := by omega
    cases h
    rfl
  · cases repeats with
    | every seconds =>
      have hp := everyMs_pos hi ht hm
      have ht := later_every h
      have hd : (t - fromMs) / everyMs seconds = k := by
        rw [ht,Nat.add_sub_cancel_left,Nat.mul_div_cancel _ hp]
      simp only [hd,← ht,if_neg (Nat.ne_of_gt hp)]
    | cron expression =>
      have hw := walk_congr (nextAfter_within parse (.cron expression) ht)
        (show fromMs ≤ t by omega) maxWalk 0
      have he := walk_eq hi hk h 0
      rw [Nat.zero_add] at he
      simp only [hw,he]

end Schedules

section Partition

variable (next : Nat → Option Nat) (firstMs : Nat)

/-- The `missed + 1` occurrences that end at the firing's scheduled time. -/
def Firing.StandsFor (firing : Firing) (k : Nat) : Prop :=
  ∃ last, later next last firstMs = some firing.scheduledMs ∧ k ≤ last ∧ last ≤ k + firing.missed

structure Partition (settled : List Firing) : Prop where
  whole : ∀ firing ∈ settled, ∃ last,
    later next last firstMs = some firing.scheduledMs ∧ firing.missed ≤ last
  once : ∀ k, (∃ firing ∈ settled, ∃ last,
      later next last firstMs = some firing.scheduledMs ∧ k ≤ last) →
    ∃! i : Nat, ∃ firing : Firing, settled[i]? = some firing ∧ firing.StandsFor next firstMs k

/-- Firings that stand for the occurrences from `start` up to `stop`, one after another. -/
def Covers : Nat → List Firing → Nat → Prop
  | start, [], stop => start = stop
  | start, firing :: rest, stop =>
    later next (start + firing.missed) firstMs = some firing.scheduledMs ∧
      Covers (start + firing.missed + 1) rest stop

variable {next firstMs} {firing : Firing}

theorem Covers.append (h : Covers next firstMs start firings stop)
    (hl : later next (stop + firing.missed) firstMs = some firing.scheduledMs) :
    Covers next firstMs start (firings ++ [firing]) (stop + firing.missed + 1) := by
  induction firings generalizing start with
  | nil =>
    cases h
    exact ⟨hl,rfl⟩
  | cons f rest ih => exact ⟨h.1,ih h.2⟩

theorem Covers.le (h : Covers next firstMs start firings stop) : start ≤ stop := by
  induction firings generalizing start with
  | nil => exact Nat.le_of_eq h
  | cons f rest ih =>
    have := ih h.2
    omega

theorem Covers.standsFor_iff (hn : Increasing next)
    (h : later next (start + firing.missed) firstMs = some firing.scheduledMs) :
    firing.StandsFor next firstMs k ↔ start ≤ k ∧ k ≤ start + firing.missed := by
  constructor
  · rintro ⟨last,hl,hle,hg⟩
    have := later_inj hn hl h
    omega
  · rintro ⟨hle,hg⟩
    exact ⟨start + firing.missed,h,hg,by omega⟩

theorem Covers.bounds (hn : Increasing next) (h : Covers next firstMs start firings stop)
    (hm : firing ∈ firings) (hk : firing.StandsFor next firstMs k) : start ≤ k ∧ k < stop := by
  induction firings generalizing start with
  | nil => cases hm
  | cons f rest ih =>
    have hs := h.2.le
    cases List.mem_cons.mp hm with
    | inl he =>
      subst he
      have := (Covers.standsFor_iff hn h.1).mp hk
      omega
    | inr hr =>
      have := ih h.2 hr
      omega

theorem Covers.exists_standsFor (hn : Increasing next)
    (h : Covers next firstMs start firings stop) (hl : start ≤ k) (hlt : k < stop) :
    ∃ (i : Nat) (firing : Firing), firings[i]? = some firing ∧ firing.StandsFor next firstMs k := by
  induction firings generalizing start with
  | nil =>
    cases h
    omega
  | cons f rest ih =>
    by_cases hh : k ≤ start + f.missed
    · exact ⟨0,f,rfl,(Covers.standsFor_iff hn h.1).mpr ⟨hl,hh⟩⟩
    · obtain ⟨i,firing,hf,hs⟩ := ih h.2 (by omega)
      exact ⟨i + 1,firing,hf,hs⟩

/-- No occurrence is settled by two firings. -/
theorem Covers.unique (hn : Increasing next) (h : Covers next firstMs start firings stop)
    {i j : Nat} (hi : firings[i]? = some f) (hj : firings[j]? = some g)
    (hf : f.StandsFor next firstMs k) (hg : g.StandsFor next firstMs k) : i = j := by
  induction firings generalizing start i j with
  | nil => cases hi
  | cons head rest ih =>
    have hh := Covers.standsFor_iff (k := k) hn h.1
    cases i with
    | zero =>
      cases hi
      cases j with
      | zero => rfl
      | succ j =>
        have := h.2.bounds hn (List.mem_of_getElem? hj) hg
        have := hh.mp hf
        omega
    | succ i =>
      cases j with
      | zero =>
        cases hj
        have := h.2.bounds hn (List.mem_of_getElem? hi) hf
        have := hh.mp hg
        omega
      | succ j => exact congrArg (· + 1) (ih h.2 hi hj)

theorem Covers.last (h : Covers next firstMs start firings stop) (hm : firing ∈ firings) :
    ∃ last, later next last firstMs = some firing.scheduledMs ∧ firing.missed ≤ last ∧
      last < stop := by
  induction firings generalizing start with
  | nil => cases hm
  | cons f rest ih =>
    cases List.mem_cons.mp hm with
    | inl he =>
      subst he
      have := h.2.le
      exact ⟨_,h.1,by omega,by omega⟩
    | inr hr => exact ih h.2 hr

theorem Covers.partition (hn : Increasing next) (h : Covers next firstMs 0 firings stop) :
    Partition next firstMs firings := by
  refine ⟨?_,?_⟩
  · intro f hf
    obtain ⟨last,hl,hm,-⟩ := h.last hf
    exact ⟨last,hl,hm⟩
  · rintro k ⟨f,hf,last,hl,hle⟩
    obtain ⟨last',hl',-,hlt⟩ := h.last hf
    obtain rfl := later_inj hn hl hl'
    obtain ⟨i,g,hg,hs⟩ := h.exists_standsFor hn (Nat.zero_le k) (by omega)
    refine ⟨i,⟨g,hg,hs⟩,?_⟩
    rintro j ⟨g',hg',hs'⟩
    exact h.unique hn hg' hg hs' hs

end Partition

section Runs

structure AlarmRun where
  alarm : Option Alarm
  fired : List Firing
  current : Option Nat
  /-- The failure of the last firing was reported. -/
  reported : Bool
  /-- The firings begun since an occurrence was last done or handed on. -/
  tries : Nat
  /-- One of them was followed by another before it reported. -/
  unreported : Bool
  settled : List Firing
deriving DecidableEq, Repr

/-- A firing begins, or one that was begun at some time reports. A crash is a firing that never
reports. -/
inductive AlarmStep where
  | begin (nowMs : Nat)
  | complete (index : Nat) (ok : Bool) (nowMs : Nat)
deriving DecidableEq, Repr

def AlarmStep.nowMs : AlarmStep → Nat
  | .begin nowMs => nowMs
  | .complete _ _ nowMs => nowMs

namespace AlarmRun

def new (alarm : Alarm) : AlarmRun := ⟨some alarm, [], none, false, 0, false, []⟩

def handOn (s : AlarmRun) : AlarmRun :=
  { s with current := none, reported := false, tries := 0, unreported := false }

variable (parse : String → Option Schedule)

def begin (s : AlarmRun) (nowMs : Nat) : Option AlarmRun :=
  s.alarm.bind fun alarm => (Alarms.begin parse alarm nowMs).map fun (next, firing) =>
    { s with
      alarm := some next
      fired := s.fired ++ [firing]
      current := some s.fired.length
      reported := false
      tries := s.tries + 1
      unreported := s.unreported || (s.current.isSome && !s.reported) }

def complete (s : AlarmRun) (index : Nat) (ok : Bool) (nowMs : Nat) : Option AlarmRun :=
  s.alarm.bind fun alarm => s.fired[index]?.map fun firing =>
    let (next, settled) := Alarms.complete parse alarm firing ok nowMs
    let s' := { s with
      alarm := if settled = .remove then none else some next
      reported := s.reported || (s.current == some index && !ok) }
    if alarm.awaits firing then
      if ok then { s'.handOn with settled := s.settled ++ [firing] }
      else if next.attempt = 0 then s'.handOn
      else s'
    else s'

def step (s : AlarmRun) : AlarmStep → Option AlarmRun
  | .begin nowMs => s.begin parse nowMs
  | .complete index ok nowMs => s.complete parse index ok nowMs

/-- Steps up to `horizon`, in which no catch-up of a first try is cut off and no count of attempts
wraps. -/
def Unhurried (horizon : Nat) (s : AlarmRun) : AlarmStep → Prop
  | .begin nowMs => nowMs ≤ horizon ∧ ∀ alarm ∈ s.alarm, alarm.attempt + 1 < 2 ^ 32 ∧
      (alarm.attempt = 0 → ∀ repeats ∈ alarm.repeats,
        repeats.Reaches parse alarm.scheduledMs nowMs)
  | .complete _ _ nowMs => nowMs ≤ horizon

instance (horizon : Nat) (s : AlarmRun) : DecidablePred (s.Unhurried parse horizon) := fun a => by
  unfold Unhurried
  split <;> infer_instance

structure Covered (repeats : Repeat) (firstMs horizon : Nat) (s : AlarmRun) : Prop where
  partition : Partition (repeats.nextWithin parse horizon) firstMs s.settled
  stale : ∀ alarm ∈ s.alarm, ∀ (index : Nat) (firing : Firing), s.fired[index]? = some firing →
    s.current ≠ some index → ∀ ok nowMs,
      Alarms.complete parse alarm firing ok nowMs = (alarm, .keep)
  due : ∀ alarm ∈ s.alarm, ∀ (index : Nat) (firing : Firing), s.fired[index]? = some firing →
    s.current = some index → ∀ nowMs, ∀ later ∈ repeats.nextAfter parse firing.scheduledMs,
      (Alarms.complete parse alarm firing false nowMs).1.atMs ≤ max nowMs later ∧
        (Alarms.complete parse alarm firing false nowMs).2 = .keep
  bounded : s.unreported = false → s.tries ≤ maxAttempts

end AlarmRun

end Runs

end Walleye.Alarms
