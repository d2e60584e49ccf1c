import Walleye.Alarms.Cron
import Walleye.Engine.Arrival

namespace Walleye.Alarms

open Walleye.Engine (u64Max saturatingAdd)

/-- The first retry waits this long; each later one twice the one before. -/
def backoffBaseMs : Nat := 2000

def maxBackoffShift : Nat := 6

def maxAttempts : Nat := 7

/-- How many missed occurrences of a cron schedule are walked. -/
def maxWalk : Nat := 1000000

inductive Repeat where
  | cron (expression : String)
  | every (seconds : Nat)
deriving DecidableEq, Repr

structure Alarm where
  atMs : Nat
  scheduledMs : Nat
  attempt : Nat
  id : Nat
  /-- Set for a schedule, which re-arms itself. -/
  repeats : Option Repeat
  /-- The first occurrence a firing in flight, or being retried, stands for. -/
  coversFromMs : Option Nat
deriving DecidableEq, Repr

structure Firing where
  id : Nat
  scheduledMs : Nat
  attempt : Nat
  /-- The occurrences a schedule missed that this one run also stands for. -/
  missed : Nat
deriving DecidableEq, Repr

inductive Settled where
  | keep
  | remove
deriving DecidableEq, Repr

def Alarm.once (atMs id : Nat) : Alarm := ⟨atMs, atMs, 0, id, none, none⟩

def Alarm.repeating (repeats : Repeat) (firstMs id : Nat) : Alarm :=
  ⟨firstMs, firstMs, 0, id, some repeats, none⟩

def backoffMs (attempt : Nat) : Nat := backoffBaseMs * 2 ^ min (attempt - 1) maxBackoffShift

/-- The milliseconds between two occurrences of an interval; the product wraps. -/
def everyMs (seconds : Nat) : Nat := max seconds 1 * 1000 % 2 ^ 64

def walk (next : Nat → Option Nat) (nowMs : Nat) : Nat → Nat → Nat → Nat × Nat
  | 0, instant, skipped => (instant, skipped)
  | steps + 1, instant, skipped =>
    match next instant with
    | some later =>
      if later ≤ nowMs then walk next nowMs steps later (skipped + 1) else (instant, skipped)
    | none => (instant, skipped)

section Alarms

variable (parse : String → Option Schedule)

def Repeat.nextAfter : Repeat → Nat → Option Nat
  | .cron expression, afterMs =>
    (parse expression).bind fun schedule =>
      (schedule.nextAfter (afterMs / 1000 : Nat)).map fun seconds =>
        (max seconds 0).toNat * 1000 % 2 ^ 64
  | .every seconds, afterMs =>
    if afterMs + everyMs seconds ≤ u64Max then some (afterMs + everyMs seconds) else none

/-- The latest occurrence at or before `nowMs`, from the occurrence `fromMs` on, and how many
occurrences that passes over. The division by a period that wrapped to zero panics. -/
def Repeat.catchUp (repeats : Repeat) (fromMs nowMs : Nat) : Option (Nat × Nat) :=
  if nowMs ≤ fromMs then some (fromMs, 0)
  else match repeats with
    | .every seconds =>
      let steps := (nowMs - fromMs) / everyMs seconds
      if everyMs seconds = 0 then none else some (fromMs + steps * everyMs seconds, steps)
    | .cron expression =>
      some (walk (Repeat.nextAfter parse (.cron expression)) nowMs maxWalk fromMs 0)

/-- What a firing begun at `nowMs` stands for, a retry as its first try: its occurrence, the first
one it covers and how many were missed before it. -/
def Alarm.standsFor (alarm : Alarm) (nowMs : Nat) : Option (Nat × Option Nat × Nat) :=
  match alarm.repeats with
  | none => some (alarm.scheduledMs, alarm.coversFromMs, 0)
  | some repeats =>
    if alarm.attempt = 0 then
      let fromMs := alarm.coversFromMs.getD alarm.scheduledMs
      (repeats.catchUp parse alarm.scheduledMs nowMs).map fun (latest, skipped) =>
        (latest, some (min (alarm.coversFromMs.getD fromMs) fromMs), skipped)
    else match alarm.coversFromMs with
      | some fromMs =>
        (repeats.catchUp parse fromMs alarm.scheduledMs).map fun (_, skipped) =>
          (alarm.scheduledMs, some fromMs, skipped)
      | none => some (alarm.scheduledMs, none, 0)

/-- Begin a firing of a due alarm: the attempt is recorded and the alarm moves to its retry time.
Nothing is written when the alarm is not due, or when its catch-up panics. -/
def begin (alarm : Alarm) (nowMs : Nat) : Option (Alarm × Firing) :=
  if nowMs < alarm.atMs then none
  else (alarm.standsFor parse nowMs).map fun (scheduledMs, coversFromMs, missed) =>
    let attempt := (alarm.attempt + 1) % 2 ^ 32
    ({ alarm with
        scheduledMs, coversFromMs, attempt, atMs := saturatingAdd nowMs (backoffMs attempt) },
      { id := alarm.id, scheduledMs, attempt, missed })

def Alarm.awaits (alarm : Alarm) (firing : Firing) : Prop :=
  alarm.id = firing.id ∧ alarm.attempt = firing.attempt ∧ alarm.scheduledMs = firing.scheduledMs

instance (alarm : Alarm) (firing : Firing) : Decidable (alarm.awaits firing) :=
  inferInstanceAs (Decidable (_ ∧ _ ∧ _))

def Alarm.moveOn (alarm : Alarm) : Option Nat → Alarm × Settled
  | some next =>
    ({ alarm with atMs := next, scheduledMs := next, attempt := 0, coversFromMs := none }, .keep)
  | none => (alarm, .remove)

/-- The occurrence is given up: the alarm moves to the next one and keeps pointing at the first
that failed. -/
def Alarm.handOver (alarm : Alarm) (nowMs : Nat) : Option Nat → Alarm × Settled
  | some next =>
    ({ alarm with
        atMs := max next (min nowMs alarm.atMs)
        scheduledMs := alarm.coversFromMs.getD alarm.scheduledMs
        coversFromMs := none
        attempt := 0 }, .keep)
  | none => (alarm, .remove)

/-- Complete a firing; `ok` is whether its handler succeeded. -/
def complete (alarm : Alarm) (firing : Firing) (ok : Bool) (nowMs : Nat) : Alarm × Settled :=
  if ¬alarm.awaits firing then (alarm, .keep)
  else
    let next := alarm.repeats.bind fun repeats => repeats.nextAfter parse firing.scheduledMs
    if ok then alarm.moveOn next
    else if maxAttempts ≤ firing.attempt then alarm.handOver nowMs next
    else match next with
      | some later =>
        if later ≤ alarm.atMs then alarm.handOver nowMs next else (alarm, .keep)
      | none => (alarm, .keep)

end Alarms

end Walleye.Alarms
