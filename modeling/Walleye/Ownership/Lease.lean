import Mathlib.Logic.Function.Basic
import Mathlib.Data.List.Basic
import Walleye.Base.Runs

namespace Walleye.Ownership

/-- Lease timings that validate, in milliseconds. Every process of a cluster runs with
the same ones. -/
structure LeaseConfig where
  ttl : Nat
  skew : Nat
  ttl_min : 300 ≤ ttl
  skew_pos : 0 < skew
  skew_lt : skew < ttl / 3

def LeaseConfig.default : LeaseConfig where
  ttl := 10000
  skew := 2000
  ttl_min := by decide
  skew_pos := by decide
  skew_lt := by decide

/-- How long a lease must go unchanged before a peer calls it dead. -/
def LeaseConfig.verdict (c : LeaseConfig) : Nat := c.ttl + c.skew

theorem LeaseConfig.verdict_pos (c : LeaseConfig) : 0 < c.verdict :=
  Nat.lt_of_lt_of_le c.skew_pos (Nat.le_add_left _ _)

/-- The name of a session: the process it belongs to, and how many sessions the
process stood down before it. -/
structure Node where
  process : Nat
  incarnation : Nat
deriving DecidableEq, Repr

/-- One call of `renew` and its lease write. `landed` is when it took effect, `waiting` whether the
caller has no answer or timeout yet. -/
structure Renewal where
  node : Node
  issued : Nat
  landed : Option Nat
  waiting : Bool
deriving DecidableEq, Repr

/-- The session of one process, with the leases it has yet to delete and the names
it knows to be dead. -/
structure Session where
  incarnation : Nat
  anchor : Option Nat
  draining : Bool
  retired : Bool
  abandoned : List Node
  dead : List Node
deriving DecidableEq, Repr

def Session.new : Session := ⟨0, none, false, false, [], []⟩

/-- The sessions of every process and the leases of the bucket. A lease's version is
the renewal that wrote it. -/
structure Leases where
  now : Nat
  sessions : Nat → Session
  renewals : Nat → Option Renewal
  leases : Node → Option Nat
  deletes : List Node

def Leases.empty : Leases := ⟨0, fun _ => .new, fun _ => none, fun _ => none, []⟩

variable (c : LeaseConfig)

def Leases.node (s : Leases) (p : Nat) : Node := ⟨p, (s.sessions p).incarnation⟩

/-- The session's last counted renewal was issued less than a lease ago. -/
def Leases.authoritative (s : Leases) (p : Nat) : Bool :=
  !(s.sessions p).retired && (s.sessions p).anchor.any fun a => decide (s.now - a < c.ttl)

def Leases.lapsed (s : Leases) (p : Nat) : Bool :=
  !(s.sessions p).retired && (s.sessions p).anchor.any fun a => decide (c.ttl ≤ s.now - a)

def Leases.setSession (s : Leases) (p : Nat) (session : Session) : Leases :=
  { s with sessions := Function.update s.sessions p session }

def Leases.standDown (s : Leases) (p : Nat) : Leases :=
  let session := s.sessions p
  s.setSession p { session with
    incarnation := session.incarnation + 1
    anchor := none
    abandoned := s.node p :: session.abandoned
    dead := s.node p :: session.dead }

/-- What looking at the session's authority does to it: a lapse found there stands the
session down. -/
def Leases.authoritativeLocked (s : Leases) (p : Nat) : Leases :=
  if s.lapsed c p then s.standDown p else s

/-- The lease write of `renew` goes out, after the deletes of the leases of the sessions
stood down before. -/
def Leases.publish (s : Leases) (p i issued : Nat) : Leases :=
  { s.setSession p { s.sessions p with abandoned := [] } with
    renewals := Function.update s.renewals i (some ⟨s.node p, issued, none, true⟩)
    deletes := (s.sessions p).abandoned ++ s.deletes }

/-- `renew` up to its lease write. A lapse it finds ends the session first, and the write
goes out for the next one. -/
def Leases.renew (s : Leases) (p i issued : Nat) : Option Leases :=
  if s.renewals i = none ∧ issued ≤ s.now ∧ (s.sessions p).retired = false then
    some ((s.authoritativeLocked c p).publish p i issued)
  else none

/-- A lease write takes effect, whether or not its caller still waits. -/
def Leases.landRenewal (s : Leases) (i : Nat) : Option Leases :=
  match s.renewals i with
  | some r =>
    if r.landed = none then
      some { s with
        renewals := Function.update s.renewals i (some { r with landed := some s.now })
        leases := Function.update s.leases r.node (some i) }
    else none
  | none => none

/-- The anchor after a renewal was answered: it moves when the session is still the one that renewed
and this is its first or went out in time. -/
def Leases.counted (s : Leases) (r : Renewal) : Option Nat :=
  let session := s.sessions r.node.process
  if s.node r.node.process = r.node ∧ session.retired = false ∧
      session.anchor.all (fun a => decide (r.issued - a < c.ttl)) then some r.issued
  else session.anchor

/-- The caller of `renew` hears that its write took effect. -/
def Leases.answerRenewal (s : Leases) (i : Nat) : Option Leases :=
  match s.renewals i with
  | some r =>
    if r.waiting = true ∧ r.landed.isSome then
      let session := { s.sessions r.node.process with anchor := s.counted c r }
      some { s.setSession r.node.process session with
        renewals := Function.update s.renewals i (some { r with waiting := false }) }
    else none
  | none => none

/-- The caller of `renew` gets an error or times out. -/
def Leases.failRenewal (s : Leases) (i : Nat) : Option Leases :=
  match s.renewals i with
  | some r => some { s with
      renewals := Function.update s.renewals i (some { r with waiting := false }) }
  | none => none

def Leases.drain (s : Leases) (p : Nat) : Leases :=
  s.setSession p { s.sessions p with draining := true }

def Leases.retire (s : Leases) (p : Nat) : Leases :=
  let session := s.sessions p
  { s.setSession p { session with
      retired := true, anchor := none, dead := s.node p :: session.dead } with
    deletes := s.node p :: s.deletes }

def Leases.landDelete (s : Leases) (n : Node) : Option Leases :=
  if n ∈ s.deletes then
    some { s with leases := Function.update s.leases n none, deletes := s.deletes.erase n }
  else none

def Leases.dropDelete (s : Leases) (n : Node) : Leases := { s with deletes := s.deletes.erase n }

def Leases.delete (s : Leases) (n : Node) : Leases := { s with deletes := n :: s.deletes }

def Leases.tick (s : Leases) (d : Nat) : Leases := { s with now := s.now + d }

end Walleye.Ownership
