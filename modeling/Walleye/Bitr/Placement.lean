import Walleye.Base.Guards

namespace Walleye.Bitr

open Walleye.Base

structure PlacementEpoch where
  epoch : Nat
  routeDigest : String
deriving DecidableEq, Repr

inductive PlacementError where
  | invalidEpoch
  | transitioning
  | stale (current received : PlacementEpoch)
  | future (current received : PlacementEpoch)
  | conflict (current received : PlacementEpoch)
  | decreasing (current requested : PlacementEpoch)
  | fenceConflict (current requested : PlacementEpoch)
deriving DecidableEq, Repr

/-- One stream's gate on a member. `next` is the placement of the fence that marked the stream
as transitioning and waits for the admitted appends. -/
structure Gate where
  placement : PlacementEpoch
  admitted : Nat
  next : Option PlacementEpoch
deriving DecidableEq, Repr

def PlacementEpoch.bootstrap : PlacementEpoch := ⟨0, ""⟩

def Gate.new : Gate := ⟨.bootstrap, 0, none⟩

def validateEpoch (p : PlacementEpoch) : Except PlacementError Unit :=
  if (p.epoch = 0 ∧ p.routeDigest ≠ "") ∨
      (0 < p.epoch ∧ p.routeDigest.toList.all Char.isWhitespace = true) then .error .invalidEpoch
  else .ok ()

def compareAdmission (current received : PlacementEpoch) : Except PlacementError Unit :=
  if received.epoch < current.epoch then .error (.stale current received)
  else if current.epoch < received.epoch then .error (.future current received)
  else if received.routeDigest = current.routeDigest then .ok ()
  else .error (.conflict current received)

/-- An append enters at the exact current placement, while no fence waits. -/
def Gate.admitLease (g : Gate) (p : PlacementEpoch) : Except PlacementError Gate :=
  (validateEpoch p).bind fun _ =>
    if g.next.isSome then .error .transitioning
    else (compareAdmission g.placement p).bind fun _ => .ok { g with admitted := g.admitted + 1 }

def Gate.release (g : Gate) : Gate := { g with admitted := g.admitted - 1 }

/-- A fence request that found no other waiting: it marks the stream, or has nothing to do. -/
def Gate.installFence (g : Gate) (p : PlacementEpoch) : Except PlacementError Gate :=
  (validateEpoch p).bind fun _ =>
    if p.epoch < g.placement.epoch then .error (.decreasing g.placement p)
    else if p.epoch = g.placement.epoch then
      if p = g.placement then .ok g else .error (.fenceConflict g.placement p)
    else .ok { g with next := some p }

def Gate.drain (g : Gate) : Option Gate :=
  g.next.bind fun p => if g.admitted = 0 then some { g with placement := p, next := none } else none

theorem compareAdmission_eq_ok :
    compareAdmission current received = .ok () ↔ current = received := by
  obtain ⟨e,d⟩ := current
  obtain ⟨e',d'⟩ := received
  simp only [compareAdmission,guard_ok,PlacementEpoch.mk.injEq]
  constructor
  · rintro ⟨h1,h2,h3⟩
    split at h3
    · rename_i he
      exact ⟨by omega,he.symm⟩
    · cases h3
  · rintro ⟨rfl,rfl⟩
    simp

variable {p : PlacementEpoch}

theorem Gate.admitLease_spec {g g' : Gate} (h : g.admitLease p = .ok g') :
    g.placement = p ∧ g' = { g with admitted := g.admitted + 1 } := by
  simp only [Gate.admitLease,Except.bind_eq_ok,guard_ok] at h
  obtain ⟨_,_,_,_,hc,he⟩ := h
  exact ⟨compareAdmission_eq_ok.mp hc,(Except.ok.inj he).symm⟩

theorem Gate.installFence_spec {g g' : Gate} (h : g.installFence p = .ok g') :
    (g' = g ∧ p = g.placement) ∨ (g' = { g with next := some p } ∧ g.placement.epoch < p.epoch) := by
  simp only [Gate.installFence,Except.bind_eq_ok,guard_ok] at h
  obtain ⟨_,_,hg,h⟩ := h
  split at h
  · split at h
    · rename_i he
      exact .inl ⟨(Except.ok.inj h).symm,he⟩
    · cases h
  · exact .inr ⟨(Except.ok.inj h).symm,by omega⟩

theorem Gate.drain_spec {g g' : Gate} (h : g.drain = some g') :
    ∃ p, g.next = some p ∧ g.admitted = 0 ∧ g' = { g with placement := p, next := none } := by
  obtain ⟨p,hp,h⟩ := Option.bind_eq_some_iff.mp h
  split at h
  · rename_i hz
    exact ⟨p,hp,hz,(Option.some.inj h).symm⟩
  · cases h

structure Gate.Sound (source : PlacementEpoch) (g : Gate) (leases : Nat) : Prop where
  admitted : g.admitted = leases
  entered : 0 < leases → g.placement = source
  rises : ∀ p ∈ g.next, g.placement.epoch < p.epoch

def Gate.Past (g : Gate) (source : PlacementEpoch) : Prop := source.epoch < g.placement.epoch

instance (g : Gate) (source : PlacementEpoch) : Decidable (g.Past source) :=
  inferInstanceAs (Decidable (_ < _))

variable {g g' : Gate}

theorem Gate.Sound.new (source : PlacementEpoch) : Gate.Sound source .new 0 :=
  ⟨rfl,by simp,by simp [Gate.new]⟩

theorem Gate.Sound.admitLease (h : g.Sound source leases) (ha : g.admitLease source = .ok g') :
    g'.Sound source (leases + 1) := by
  obtain ⟨hp,rfl⟩ := Gate.admitLease_spec ha
  exact ⟨congrArg (· + 1) h.admitted,fun _ => hp,h.rises⟩

theorem Gate.Sound.release (h : g.Sound source leases) : g.release.Sound source (leases - 1) :=
  ⟨congrArg (· - 1) h.admitted,fun hp => h.entered (by omega),h.rises⟩

theorem Gate.Sound.installFence (h : g.Sound source leases)
    (hi : g.installFence p = .ok g') : g'.Sound source leases := by
  rcases Gate.installFence_spec hi with ⟨rfl,_⟩ | ⟨rfl,hl⟩
  · exact h
  · refine ⟨h.admitted,h.entered,fun q hq => ?_⟩
    cases hq
    exact hl

theorem Gate.Sound.drain (h : g.Sound source leases) (hd : g.drain = some g') :
    g'.Sound source leases := by
  obtain ⟨p,_,hz,rfl⟩ := Gate.drain_spec hd
  have hn : leases = 0 := h.admitted.symm.trans hz
  exact ⟨h.admitted,fun hp => by omega,by simp⟩

theorem Gate.Sound.drained (h : g.Sound source leases) (hpa : g.Past source) : leases = 0 := by
  rcases Nat.eq_zero_or_pos leases with hz | hp
  · exact hz
  · unfold Gate.Past at hpa
    rw [h.entered hp] at hpa
    omega

end Walleye.Bitr
