import Mathlib.Logic.Function.Basic
import Walleye.Base.Runs
import Walleye.Bitr.Placement

namespace Walleye.Bitr

open Walleye.Base

inductive StoreError where
  | invalidStream
  | storage (reason : String)
  | placement (error : PlacementError)
deriving DecidableEq, Repr

/-- Where an admission stands. It gives up every lock between two points. -/
inductive AdmitPoint where
  | calling
  /-- The store was healthy and the epoch valid. -/
  | healthy
  | gated
  | leased
  | released
  | refused (error : StoreError)
deriving DecidableEq, Repr

inductive FencePoint where
  | calling
  | healthy
  | gated
  /-- Another fence owns the transition. -/
  | waiting
  /-- The fence owns the transition and waits for the leases. -/
  | draining
  | returned (result : Except StoreError Unit)

/-- A call on the store and how far it has got. An admission that is leased holds the lease. -/
inductive PlacementCall (σ : Type) where
  | admission (stream : σ) (placement : PlacementEpoch) (point : AdmitPoint)
  | fence (stream : σ) (requested : PlacementEpoch) (point : FencePoint)

/-- The store of one process with its sidecar file. The lease counters are those of `Gate`. -/
structure PlacementStore (σ : Type) where
  gates : σ → Option Gate
  persisted : σ → Option PlacementEpoch
  sidecar : σ → Option PlacementEpoch
  failedClosed : Bool
  calls : List (PlacementCall σ)

inductive StoreStep (σ : Type) where
  | call (c : PlacementCall σ)
  /-- The call takes its next step; `write` is how the sidecar is replaced, if it is. -/
  | resume (i : Nat) (write : Persisted)

namespace PlacementStore

variable {σ : Type} [DecidableEq σ] (blank : σ → Bool)

def fromPersisted (persisted : σ → Option PlacementEpoch) : PlacementStore σ :=
  ⟨fun _ => none, persisted, persisted, false, []⟩

def ensureHealthy (s : PlacementStore σ) : Except StoreError Unit :=
  if s.failedClosed = true then
    .error (.storage "placement store is fail-closed after an uncertain sidecar write")
  else .ok ()

def enter (s : PlacementStore σ) (placement : PlacementEpoch) : Except StoreError Unit :=
  s.ensureHealthy.bind fun _ => (validateEpoch placement).mapError .placement

def setGate (s : PlacementStore σ) (stream : σ) (g : Gate) : PlacementStore σ :=
  { s with gates := Function.update s.gates stream (some g) }

def gate (s : PlacementStore σ) (stream : σ) : Except StoreError (PlacementStore σ) :=
  if blank stream = true then .error .invalidStream
  else match s.gates stream with
    | some _ => .ok s
    | none => .ok (s.setGate stream ⟨(s.persisted stream).getD .bootstrap, 0, none⟩)

def goto (s : PlacementStore σ) (i : Nat) (c : PlacementCall σ) : PlacementStore σ :=
  { s with calls := s.calls.set i c }

def stepAdmit (s : PlacementStore σ) (i : Nat) (stream : σ) (placement : PlacementEpoch) :
    AdmitPoint → Option (PlacementStore σ)
  | .calling => match s.enter placement with
    | .error e => some (s.goto i (.admission stream placement (.refused e)))
    | .ok _ => some (s.goto i (.admission stream placement .healthy))
  | .healthy => match s.gate blank stream with
    | .error e => some (s.goto i (.admission stream placement (.refused e)))
    | .ok s' => some (s'.goto i (.admission stream placement .gated))
  | .gated => (s.gates stream).bind fun g => match g.admitLease placement with
    | .error e => some (s.goto i (.admission stream placement (.refused (.placement e))))
    | .ok g' => some ((s.setGate stream g').goto i (.admission stream placement .leased))
  | .leased => (s.gates stream).bind fun g =>
    some ((s.setGate stream g.release).goto i (.admission stream placement .released))
  | .released => none
  | .refused _ => none

/-- The fence found no other transition: it is answered at once or marks the stream. -/
def beginFence (s : PlacementStore σ) (i : Nat) (stream : σ) (requested : PlacementEpoch) (g : Gate) :
    PlacementStore σ :=
  match g.installFence requested with
  | .error e => s.goto i (.fence stream requested (.returned (.error (.placement e))))
  | .ok g' =>
    if g'.next = none then s.goto i (.fence stream requested (.returned (.ok ())))
    else (s.setGate stream g').goto i (.fence stream requested .draining)

/-- The critical section of a fence whose leases are drained: one write at a time, the sidecar
before the gate. -/
def publish (s : PlacementStore σ) (i : Nat) (stream : σ) (requested : PlacementEpoch) (g : Gate)
    (write : Persisted) : PlacementStore σ :=
  let answer (s : PlacementStore σ) (result : Except StoreError Unit) :=
    s.goto i (.fence stream requested (.returned result))
  let idle := s.setGate stream { g with next := none }
  let next := Function.update s.persisted stream (some requested)
  match s.ensureHealthy with
  | .error e => answer idle (.error e)
  | .ok _ =>
    if (s.persisted stream).any (· ≠ g.placement) = true then
      answer { idle with failedClosed := true }
        (.error (.storage "placement gate disagrees with durable sidecar"))
    else match write with
      | .failed renamed error =>
        answer { idle with
          failedClosed := true
          sidecar := if renamed then next else s.sidecar } (.error (.storage error))
      | .done =>
        answer { s.setGate stream { g with placement := requested, next := none } with
          persisted := next
          sidecar := next } (.ok ())

def stepFence (s : PlacementStore σ) (i : Nat) (stream : σ) (requested : PlacementEpoch)
    (write : Persisted) : FencePoint → Option (PlacementStore σ)
  | .calling => match s.enter requested with
    | .error e => some (s.goto i (.fence stream requested (.returned (.error e))))
    | .ok _ => some (s.goto i (.fence stream requested .healthy))
  | .healthy => match s.gate blank stream with
    | .error e => some (s.goto i (.fence stream requested (.returned (.error e))))
    | .ok s' => some (s'.goto i (.fence stream requested .gated))
  | .gated => (s.gates stream).bind fun g =>
    if g.next.isSome then some (s.goto i (.fence stream requested .waiting))
    else some (s.beginFence i stream requested g)
  | .waiting => (s.gates stream).bind fun g => match s.ensureHealthy with
    | .error e => some (s.goto i (.fence stream requested (.returned (.error e))))
    | .ok _ => if g.next.isSome then none else some (s.beginFence i stream requested g)
  | .draining => (s.gates stream).bind fun g =>
    if g.admitted = 0 then some (s.publish i stream requested g write) else none
  | .returned _ => none

def starts : PlacementCall σ → Bool
  | .admission _ _ .calling => true
  | .fence _ _ .calling => true
  | _ => false

def step (s : PlacementStore σ) : StoreStep σ → Option (PlacementStore σ)
  | .call c => if starts c = true then some { s with calls := s.calls ++ [c] } else none
  | .resume i write => s.calls[i]?.bind fun
      | .admission stream placement point => s.stepAdmit blank i stream placement point
      | .fence stream requested point => s.stepFence blank i stream requested write point

end PlacementStore

/-! ### What a step does -/

section Kinds

variable {σ : Type}

def PlacementCall.admitting : PlacementCall σ → Bool
  | .admission _ _ .healthy | .admission _ _ .gated => true
  | _ => false

def PlacementCall.busy : PlacementCall σ → Bool
  | .admission _ _ .leased | .fence _ _ .draining => true
  | _ => false

theorem PlacementStore.enter_healthy {s : PlacementStore σ}
    (h : s.enter placement = .ok u) : s.failedClosed = false := by
  obtain ⟨_,h,_⟩ := Except.bind_eq_ok.mp h
  simp only [PlacementStore.ensureHealthy,guard_ok] at h
  simpa using h.1

def PlacementStore.placementOf (s : PlacementStore σ) (stream : σ) : PlacementEpoch :=
  match s.gates stream with
  | some g => g.placement
  | none => (s.persisted stream).getD .bootstrap

theorem PlacementStore.placementOf_gate {s : PlacementStore σ}
    (hg : s.gates stream = some g) : s.placementOf stream = g.placement := by
  simp only [PlacementStore.placementOf,hg]

theorem PlacementStore.starts_idle (h : PlacementStore.starts c = true) :
    c.busy = false ∧ c.admitting = false := by
  unfold PlacementStore.starts at h
  split at h
  · exact ⟨rfl,rfl⟩
  · exact ⟨rfl,rfl⟩
  · cases h

end Kinds

namespace PlacementStore

variable {σ : Type} [DecidableEq σ]

inductive Effect (s : PlacementStore σ) (i : Nat) (write : Persisted) (c : PlacementCall σ)
    (s' : PlacementStore σ) : Prop
  | moves (c' : PlacementCall σ) (before : c.busy = false) (after : c'.busy = false)
      (checked : c'.admitting = true → c.admitting = true ∨ s.failedClosed = false)
      (state : s' = s.goto i c')
  | opens (stream : σ) (c' : PlacementCall σ) (before : c.busy = false) (after : c'.busy = false)
      (checked : c'.admitting = true → c.admitting = true) (free : s.gates stream = none)
      (state : s' =
        (s.setGate stream ⟨(s.persisted stream).getD .bootstrap, 0, none⟩).goto i c')
  | admits (stream : σ) (g : Gate) (before : c = .admission stream g.placement .gated)
      (gate : s.gates stream = some g)
      (state : s' = (s.setGate stream { g with admitted := g.admitted + 1 }).goto i
        (.admission stream g.placement .leased))
  | releases (stream : σ) (placement : PlacementEpoch) (g : Gate)
      (before : c = .admission stream placement .leased) (gate : s.gates stream = some g)
      (state : s' = (s.setGate stream g.release).goto i (.admission stream placement .released))
  | marks (stream : σ) (requested : PlacementEpoch) (g : Gate) (before : c.busy = false)
      (gate : s.gates stream = some g) (free : g.next = none)
      (rises : g.placement.epoch < requested.epoch)
      (state : s' = (s.setGate stream { g with next := some requested }).goto i
        (.fence stream requested .draining))
  | publishes (stream : σ) (requested : PlacementEpoch) (g : Gate)
      (before : c = .fence stream requested .draining) (gate : s.gates stream = some g)
      (drained : g.admitted = 0) (healthy : s.failedClosed = false)
      (state : s' = { s.setGate stream { g with placement := requested, next := none } with
          persisted := Function.update s.persisted stream (some requested)
          sidecar := Function.update s.persisted stream (some requested) }.goto i
        (.fence stream requested (.returned (.ok ()))))
  | stops (stream : σ) (requested : PlacementEpoch) (g : Gate) (error : StoreError)
      (failedClosed : Bool) (sidecar : σ → Option PlacementEpoch)
      (before : c = .fence stream requested .draining) (gate : s.gates stream = some g)
      (closed : s.failedClosed = true ∧ failedClosed = true ∧ sidecar = s.sidecar ∨
        s.failedClosed = false ∧ failedClosed = true ∧
          ((s.persisted stream).any (· ≠ g.placement) = true ∧ sidecar = s.sidecar ∨
            ∃ renamed why, write = .failed renamed why ∧ (sidecar = s.sidecar ∨
              sidecar = Function.update s.persisted stream (some requested))))
      (state : s' = { s.setGate stream { g with next := none } with
          failedClosed := failedClosed, sidecar := sidecar }.goto i
        (.fence stream requested (.returned (.error error))))

variable {s s' : PlacementStore σ}

theorem gate_eq_ok (h : s.gate blank stream = .ok s') :
    s' = s ∨ s.gates stream = none ∧
      s' = s.setGate stream ⟨(s.persisted stream).getD .bootstrap,0,none⟩ := by
  simp only [gate,guard_ok] at h
  obtain ⟨_,h⟩ := h
  split at h
  · cases h
    exact .inl rfl
  · cases h
    exact .inr ⟨‹_›,rfl⟩

/-- Each point of an admission has one of the listed effects. -/
theorem stepAdmit_effect {placement : PlacementEpoch}
    (h : s.stepAdmit blank i stream placement point = some s') :
    Effect s i write (.admission stream placement point) s' := by
  cases point with
  | calling =>
    simp only [stepAdmit] at h
    split at h <;> cases h
    · exact .moves _ rfl rfl (by simp [PlacementCall.admitting]) rfl
    · rename_i he
      exact .moves _ rfl rfl (fun _ => .inr (enter_healthy he)) rfl
  | healthy =>
    simp only [stepAdmit] at h
    split at h <;> cases h
    · exact .moves _ rfl rfl (by simp [PlacementCall.admitting]) rfl
    · rename_i hga
      obtain rfl | ⟨hf,rfl⟩ := gate_eq_ok hga
      · exact .moves _ rfl rfl (fun _ => .inl rfl) rfl
      · exact .opens stream _ rfl rfl (fun _ => rfl) hf rfl
  | gated =>
    obtain ⟨g,hg,h⟩ := Option.bind_eq_some_iff.mp h
    split at h <;> cases h
    · exact .moves _ rfl rfl (by simp [PlacementCall.admitting]) rfl
    · rename_i hl
      obtain ⟨rfl,rfl⟩ := Gate.admitLease_spec hl
      exact .admits stream g rfl hg rfl
  | leased =>
    obtain ⟨g,hg,h⟩ := Option.bind_eq_some_iff.mp h
    cases h
    exact .releases stream placement g rfl hg rfl
  | released => cases h
  | refused error => cases h

theorem beginFence_effect (hb : (PlacementCall.fence stream requested point).busy = false)
    (hg : s.gates stream = some g) (hf : g.next = none) :
    Effect s i write (.fence stream requested point) (s.beginFence i stream requested g) := by
  unfold beginFence
  split
  · exact .moves _ hb rfl (by simp [PlacementCall.admitting]) rfl
  · rename_i g' hi
    obtain ⟨rfl,_⟩ | ⟨rfl,hr⟩ := Gate.installFence_spec hi
    · rw [if_pos hf]
      exact .moves _ hb rfl (by simp [PlacementCall.admitting]) rfl
    · rw [if_neg (by simp)]
      exact .marks stream requested g hb hg hf hr rfl

theorem publish_effect (hg : s.gates stream = some g) (hd : g.admitted = 0) :
    Effect s i write (.fence stream requested .draining)
      (s.publish i stream requested g write) := by
  simp only [publish,ensureHealthy]
  by_cases hc : s.failedClosed = true
  · rw [if_pos hc]
    exact .stops stream requested g _ s.failedClosed s.sidecar rfl hg
      (.inl ⟨hc,hc,rfl⟩) rfl
  · have hh : s.failedClosed = false := by simpa using hc
    rw [if_neg hc]
    simp only
    split
    · rename_i hdi
      exact .stops stream requested g _ true s.sidecar rfl hg
        (.inr ⟨hh,rfl,.inl ⟨hdi,rfl⟩⟩) rfl
    · cases write with
      | done => exact .publishes stream requested g rfl hg hd hh rfl
      | failed renamed error =>
        refine .stops stream requested g (.storage error) true _ rfl hg
          (.inr ⟨hh,rfl,.inr ⟨renamed,error,rfl,?_⟩⟩) rfl
        cases renamed with
        | true => exact .inr rfl
        | false => exact .inl rfl

/-- Each point of a placement fence has one of the listed effects. -/
theorem stepFence_effect (h : s.stepFence blank i stream requested write point = some s') :
    Effect s i write (.fence stream requested point) s' := by
  cases point with
  | calling =>
    simp only [stepFence] at h
    split at h <;> cases h
    · exact .moves _ rfl rfl (by simp [PlacementCall.admitting]) rfl
    · exact .moves _ rfl rfl (by simp [PlacementCall.admitting]) rfl
  | healthy =>
    simp only [stepFence] at h
    split at h <;> cases h
    · exact .moves _ rfl rfl (by simp [PlacementCall.admitting]) rfl
    · rename_i hga
      obtain rfl | ⟨hf,rfl⟩ := gate_eq_ok hga
      · exact .moves _ rfl rfl (by simp [PlacementCall.admitting]) rfl
      · exact .opens stream _ rfl rfl (by simp [PlacementCall.admitting]) hf rfl
  | gated =>
    obtain ⟨g,hg,h⟩ := Option.bind_eq_some_iff.mp h
    split at h <;> cases h
    · exact .moves _ rfl rfl (by simp [PlacementCall.admitting]) rfl
    · exact beginFence_effect rfl hg (by simpa using ‹¬g.next.isSome = true›)
  | waiting =>
    obtain ⟨g,hg,h⟩ := Option.bind_eq_some_iff.mp h
    split at h
    · cases h
      exact .moves _ rfl rfl (by simp [PlacementCall.admitting]) rfl
    · split at h <;> cases h
      exact beginFence_effect rfl hg (by simpa using ‹¬g.next.isSome = true›)
  | draining =>
    obtain ⟨g,hg,h⟩ := Option.bind_eq_some_iff.mp h
    split at h <;> cases h
    exact publish_effect hg ‹_›
  | returned result => cases h

theorem resume_effect (h : step blank s (.resume i write) = some s') :
    ∃ c, s.calls[i]? = some c ∧ Effect s i write c s' := by
  obtain ⟨c,hc,h⟩ := Option.bind_eq_some_iff.mp h
  refine ⟨c,hc,?_⟩
  cases c with
  | admission stream placement point => exact stepAdmit_effect h
  | fence stream requested point => exact stepFence_effect h

end PlacementStore

end Walleye.Bitr
