import Walleye.Bitr.Cohort
import Walleye.Bitr.Evidence

namespace Walleye.Bitr

open Walleye.Base

/-- An ordinary recovery in flight. `before` is kept for the proofs: the answers of the
members when it was called. -/
structure Recovery (σ β : Type) where
  stream : σ
  after : Nat
  before : List (Fin 3 × List (EncryptedRecord σ β))
  archived : Option (List (EncryptedRecord σ β))
  heard : Fin 3 → Option (Option (NodeSnapshot σ β))
  result : Option (Except ReplicaError (List (EncryptedRecord σ β)))

/-- One stream's part of an archive pass: the hot tail it recovers and publishes. -/
structure ArchivePass (σ β : Type) where
  stream : σ
  after : Nat
  heard : Fin 3 → Option (Option (NodeSnapshot σ β))
  tail : Option (List (EncryptedRecord σ β))

structure Replicas (σ β : Type) where
  cohort : Cohort σ β
  recoveries : List (Recovery σ β)
  passes : List (ArchivePass σ β)

inductive ReplicasStep (σ β : Type) where
  | cohort (a : CohortStep σ β)
  | recover (stream : σ) (after : Nat)
  | readArchive (i : Nat)
  | hear (i : Nat) (m : Fin 3)
  | miss (i : Nat) (m : Fin 3)
  | finish (i : Nat)
  | pass (stream : σ)
  | hearPass (i : Nat) (m : Fin 3)
  | missPass (i : Nat) (m : Fin 3)
  | settle (i : Nat)
  | publish (i limit : Nat)
  | compact (m : Fin 3) (heads : List (σ × Nat))

variable {σ β : Type}

def Replicas.empty : Replicas σ β := ⟨.empty, [], []⟩

def Replicas.setMembers (s : Replicas σ β) (members : Members σ β) : Replicas σ β :=
  { s with cohort := { s.cohort with members } }

def Replicas.setRecovery (s : Replicas σ β) (i : Nat) (t : Recovery σ β) : Replicas σ β :=
  { s with recoveries := s.recoveries.set i t }

def Replicas.setPass (s : Replicas σ β) (i : Nat) (t : ArchivePass σ β) : Replicas σ β :=
  { s with passes := s.passes.set i t }

/-- In a cohort that holds whole streams every member owns every record. -/
def ownsAll : Fin 3 → EncryptedRecord σ β → Bool := fun _ _ => true

/-- A writer's batch as a coordinator sends it: the records name their predecessors as
committed. -/
def CohortStep.Sent : CohortStep σ β → Prop
  | .append _ batch => ∀ r ∈ batch, r.Chained
  | _ => True

instance : DecidablePred (CohortStep.Sent : CohortStep σ β → Prop) := fun a =>
  match a with
  | .append _ _ => inferInstanceAs (Decidable (∀ r ∈ _, _))
  | .begin .. | .read .. | .miss .. | .decide .. | .withdraw .. | .copy .. | .report .. =>
    instDecidableTrue

variable [DecidableEq σ] [DecidableEq β]

def Recovery.finish (t : Recovery σ β) (archived late : List (EncryptedRecord σ β))
    (snapshots : Fin 3 → Option (NodeSnapshot σ β)) :
    Except ReplicaError (List (EncryptedRecord σ β)) :=
  if countOf (fun m => (snapshots m).isSome = true) < ackQuorum then .error .nodeUnavailable
  else recoverRecords ownsAll snapshots t.stream t.after archived late

def ArchivePass.settle (t : ArchivePass σ β) (snapshots : Fin 3 → Option (NodeSnapshot σ β)) :
    Except ReplicaError (List (EncryptedRecord σ β) × Nat) :=
  if countOf (fun m => (snapshots m).isSome = true) < ackQuorum then .error .nodeUnavailable
  else recoverHotTail ownsAll snapshots t.stream t.after

def Replicas.step (s : Replicas σ β) : ReplicasStep σ β → Option (Replicas σ β)
  | .cohort a =>
    if a.Sent then (s.cohort.step (fun _ => 1) a).map fun cohort => { s with cohort } else none
  | .recover stream after =>
    some { s with recoveries := s.recoveries ++
      [⟨stream, after, s.cohort.members.answered, none, fun _ => none, none⟩] }
  | .readArchive i => s.recoveries[i]?.bind fun t =>
    if t.archived.isNone then
      some (s.setRecovery i
        { t with archived := some (archiveRecover (s.cohort.members.archive t.stream) t.after) })
    else none
  | .hear i m => s.recoveries[i]?.bind fun t =>
    if t.archived.isSome ∧ (t.heard m).isNone then
      some (s.setRecovery i
        { t with heard := Function.update t.heard m (some (some (s.cohort.members.nodes m).snapshot)) })
    else none
  | .miss i m => s.recoveries[i]?.bind fun t =>
    if t.archived.isSome ∧ (t.heard m).isNone then
      some (s.setRecovery i { t with heard := Function.update t.heard m (some none) })
    else none
  | .finish i => s.recoveries[i]?.bind fun t => t.archived.bind fun archived =>
    (allHeard t.heard).bind fun snapshots =>
      if t.result.isNone then
        some (s.setRecovery i { t with
          result := some (t.finish archived (s.cohort.members.archive t.stream) snapshots) })
      else none
  | .pass stream =>
    some { s with passes := s.passes ++
      [⟨stream, headLsn (s.cohort.members.archive stream), fun _ => none, none⟩] }
  | .hearPass i m => s.passes[i]?.bind fun t =>
    if (t.heard m).isNone then
      some (s.setPass i
        { t with heard := Function.update t.heard m (some (some (s.cohort.members.nodes m).snapshot)) })
    else none
  | .missPass i m => s.passes[i]?.bind fun t =>
    if (t.heard m).isNone then
      some (s.setPass i { t with heard := Function.update t.heard m (some none) })
    else none
  | .settle i => s.passes[i]?.bind fun t => (allHeard t.heard).bind fun snapshots =>
    (t.settle snapshots).toOption.map fun tail => s.setPass i { t with tail := some tail.1 }
  | .publish i limit => s.passes[i]?.bind fun t => t.tail.bind fun tail =>
    (s.cohort.members.publish limit t.stream tail).toOption.map s.setMembers
  | .compact m heads => (s.cohort.members.compact m heads).toOption.map s.setMembers

/-- Withdrawals are outranked, a recovery that a member did not answer sees no conflict above the
archive, and the archive takes what two members hold. -/
def Replicas.Certain (s : Replicas σ β) : ReplicasStep σ β → Prop
  | .cohort a => s.cohort.WithdrawsOutranked (fun _ => 1) a
  | .finish i => ∀ t ∈ s.recoveries[i]?, ∀ archived ∈ t.archived, ∀ snapshots ∈ allHeard t.heard,
    Unconflicted ownsAll snapshots t.stream
      (trimmedFloor snapshots t.stream (hotAfter t.after archived))
  | .publish i limit => ∀ t ∈ s.passes[i]?, ∀ tail ∈ t.tail,
    ∀ r ∈ nextSegment limit (s.cohort.members.archive t.stream) tail,
      TwoOf fun m => r ∈ (s.cohort.members.nodes m).records
  | _ => True

instance (s : Replicas σ β) : DecidablePred s.Certain := fun a =>
  match a with
  | .cohort a => inferInstanceAs (Decidable (s.cohort.WithdrawsOutranked (fun _ => 1) a))
  | .finish i => inferInstanceAs (Decidable (∀ t ∈ s.recoveries[i]?, _))
  | .publish i _ => inferInstanceAs (Decidable (∀ t ∈ s.passes[i]?, _))
  | .recover .. | .readArchive .. | .hear .. | .miss .. | .pass .. | .hearPass .. | .missPass ..
  | .settle .. | .compact .. => instDecidableTrue

/-- A recovery that returned holds every record of its stream above its watermark that two
members had acknowledged when it was called. -/
def Recovery.Complete (t : Recovery σ β) : Prop :=
  ∀ out, t.result = some (.ok out) → ∀ r, AckedIn t.before r → r.stream = t.stream →
    t.after < r.lsn → r ∈ out

end Walleye.Bitr
