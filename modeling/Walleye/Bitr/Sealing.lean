import Walleye.Bitr.Durability
import Walleye.Bitr.Tail

namespace Walleye.Bitr

open Walleye.Base

/-- A cohort cutover in flight under the maintenance fence. `before` is kept for the proofs:
the answers of the members when it began. -/
structure Cutover (σ β : Type) where
  fence : MaintenanceFence
  before : List (Fin 3 × List (EncryptedRecord σ β))
  heard : Fin 3 → Option (Option (NodeSnapshot σ β))
  done : Bool

/-- An open range a cutover sealed, with the answers of the members at that time. -/
structure Seal (σ β : Type) where
  stream : σ
  lsn : Nat
  answered : List (Fin 3 × List (EncryptedRecord σ β))

structure Dropped (σ β : Type) where
  stream : σ
  answered : List (Fin 3 × List (EncryptedRecord σ β))

/-- A cohort that holds the open range of each stream from a start LSN on, its archive, and
the cutovers that seal these ranges. -/
structure Cell (σ β : Type) where
  cohort : Cohort σ β
  cutovers : List (Cutover σ β)
  sealed : List (Seal σ β)
  dropped : List (Dropped σ β)

/-- What can happen. A cutover judges a stream with the candidates and trim watermarks that
the owners of the earlier ranges show as well. -/
inductive CellStep (σ β : Type) where
  | cohort (a : CohortStep σ β)
  | publish (limit : Nat) (stream : σ) (records : List (EncryptedRecord σ β))
  | compact (m : Fin 3) (heads : List (σ × Nat))
  | fence (m : Fin 3) (fence : MaintenanceFence)
  | release (m : Fin 3)
  | cutover (fence : MaintenanceFence)
  | hear (i : Nat) (m : Fin 3)
  | miss (i : Nat) (m : Fin 3)
  | judge (i : Nat) (stream : σ) (others : List (EncryptedRecord σ β)) (trims : List Nat)
  | finish (i : Nat)

variable {σ β : Type}

def Cell.empty : Cell σ β := ⟨.empty, [], [], []⟩

def Members.setMaintenance (s : Members σ β) (m : Fin 3) (fence : Option MaintenanceFence) :
    Members σ β :=
  { s with nodes := Function.update s.nodes m { s.nodes m with maintenance := fence } }

def Cell.setMembers (s : Cell σ β) (members : Members σ β) : Cell σ β :=
  { s with cohort := { s.cohort with members } }

def Cell.setCutover (s : Cell σ β) (i : Nat) (t : Cutover σ β) : Cell σ β :=
  { s with cutovers := s.cutovers.set i t }

variable [DecidableEq σ]

def ownsRange (start : σ → Nat) : Fin 3 → EncryptedRecord σ β → Bool :=
  fun _ r => decide (start r.stream ≤ r.lsn)

def snapshotTrims (snapshots : Fin 3 → Option (NodeSnapshot σ β)) (stream : σ) : List Nat :=
  [0, 1, 2].flatMap fun m => (snapshots m).elim [] fun s =>
    (s.trimmed.filter (·.stream = stream)).map (·.archivedLsn)

variable [DecidableEq β]

/-- The durable tail of a stream at the end of a cutover's evidence. -/
def judgedTail (start : σ → Nat) (archive : List (EncryptedRecord σ β))
    (snapshots : Fin 3 → Option (NodeSnapshot σ β)) (stream : σ)
    (others : List (EncryptedRecord σ β)) (trims : List Nat) : Nat :=
  certifiedStreamTail archive
    (others ++ collectCandidates (ownsRange start) snapshots stream)
    (snapshotTrims snapshots stream ++ trims)

def Cell.step (start : σ → Nat) (s : Cell σ β) : CellStep σ β → Option (Cell σ β)
  | .cohort a =>
    if a.Sent then (s.cohort.step start a).map fun cohort => { s with cohort } else none
  | .publish limit stream records =>
    (s.cohort.members.publish limit stream records).toOption.map s.setMembers
  | .compact m heads => (s.cohort.members.compact m heads).toOption.map s.setMembers
  | .fence m fence =>
    if (s.cohort.members.nodes m).maintenance = none then
      some (s.setMembers (s.cohort.members.setMaintenance m (some fence)))
    else none
  | .release m =>
    if ∀ t ∈ s.cutovers, t.done = true then
      some (s.setMembers (s.cohort.members.setMaintenance m none))
    else none
  | .cutover fence =>
    if ∀ m, (s.cohort.members.nodes m).maintenance = some fence then
      some { s with cutovers := s.cutovers ++
        [⟨fence, s.cohort.members.answered, fun _ => none, false⟩] }
    else none
  | .hear i m => s.cutovers[i]?.bind fun t =>
    if t.done = false ∧ (t.heard m).isNone then
      some (s.setCutover i
        { t with heard := Function.update t.heard m (some (some (s.cohort.members.nodes m).snapshot)) })
    else none
  | .miss i m => s.cutovers[i]?.bind fun t =>
    if t.done = false ∧ (t.heard m).isNone then
      some (s.setCutover i { t with heard := Function.update t.heard m (some none) })
    else none
  | .judge i stream others trims => s.cutovers[i]?.bind fun t =>
    (allHeard t.heard).bind fun snapshots =>
      if t.done = false ∧ ackQuorum ≤ countOf (fun m => (snapshots m).isSome = true) ∧
          ∀ r ∈ others, r.stream = stream ∧ r.lsn < start stream then
        let lsn := judgedTail start (s.cohort.members.archive stream) snapshots stream others trims
        if lsn < start stream then
          if ∀ m, (snapshots m).isSome = true then
            some { s with dropped := ⟨stream, s.cohort.members.answered⟩ :: s.dropped }
          else none
        else some { s with sealed := ⟨stream, lsn, s.cohort.members.answered⟩ :: s.sealed }
      else none
  | .finish i => s.cutovers[i]?.bind fun t => some (s.setCutover i { t with done := true })

/-- What a cutover may rely on: archive and earlier ranges chain up to the open one, the answering
members show one record at each LSN above that, the first of an epoch not older. -/
def Settled (start : σ → Nat) (archive : List (EncryptedRecord σ β))
    (snapshots : Fin 3 → Option (NodeSnapshot σ β)) (stream : σ)
    (others : List (EncryptedRecord σ β)) : Prop :=
  let below := certifiedWalk (archive ++ others) (archive ++ others).length 1 0
  start stream ≤ below.1 + 1 ∧
    (∀ p ∈ evidence (ownsRange start) snapshots, ∀ q ∈ evidence (ownsRange start) snapshots,
      p.stream = stream → q.stream = stream → below.1 < p.lsn → p.lsn = q.lsn → p = q) ∧
    ∀ p ∈ evidence (ownsRange start) snapshots, p.stream = stream → p.lsn = below.1 + 1 →
      below.2 ≤ p.writerEpoch

instance (start : σ → Nat) (archive : List (EncryptedRecord σ β))
    (snapshots : Fin 3 → Option (NodeSnapshot σ β)) (stream : σ)
    (others : List (EncryptedRecord σ β)) : Decidable (Settled start archive snapshots stream others) :=
  inferInstanceAs (Decidable (_ ∧ _ ∧ _))

/-- Withdrawals are outranked, the archive takes records of the open range that two members
hold, and a cutover judges settled streams. -/
def Cell.Certain (start : σ → Nat) (s : Cell σ β) : CellStep σ β → Prop
  | .cohort a => s.cohort.WithdrawsOutranked start a
  | .publish limit stream records =>
    ∀ r ∈ nextSegment limit (s.cohort.members.archive stream) records, start stream ≤ r.lsn →
      TwoOf fun m => r ∈ (s.cohort.members.nodes m).records
  | .judge i stream others _ => ∀ t ∈ s.cutovers[i]?, ∀ snapshots ∈ allHeard t.heard,
    Settled start (s.cohort.members.archive stream) snapshots stream others
  | _ => True

instance (start : σ → Nat) (s : Cell σ β) : DecidablePred (s.Certain start) := fun a =>
  match a with
  | .cohort a => inferInstanceAs (Decidable (s.cohort.WithdrawsOutranked start a))
  | .publish _ _ _ => inferInstanceAs (Decidable (∀ r ∈ _, _))
  | .judge i _ _ _ => inferInstanceAs (Decidable (∀ t ∈ s.cutovers[i]?, _))
  | .compact .. | .fence .. | .release .. | .cutover .. | .hear .. | .miss .. | .finish .. =>
    instDecidableTrue

def Cell.Covered (s : Cell σ β) : Prop :=
  (∀ x ∈ s.sealed, ∀ r, AckedIn x.answered r → r.stream = x.stream → r.lsn ≤ x.lsn) ∧
    ∀ x ∈ s.dropped, ∀ r, AckedIn x.answered r → r.stream ≠ x.stream

end Walleye.Bitr
