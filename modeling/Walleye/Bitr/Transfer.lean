import Mathlib.Logic.Function.Basic
import Mathlib.Order.Nat
import Walleye.Bitr.Member

namespace Walleye.Bitr

open Walleye.Base

variable {σ β : Type}

def InOrder (q r : EncryptedRecord σ β) : Prop :=
  q.stream = r.stream → q.lsn < r.lsn

def Fits (boundary : EncryptedRecord σ β → Bool) (all : List (EncryptedRecord σ β))
    (r : EncryptedRecord σ β) : Prop :=
  (∀ q ∈ all, q.stream = r.stream → q.lsn < r.lsn → q.writerEpoch ≤ r.writerEpoch) ∧
    (r.lsn ≤ 1 ∨ boundary r = true ∨ ∃ q ∈ all, q.stream = r.stream ∧ q.lsn = r.lsn - 1)

variable [DecidableEq σ]

section Checkpoint

variable {s : DiskState σ β}

end Checkpoint

variable [DecidableEq β]

/-- The client's answer for an append or commit that the member refused. -/
def maintenanceError : ReplicaError → ReplicaError
  | .lsnConflict | .writerFenced => .writerFenced
  | _ => .nodeUnavailable

def copyAll (boundary : EncryptedRecord σ β → Bool) (fence : MaintenanceFence)
    (snapshot : NodeSnapshot σ β) :
    List (EncryptedRecord σ β) → DiskState σ β → Except ReplicaError (DiskState σ β)
  | [], node => .ok node
  | r :: rest, node =>
    if r ∈ snapshot.records ∧ r ∈ snapshot.committed then copyAll boundary fence snapshot rest node
    else ((node.append boundary (some fence) r).mapError maintenanceError).bind fun node =>
      ((node.commit (some fence) r).mapError maintenanceError).bind fun node =>
        copyAll boundary fence snapshot rest node

section Copy

variable {done rest : List (EncryptedRecord σ β)}

end Copy

end Walleye.Bitr
