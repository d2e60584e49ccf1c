import Walleye.Bitr.Member
import Walleye.Bitr.Archive

namespace Walleye.Bitr

open Walleye.Base

/-- The members of a cohort and the archive. For the proofs, `logs` is what each member accepted and
did not withdraw, `answered` the batches it answered with success. -/
structure Members (σ β : Type) where
  nodes : Fin 3 → DiskState σ β
  logs : Fin 3 → List (EncryptedRecord σ β)
  answered : List (Fin 3 × List (EncryptedRecord σ β))
  archive : σ → List (EncryptedRecord σ β)

variable {σ β : Type}

def Members.empty : Members σ β := ⟨fun _ => .empty, fun _ => [], [], fun _ => []⟩

def AcceptedIn (answered : List (Fin 3 × List (EncryptedRecord σ β))) (m : Fin 3)
    (r : EncryptedRecord σ β) : Prop :=
  ∃ batch, (m, batch) ∈ answered ∧ r ∈ batch

def AckedIn (answered : List (Fin 3 × List (EncryptedRecord σ β))) (r : EncryptedRecord σ β) :
    Prop :=
  TwoOf fun m => AcceptedIn answered m r

def Members.Accepted (s : Members σ β) (m : Fin 3) (r : EncryptedRecord σ β) : Prop :=
  AcceptedIn s.answered m r

def Members.Acked (s : Members σ β) (r : EncryptedRecord σ β) : Prop :=
  AckedIn s.answered r

variable {m : Fin 3} {r : EncryptedRecord σ β}

theorem AcceptedIn.mono (h : AcceptedIn answered m r)
    (hs : answered ⊆ answered') : AcceptedIn answered' m r := by
  obtain ⟨batch,hb,hr⟩ := h
  exact ⟨batch,hs hb,hr⟩

theorem AckedIn.mono (h : AckedIn answered r) (hs : answered ⊆ answered') : AckedIn answered' r :=
  TwoOf.mono h fun _ hm => hm.mono hs

def Members.take (s : Members σ β) (m : Fin 3) (node : DiskState σ β)
    (batch : List (EncryptedRecord σ β)) : Members σ β :=
  { s with
    nodes := Function.update s.nodes m node
    logs := Function.update s.logs m (s.logs m ++ batch)
    answered := (m, batch) :: s.answered }

theorem Members.accepted_take {s : Members σ β} :
    (s.take m node batch).Accepted a r ↔ (a = m ∧ r ∈ batch) ∨ s.Accepted a r := by
  constructor
  · rintro ⟨b,hb,hr⟩
    rcases List.mem_cons.mp hb with he | hb
    · cases he
      exact .inl ⟨rfl,hr⟩
    · exact .inr ⟨b,hb,hr⟩
  · rintro (⟨rfl,hr⟩ | ⟨b,hb,hr⟩)
    · exact ⟨batch,List.mem_cons_self,hr⟩
    · exact ⟨b,List.mem_cons_of_mem _ hb,hr⟩

theorem Members.mem_take_logs {s : Members σ β} :
    r ∈ (s.take m node batch).logs a ↔ (a = m ∧ r ∈ batch) ∨ r ∈ s.logs a := by
  by_cases ha : a = m
  · subst ha
    simp [Members.take,or_comm]
  · simp [Members.take,ha]

variable [DecidableEq σ] [DecidableEq β]

def Members.append (start : σ → Nat) (s : Members σ β) (m : Fin 3)
    (batch : List (EncryptedRecord σ β)) : Except ReplicaError (Members σ β) :=
  if batch.any fun r => decide (r.lsn < start r.stream) then .error .writerFenced
  else ((s.nodes m).appendMany (opens start) none true batch).bind fun node =>
    .ok (s.take m node batch)

def Members.withdraw (s : Members σ β) (m : Fin 3) (stream : σ) (lsn writerEpoch : Nat) :
    Except ReplicaError (Members σ β) :=
  ((s.nodes m).supersede stream lsn writerEpoch).bind fun node => .ok
    { s with
      nodes := Function.update s.nodes m node
      logs := Function.update s.logs m (withdrawn stream lsn (s.logs m)) }

def Members.publish (s : Members σ β) (limit : Nat) (stream : σ)
    (records : List (EncryptedRecord σ β)) : Except ReplicaError (Members σ β) :=
  (archiveCommitted limit stream (s.archive stream) records).bind fun archive => .ok
    { s with archive := Function.update s.archive stream archive }

/-- The trim fences of a compaction: prefixes the archive held when it was asked. -/
def Members.fences (s : Members σ β) (heads : List (σ × Nat)) : List (TrimmedPrefix σ) :=
  heads.map fun h => ⟨h.1, h.2, headEpoch ((s.archive h.1).take h.2)⟩

def Members.compact (s : Members σ β) (m : Fin 3) (heads : List (σ × Nat)) :
    Except ReplicaError (Members σ β) :=
  if heads.any fun h => decide (headLsn (s.archive h.1) < h.2) then
    .error (.nodeStorage "archive watermark trails compacted LSN")
  else ((s.nodes m).compactArchivedBatch (s.fences heads)).bind fun node => .ok
    { s with nodes := Function.update s.nodes m node }

end Walleye.Bitr
