import Walleye.Recovery.Seams

namespace Walleye.Recovery

open Walleye.Base Walleye.Bitr
open Walleye.Engine (u64Max saturatingAdd saturatingAdd_le)

variable {σ β ν κ δ ω : Type}

section Chain

variable (evidence : List (EncryptedRecord σ β)) (committed : Nat)

def Sole (r : EncryptedRecord σ β) : Prop := r ∈ evidence ∧ ∀ q ∈ evidence, q.lsn = r.lsn → q = r

/-- Consecutive records up to the watermark from an LSN on, each the sole one at its LSN, naming
its predecessor, and of no older writer than `epoch` or the one before it. -/
def SoleChain : Nat → Nat → List (EncryptedRecord σ β) → Prop
  | _, _, [] => True
  | expected, epoch, r :: rest =>
    r.lsn = expected ∧ expected ≤ committed ∧ Sole evidence r ∧ r.committedLsn = expected - 1 ∧
      epoch ≤ r.writerEpoch ∧ SoleChain (expected + 1) r.writerEpoch rest

variable {evidence committed} {expected epoch : Nat} {records : List (EncryptedRecord σ β)}
  {r : EncryptedRecord σ β}

theorem SoleChain.mem (h : SoleChain evidence committed expected epoch records) :
    ∀ q ∈ records, q ∈ evidence ∧ expected ≤ q.lsn ∧ q.lsn ≤ committed := by
  induction records generalizing expected epoch with
  | nil => simp
  | cons r rest ih =>
    obtain ⟨hl,hle,hs,-,-,hr⟩ := h
    refine List.forall_mem_cons.mpr ⟨⟨hs.1,by omega,by omega⟩,?_⟩
    intro q hq
    have hm := ih hr q hq
    exact ⟨hm.1,by omega,hm.2.2⟩

variable [DecidableEq σ] [DecidableEq β]

end Chain

section Certified

variable {offered rest : List (EncryptedRecord σ β)} {committed : Nat}

end Certified

section Repair

variable [DecidableEq σ] [DecidableEq β] (owns : ν → σ → Nat → Bool) (snapshots : Snapshots ν σ β)
  (stream : σ) (committed : Nat) {verify : EncryptedRecord σ β → Option (Except ReplicaError Unit)}

variable {owns snapshots stream committed}

end Repair

section Recovery

variable [DecidableEq ν] [DecidableEq σ] [DecidableEq β]

variable {inputs : Inputs σ β ν κ δ ω} {stream : σ} {early snapshots : Snapshots ν σ β}

end Recovery

section Shown

end Shown

end Walleye.Recovery
