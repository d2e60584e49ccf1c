import Mathlib.Data.List.Basic
import Walleye.Base.Guards

namespace Walleye.Bitr

open Walleye.Base

/-- A sealed record. The node sees its place in the stream, the writer's epoch and the LSN its
writer knew committed; the rest is `body`. -/
structure EncryptedRecord (σ β : Type) where
  stream : σ
  writerEpoch : Nat
  lsn : Nat
  committedLsn : Nat
  body : β
deriving DecidableEq, Repr

inductive ReplicaError where
  | protocol (message : String)
  | invalidWatermark (lsn committedLsn : Nat)
  | lsnConflict
  | writerFenced
  | quorumUnavailable
  | nodeUnavailable
  | gatewayUnauthorized
  | nodeStorage (message : String)
  | capacityExceeded (cohortId requestedBytes maxAppendBytes : Nat)
  | commitCertificateMissing
  | recoveryGap (expectedLsn receivedLsn : Nat)
  | recoveryIncomplete (expectedLsn committedLsn : Nat)
  | recoveryAmbiguous (lsn committedNodes quorum : Nat)
deriving DecidableEq, Repr

variable {σ β : Type}

instance EncryptedRecord.lawfulBEq [DecidableEq σ] [DecidableEq β] :
    LawfulBEq (EncryptedRecord σ β) := inferInstance

def EncryptedRecord.SameSlot (r q : EncryptedRecord σ β) : Prop :=
  r.stream = q.stream ∧ r.lsn = q.lsn

def EncryptedRecord.Chained (r : EncryptedRecord σ β) : Prop :=
  0 < r.lsn ∧ r.committedLsn = r.lsn - 1

instance (r : EncryptedRecord σ β) : Decidable r.Chained :=
  inferInstanceAs (Decidable (_ ∧ _))

variable {batch : List (EncryptedRecord σ β)}

theorem eq_of_pairwise_lsn (h : batch.Pairwise (·.lsn < ·.lsn)) (hr : r ∈ batch)
    (hq : q ∈ batch) (he : r.lsn = q.lsn) : r = q := by
  induction h with
  | nil => cases hr
  | cons hl _ ih =>
    rcases List.mem_cons.mp hr with rfl | hr'
    · rcases List.mem_cons.mp hq with rfl | hq'
      · rfl
      · exact absurd he (Nat.ne_of_lt (hl q hq'))
    · rcases List.mem_cons.mp hq with rfl | hq'
      · exact absurd he.symm (Nat.ne_of_lt (hl r hr'))
      · exact ih hr' hq'

variable [DecidableEq σ]

/-- The records of a batch after `previous`: one stream and writer epoch, adjacent LSNs,
each naming its predecessor as committed. -/
def validateAfter (first : EncryptedRecord σ β) :
    EncryptedRecord σ β → List (EncryptedRecord σ β) → Except ReplicaError Unit
  | _, [] => .ok ()
  | previous, current :: rest =>
    if current.stream ≠ first.stream then
      .error (.protocol "encrypted record batch contains multiple streams")
    else if current.writerEpoch ≠ first.writerEpoch then
      .error (.protocol "encrypted record batch contains multiple writer epochs")
    else if current.lsn ≠ previous.lsn + 1 then .error .lsnConflict
    else if current.committedLsn ≠ previous.lsn then
      .error (.invalidWatermark current.lsn current.committedLsn)
    else if current.lsn ≤ current.committedLsn then
      .error (.invalidWatermark current.lsn current.committedLsn)
    else validateAfter first current rest

def validateAppendBatch : List (EncryptedRecord σ β) → Except ReplicaError Unit
  | [] => .error (.protocol "encrypted record batch must not be empty")
  | first :: rest =>
    if first.lsn ≤ first.committedLsn then
      .error (.invalidWatermark first.lsn first.committedLsn)
    else validateAfter first first rest

theorem validateAfter_spec
    {rest : List (EncryptedRecord σ β)} (h : validateAfter first previous rest = .ok ()) :
    (∀ r ∈ rest, r.stream = first.stream ∧ r.writerEpoch = first.writerEpoch ∧
      r.Chained ∧ previous.lsn < r.lsn) ∧ rest.Pairwise (·.lsn < ·.lsn) := by
  induction rest generalizing previous with
  | nil => exact ⟨by simp,.nil⟩
  | cons current rest ih =>
    simp only [validateAfter,guard_ok,ne_eq,not_not] at h
    obtain ⟨hs,he,hl,hp,_,hre⟩ := h
    obtain ⟨ha,hpa⟩ := ih hre
    refine ⟨?_,.cons (fun r hr => (ha r hr).2.2.2) hpa⟩
    intro r hr
    rcases List.mem_cons.mp hr with rfl | hr
    · exact ⟨hs,he,⟨by omega,by omega⟩,by omega⟩
    · obtain ⟨h1,h2,h3,h4⟩ := ha r hr
      exact ⟨h1,h2,h3,by omega⟩

theorem validateAppendBatch_sorted
    (h : validateAppendBatch batch = .ok ()) : batch.Pairwise (·.lsn < ·.lsn) := by
  cases batch with
  | nil => exact .nil
  | cons first rest =>
    simp only [validateAppendBatch,guard_ok] at h
    obtain ⟨ha,hp⟩ := validateAfter_spec h.2
    exact .cons (fun r hr => (ha r hr).2.2.2) hp

structure ValidBatch (batch : List (EncryptedRecord σ β)) : Prop where
  positive : ∀ r ∈ batch, 0 < r.lsn
  watermark : ∀ r ∈ batch, r.committedLsn < r.lsn
  stream : ∀ r ∈ batch, ∀ q ∈ batch, r.stream = q.stream
  epoch : ∀ r ∈ batch, ∀ q ∈ batch, r.writerEpoch = q.writerEpoch
  lsn : ∀ r ∈ batch, ∀ q ∈ batch, r.lsn = q.lsn → r = q

theorem validateAppendBatch_spec (h : validateAppendBatch batch = .ok ()) : ValidBatch batch := by
  have hs := validateAppendBatch_sorted h
  cases batch with
  | nil => cases h
  | cons first rest =>
    simp only [validateAppendBatch,guard_ok] at h
    obtain ⟨hf,hre⟩ := h
    obtain ⟨ha,_⟩ := validateAfter_spec hre
    have hf' : ∀ r ∈ first :: rest, r.stream = first.stream ∧
        r.writerEpoch = first.writerEpoch ∧ r.committedLsn < r.lsn := by
      intro r hr
      rcases List.mem_cons.mp hr with rfl | hr
      · exact ⟨rfl,rfl,by omega⟩
      · obtain ⟨h1,h2,⟨hp,hl⟩,_⟩ := ha r hr
        exact ⟨h1,h2,by omega⟩
    exact ⟨fun r hr => Nat.zero_lt_of_lt (hf' r hr).2.2,fun r hr => (hf' r hr).2.2,
      fun r hr q hq => (hf' r hr).1.trans (hf' q hq).1.symm,
      fun r hr q hq => (hf' r hr).2.1.trans (hf' q hq).2.1.symm,
      fun r hr q hq => eq_of_pairwise_lsn hs hr hq⟩

end Walleye.Bitr
