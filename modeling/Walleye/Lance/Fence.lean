import Walleye.Lance.Atomic

namespace Walleye.Lance

open Walleye.Base Walleye.Base.BTreeMap
open Walleye.Engine (u64Max)

variable {ν π β : Type}

structure Predecessors (position writerEpoch : Nat) (entries : List (RecoveredEntry π β)) :
    Prop where
  starts : entries.head?.map (·.position) = some position
  earlier : ∀ entry ∈ entries, entry.writerEpoch < writerEpoch

theorem poisonIfStructural_cursor (state : BackendState ν π) (error : WalBackendError ν) :
    (poisonIfStructural state error).nextPosition = state.nextPosition ∧
      (poisonIfStructural state error).pending = state.pending := by
  unfold poisonIfStructural
  split <;> exact ⟨rfl,rfl⟩

section Recovered

variable [DecidableEq ν] [DecidableEq π] (backend : BitrWalBackend ν) (codec : WalCodec ν π β)
  (state : BackendState ν π) (position writerEpoch : Nat) (answer : RecoverAnswer ν π)

def Proven (entries : List (RecoveredEntry π β)) : Prop :=
  loadRecoveryForLance backend codec (position - 1) answer = .ok entries ∧
    Predecessors position writerEpoch entries

structure FenceRecovered (recovered : WalResult ν (WalWriteResult ν) × BackendState ν π) :
    Prop where
  skips : recovered.1 = .ok .alreadyExists →
    ∃ entries, Proven backend codec position writerEpoch answer entries ∧
      ∀ last ∈ entries.getLast?, ∃ next ∈ recovered.2.nextPosition, last.position < next
  keeps : recovered.1 ≠ .ok .alreadyExists →
    recovered.2.nextPosition = state.nextPosition ∧ recovered.2.pending = state.pending
  fenced : ∀ entries, loadRecoveryForLance backend codec (position - 1) answer = .ok entries →
    (∃ entry ∈ entries, writerEpoch < entry.writerEpoch) → recovered.2.poisoned ≠ none

variable {backend codec state}

/-- All that the recovery of an occupied fence position can answer. -/
theorem fenceRecovered : FenceRecovered backend codec state position writerEpoch answer
    (recoverFencePosition backend codec state position writerEpoch answer) := by
  unfold recoverFencePosition
  cases hl : loadRecoveryForLance backend codec (position - 1) answer with
  | error error =>
    exact ⟨nofun,fun _ => poisonIfStructural_cursor state error,fun entries hent =>
      nomatch hl.symm.trans hent⟩
  | ok entries =>
    simp only
    split
    · refine ⟨nofun,fun _ => poisonIfStructural_cursor state .fenced,fun _ _ _ => ?_⟩
      unfold poisonIfStructural
      split
      · simp
      · simp_all [WalBackendError.structural]
    rename_i hn
    have hf : ∀ found, loadRecoveryForLance backend codec (position - 1) answer = .ok found →
        (∃ entry ∈ found, writerEpoch < entry.writerEpoch) → False := by
      intro found hfo
      cases hl.symm.trans hfo
      exact hn
    split
    · exact ⟨nofun,fun _ => ⟨rfl,rfl⟩,fun found hfo hlar =>
        (hf found hfo hlar).elim⟩
    rename_i hp
    simp only [not_or,not_not] at hp
    have hpre : Predecessors position writerEpoch entries := by
      refine ⟨hp.1,fun entry he => ?_⟩
      have hlar : ¬ writerEpoch < entry.writerEpoch := fun hlt => hn ⟨entry,he,hlt⟩
      have ho : entry.writerEpoch ≠ writerEpoch := fun heq => hp.2 ⟨entry,he,heq⟩
      omega
    have ht := (load_tail hl).1
    unfold applyRecoveryForLance
    cases ht.retainForLance_cases backend state with
    | inl hw =>
      rw [hw.2]
      exact ⟨fun _ => ⟨entries,⟨hl,hpre⟩,fun last hla => ht.past (List.mem_of_getLast? hla)⟩,
        fun hne => absurd rfl hne,fun found hfo hlar =>
          (hf found hfo hlar).elim⟩
    | inr hs =>
      obtain ⟨error,before,conflict,after,-,-,-,-,hr⟩ := hs
      rw [hr]
      refine ⟨nofun,fun _ => ?_,fun found hfo hlar =>
        (hf found hfo hlar).elim⟩
      have hc := poisonIfStructural_cursor (retainAll (knownForLance backend) state before)
        error
      rwa [retainAll_nextPosition,retainAll_pending] at hc

theorem appendLocked_ne_alreadyExists (write : WalWrite ν π) (entry : IpcEntry β)
    (answer : AppendAnswer ν) :
    (appendLocked backend state write entry answer).result ≠ .ok .alreadyExists := by
  unfold appendLocked repeatWrite settleWrite commitWrite
  simp only
  repeat' split
  all_goals simp

variable (backend codec) in
/-- A fence that finds its position occupied: it is refused with a conflict in the state `refused`,
which is not poisoned, and then asks for the tail at its position. -/
def Occupied (state : BackendState ν π) (write : WalWrite ν π) (tail : RecoverAnswer ν π)
    (append : AppendAnswer ν) (refused : BackendState ν π) : Prop :=
  ∃ entry position next, Placed backend codec state true tail write entry position next ∧
    (∃ occupied reason, (appendLocked backend next write entry append).result =
      .error (.lsnConflict occupied reason)) ∧
    (appendLocked backend next write entry append).state = refused ∧ refused.poisoned = none

theorem Occupied.appendAtPosition_eq {refused : BackendState ν π}
    (h : Occupied backend codec state write tail append refused) (occupied : RecoverAnswer ν π) :
    ((appendAtPosition backend codec state write true tail append occupied).result,
        (appendAtPosition backend codec state write true tail append occupied).state) =
      recoverFencePosition backend codec refused write.entryPosition write.writerEpoch
        occupied := by
  obtain ⟨entry,position,next,hp,⟨_,_,hc⟩,rfl,hn⟩ := h
  have hok : ensureNotPoisoned state = .ok () := ensureNotPoisoned_eq_ok.mpr hp.clean
  unfold appendAtPosition
  rw [if_neg (not_not.mpr hp.shard),hp.decoded,hok,hp.ensured]
  simp only [hc,hn,and_self,if_true]

/-- A fence is told that its position exists only past a validated tail of earlier writers, behind
which it continues. When the position is occupied the fence keeps its place otherwise, and a later
writer in the validated tail poisons the adapter. -/
theorem fence_skips_only_predecessors (state : BackendState ν π) (write : WalWrite ν π)
    (tail : RecoverAnswer ν π) (append : AppendAnswer ν) (occupied : RecoverAnswer ν π) :
    ((appendAtPosition backend codec state write true tail append occupied).result =
        .ok .alreadyExists →
      ∃ entries, Proven backend codec write.entryPosition write.writerEpoch occupied entries ∧
        ∀ last ∈ entries.getLast?, ∃ next ∈
          (appendAtPosition backend codec state write true tail append occupied).state.nextPosition,
            last.position < next) ∧
    ∀ refused : BackendState ν π, Occupied backend codec state write tail append refused →
      FenceRecovered backend codec refused write.entryPosition write.writerEpoch occupied
        ((appendAtPosition backend codec state write true tail append occupied).result,
          (appendAtPosition backend codec state write true tail append occupied).state) := by
  refine ⟨?_,?_⟩
  · have ha := appendAtPosition_appending backend codec state true tail append write occupied
    generalize appendAtPosition backend codec state write true tail append occupied = appended at *
    cases ha with
    | refused error => exact nofun
    | unplaced he => exact nofun
    | placed hp => exact fun h => absurd h (appendLocked_ne_alreadyExists write _ append)
    | fenced hp hc hpr =>
      cases hpr
      exact (fenceRecovered _ _ _).skips
  · intro refused ho
    rw [ho.appendAtPosition_eq occupied]
    exact fenceRecovered _ _ _

end Recovered

section Unpoisoned

def laterRecord (lsn : Nat) : AppendRecord Nat (Nat × Nat) := ⟨5, 5, lsn, lsn - 1, (5, 3)⟩

def earlierFence (position : Nat) : WalWrite Nat (Nat × Nat) := ⟨9, 1, position, (1, 0)⟩

/-- A fresh adapter of epoch 9 finds the later writer's record before it knows its position, and
stops for want of a certificate. At the last position the later writer's record does not pass the
checks of the tail. Neither poisons the adapter. -/
theorem later_writer_leaves_fence_unpoisoned :
    (∃ after : BackendState Nat (Nat × Nat),
      appendAtPosition ⟨5, 9, 9, 7⟩ plainCodec (BitrWalBackend.start ⟨5, 9, 9, 7⟩) (earlierFence 1)
        true (.ok [laterRecord 1]) (.error (.replica .lsnConflict)) (.ok [laterRecord 1]) =
          ⟨.error .commitCertificateMissing, after, none⟩ ∧ after.poisoned = none) ∧
    ∃ after : BackendState Nat (Nat × Nat), ∃ sent,
      appendAtPosition plainBackend plainCodec
        { plainBackend.start with nextPosition := some u64Max } (earlierFence u64Max)
        true (.ok []) (.error (.replica .lsnConflict)) (.ok [laterRecord u64Max]) =
          ⟨.error (.invalidPosition u64Max), after, sent⟩ ∧ after.poisoned = none :=
  ⟨⟨_,rfl,rfl⟩,⟨_,_,rfl,rfl⟩⟩

end Unpoisoned

end Walleye.Lance
