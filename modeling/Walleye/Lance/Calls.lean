import Walleye.Lance.Cursors

namespace Walleye.Lance

open Walleye.Base Walleye.Base.BTreeMap
open Walleye.Engine (u64Max saturatingAdd)

variable {ν π β : Type} {backend : BitrWalBackend ν} {codec : WalCodec ν π β}
  {acknowledged : List (PendingWrite π)} {state next : BackendState ν π}

section Strict

def Agrees (acknowledged : List (PendingWrite π)) (state : BackendState ν π)
    (records : List (AppendRecord ν π)) : Prop :=
  ∀ record ∈ records,
    (∀ write ∈ acknowledged, state.checkpointedPosition < write.position →
      record.lsn = write.position → record.payload = write.payload) ∧
    ∀ write ∈ state.pending, state.nextPosition = some write.position →
      record.lsn = write.position → record.payload = write.payload

instance [DecidableEq π] (records : List (AppendRecord ν π)) :
    Decidable (Agrees acknowledged state records) :=
  inferInstanceAs (Decidable (∀ record ∈ records, _ ∧ _))

theorem Undiscovered.agrees (h : Undiscovered acknowledged state)
    (records : List (AppendRecord ν π)) : Agrees acknowledged state records := by
  intro record _
  rw [h.acknowledged,h.pending]
  exact ⟨(fun _ hw => nomatch hw),fun _ hw => nomatch hw⟩

theorem Cursors.movedTake [DecidableEq π] (h : Cursors acknowledged state)
    {loaded : WalResult ν (List (RecoveredEntry π β))}
    (hl : ∀ entries, loaded = .ok entries → ∃ expected, Tail expected entries ∧
      ∀ entry ∈ entries, RepeatsBytes acknowledged state.checkpointedPosition entry ∧
        RepeatsPending state entry) (persisted : Option (CommitKnowledge ν)) :
    Moved acknowledged state (takeStrict state loaded persisted).2 := by
  cases loaded with
  | error error => exact h.poison error
  | ok entries =>
    obtain ⟨expected,ht,ha⟩ := hl entries rfl
    have hm := h.movedStrict ht (fun entry he => (ha entry he).1)
      (fun entry he => (ha entry he).2) persisted
    unfold takeStrict
    simp only
    generalize applyRecovery state entries persisted = applied at *
    obtain ⟨result,after⟩ := applied
    cases result with
    | error error => exact hm
    | ok u => exact hm

theorem takeStrict_unknown [DecidableEq π]
    (hk : state.knowledge.committedLsn = 0)
    (hl : ∀ found, loaded = .ok found → Tail 1 found) (entries : List (RecoveredEntry π β))
    (h : (takeStrict state loaded none).1 = .ok entries) :
    entries = [] ∧ (takeStrict state loaded none).2 = advanceNextPosition state entries := by
  cases loaded with
  | error error => cases h
  | ok found =>
    have hf : found = [] := by
      cases hla : found.getLast? with
      | none => exact List.getLast?_eq_none_iff.mp hla
      | some last =>
        have hp := ((hl found rfl).mem (List.mem_of_getLast? hla)).1
        have hm : ¬last.position ≤ state.knowledge.committedLsn := by omega
        simp [takeStrict,applyRecovery,recoveredKnowledge,hla,hm] at h
    subst hf
    have he : entries = [] := by
      simpa [takeStrict,applyRecovery,recoveredKnowledge,retainStrict,finishTail] using h.symm
    subst he
    simp [takeStrict,applyRecovery,recoveredKnowledge,retainStrict,finishTail]

theorem Undiscovered.advance (h : Undiscovered acknowledged state)
    (hn : state.nextPosition = none) :
    advanceNextPosition state ([] : List (RecoveredEntry π β)) =
      { state with nextPosition := some 1 } := by
  have hkey : state.committed.keys.max? = none := by
    apply List.max?_eq_none_iff.mpr
    apply List.eq_nil_iff_forall_not_mem.mpr
    intro key hk
    obtain ⟨entry,he⟩ := mem_keys_iff.mp hk
    simp [h.committed] at he
  simp [advanceNextPosition,hn,hkey]

variable [DecidableEq ν]

theorem loadRecovery_agrees (ha : ∀ records ∈ answer.toOption, Agrees acknowledged state records)
    (h : loadRecovery backend codec afterLsn answer = .ok entries) :
    Tail (afterLsn + 1) entries ∧
      ∀ entry ∈ entries, RepeatsBytes acknowledged state.checkpointedPosition entry ∧
        RepeatsPending state entry := by
  obtain ⟨ht,records,han,hf⟩ := load_tail h
  refine ⟨ht,?_⟩
  intro entry he
  obtain ⟨record,hr,hl,hp⟩ := hf entry he
  obtain ⟨hb,hpe⟩ := ha records (by rw [han]; rfl) record hr
  constructor
  · intro write hw hc hs
    rw [← hp]
    exact hb write hw hc (hl.trans hs)
  · intro write hw hn hs
    rw [← hp]
    exact hpe write hw hn (hl.trans hs)

variable [DecidableEq π]

theorem Cursors.movedLoad (h : Cursors acknowledged state)
    (ha : ∀ records ∈ answer.toOption, Agrees acknowledged state records)
    (persisted : Option (CommitKnowledge ν)) :
    Moved acknowledged state
      (takeStrict state (loadRecovery backend codec afterLsn answer) persisted).2 :=
  h.movedTake (fun _ hl => ⟨_,loadRecovery_agrees ha hl⟩) persisted

/-- Discovering the position moves no cursor back. -/
theorem Cursors.movedEnsure (backend : BitrWalBackend ν) (codec : WalCodec ν π β)
    (h : Cursors acknowledged state) (answer : RecoverAnswer ν π) :
    Moved acknowledged state (ensurePosition backend codec state answer).2 ∧
      ∀ position, (ensurePosition backend codec state answer).1 = .ok position →
        state.nextPosition.getD 1 = position ∧
          (ensurePosition backend codec state answer).2 =
            { state with nextPosition := some position } := by
  cases hn : state.nextPosition with
  | some found =>
    simp only [ensurePosition,hn,Option.getD_some]
    refine ⟨h.moved,?_⟩
    intro position hp
    cases hp
    refine ⟨rfl,?_⟩
    rw [← hn]
  | none =>
    have hund := h.undiscovered hn
    have hm : Moved acknowledged state
        (takeStrict state (loadRecovery backend codec 0 answer) none).2 :=
      h.movedLoad (fun records _ => hund.agrees records) none
    have hu := takeStrict_unknown hund.knowledge
      fun found (hf : loadRecovery backend codec 0 answer = .ok found) => (load_tail hf).1
    simp only [ensurePosition,hn]
    generalize takeStrict state (loadRecovery backend codec 0 answer) none = taken at *
    obtain ⟨result,after⟩ := taken
    cases result with
    | error error => exact ⟨hm,fun _ hp => nomatch hp⟩
    | ok entries =>
      obtain ⟨rfl,ha⟩ := hu entries rfl
      rw [hund.advance hn] at ha
      subst ha
      refine ⟨hm,?_⟩
      intro position hp
      cases hp
      exact ⟨rfl,rfl⟩

end Strict

section Append

theorem ensureNotPoisoned_eq_ok : ensureNotPoisoned state = .ok u ↔ state.poisoned = none := by
  unfold ensureNotPoisoned
  cases state.poisoned <;> simp

def WalWrite.outstanding (write : WalWrite ν π) : PendingWrite π :=
  ⟨write.entryPosition, write.payload⟩

section Appending

variable [DecidableEq ν] [DecidableEq π] (backend : BitrWalBackend ν) (codec : WalCodec ν π β)
  (state : BackendState ν π) (fence : Bool) (tail : RecoverAnswer ν π) (answer : AppendAnswer ν)

/-- A write for the adapter's shard passes the checks, and the next position is found. -/
structure Placed (write : WalWrite ν π) (entry : IpcEntry β) (position : Nat)
    (next : BackendState ν π) : Prop where
  shard : write.shardId = backend.shardId
  decoded : decodeForWrite backend codec write.payload fence write.writerEpoch = .ok entry
  clean : state.poisoned = none
  ensured : ensurePosition backend codec state tail = (.ok position, next)

/-- What an append does: it is refused, its position is not found, or the write goes to the
replicas. A refused fence looks for a predecessor's tail. -/
inductive Appending (place : Nat → WalWrite ν π) (occupied : Option (RecoverAnswer ν π)) :
    Appended ν π → Prop
  | refused (error : WalBackendError ν) : Appending place occupied ⟨.error error, state, none⟩
  | unplaced {error : WalBackendError ν} {next : BackendState ν π}
      (hensured : ensurePosition backend codec state tail = (.error error, next)) :
      Appending place occupied ⟨.error error, next, none⟩
  | placed {entry : IpcEntry β} {position : Nat} {next : BackendState ν π}
      (hplaced : Placed backend codec state fence tail (place position) entry position next) :
      Appending place occupied (appendLocked backend next (place position) entry answer)
  | fenced {entry : IpcEntry β} {position : Nat} {next : BackendState ν π} {refused : Nat}
      {reason : String} {probe : RecoverAnswer ν π}
      (hplaced : Placed backend codec state fence tail (place position) entry position next)
      (hconflict : (appendLocked backend next (place position) entry answer).result =
        .error (.lsnConflict refused reason)) (hprobe : probe ∈ occupied) :
      Appending place occupied
        ⟨(recoverFencePosition backend codec (appendLocked backend next (place position) entry
            answer).state (place position).entryPosition (place position).writerEpoch probe).1,
          (recoverFencePosition backend codec (appendLocked backend next (place position) entry
            answer).state (place position).entryPosition (place position).writerEpoch probe).2,
          (appendLocked backend next (place position) entry answer).sent⟩

theorem appendPayload_appending (payload : π) :
    Appending backend codec state fence tail answer
      (fun position => ⟨backend.shardId,backend.writerEpoch,position,payload⟩) none
      (appendPayload backend codec state payload fence tail answer) := by
  unfold appendPayload
  cases hd : decodeForWrite backend codec payload fence backend.writerEpoch with
  | error error => exact .refused error
  | ok entry =>
    cases hc : ensureNotPoisoned state with
    | error error => exact .refused error
    | ok u =>
      simp only
      split
      · exact .unplaced ‹_›
      · exact .placed ⟨rfl,hd,ensureNotPoisoned_eq_ok.mp hc,‹_›⟩

/-- An append at a position is one of the listed appends. -/
theorem appendAtPosition_appending (write : WalWrite ν π) (occupied : RecoverAnswer ν π) :
    Appending backend codec state fence tail answer (fun _ => write) (some occupied)
      (appendAtPosition backend codec state write fence tail answer occupied) := by
  unfold appendAtPosition
  split
  · exact .refused _
  rename_i hs
  cases hd : decodeForWrite backend codec write.payload fence write.writerEpoch with
  | error error => exact .refused error
  | ok entry =>
    cases hc : ensureNotPoisoned state with
    | error error => exact .refused error
    | ok u =>
      simp only
      split
      · exact .unplaced ‹_›
      · rename_i position next he
        have hp : Placed backend codec state fence tail write entry position next :=
          ⟨not_not.mp hs,hd,ensureNotPoisoned_eq_ok.mp hc,he⟩
        split
        · split
          · exact .fenced hp ‹_› rfl
          · exact .placed hp
        · exact .placed hp

end Appending

structure Appends (acknowledged : List (PendingWrite π)) (state : BackendState ν π)
    (write : PendingWrite π) (appended : Appended ν π) : Prop where
  moved : Moved acknowledged state appended.state
  sent : ∀ s ∈ appended.sent, s.next = some s.record.lsn
  committed : ∀ commit, appended.result = .ok (.committed commit) →
    commit.entryPosition = write.position ∧ Cursors (write :: acknowledged) appended.state ∧
      ((∃ s ∈ appended.sent, s.record.lsn = write.position ∧ s.record.payload = write.payload) ∨
        ∃ existing, state.committed[write.position]? = some existing ∧
          existing.payload = write.payload)

theorem Cursors.tail (h : Cursors (write :: acknowledged) state) : Cursors acknowledged state := by
  have hf := h.filling
  refine ⟨⟨hf.covered,hf.limit,hf.retained,hf.outstanding,
    fun w hw => hf.below w (List.mem_cons_of_mem _ hw),
    fun w hw => hf.bytes w (List.mem_cons_of_mem _ hw)⟩,?_⟩
  intro hn
  cases (h.undiscovered hn).acknowledged

theorem Moved.fails (h : Moved acknowledged state appended.state)
    (write : PendingWrite π) (hse : appended.sent = none)
    (he : ∀ commit, appended.result ≠ .ok (.committed commit)) :
    Appends acknowledged state write appended :=
  ⟨h,fun s hs => by simp [hse] at hs,fun commit hc => absurd hc (he commit)⟩

theorem Cursors.waiting (h : Cursors acknowledged state)
    (hn : state.nextPosition = some position) (payload : π) :
    Cursors acknowledged { state with pending := some ⟨position,payload⟩ } := by
  have hf := h.filling
  refine ⟨⟨hf.covered,hf.limit,hf.retained,?_,hf.below,
    hf.bytes⟩,?_⟩
  · intro write hw
    cases hw
    rw [show ({ state with pending := some ⟨position,payload⟩ } : BackendState ν π).nextPosition =
      some position from hn]
    exact Nat.le_refl _
  · intro hno
    rw [hn] at hno
    cases hno

/-- A committed write takes the next position and is retained. -/
theorem Cursors.commit (h : Cursors acknowledged state)
    (hn : state.nextPosition = some write.entryPosition) (hm : write.entryPosition ≠ u64Max)
    (entry : IpcEntry β) (knowledge : CommitKnowledge ν) :
    (commitWrite state write entry knowledge).1 = .ok (.committed ⟨write.entryPosition,knowledge⟩) ∧
      Cursors (⟨write.entryPosition,write.payload⟩ :: acknowledged)
        (commitWrite state write entry knowledge).2 ∧
      Moved acknowledged state (commitWrite state write entry knowledge).2 := by
  have hf := h.filling
  have hl := hf.limit
  have hc := hf.covered
  rw [hn,Option.getD_some] at hl hc
  have hb : ¬u64Max ≤ write.entryPosition := by omega
  simp only [commitWrite,if_neg hb]
  have hcu : Cursors (⟨write.entryPosition,write.payload⟩ :: acknowledged)
      { state with
        committed := state.committed.insert write.entryPosition ⟨write.payload,knowledge⟩
        nextPosition := some (write.entryPosition + 1)
        pending := none
        knowledge := knowledge
        fenceSentinelPosition :=
          if entry.fenceSentinel then some write.entryPosition
          else state.fenceSentinelPosition } := by
    refine ⟨⟨?_,?_,?_,?_,?_,?_⟩,fun hno => nomatch hno⟩
    · simp only [Option.getD_some]
      omega
    · simp only [Option.getD_some]
      omega
    · intro position found hfo
      simp only [Std.ExtTreeMap.getElem?_insert,Nat.compare_eq_eq] at hfo
      simp only [Option.getD_some]
      split at hfo
      · omega
      · have := h.retained_lt hfo
        have := (hf.retained position found hfo).1
        rw [hn,Option.getD_some] at *
        omega
    · intro w hw
      cases hw
    · intro w hw
      simp only [Option.getD_some]
      cases List.mem_cons.mp hw with
      | inl he =>
        subst he
        exact Nat.lt_succ_self _
      | inr hme =>
        have := hf.below w hme
        rw [hn,Option.getD_some] at this
        omega
    · intro w hw hp
      simp only [Std.ExtTreeMap.getElem?_insert,Nat.compare_eq_eq]
      cases List.mem_cons.mp hw with
      | inl he =>
        subst he
        exact ⟨_,if_pos rfl,rfl⟩
      | inr hme =>
        have hlt := hf.below w hme
        rw [hn,Option.getD_some] at hlt
        rw [if_neg (by omega)]
        exact hf.bytes w hme hp
  refine ⟨trivial,hcu,hcu.tail,?_,id⟩
  simp only [hn,Option.getD_some]
  omega

theorem Appends.after
    (h : Appends acknowledged next write appended) (hm : Moved acknowledged state next)
    (hco : next.committed = state.committed) :
    Appends acknowledged state write appended :=
  ⟨hm.trans h.moved,h.sent,fun commit hc => hco ▸ h.committed commit hc⟩

def Clean (state : BackendState ν π) (appended : Appended ν π) : Prop :=
  ∀ commit, appended.result = .ok (.committed commit) → state.poisoned = none

/-- Whatever the replicas answer, only the next position is acknowledged. -/
theorem Cursors.settles [DecidableEq ν] (backend : BitrWalBackend ν)
    (h : Cursors acknowledged state)
    (hn : state.nextPosition = some write.entryPosition) (hm : write.entryPosition ≠ u64Max)
    (entry : IpcEntry β) (answer : AppendAnswer ν) :
    Moved acknowledged state (settleWrite backend state write entry answer).2 ∧
      ∀ commit, (settleWrite backend state write entry answer).1 = .ok (.committed commit) →
        commit.entryPosition = write.entryPosition ∧
          Cursors (⟨write.entryPosition,write.payload⟩ :: acknowledged)
            (settleWrite backend state write entry answer).2 := by
  unfold settleWrite
  cases answer with
  | error error =>
    simp only
    refine ⟨?_,fun _ he => nomatch he⟩
    split
    · exact h.poison _
    · exact h.moved
  | ok knowledge =>
    simp only
    split
    · exact ⟨h.poison _,fun _ he => nomatch he⟩
    · obtain ⟨hr,hc,hmo⟩ := h.commit hn hm entry knowledge
      refine ⟨hmo,?_⟩
      intro commit hco
      rw [hr] at hco
      cases hco
      exact ⟨rfl,hc⟩

variable [DecidableEq π]

/-- A write repeated at a retained position repeats its bytes or is refused. -/
theorem Cursors.repeats (h : Cursors acknowledged state) (write : WalWrite ν π) :
    Appends acknowledged state ⟨write.entryPosition,write.payload⟩
      ⟨(repeatWrite state write (state.nextPosition.getD 1)).1,
        (repeatWrite state write (state.nextPosition.getD 1)).2,none⟩ := by
  unfold repeatWrite
  simp only
  split
  · rename_i hb
    split
    · exact (h.poison _).fails _ rfl (fun _ he => nomatch he)
    · rename_i existing hex
      split
      · rename_i hp
        refine ⟨h.moved,(fun _ hs => nomatch hs),?_⟩
        intro commit hc
        cases hc
        refine ⟨rfl,⟨⟨h.filling.covered,h.filling.limit,h.filling.retained,
          h.filling.outstanding,?_,?_⟩,?_⟩,.inr ⟨existing,hex,hp⟩⟩
        · intro w hw
          cases List.mem_cons.mp hw with
          | inl he =>
            subst he
            exact hb
          | inr hm => exact h.filling.below w hm
        · intro w hw hpo
          cases List.mem_cons.mp hw with
          | inl he =>
            subst he
            exact ⟨existing,hex,hp⟩
          | inr hm => exact h.filling.bytes w hm hpo
        · intro hn
          rw [(h.undiscovered hn).committed] at hex
          simp at hex
      · exact (h.poison _).fails _ rfl (fun _ he => nomatch he)
  · exact (h.poison _).fails _ rfl (fun _ he => nomatch he)

variable [DecidableEq ν]

/-- An append under the lock keeps the cursors. -/
theorem Cursors.appends (h : Cursors acknowledged state)
    (hn : state.nextPosition = some position) (hm : position ≠ u64Max)
    (write : WalWrite ν π) (entry : IpcEntry β) (answer : AppendAnswer ν) :
    Appends acknowledged state ⟨write.entryPosition,write.payload⟩
      (appendLocked backend state write entry answer) := by
  unfold appendLocked
  simp only
  split
  · exact h.repeats write
  · rename_i hp
    have hp : write.entryPosition = position := by
      rw [hn,Option.getD_some] at hp
      exact not_not.mp hp
    subst hp
    split
    · exact (h.poison _).fails _ rfl (fun _ he => nomatch he)
    · have hw := h.waiting hn write.payload
      obtain ⟨hmo,hc⟩ := hw.settles backend hn hm entry answer
      refine ⟨⟨hmo.cursors,hmo.position,hmo.poisoned⟩,?_,?_⟩
      · intro s hs
        cases hs
        exact hn
      · intro commit hr
        obtain ⟨hsa,hcu⟩ := hc commit hr
        exact ⟨hsa,hcu,.inl ⟨_,rfl,rfl,rfl⟩⟩

theorem Cursors.movedFence (backend : BitrWalBackend ν) (codec : WalCodec ν π β)
    (h : Cursors acknowledged state) (position writerEpoch : Nat) (answer : RecoverAnswer ν π) :
    Moved acknowledged state
        (recoverFencePosition backend codec state position writerEpoch answer).2 ∧
      ∀ commit, (recoverFencePosition backend codec state position writerEpoch answer).1 ≠
        .ok (.committed commit) := by
  unfold recoverFencePosition
  cases hl : loadRecoveryForLance backend codec (position - 1) answer with
  | error error => exact ⟨h.poison error,fun _ he => nomatch he⟩
  | ok entries =>
    simp only
    split
    · exact ⟨h.poison _,fun _ he => nomatch he⟩
    · split
      · exact ⟨h.moved,fun _ he => nomatch he⟩
      · have hm := h.movedForLance backend (load_tail hl).1
        generalize applyRecoveryForLance backend state entries = applied at *
        obtain ⟨result,after⟩ := applied
        cases result with
        | error error => exact ⟨hm.trans (hm.cursors.poison error),fun _ he => nomatch he⟩
        | ok u =>
          exact ⟨⟨hm.cursors.noPending,hm.position,hm.poisoned⟩,
            fun _ he => nomatch he⟩

/-- So does one that had to discover the position first. -/
theorem Cursors.ensured (h : Cursors acknowledged state)
    (hm : state.nextPosition ≠ some u64Max) {tail : RecoverAnswer ν π}
    (he : ensurePosition backend codec state tail = (.ok position,next))
    (write : WalWrite ν π) (entry : IpcEntry β) (answer : AppendAnswer ν) :
    position = state.nextPosition.getD 1 ∧
      Appends acknowledged state ⟨write.entryPosition,write.payload⟩
        (appendLocked backend next write entry answer) := by
  obtain ⟨hmo,hf⟩ := h.movedEnsure backend codec tail
  rw [he] at hmo hf
  obtain ⟨hp,hs⟩ := hf position rfl
  have hs : next = { state with nextPosition := some position } := hs
  have hb : position ≠ u64Max := by
    intro heq
    rw [heq] at hp
    cases hn : state.nextPosition with
    | none =>
      rw [hn,Option.getD_none] at hp
      exact absurd hp (by decide)
    | some n =>
      rw [hn,Option.getD_some] at hp
      exact hm (hp ▸ hn)
  have hn : next.nextPosition = some position := by rw [hs]
  refine ⟨hp.symm,?_⟩
  exact (hmo.cursors.appends hn hb write entry answer).after hmo (by rw [hs])

/-- Every append keeps the cursors, and acknowledges nothing once poisoned. -/
theorem Cursors.appending (h : Cursors acknowledged state)
    (hm : state.nextPosition ≠ some u64Max) {tail : RecoverAnswer ν π}
    (ha : Appending backend codec state fence tail answer place occupied appended) :
    Appends acknowledged state (place (state.nextPosition.getD 1)).outstanding appended ∧
      Clean state appended := by
  cases ha with
  | refused error => exact ⟨h.moved.fails _ rfl nofun,nofun⟩
  | unplaced he =>
    have hmo := (h.movedEnsure backend codec tail).1
    rw [he] at hmo
    exact ⟨hmo.fails _ rfl nofun,nofun⟩
  | placed hp =>
    obtain ⟨rfl,ha⟩ := h.ensured hm hp.ensured (place _) _ answer
    exact ⟨ha,fun _ _ => hp.clean⟩
  | fenced hp hco hpr =>
    obtain ⟨rfl,ha⟩ := h.ensured hm hp.ensured (place _) _ answer
    obtain ⟨hf,hn⟩ := ha.moved.cursors.movedFence backend codec (place _).entryPosition
      (place _).writerEpoch _
    exact ⟨⟨ha.moved.trans hf,ha.sent,fun commit hc => absurd hc (hn commit)⟩,
      fun _ _ => hp.clean⟩

end Append

section Reads

/-- The first position that is discovered loses nothing. -/
theorem Cursors.discover (h : Cursors acknowledged state) (hn : state.nextPosition = none)
    (afterLsn tail : Nat) :
    Moved acknowledged state
      { state with
        recoveredTailPosition := tail
        nextPosition := some (max (saturatingAdd afterLsn 1) 1) } := by
  have hu := h.undiscovered hn
  have hf := h.filling
  have hb := saturatingAdd_one_bounds afterLsn
  have hc := hf.covered
  rw [hn,Option.getD_none] at hc
  refine ⟨⟨⟨?_,?_,?_,?_,?_,?_⟩,fun hno => nomatch hno⟩,?_,id⟩
  · simp only [Option.getD_some]
    omega
  · simp only [Option.getD_some]
    omega
  · intro position entry he
    simp [hu.committed] at he
  · intro write hw
    simp [hu.pending] at hw
  · intro write hw
    simp [hu.acknowledged] at hw
  · intro write hw
    simp [hu.acknowledged] at hw
  · rw [hn]
    exact Nat.zero_le _

variable [DecidableEq ν]

/-- A checkpoint below the next position drops only what it covers. -/
theorem Cursors.movedCheckpoint (h : Cursors acknowledged state) (shardId : ν)
    (hb : shardId = backend.shardId → covered < state.nextPosition.getD 1) :
    Moved acknowledged state (checkpointed backend state shardId covered) := by
  unfold checkpointed
  split
  · exact h.moved
  rename_i hs
  have hc := hb (not_not.mp hs)
  have hf := h.filling
  have hst := hf.covered
  have hk : ∀ position : Nat, ((state.committed.keys.filter
      (· ≤ max state.checkpointedPosition covered)).foldl
        (fun kept position => kept.erase position) state.committed)[position]? =
      if max state.checkpointedPosition covered < position then state.committed[position]?
      else none := by
    intro position
    rw [getElem?_foldl_erase]
    by_cases hl : max state.checkpointedPosition covered < position
    · rw [if_pos hl,if_neg]
      intro hm
      have := (List.mem_filter.mp hm).2
      simp only [decide_eq_true_eq] at this
      omega
    · rw [if_neg hl]
      split
      · rfl
      · rename_i hm
        cases hfo : state.committed[position]? with
        | none => rfl
        | some entry =>
          refine absurd (List.mem_filter.mpr ⟨mem_keys_iff.mpr ⟨entry,hfo⟩,?_⟩) hm
          simp only [decide_eq_true_eq]
          omega
  refine ⟨⟨⟨?_,hf.limit,?_,hf.outstanding,hf.below,?_⟩,?_⟩,
    Nat.le_refl _,id⟩
  · simp only
    omega
  · intro position entry he
    rw [hk] at he
    split at he
    · rename_i hl
      exact ⟨hl,(hf.retained position entry he).2⟩
    · cases he
  · intro write hw hl
    rw [hk,if_pos hl]
    simp only at hl
    exact hf.bytes write hw (by omega)
  · intro hn
    have hu := h.undiscovered hn
    refine ⟨?_,hu.pending,hu.knowledge,hu.acknowledged⟩
    apply Std.ExtTreeMap.ext_getElem?
    intro position
    rw [hk,hu.committed]
    simp

/-- The tail of a strict recovery; with a watermark, one that ends there. -/
def loadStrict (backend : BitrWalBackend ν) (codec : WalCodec ν π β) (afterLsn : Nat)
    (answer : RecoverAnswer ν π) : Option (CommitKnowledge ν) → WalResult ν (List (RecoveredEntry π β))
  | none => loadRecovery backend codec afterLsn answer
  | some knowledge => (loadRecovery backend codec afterLsn answer).bind fun entries =>
    if afterLsn < knowledge.committedLsn ∧
        entries.getLast?.map (·.position) ≠ some knowledge.committedLsn then
      .error (.recoveryGap knowledge.committedLsn
        ((entries.getLast?.map (·.position)).getD afterLsn))
    else .ok entries

theorem loadStrict_eq_ok (h : loadStrict backend codec afterLsn answer persisted = .ok entries) :
    loadRecovery backend codec afterLsn answer = .ok entries ∧
      ∀ knowledge ∈ persisted, afterLsn < knowledge.committedLsn →
        entries.getLast?.map (·.position) = some knowledge.committedLsn := by
  cases persisted with
  | none => exact ⟨h,nofun⟩
  | some knowledge =>
    simp only [loadStrict,Except.bind_eq_ok,guard_ok,Except.ok.injEq] at h
    obtain ⟨found,hf,he,rfl⟩ := h
    refine ⟨hf,fun asked ha hl => ?_⟩
    cases ha
    exact not_not.mp fun hn => he ⟨hl,hn⟩

end Reads

end Walleye.Lance
