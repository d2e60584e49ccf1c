import Walleye.Lance.Calls

namespace Walleye.Lance

open Walleye.Base Walleye.Base.BTreeMap
open Walleye.Engine (u64Max saturatingAdd)

inductive BackendCall (ν π : Type) where
  /-- A write of the adapter's own callers, data or a fence. -/
  | appendEncoded (payload : π) (fence : Bool) (tail : RecoverAnswer ν π)
      (answer : AppendAnswer ν)
  /-- A write of Lance, data or a fence. -/
  | append (write : WalWrite ν π) (fence : Bool) (tail : RecoverAnswer ν π)
      (answer : AppendAnswer ν) (occupied : RecoverAnswer ν π)
  | recover (afterLsn : Nat) (answer : RecoverAnswer ν π)
  | recoverWithWatermark (afterLsn : Nat) (knowledge : CommitKnowledge ν)
      (answer : RecoverAnswer ν π)
  | nextPosition (answer : RecoverAnswer ν π)
  | readEntry (position : Nat) (answer : RecoverAnswer ν π)
  | read (shardId : ν) (position : Nat) (answer : RecoverAnswer ν π)
  /-- The answer to a read of Lance that other calls have overtaken. -/
  | finishRead (position : Nat) (answer : RecoverAnswer ν π)
  | nextPositionForLance (shardId : ν) (hint : Option Nat) (answer : RecoverAnswer ν π)
  /-- The answer to a position probe of Lance that other calls have overtaken. -/
  | finishNextPosition (afterLsn : Nat) (answer : RecoverAnswer ν π)
  | firstPosition (shardId : ν) (answer : RecoverAnswer ν π)
  | checkpointed (shardId : ν) (coveredPosition : Nat)

structure Acknowledged (π : Type) where
  write : PendingWrite π
  late : Bool

/-- An adapter with what its calls did: its next positions (zero while there is none), latest first,
the records it sent, the writes it acknowledged and whether it was ever poisoned. -/
structure Watched (ν π : Type) where
  state : BackendState ν π
  positions : List Nat
  sent : List (SentRecord ν π)
  acknowledged : List (Acknowledged π)
  poisonedOnce : Bool

variable {ν π β : Type} [DecidableEq ν] [DecidableEq π] (backend : BitrWalBackend ν)
  (codec : WalCodec ν π β)

def Appended.acknowledged {ν π : Type} (appended : Appended ν π) (payload : π) :
    Option (PendingWrite π) :=
  match appended.result with
  | .ok (.committed commit) => some ⟨commit.entryPosition, payload⟩
  | _ => none

structure Called (ν π : Type) where
  state : BackendState ν π
  sent : Option (SentRecord ν π)
  acknowledged : Option (PendingWrite π)

def callBackend (state : BackendState ν π) : BackendCall ν π → Called ν π
  | .appendEncoded payload fence tail answer =>
    let appended := appendPayload backend codec state payload fence tail answer
    ⟨appended.state, appended.sent, appended.acknowledged payload⟩
  | .append write fence tail answer occupied =>
    let appended := appendAtPosition backend codec state write fence tail answer occupied
    ⟨appended.state, appended.sent, appended.acknowledged write.payload⟩
  | .recover afterLsn answer => ⟨(recover backend codec state afterLsn answer).2, none, none⟩
  | .recoverWithWatermark afterLsn knowledge answer =>
    ⟨(recoverWithWatermark backend codec state afterLsn knowledge answer).2, none, none⟩
  | .nextPosition answer => ⟨(nextPosition backend codec state answer).2, none, none⟩
  | .readEntry position answer => ⟨(readEntry backend codec state position answer).2, none, none⟩
  | .read shardId position answer =>
    if shardId ≠ backend.shardId then ⟨state, none, none⟩
    else ⟨(readEntryForLance backend codec state position answer).2, none, none⟩
  | .finishRead position answer =>
    ⟨(finishReadForLance backend codec state position answer).2, none, none⟩
  | .nextPositionForLance shardId hint answer =>
    if shardId ≠ backend.shardId then ⟨state, none, none⟩
    else ⟨(nextPositionForLance backend codec state (hint.getD 0) answer).2, none, none⟩
  | .finishNextPosition afterLsn answer =>
    ⟨(finishNextPositionForLance backend codec state afterLsn answer).2, none, none⟩
  | .firstPosition shardId answer =>
    if shardId ≠ backend.shardId then ⟨state, none, none⟩
    else ⟨(recover backend codec state 0 answer).2, none, none⟩
  | .checkpointed shardId covered => ⟨checkpointed backend state shardId covered, none, none⟩

def Watched.start (backend : BitrWalBackend ν) : Watched ν π where
  state := backend.start
  positions := [0]
  sent := []
  acknowledged := []
  poisonedOnce := false

def watchCall (watched : Watched ν π) (call : BackendCall ν π) : Option (Watched ν π) :=
  let called := callBackend backend codec watched.state call
  some
    { state := called.state
      positions := called.state.nextPosition.getD 0 :: watched.positions
      sent := called.sent.toList ++ watched.sent
      acknowledged :=
        (called.acknowledged.map fun write => ⟨write, watched.poisonedOnce⟩).toList ++
          watched.acknowledged
      poisonedOnce := watched.poisonedOnce || called.state.poisoned.isSome }

/-- The next position never decreases; what is retained is above the checkpoint and below it; an
acknowledged write was sent when its position was next, by an adapter never poisoned, and is
retained until a checkpoint covers it. -/
structure AdapterLaws {ν π : Type} (watched : Watched ν π) : Prop where
  positions : watched.positions.IsChain (· ≥ ·)
  retained : ∀ (position : Nat) entry, watched.state.committed[position]? = some entry →
    watched.state.checkpointedPosition < position ∧
      ∃ next, watched.state.nextPosition = some next ∧ position < next
  placed : ∀ done ∈ watched.acknowledged, ∃ s ∈ watched.sent,
    s.record.lsn = done.write.position ∧ s.record.payload = done.write.payload ∧
      s.next = some done.write.position
  bytes : ∀ done ∈ watched.acknowledged,
    watched.state.checkpointedPosition < done.write.position →
      ∃ entry, watched.state.committed[done.write.position]? = some entry ∧
        entry.payload = done.write.payload
  clean : ∀ done ∈ watched.acknowledged, done.late = false

def BackendCall.covers {ν π : Type} : BackendCall ν π → Option (ν × Nat)
  | .checkpointed shardId covered => some (shardId, covered)
  | _ => none

def BackendCall.strictAnswer {ν π : Type} : BackendCall ν π → Option (RecoverAnswer ν π)
  | .recover _ answer => some answer
  | .recoverWithWatermark _ _ answer => some answer
  | .readEntry _ answer => some answer
  | .firstPosition _ answer => some answer
  | _ => none

def BackendCall.appends {ν π : Type} : BackendCall ν π → Bool
  | .appendEncoded _ _ _ _ => true
  | .append _ _ _ _ _ => true
  | _ => false

def BackendCall.lanceWrite {ν π : Type} : BackendCall ν π → Option (WalWrite ν π)
  | .append write _ _ _ _ => some write
  | _ => none

def ChecksBelow {ν π : Type} (backend : BitrWalBackend ν) (watched : Watched ν π)
    (call : BackendCall ν π) : Prop :=
  ∀ covers ∈ call.covers,
    covers.1 = backend.shardId → covers.2 < watched.state.nextPosition.getD 1

instance (watched : Watched ν π) : DecidablePred (ChecksBelow backend watched) :=
  fun call => inferInstanceAs (Decidable (∀ covers ∈ call.covers, _ → _))

def Watched.writes {ν π : Type} (watched : Watched ν π) : List (PendingWrite π) :=
  watched.acknowledged.map (·.write)

/-- Strict tails agree with what was acknowledged and is outstanding, no append is for the last
position, and Lance repeats only writes of this adapter. -/
structure Sustains {ν π : Type} (backend : BitrWalBackend ν) (watched : Watched ν π)
    (call : BackendCall ν π) : Prop where
  checks : ChecksBelow backend watched call
  agrees : ∀ answer ∈ call.strictAnswer, ∀ records ∈ answer.toOption,
    Agrees watched.writes watched.state records
  room : call.appends = true → watched.state.nextPosition ≠ some u64Max
  repeats : ∀ write ∈ call.lanceWrite,
    ∀ existing ∈ watched.state.committed[write.entryPosition]?, existing.payload = write.payload →
      ∃ s ∈ watched.sent, s.record.lsn = write.entryPosition ∧ s.record.payload = write.payload

instance (watched : Watched ν π) : DecidablePred (Sustains backend watched) := fun call =>
  decidable_of_iff
    (ChecksBelow backend watched call ∧
      (∀ answer ∈ call.strictAnswer, ∀ records ∈ answer.toOption,
        Agrees watched.writes watched.state records) ∧
      (call.appends = true → watched.state.nextPosition ≠ some u64Max) ∧
      ∀ write ∈ call.lanceWrite, ∀ existing ∈ watched.state.committed[write.entryPosition]?,
        existing.payload = write.payload → ∃ s ∈ watched.sent,
          s.record.lsn = write.entryPosition ∧ s.record.payload = write.payload)
    ⟨fun h => ⟨h.1, h.2.1, h.2.2.1, h.2.2.2⟩, fun h => ⟨h.checks, h.agrees, h.room, h.repeats⟩⟩

def BackendCall.asks {ν π : Type} : BackendCall ν π → Option (Nat × RecoverAnswer ν π)
  | .recover afterLsn answer => some (afterLsn, answer)
  | .recoverWithWatermark afterLsn _ answer => some (afterLsn, answer)
  | .nextPosition answer => some (0, answer)
  | .readEntry position answer => some (position - 1, answer)
  | .read _ position answer => some (position - 1, answer)
  | .finishRead position answer => some (position - 1, answer)
  | .nextPositionForLance _ hint answer => some (hint.getD 0, answer)
  | .finishNextPosition afterLsn answer => some (afterLsn, answer)
  | .firstPosition _ answer => some (0, answer)
  | .appendEncoded _ _ _ _ => none
  | .append _ _ _ _ _ => none
  | .checkpointed _ _ => none

def BackendCall.watermark {ν π : Type} : BackendCall ν π → Option (CommitKnowledge ν)
  | .recoverWithWatermark _ knowledge _ => some knowledge
  | _ => none

def BackendCall.lanceAnswer {ν π : Type} : BackendCall ν π → Option (RecoverAnswer ν π)
  | .read _ _ answer => some answer
  | .finishRead _ answer => some answer
  | _ => none

section Reads

/-- What a read, a recovery or a position probe makes of a state: nothing, or what the tail that
it asked for gives. -/
inductive Reads (state : BackendState ν π) (call : BackendCall ν π) : BackendState ν π → Prop
  | same : Reads state call state
  | strict {afterLsn : Nat} {answer : RecoverAnswer ν π} {persisted : Option (CommitKnowledge ν)}
      (hasks : call.asks = some (afterLsn, answer)) (hstrict : call.strictAnswer = some answer)
      (hpersisted : call.watermark = persisted) :
      Reads state call
        (takeStrict state (loadStrict backend codec afterLsn answer persisted) persisted).2
  | ensure (answer : RecoverAnswer ν π) :
      Reads state call (ensurePosition backend codec state answer).2
  | lance {afterLsn : Nat} {answer : RecoverAnswer ν π} {entries : List (RecoveredEntry π β)}
      (hasks : call.asks = some (afterLsn, answer))
      (hloaded : loadRecoveryForLance backend codec afterLsn answer = .ok entries)
      (hlance : state.nextPosition = none ∨ call.lanceAnswer = some answer) :
      Reads state call (applyRecoveryForLance backend state entries).2
  | discover (hnext : state.nextPosition = none) (afterLsn tail : Nat) :
      Reads state call
        { state with
          recoveredTailPosition := tail
          nextPosition := some (max (saturatingAdd afterLsn 1) 1) }

variable {backend codec} {answer : RecoverAnswer ν π}

theorem recover_reads (ha : call.asks = some (afterLsn,answer))
    (hs : call.strictAnswer = some answer) (hw : call.watermark = none) :
    Reads backend codec state call (recover backend codec state afterLsn answer).2 := by
  unfold recover
  split
  · exact .same
  · exact .strict ha hs hw

theorem finishRead_reads (ha : call.asks = some (position - 1,answer))
    (hl : call.lanceAnswer = some answer) :
    Reads backend codec state call (finishReadForLance backend codec state position answer).2 := by
  unfold finishReadForLance
  cases hlo : loadRecoveryForLance backend codec (position - 1) answer with
  | error error => exact .same
  | ok entries =>
    have hr : Reads backend codec state call _ := .lance ha hlo (.inr hl)
    simp only
    generalize applyRecoveryForLance backend state entries = applied at *
    obtain ⟨result,after⟩ := applied
    cases ensureNotPoisoned state with
    | error error => exact .same
    | ok u => cases result <;> exact hr

theorem finishNextPosition_reads (ha : call.asks = some (afterLsn,answer)) :
    Reads backend codec state call
      (finishNextPositionForLance backend codec state afterLsn answer).2 := by
  unfold finishNextPositionForLance
  cases hl : loadRecoveryForLance backend codec afterLsn answer with
  | error error => exact .same
  | ok entries =>
    cases ensureNotPoisoned state with
    | error error => exact .same
    | ok u =>
      cases hn : state.nextPosition with
      | some position => exact .same
      | none =>
        have hr : Reads backend codec state call _ := .lance ha hl (.inl hn)
        simp only
        generalize applyRecoveryForLance backend state entries = applied at *
        obtain ⟨result,after⟩ := applied
        split
        · exact .discover hn afterLsn _
        · cases result <;> exact hr

/-- A call that asks for a tail only reads. -/
theorem callBackend_reads (h : call.asks ≠ none) :
    ∃ next, callBackend backend codec state call = ⟨next,none,none⟩ ∧
      Reads backend codec state call next := by
  cases call with
  | appendEncoded payload fence tail answer => exact absurd rfl h
  | append write fence tail answer occupied => exact absurd rfl h
  | checkpointed shardId covered => exact absurd rfl h
  | recover afterLsn answer => exact ⟨_,rfl,recover_reads rfl rfl rfl⟩
  | recoverWithWatermark afterLsn knowledge answer =>
    refine ⟨_,rfl,?_⟩
    unfold recoverWithWatermark
    split
    · exact .same
    split
    · exact .same
    split
    · exact .same
    · exact .strict rfl rfl rfl
  | nextPosition answer =>
    refine ⟨_,rfl,?_⟩
    unfold nextPosition
    split
    · exact .same
    · exact .ensure answer
  | readEntry position answer =>
    refine ⟨_,rfl,?_⟩
    unfold readEntry
    split
    · exact .same
    split
    · exact .same
    split
    · exact .same
    · exact .strict rfl rfl rfl
  | read shardId position answer =>
    simp only [callBackend]
    split
    · exact ⟨_,rfl,.same⟩
    refine ⟨_,rfl,?_⟩
    unfold readEntryForLance
    split
    · exact .same
    split
    · exact .same
    split
    · exact .same
    · exact finishRead_reads rfl rfl
  | finishRead position answer => exact ⟨_,rfl,finishRead_reads rfl rfl⟩
  | nextPositionForLance shardId hi answer =>
    simp only [callBackend]
    split
    · exact ⟨_,rfl,.same⟩
    refine ⟨_,rfl,?_⟩
    unfold nextPositionForLance
    split
    · exact .same
    split
    · exact .same
    · exact finishNextPosition_reads rfl
  | finishNextPosition afterLsn answer => exact ⟨_,rfl,finishNextPosition_reads rfl⟩
  | firstPosition shardId answer =>
    simp only [callBackend]
    split
    · exact ⟨_,rfl,.same⟩
    · exact ⟨_,rfl,recover_reads rfl rfl rfl⟩

theorem Cursors.reads (h : Cursors acknowledged state) (ha : ∀ answer ∈ call.strictAnswer,
      ∀ records ∈ answer.toOption, Agrees acknowledged state records)
    (hr : Reads backend codec state call next) : Moved acknowledged state next := by
  cases hr with
  | same => exact h.moved
  | strict has hs hw =>
    exact h.movedTake (fun _ hl => ⟨_,loadRecovery_agrees (ha _ hs) (loadStrict_eq_ok hl).1⟩) _
  | ensure answer => exact (h.movedEnsure backend codec answer).1
  | lance has hl hla => exact h.movedForLance backend (load_tail hl).1
  | discover hn afterLsn tail => exact h.discover hn afterLsn tail

end Reads

structure Kept {ν π : Type} (watched : Watched ν π) : Prop where
  cursors : Cursors watched.writes watched.state
  positions : watched.positions.IsChain (· ≥ ·)
  latest : watched.positions.head? = some (watched.state.nextPosition.getD 0)
  sent : ∀ s ∈ watched.sent, s.next = some s.record.lsn
  placed : ∀ done ∈ watched.acknowledged, ∃ s ∈ watched.sent,
    s.record.lsn = done.write.position ∧ s.record.payload = done.write.payload
  clean : ∀ done ∈ watched.acknowledged, done.late = false
  poisoned : watched.poisonedOnce = true → watched.state.poisoned ≠ none

theorem Kept.laws (h : Kept watched) : AdapterLaws watched := by
  refine ⟨h.positions,?_,?_,?_,h.clean⟩
  · intro position entry he
    refine ⟨(h.cursors.filling.retained position entry he).1,?_⟩
    have hl := h.cursors.retained_lt he
    cases hn : watched.state.nextPosition with
    | none =>
      rw [(h.cursors.undiscovered hn).committed] at he
      simp at he
    | some next =>
      rw [hn,Option.getD_some] at hl
      exact ⟨next,rfl,hl⟩
  · intro done hd
    obtain ⟨s,hs,hls,hp⟩ := h.placed done hd
    exact ⟨s,hs,hls,hp,hls ▸ h.sent s hs⟩
  · intro done hd hc
    exact h.cursors.filling.bytes done.write (List.mem_map_of_mem hd) hc

/-- A new adapter keeps the laws. -/
theorem Kept.start {ν π : Type} (backend : BitrWalBackend ν) :
    Kept (Watched.start backend : Watched ν π) := by
  refine ⟨⟨⟨?_,?_,?_,?_,?_,?_⟩,fun _ => ⟨rfl,rfl,rfl,rfl⟩⟩,?_,rfl,?_,?_,?_,?_⟩
  · exact Nat.zero_lt_one
  · show 1 ≤ u64Max
    decide
  · intro position entry he
    simp [Watched.start,BitrWalBackend.start] at he
  · intro write hw
    cases hw
  · intro write hw
    cases hw
  · intro write hw
    cases hw
  · exact .singleton 0
  · intro s hs
    cases hs
  · intro done hd
    cases hd
  · intro done hd
    cases hd
  · intro ho
    cases ho

structure CallKept {ν π : Type} (watched : Watched ν π) (called : Called ν π) : Prop where
  moved : Moved watched.writes watched.state called.state
  sent : ∀ s ∈ called.sent, s.next = some s.record.lsn
  acknowledged : ∀ write ∈ called.acknowledged,
    Cursors (write :: watched.writes) called.state ∧ watched.state.poisoned = none ∧
      ∃ s ∈ called.sent.toList ++ watched.sent,
        s.record.lsn = write.position ∧ s.record.payload = write.payload

theorem Moved.called
    (h : Moved watched.writes watched.state state) : CallKept watched ⟨state,none,none⟩ :=
  ⟨h,(fun _ hs => nomatch hs),fun _ hw => nomatch hw⟩

theorem Appended.acknowledged_eq_some {ν π : Type} {appended : Appended ν π}
    {write : PendingWrite π} {payload : π} (h : appended.acknowledged payload = some write) :
    ∃ commit, appended.result = .ok (.committed commit) ∧
      write = ⟨commit.entryPosition,payload⟩ := by
  unfold Appended.acknowledged at h
  split at h
  · rename_i commit hr
    exact ⟨commit,hr,(Option.some.inj h).symm⟩
  · cases h

/-- An append that is a call keeps the laws. -/
theorem Appends.called {ν π : Type} {watched : Watched ν π} {write : PendingWrite π}
    {appended : Appended ν π}
    (h : Appends watched.writes watched.state write appended) (hc : Clean watched.state appended)
    (hrep : ∀ existing, watched.state.committed[write.position]? = some existing →
      existing.payload = write.payload → ∃ s ∈ watched.sent,
        s.record.lsn = write.position ∧ s.record.payload = write.payload) :
    CallKept watched ⟨appended.state,appended.sent,appended.acknowledged write.payload⟩ := by
  refine ⟨h.moved,h.sent,?_⟩
  intro found hf
  obtain ⟨commit,hr,rfl⟩ := Appended.acknowledged_eq_some hf
  obtain ⟨hp,hcu,hpl⟩ := h.committed commit hr
  have hsa : (⟨commit.entryPosition,write.payload⟩ : PendingWrite π) = write := by
    rw [hp]
  rw [hsa]
  refine ⟨hcu,hc commit hr,?_⟩
  cases hpl with
  | inl hse =>
    obtain ⟨s,hs,hrec⟩ := hse
    exact ⟨s,List.mem_append_left _ (Option.mem_toList.mpr hs),hrec⟩
  | inr he =>
    obtain ⟨existing,hg,hpa⟩ := he
    obtain ⟨s,hs,hrec⟩ := hrep existing hg hpa
    exact ⟨s,List.mem_append_right _ hs,hrec⟩

variable {backend codec}

/-- Every call keeps the laws. -/
theorem Kept.called (h : Kept watched) (hs : Sustains backend watched call) :
    CallKept watched (callBackend backend codec watched.state call) := by
  have hc := h.cursors
  by_cases ha : call.asks = none
  · cases call with
    | appendEncoded payload fence tail answer =>
      obtain ⟨hap,hcl⟩ := hc.appending (hs.room rfl)
        (appendPayload_appending backend codec watched.state fence tail answer payload)
      apply hap.called hcl
      intro existing he
      exact absurd (hc.retained_lt he) (Nat.lt_irrefl _)
    | append write fence tail answer occupied =>
      obtain ⟨hap,hcl⟩ := hc.appending (hs.room rfl)
        (appendAtPosition_appending backend codec watched.state fence tail answer write occupied)
      apply hap.called hcl
      intro existing he hp
      exact hs.repeats write rfl existing he hp
    | checkpointed shardId covered =>
      exact (hc.movedCheckpoint shardId fun hsh =>
        hs.checks (shardId,covered) rfl hsh).called
    | _ => cases ha
  · obtain ⟨next,heq,hr⟩ := callBackend_reads ha
    rw [heq]
    exact (hc.reads hs.agrees hr).called

/-- Every call of a run keeps the laws. -/
theorem Kept.next (h : Kept watched) (hsu : Sustains backend watched call)
    (hst : watchCall backend codec watched call = some after) : Kept after := by
  have hc : CallKept watched (callBackend backend codec watched.state call) :=
    h.called hsu
  cases hst
  generalize callBackend backend codec watched.state call = called at *
  have hpo : watched.poisonedOnce = true → called.state.poisoned ≠ none :=
    fun hp => hc.moved.poisoned (h.poisoned hp)
  refine ⟨?_,?_,rfl,?_,?_,?_,?_⟩
  · cases hd : called.acknowledged with
    | none => exact hc.moved.cursors
    | some write => exact (hc.acknowledged write hd).1
  · have hl := h.latest
    have hch := h.positions
    cases hpos : watched.positions with
    | nil => simp
    | cons position rest =>
      rw [hpos] at hl hch
      simp only [List.head?_cons,Option.some.injEq] at hl
      apply List.isChain_cons_cons.mpr
      refine ⟨?_,hch⟩
      rw [hl]
      exact hc.moved.position
  · intro s hs
    cases List.mem_append.mp hs with
    | inl hn => exact hc.sent s (Option.mem_toList.mp hn)
    | inr ho => exact h.sent s ho
  · intro done hd
    cases List.mem_append.mp hd with
    | inl hn =>
      obtain ⟨write,hw,rfl⟩ := Option.map_eq_some_iff.mp (Option.mem_toList.mp hn)
      exact (hc.acknowledged write hw).2.2
    | inr ho =>
      obtain ⟨s,hs,hr⟩ := h.placed done ho
      exact ⟨s,List.mem_append_right _ hs,hr⟩
  · intro done hd
    cases List.mem_append.mp hd with
    | inl hn =>
      obtain ⟨write,hw,rfl⟩ := Option.map_eq_some_iff.mp (Option.mem_toList.mp hn)
      cases hon : watched.poisonedOnce with
      | false => rfl
      | true => exact absurd (hc.acknowledged write hw).2.1 (h.poisoned hon)
    | inr ho => exact h.clean done ho
  · intro hon
    cases Bool.or_eq_true_iff.mp hon with
    | inl hb => exact hpo hb
    | inr hno =>
      intro hnon
      rw [hnon] at hno
      cases hno

/-- As long as strict tails agree with the log, no append is for the last position and Lance repeats
only writes of this adapter, its log is kept. -/
theorem adapter_keeps_its_log
    (h : Reachable (· = Watched.start backend) (watchCall backend codec) (Sustains backend)
      watched) : AdapterLaws watched := by
  apply Kept.laws
  apply h.invariant
  · intro s hs
    rw [hs]
    exact Kept.start backend
  · intro s call s' hs ho hst
    exact hs.next ho hst

section Examples

/-- Payloads that carry an epoch and a number, where number zero is a fence. -/
def plainCodec : WalCodec Nat (Nat × Nat) Unit where
  decodeIpcEntry payload := .ok ⟨payload.1, payload.2 = 0, if payload.2 = 0 then [] else [()]⟩
  owner _ := some 7
  emptyCertificate certificate := certificate = 0

def plainBackend : BitrWalBackend Nat := ⟨5, 9, 1, 7⟩

def plainRecord (lsn number : Nat) : AppendRecord Nat (Nat × Nat) := ⟨5, 1, lsn, lsn - 1, (1, number)⟩

def plainAppend (position number : Nat) (answer : AppendAnswer Nat) :
    BackendCall Nat (Nat × Nat) :=
  .append ⟨9, 1, position, (1, number)⟩ false (.ok []) answer (.ok [])

def retriedWrite : List (BackendCall Nat (Nat × Nat)) :=
  [plainAppend 1 3 (.ok ⟨5, 1, 1, none⟩),
   plainAppend 2 4 (.error (.replica .quorumUnavailable)),
   plainAppend 2 4 (.ok ⟨5, 1, 2, none⟩),
   .recover 0 (.ok [plainRecord 1 3, plainRecord 2 4]),
   .checkpointed 9 1]

/-- A write is retried after an answer was lost, and another one follows. -/
theorem adapter_keeps_a_retried_write :
    ∃ watched, Reachable (· = Watched.start plainBackend) (watchCall plainBackend plainCodec)
        (Sustains plainBackend) watched ∧
      watched.acknowledged.map (·.write.position) = [2, 1] ∧ AdapterLaws watched := by
  have hs : Reachable (· = Watched.start plainBackend) (watchCall plainBackend plainCodec)
      (Sustains plainBackend) (Watched.start plainBackend) := .start rfl
  have hp : (runs (watchCall plainBackend plainCodec) (Sustains plainBackend)
      (Watched.start plainBackend) retriedWrite).map
        (fun watched => watched.acknowledged.map (·.write.position)) = some [2,1] := by
    decide +kernel
  obtain ⟨watched,hrun,hp⟩ := Option.map_eq_some_iff.mp hp
  have hr := hs.of_runs retriedWrite hrun
  exact ⟨watched,hr,hp,adapter_keeps_its_log hr⟩

/-- The replicas answer a recovery with other bytes than they acknowledged. -/
theorem strict_recovery_rewrites_an_entry :
    ¬∀ watched, Reachable (· = Watched.start plainBackend) (watchCall plainBackend plainCodec)
        (ChecksBelow plainBackend) watched → AdapterLaws watched := by
  intro ha
  have hr := ha _ (.of_start rfl
    [plainAppend 1 3 (.ok ⟨5,1,1,none⟩),.recover 0 (.ok [plainRecord 1 4])] rfl)
  obtain ⟨entry,he,hp⟩ :=
    hr.bytes ⟨⟨1,(1,3)⟩,false⟩ (List.mem_singleton.mpr rfl) (by decide)
  cases he
  cases hp

end Examples

end Walleye.Lance
