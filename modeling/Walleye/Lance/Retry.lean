import Walleye.Lance.Laws

namespace Walleye.Lance

open Walleye.Base Walleye.Base.BTreeMap
open Walleye.Engine (u64Max saturatingAdd)

variable {ν π β : Type} {write : PendingWrite π} {state : BackendState ν π}
  {entries : List (RecoveredEntry π β)}

section Retained

def Retains (write : PendingWrite π) (state : BackendState ν π) : Prop :=
  ∃ entry, state.committed[write.position]? = some entry ∧ entry.payload = write.payload

def RetainedBelow (position : Nat) (state : BackendState ν π) : Prop :=
  ∀ (key : Nat) entry, state.committed[key]? = some entry → key < position

def Repeats (write : PendingWrite π) (entry : RecoveredEntry π β) : Prop :=
  entry.position = write.position → entry.payload = write.payload

theorem Retains.retain (h : Retains write state)
    (he : Repeats write entry) (knowledge : CommitKnowledge ν) :
    Retains write (retainEntry state entry knowledge) := by
  unfold Retains
  rw [getElem?_retainEntry]
  split
  · rename_i hs
    exact ⟨_,rfl,he hs.2⟩
  · exact h

theorem RetainedBelow.retain (h : RetainedBelow position state) (he : entry.position < position)
    (knowledge : CommitKnowledge ν) :
    RetainedBelow position (retainEntry state entry knowledge) := by
  intro key found hf
  rw [getElem?_retainEntry] at hf
  split at hf
  · rename_i hs
    exact hs.2 ▸ he
  · exact h key found hf

variable {known : CommitKnowledge ν → RecoveredEntry π β → CommitKnowledge ν}

theorem Retains.retainAll (h : Retains write state) (he : ∀ entry ∈ entries, Repeats write entry) :
    Retains write (Lance.retainAll known state entries) := by
  induction entries generalizing state with
  | nil => exact h
  | cons entry rest ih =>
    rw [List.forall_mem_cons] at he
    exact ih (h.retain he.1 _) he.2

theorem RetainedBelow.retainAll (h : RetainedBelow position state)
    (hl : ∀ entry ∈ entries, entry.position < position) :
    RetainedBelow position (Lance.retainAll known state entries) := by
  induction entries generalizing state with
  | nil => exact h
  | cons entry rest ih =>
    rw [List.forall_mem_cons] at hl
    exact ih (h.retain hl.1 _) hl.2

end Retained

section Advance

/-- Entries below the next position do not move it. -/
theorem advanceNextPosition_same (hn : state.nextPosition = some position)
    (hb : RetainedBelow position state) (he : ∀ entry ∈ entries, entry.position < position) :
    advanceNextPosition state entries = state := by
  have hm : (candidates state entries).max?.getD 1 = position := by
    have hme : position ∈ candidates state entries := mem_candidates.mpr (.inl hn)
    apply Nat.le_antisymm
    · cases max_getD_mem (candidates state entries) with
      | inl hg =>
        cases mem_candidates.mp hg with
        | inl hs =>
          rw [hn] at hs
          exact Nat.le_of_eq (Option.some.inj hs).symm
        | inr ho =>
          cases ho with
          | inl hl =>
            obtain ⟨entry,hl,hsu⟩ := hl
            have := he entry (List.mem_of_getLast? hl)
            unfold saturatingAdd at hsu
            omega
          | inr hk =>
            obtain ⟨key,hk,hsu⟩ := hk
            obtain ⟨found,hf⟩ := maxKey_mem hk
            have := hb key found hf
            unfold saturatingAdd at hsu
            omega
      | inr hno =>
        rw [hno.1] at hme
        cases hme
    · exact le_max_getD hme
  have ha : advanceNextPosition state entries =
      { state with nextPosition := some ((candidates state entries).max?.getD 1) } := rfl
  rw [ha,hm,← hn]

theorem advanceNextPosition_le (entries : List (RecoveredEntry π β))
    (hn : state.nextPosition = some position) :
    ∃ later, (advanceNextPosition state entries).nextPosition = some later ∧ position ≤ later :=
  ⟨_,rfl,le_max_getD (mem_candidates.mpr (.inl hn))⟩

end Advance

section Settling

structure Outstanding (write : PendingWrite π) (state : BackendState ν π) : Prop where
  clean : state.poisoned = none
  next : state.nextPosition = some write.position
  pending : state.pending = some write
  covered : state.checkpointedPosition < write.position
  below : RetainedBelow write.position state

structure Recovered (write : PendingWrite π) (state : BackendState ν π) : Prop where
  clean : state.poisoned = none
  next : ∃ position, state.nextPosition = some position ∧ write.position < position
  pending : state.pending = none
  retained : Retains write state

def Settling (write : PendingWrite π) (state : BackendState ν π) : Prop :=
  Outstanding write state ∨ Recovered write state

theorem Settling.next (h : Settling write state) : ∃ position, state.nextPosition = some position :=
    by
  cases h with
  | inl ho => exact ⟨_,ho.next⟩
  | inr hr =>
    obtain ⟨position,hn,-⟩ := hr.next
    exact ⟨position,hn⟩

def failsStructurally {α : Type} : WalResult ν α → Bool
  | .error error => error.structural
  | .ok _ => false

theorem poisonIfStructural_eq (h : error.structural = false) :
    poisonIfStructural state error = state := by
  simp [poisonIfStructural,h]

variable (known : CommitKnowledge ν → RecoveredEntry π β → CommitKnowledge ν)

theorem Outstanding.retainAll (h : Outstanding write state)
    (hl : ∀ entry ∈ entries, entry.position < write.position) :
    Outstanding write (Lance.retainAll known state entries) := by
  have hb : RetainedBelow write.position (Lance.retainAll known state entries) :=
    h.below.retainAll hl
  rw [retainAll_eq] at hb ⊢
  exact ⟨h.clean,h.next,h.pending,h.covered,hb⟩

theorem Recovered.retainAll (h : Recovered write state)
    (he : ∀ entry ∈ entries, Repeats write entry) :
    Recovered write (Lance.retainAll known state entries) := by
  have hr : Retains write (Lance.retainAll known state entries) := h.retained.retainAll he
  rw [retainAll_eq] at hr ⊢
  exact ⟨h.clean,h.next,h.pending,hr⟩

theorem Recovered.advance (h : Recovered write state) (entries : List (RecoveredEntry π β)) :
    Recovered write (advanceNextPosition state entries) := by
  obtain ⟨position,hn,hl⟩ := h.next
  obtain ⟨later,hla,hle⟩ := advanceNextPosition_le entries hn
  exact ⟨h.clean,⟨later,hla,by omega⟩,h.pending,h.retained⟩

variable [DecidableEq π]

/-- A strict recovery settles the outstanding write or leaves it. -/
theorem Settling.strict (h : Settling write state) (ht : Tail expected entries)
    (hent : ∀ entry ∈ entries, Repeats write entry)
    (he : state.pending ≠ none → entries ≠ [] → expected ≤ write.position)
    (persisted : Option (CommitKnowledge ν)) :
    Settling write (applyRecovery state entries persisted).2 := by
  have hn : ∀ entry ∈ entries, ¬ Differs state entry := by
    intro entry hen hd
    obtain ⟨pending,hp,ha,hb⟩ := hd
    cases h with
    | inl ho =>
      cases ho.pending.symm.trans hp
      exact hb (hent entry hen ha.symm).symm
    | inr hr => cases hr.pending.symm.trans hp
  unfold applyRecovery
  cases recoveredKnowledge state entries persisted with
  | error error => exact h
  | ok knowledge =>
    obtain ⟨pending,hrem,heq⟩ := retainStrict_whole hn knowledge
    simp only [heq,finishTail]
    cases h with
    | inl ho =>
      cases hrem with
      | inl hs =>
        obtain ⟨rfl,hab⟩ := hs
        have hl := ht.lt_of_absent (he (by simp [ho.pending])) (hab write ho.pending)
        have ho := ho.retainAll (fun _ _ => knowledge) hl
        rw [← retainAll_withPending]
        simp only [advanceNextPosition_same ho.next ho.below hl]
        exact .inl ho
      | inr hse =>
        obtain ⟨rfl,found,hf,entry,hen,ha⟩ := hse
        cases ho.pending.symm.trans hf
        obtain ⟨next,hne,hl⟩ := ht.past hen
        obtain ⟨kept,hk,hpa⟩ := ht.ascending.retained hen (ha ▸ ho.covered)
        exact .inr ⟨by simp [advanceNextPosition,ho.clean],⟨next,hne,ha ▸ hl⟩,rfl,kept,
          ha ▸ hk,hpa.trans (hent entry hen ha)⟩
    | inr hr =>
      have hn : pending = none := by
        cases hrem with
        | inl hs => exact hs.1.trans hr.pending
        | inr hse => exact hse.1
      have hr := hr.retainAll (fun _ _ => knowledge) hent
      have hr : Recovered write
          { retainAll (fun _ _ => knowledge) state entries with pending } :=
        ⟨hr.clean,hr.next,hn,hr.retained⟩
      exact .inr (hr.advance entries)

/-- A recovery for Lance below the outstanding write leaves it. -/
theorem Settling.lance (backend : BitrWalBackend ν) (h : Settling write state)
    (ht : Tail expected entries) (he : ∀ entry ∈ entries, Repeats write entry)
    (hb : state.pending ≠ none → ∀ entry ∈ entries, entry.position < write.position) :
    Settling write (applyRecoveryForLance backend state entries).2 := by
  unfold applyRecoveryForLance
  cases ht.retainForLance_cases backend state with
  | inl hw =>
    rw [hw.2]
    cases h with
    | inl ho =>
      have hl := hb (by simp [ho.pending])
      have ho := ho.retainAll (knownForLance backend) hl
      simp only [finishTail,advanceNextPosition_same ho.next ho.below hl]
      exact .inl ho
    | inr hr => exact .inr ((hr.retainAll _ he).advance entries)
  | inr hs =>
    obtain ⟨error,before,conflict,after,rfl,-,-,-,heq⟩ := hs
    rw [heq]
    cases h with
    | inl ho =>
      exact .inl (ho.retainAll _ fun entry hm => hb (by simp [ho.pending]) entry
        (List.mem_append_left _ hm))
    | inr hr => exact .inr (hr.retainAll _ fun entry hm => he entry (List.mem_append_left _ hm))

/-- A tail that fails without poisoning, or repeats the write, keeps it settling. -/
theorem Settling.taken (h : Settling write state) (hf : failsStructurally loaded = false)
    (hl : ∀ entries, loaded = .ok entries → ∃ expected, Tail expected entries ∧
      (∀ entry ∈ entries, Repeats write entry) ∧
      (state.pending ≠ none → entries ≠ [] → expected ≤ write.position))
    (persisted : Option (CommitKnowledge ν)) :
    Settling write (takeStrict state loaded persisted).2 := by
  cases loaded with
  | error error =>
    simp only [takeStrict,poisonIfStructural_eq (show error.structural = false from hf)]
    exact h
  | ok entries =>
    obtain ⟨expected,ht,he,hex⟩ := hl entries rfl
    have hs := h.strict ht he hex persisted
    unfold takeStrict
    simp only
    generalize applyRecovery state entries persisted = applied at *
    obtain ⟨result,after⟩ := applied
    cases result with
    | error error => exact hs
    | ok u => exact hs

end Settling

section Answers

variable [DecidableEq ν] (backend : BitrWalBackend ν) (codec : WalCodec ν π β)

/-- The replicas have stored a write: they fail without a reason to poison, or answer with a valid
tail that has its bytes at its position. -/
def StoredAnswer (write : PendingWrite π) (afterLsn : Nat) (answer : RecoverAnswer ν π) : Prop :=
  failsStructurally (loadRecoveryForLance backend codec afterLsn answer) = false ∧
    ∀ records ∈ answer.toOption, ∀ record ∈ records,
      record.lsn = write.position → record.payload = write.payload

instance [DecidableEq π] (write : PendingWrite π) (afterLsn : Nat) (answer : RecoverAnswer ν π) :
    Decidable (StoredAnswer backend codec write afterLsn answer) :=
  inferInstanceAs (Decidable (_ ∧ _))

/-- A read, recovery or probe answered by replicas which stored a write; the quorum writer returns
no tail that ends before or after the watermark. -/
def FromStored (write : PendingWrite π) (_ : BackendState ν π) (call : BackendCall ν π) : Prop :=
  call.asks ≠ none ∧ ∀ asks ∈ call.asks, StoredAnswer backend codec write asks.1 asks.2 ∧
    ∀ knowledge ∈ call.watermark, ∀ records ∈ asks.2.toOption, asks.1 < knowledge.committedLsn →
      records.getLast?.map (·.lsn) = some knowledge.committedLsn

instance [DecidableEq π] (write : PendingWrite π) (state : BackendState ν π) :
    DecidablePred (FromStored backend codec write state) := fun call =>
  inferInstanceAs (Decidable (call.asks ≠ none ∧ ∀ asks ∈ call.asks, _ ∧ _))

/-- While the write is outstanding no read of Lance brings in its position or a later one, and
strict tails start no later and are of no later epoch. -/
def SettlesFirst (write : PendingWrite π) (state : BackendState ν π) (call : BackendCall ν π) :
    Prop :=
  FromStored backend codec write state call ∧
    (∀ answer ∈ call.lanceAnswer, ∀ records ∈ answer.toOption, state.pending ≠ none →
      ∀ record ∈ records, record.lsn < write.position) ∧
    ∀ asks ∈ call.asks, call.strictAnswer ≠ none → ∀ records ∈ asks.2.toOption,
      (∀ record ∈ records, record.writerEpoch ≤ backend.writerEpoch) ∧
        (state.pending ≠ none → records ≠ [] → asks.1 < write.position)

instance [DecidableEq π] (write : PendingWrite π) (state : BackendState ν π) :
    DecidablePred (SettlesFirst backend codec write state) := fun call =>
  inferInstanceAs (Decidable (FromStored backend codec write state call ∧ _ ∧ _))

variable {backend codec}

variable {records : List (AppendRecord ν π)} {afterLsn : Nat} {answer : RecoverAnswer ν π}

theorem decodeRecordsFrom_bound
    (h : ∀ record ∈ records, record.writerEpoch ≤ epoch) (expected : Nat) :
    decodeRecordsFrom backend codec (some epoch) expected records =
      decodeRecordsFrom backend codec none expected records := by
  induction records generalizing expected with
  | nil => rfl
  | cons record rest ih =>
    have hr : decodeRecord backend codec (some epoch) expected record =
        decodeRecord backend codec none expected record := by
      have hl := h record List.mem_cons_self
      simp [decodeRecord,Nat.not_lt.mpr hl]
    unfold decodeRecordsFrom
    rw [hr]
    simp only [ih fun other ho => h other (List.mem_cons_of_mem _ ho)]

theorem loadRecovery_eq (h : ∀ records ∈ answer.toOption, ∀ record ∈ records,
      record.writerEpoch ≤ backend.writerEpoch) :
    loadRecovery backend codec afterLsn answer = loadRecoveryForLance backend codec afterLsn answer := by
  cases answer with
  | error error => rfl
  | ok records =>
    unfold loadRecovery loadRecoveryForLance
    change decodeRecoveryRecordsWithEpochBound _ _ _ _ _ =
      decodeRecoveryRecordsWithEpochBound _ _ _ _ _
    unfold decodeRecoveryRecordsWithEpochBound
    rw [decodeRecordsFrom_bound (h records rfl)]

theorem decodeRecordsFrom_positions
    (h : decodeRecordsFrom backend codec epoch expected records = .ok entries) :
    entries.map (·.position) = records.map (·.lsn) := by
  induction records generalizing expected entries with
  | nil =>
    cases h
    rfl
  | cons record rest ih =>
    simp only [decodeRecordsFrom,Except.bind_eq_ok,Except.map_eq_ok] at h
    obtain ⟨first,hf,others,ho,rfl⟩ := h
    obtain ⟨hp,-,hl,-⟩ := decodeRecord_eq_ok hf
    rw [List.map_cons,List.map_cons,ih ho,hp,hl]

theorem load_positions
    (h : loadRecoveryForLance backend codec afterLsn (.ok records) = .ok entries) :
    entries.map (·.position) = records.map (·.lsn) := by
  have h : decodeRecoveryRecordsWithEpochBound backend codec afterLsn records none =
    .ok entries := h
  simp only [decodeRecoveryRecordsWithEpochBound,guard_ok] at h
  exact decodeRecordsFrom_positions h.2

theorem decodeRecordsFrom_epochs
    (h : decodeRecordsFrom backend codec epoch expected records = .ok entries) :
    ∀ entry ∈ entries, ∃ decoded, codec.decodeIpcEntry entry.payload = .ok decoded ∧
      decoded.writerEpoch = entry.writerEpoch := by
  induction records generalizing expected entries with
  | nil =>
    cases h
    simp
  | cons record rest ih =>
    simp only [decodeRecordsFrom,Except.bind_eq_ok,Except.map_eq_ok] at h
    obtain ⟨first,hf,others,ho,rfl⟩ := h
    intro entry he
    cases List.mem_cons.mp he with
    | inl heq =>
      subst heq
      simp only [decodeRecord,guard_ok,not_not,Except.bind_eq_ok,
        Except.ok.injEq] at hf
      obtain ⟨-,-,-,-,decoded,hd,-,_,-,-,rfl⟩ := hf
      exact ⟨decoded,hd,rfl⟩
    | inr hm => exact ih ho entry hm

theorem decodeForWrite_eq_ok
    (h : decodeForWrite backend codec payload fence writerEpoch = .ok entry) :
    codec.decodeIpcEntry payload = .ok entry ∧ entry.writerEpoch = writerEpoch := by
  simp only [decodeForWrite,Except.bind_eq_ok,guard_ok,Except.map_eq_ok] at h
  obtain ⟨found,hf,he,-,_,-,rfl⟩ := h
  exact ⟨hf,not_not.mp fun hn => he (.inr hn)⟩

theorem StoredAnswer.loaded (h : StoredAnswer backend codec write afterLsn answer)
    (hl : loadRecoveryForLance backend codec afterLsn answer = .ok entries) :
    Tail (afterLsn + 1) entries ∧ (∀ entry ∈ entries, Repeats write entry) ∧
      ∃ records, answer = .ok records ∧ entries.map (·.position) = records.map (·.lsn) := by
  obtain ⟨ht,records,ha,hf⟩ := load_tail hl
  refine ⟨ht,?_,records,ha,?_⟩
  · intro entry he hp
    obtain ⟨record,hr,hls,hpa⟩ := hf entry he
    rw [← hpa]
    exact h.2 records (by rw [ha]; rfl) record hr (hls.trans hp)
  · subst ha
    exact load_positions hl

/-- A strict tail has no epoch beyond the adapter's, and starts at or below an outstanding write. -/
def StrictWithin (backend : BitrWalBackend ν) (write : PendingWrite π) (state : BackendState ν π)
    (afterLsn : Nat) (answer : RecoverAnswer ν π) : Prop :=
  ∀ records ∈ answer.toOption, (∀ record ∈ records, record.writerEpoch ≤ backend.writerEpoch) ∧
    (state.pending ≠ none → records ≠ [] → afterLsn < write.position)

/-- A strict tail of replicas that stored the write repeats it. -/
theorem StoredAnswer.strict (h : StoredAnswer backend codec write afterLsn answer)
    (hs : StrictWithin backend write state afterLsn answer) :
    failsStructurally (loadRecovery backend codec afterLsn answer) = false ∧
      ∀ entries, loadRecovery backend codec afterLsn answer = .ok entries →
        Tail (afterLsn + 1) entries ∧ (∀ entry ∈ entries, Repeats write entry) ∧
        (state.pending ≠ none → entries ≠ [] → afterLsn + 1 ≤ write.position) ∧
        ∃ records, answer = .ok records ∧ entries.map (·.position) = records.map (·.lsn) := by
  have hl : loadRecovery backend codec afterLsn answer =
      loadRecoveryForLance backend codec afterLsn answer :=
    loadRecovery_eq fun records hr => (hs records hr).1
  rw [hl]
  refine ⟨h.1,?_⟩
  intro entries he
  obtain ⟨ht,hrep,records,ha,hp⟩ := h.loaded he
  refine ⟨ht,hrep,?_,records,ha,hp⟩
  intro hpe hn
  apply (hs records (by rw [ha]; rfl)).2 hpe
  intro hem
  rw [hem,List.map_nil,List.map_eq_nil_iff] at hp
  exact hn hp

/-- A tail that ends at the watermark it is asked with does not fail for it. -/
theorem loadStrict_fails
    (h : failsStructurally (loadRecovery backend codec afterLsn answer) = false)
    (he : ∀ entries, loadRecovery backend codec afterLsn answer = .ok entries →
      ∀ knowledge ∈ persisted, afterLsn < knowledge.committedLsn →
        entries.getLast?.map (·.position) = some knowledge.committedLsn) :
    failsStructurally (loadStrict backend codec afterLsn answer persisted) = false := by
  cases persisted with
  | none => exact h
  | some knowledge =>
    unfold loadStrict
    cases hl : loadRecovery backend codec afterLsn answer with
    | error error =>
      rw [hl] at h
      exact h
    | ok entries =>
      have hb : ¬(afterLsn < knowledge.committedLsn ∧
          entries.getLast?.map (·.position) ≠ some knowledge.committedLsn) :=
        fun hb => hb.2 (he entries hl knowledge rfl hb.1)
      simp only [Except.bind,if_neg hb]
      rfl

end Answers

section Follow

variable [DecidableEq ν] [DecidableEq π] {backend : BitrWalBackend ν} {codec : WalCodec ν π β}

/-- A call that follows a failed append: a read, a recovery or a position probe. -/
def followCall (backend : BitrWalBackend ν) (codec : WalCodec ν π β) (state : BackendState ν π)
    (call : BackendCall ν π) : Option (BackendState ν π) :=
  if call.asks ≠ none then some (callBackend backend codec state call).state else none

/-- Every call before the retry settles the outstanding write or leaves it. -/
theorem Settling.call {call : BackendCall ν π} (h : Settling write state)
    (hs : SettlesFirst backend codec write state call) :
    Settling write (callBackend backend codec state call).state := by
  obtain ⟨⟨ha,hst⟩,hl,hstr⟩ := hs
  obtain ⟨position,hn⟩ := h.next
  obtain ⟨next,he,hr⟩ := callBackend_reads ha
  rw [he]
  cases hr with
  | same => exact h
  | strict hask han hw =>
    obtain ⟨hsto,hend⟩ := hst _ hask
    obtain ⟨hf,hlo⟩ := hsto.strict (hstr _ hask (by simp [han]))
    refine h.taken (loadStrict_fails hf fun entries hen knowledge hk hlt => ?_)
      (fun entries hen => ?_) _
    · obtain ⟨-,-,-,records,rfl,hp⟩ := hlo entries hen
      rw [← List.getLast?_map,hp,List.getLast?_map]
      exact hend knowledge (hw ▸ hk) records rfl hlt
    · obtain ⟨ht,hrep,hex,-⟩ := hlo entries (loadStrict_eq_ok hen).1
      exact ⟨_,ht,hrep,hex⟩
  | ensure answer =>
    simp only [ensurePosition,hn]
    exact h
  | lance hask hlo hlan =>
    cases hlan with
    | inl hno => cases hn.symm.trans hno
    | inr han =>
      obtain ⟨ht,hrep,records,rfl,hp⟩ := (hst _ hask).1.loaded hlo
      refine h.lance backend ht hrep fun hpe entry hen => ?_
      have hm : entry.position ∈ records.map (·.lsn) := hp ▸ List.mem_map_of_mem hen
      obtain ⟨record,hr,hls⟩ := List.mem_map.mp hm
      exact hls ▸ hl _ han records rfl hpe record hr
  | discover hno => cases hn.symm.trans hno

end Follow

section Uncertain

variable [DecidableEq ν] [DecidableEq π] {backend : BitrWalBackend ν} {codec : WalCodec ν π β}
  {acknowledged : List (PendingWrite π)} {entry : IpcEntry β}

def Uncertain (write : WalWrite ν π) (appended : Appended ν π) : Prop :=
  (∃ s ∈ appended.sent, s.record.lsn = write.entryPosition) ∧
    ∃ error, appended.result = .error error ∧ error ≠ .fenced

/-- The states after an append whose outcome is unknown, of Lance or of the adapter's own callers,
although the replicas stored it. -/
inductive UncertainAppend (backend : BitrWalBackend ν) (codec : WalCodec ν π β)
    (write : WalWrite ν π) (fence : Bool) : BackendState ν π → Prop where
  | lance {acknowledged : List (PendingWrite π)} {state : BackendState ν π}
      {tail occupied : RecoverAnswer ν π} {error : WriterError ν}
      (hcursors : Cursors acknowledged state)
      (hstored : StoredAnswer backend codec write.outstanding (write.entryPosition - 1) occupied)
      (hfailed : Uncertain write
        (appendAtPosition backend codec state write fence tail (.error error) occupied)) :
      UncertainAppend backend codec write fence
        (appendAtPosition backend codec state write fence tail (.error error) occupied).state
  | own {acknowledged : List (PendingWrite π)} {state : BackendState ν π}
      {tail : RecoverAnswer ν π} {error : WriterError ν} (hcursors : Cursors acknowledged state)
      (hshard : write.shardId = backend.shardId) (hepoch : write.writerEpoch = backend.writerEpoch)
      (hfailed : Uncertain write
        (appendPayload backend codec state write.payload fence tail (.error error))) :
      UncertainAppend backend codec write fence
        (appendPayload backend codec state write.payload fence tail (.error error)).state

/-- A write that the adapter can send: to its own shard, and with the bytes of such a write. -/
def Sendable (backend : BitrWalBackend ν) (codec : WalCodec ν π β) (write : WalWrite ν π)
    (fence : Bool) : Prop :=
  write.shardId = backend.shardId ∧
    ∃ entry, decodeForWrite backend codec write.payload fence write.writerEpoch = .ok entry

variable {tail : RecoverAnswer ν π}

theorem appendLocked_lsn {write : WalWrite ν π}
    (h : s ∈ (appendLocked backend state write entry answer).sent) :
    s.record.lsn = write.entryPosition := by
  unfold appendLocked at h
  simp only at h
  split at h
  · cases h
  split at h
  · cases h
  · cases h
    rfl

/-- An append whose outcome is unknown leaves its write outstanding. -/
theorem appendLocked_uncertain (h : Cursors acknowledged state) (hc : state.poisoned = none)
    (hn : state.nextPosition = some position) {write : WalWrite ν π}
    (hs : (appendLocked backend state write entry (.error error)).sent ≠ none)
    (hr : (appendLocked backend state write entry (.error error)).result ≠ .error .fenced) :
    Outstanding write.outstanding (appendLocked backend state write entry (.error error)).state := by
  unfold appendLocked at *
  simp only at *
  split at hs
  · exact absurd rfl hs
  rename_i hp
  split at hs
  · exact absurd rfl hs
  rename_i hpe
  rw [if_neg hp,if_neg hpe] at hr ⊢
  have hm : mapReplicaError error ≠ .fenced := by
    intro he
    apply hr
    simp only [settleWrite,he]
  simp only [settleWrite,if_neg hm]
  have hp : write.entryPosition = state.nextPosition.getD 1 := not_not.mp hp
  have ha : state.nextPosition = some write.entryPosition := by
    rw [hn,Option.getD_some] at hp
    rw [hn,hp]
  refine ⟨hc,ha,rfl,?_,?_⟩
  · show state.checkpointedPosition < write.entryPosition
    rw [hp]
    exact h.filling.covered
  · intro key found hf
    show key < write.entryPosition
    rw [hp]
    exact h.retained_lt hf

/-- The tail behind a refused fence that the replicas have stored is the fence itself: it is no
predecessor's, and nothing is taken over. -/
theorem StoredAnswer.fence {fence : Bool} {write : WalWrite ν π}
    (h : StoredAnswer backend codec write.outstanding (write.entryPosition - 1) occupied)
    (hd : decodeForWrite backend codec write.payload fence write.writerEpoch = .ok entry)
    (hr : (recoverFencePosition backend codec state write.entryPosition write.writerEpoch
      occupied).1 ≠ .error .fenced) :
    (recoverFencePosition backend codec state write.entryPosition write.writerEpoch
      occupied).2 = state := by
  unfold recoverFencePosition at *
  cases hl : loadRecoveryForLance backend codec (write.entryPosition - 1) occupied with
  | error error =>
    have hs := h.1
    rw [hl] at hs
    exact poisonIfStructural_eq hs
  | ok entries =>
    simp only [hl] at hr ⊢
    split at hr
    · exact absurd rfl hr
    rename_i hla
    rw [if_neg hla]
    split
    · rfl
    · rename_i hp
      obtain ⟨hh,hn⟩ := not_or.mp hp
      obtain ⟨first,hf,hpo⟩ := Option.map_eq_some_iff.mp (not_not.mp hh)
      have hm : first ∈ entries := List.mem_of_head? hf
      have hpa : first.payload = write.payload := (h.loaded hl).2.1 first hm hpo
      obtain ⟨records,-,hl⟩ : ∃ records, occupied.mapError mapReplicaError = .ok records ∧
          decodeRecoveryRecordsWithEpochBound backend codec (write.entryPosition - 1) records none =
            .ok entries := Except.bind_eq_ok.mp hl
      simp only [decodeRecoveryRecordsWithEpochBound,guard_ok] at hl
      obtain ⟨decoded,hdec,he⟩ := decodeRecordsFrom_epochs hl.2 first hm
      obtain ⟨hen,hw⟩ := decodeForWrite_eq_ok hd
      rw [hpa,hen] at hdec
      cases hdec
      exact absurd ⟨first,hm,he.symm.trans hw⟩ hn

theorem Cursors.found (h : Cursors acknowledged state) (hc : state.poisoned = none)
    (he : ensurePosition backend codec state tail = (.ok position,next)) :
    Cursors acknowledged next ∧ next.poisoned = none ∧ next.nextPosition = some position := by
  obtain ⟨hm,hf⟩ := h.movedEnsure backend codec tail
  rw [he] at hm hf
  have hs : next = { state with nextPosition := some position } := (hf position rfl).2
  refine ⟨hm.cursors,?_,?_⟩
  · rw [hs]
    exact hc
  · rw [hs]

/-- An append that failed after it was sent leaves its write outstanding. -/
theorem Appending.outstanding {write : WalWrite ν π} {place : Nat → WalWrite ν π}
    (h : Appending backend codec state fence tail (.error error) place occupied appended)
    (hc : Cursors acknowledged state) (hf : Uncertain write appended)
    (hp : ∀ position, (place position).entryPosition = write.entryPosition →
      place position = write)
    (hst : ∀ probe ∈ occupied,
      StoredAnswer backend codec write.outstanding (write.entryPosition - 1) probe) :
    Sendable backend codec write fence ∧ Outstanding write.outstanding appended.state := by
  obtain ⟨⟨s,hs,hl⟩,failure,hfai,hfe⟩ := hf
  have hn : (.error failure : WalResult ν (WalWriteResult ν)) ≠ .error .fenced :=
    fun he => hfe (Except.error.inj he)
  cases h with
  | refused error => cases hs
  | unplaced hen => cases hs
  | placed hpla =>
    have he := hp _ ((appendLocked_lsn hs).symm.trans hl)
    rw [he] at hpla hs hfai ⊢
    obtain ⟨hc,hcl,hnex⟩ := hc.found hpla.clean hpla.ensured
    exact ⟨⟨hpla.shard,_,hpla.decoded⟩,appendLocked_uncertain hc hcl hnex
      (Option.ne_none_iff_exists'.mpr ⟨s,hs⟩) (hfai ▸ hn)⟩
  | fenced hpla hco hpr =>
    have he := hp _ ((appendLocked_lsn hs).symm.trans hl)
    rw [he] at hpla hs hfai hco ⊢
    obtain ⟨hc,hcl,hnex⟩ := hc.found hpla.clean hpla.ensured
    have ho := appendLocked_uncertain hc hcl hnex (Option.ne_none_iff_exists'.mpr ⟨s,hs⟩)
      (by rw [hco]; exact nofun)
    refine ⟨⟨hpla.shard,_,hpla.decoded⟩,?_⟩
    simp only [(hst _ hpr).fence hpla.decoded (hfai ▸ hn)]
    exact ho

theorem UncertainAppend.outstanding {write : WalWrite ν π}
    (h : UncertainAppend backend codec write fence state) :
    Sendable backend codec write fence ∧ Outstanding write.outstanding state := by
  cases h with
  | lance hc hs hf =>
    refine (appendAtPosition_appending ..).outstanding hc hf (fun _ _ => rfl) ?_
    intro probe hp
    cases hp
    exact hs
  | own hc hsh he hf =>
    refine (appendPayload_appending ..).outstanding hc hf (fun position hpo => ?_) nofun
    cases write
    cases hpo
    cases hsh
    cases he
    rfl

end Uncertain

section Retry

variable [DecidableEq ν] [DecidableEq π] {backend : BitrWalBackend ν} {codec : WalCodec ν π β}
  {fence : Bool}

def AcceptsWrite (backend : BitrWalBackend ν) (write : WalWrite ν π) (knowledge : CommitKnowledge ν) :
    Prop :=
  knowledge.stream = backend.stream ∧ knowledge.writerEpoch = write.writerEpoch ∧
    knowledge.committedLsn = write.entryPosition

def CommittedAt (position : Nat) (appended : Appended ν π) : Prop :=
  ∃ commit, appended.result = .ok (.committed commit) ∧ commit.entryPosition = position

def RetrySucceeds (backend : BitrWalBackend ν) (codec : WalCodec ν π β) (write : WalWrite ν π)
    (fence : Bool) (state : BackendState ν π) : Prop :=
  ∀ tail knowledge occupied, AcceptsWrite backend write knowledge →
    CommittedAt write.entryPosition
        (appendAtPosition backend codec state write fence tail (.ok knowledge) occupied) ∧
      ∀ (next : WalWrite ν π) (nextFence : Bool) tail' knowledge' occupied',
        Sendable backend codec next nextFence → next.entryPosition < u64Max →
        (appendAtPosition backend codec state write fence tail (.ok knowledge)
          occupied).state.nextPosition = some next.entryPosition →
        AcceptsWrite backend next knowledge' →
        CommittedAt next.entryPosition
          (appendAtPosition backend codec
            (appendAtPosition backend codec state write fence tail (.ok knowledge) occupied).state
            next nextFence tail' (.ok knowledge') occupied')

structure Ready (write : WalWrite ν π) (state : BackendState ν π) : Prop where
  clean : state.poisoned = none
  next : state.nextPosition = some write.entryPosition
  pending : state.pending = none ∨ state.pending = some write.outstanding

theorem appendAtPosition_eq {write : WalWrite ν π} (hs : Sendable backend codec write fence)
    (hc : state.poisoned = none) (hn : state.nextPosition = some position)
    (tail : RecoverAnswer ν π) (answer : AppendAnswer ν) (occupied : RecoverAnswer ν π) :
    ∃ entry : IpcEntry β, ∀ committed,
      (appendLocked backend state write entry answer).result = .ok committed →
      appendAtPosition backend codec state write fence tail answer occupied =
        appendLocked backend state write entry answer := by
  obtain ⟨hsh,entry,hd⟩ := hs
  refine ⟨entry,?_⟩
  intro committed hco
  have hu : ensureNotPoisoned state = .ok () := ensureNotPoisoned_eq_ok.mpr hc
  simp only [appendAtPosition,if_neg (not_not.mpr hsh),hd,hu,ensurePosition,
    hn,hco]

def CommitsCleanly (position : Nat) (appended : Appended ν π) : Prop :=
  CommittedAt position appended ∧ appended.state.poisoned = none ∧ appended.state.pending = none

/-- A retry that the replicas accept commits at its position. -/
theorem Ready.commits {write : WalWrite ν π} (h : Ready write state)
    (hs : Sendable backend codec write fence) (hr : write.entryPosition < u64Max)
    (ha : AcceptsWrite backend write knowledge) (tail occupied : RecoverAnswer ν π) :
    CommitsCleanly write.entryPosition
      (appendAtPosition backend codec state write fence tail (.ok knowledge) occupied) := by
  obtain ⟨entry,hl⟩ :=
    appendAtPosition_eq hs h.clean h.next tail (.ok knowledge) occupied
  obtain ⟨hst,he,hls⟩ := ha
  have hp : ¬write.entryPosition ≠ state.nextPosition.getD 1 := by
    rw [h.next,Option.getD_some]
    exact not_not.mpr rfl
  have hpe : ¬∃ pending ∈ state.pending,
      pending.position ≠ write.entryPosition ∨ pending.payload ≠ write.payload := by
    rintro ⟨pending,hm,hd⟩
    cases h.pending with
    | inl hn =>
      rw [hn] at hm
      cases hm
    | inr hsa =>
      rw [hsa] at hm
      cases hm
      simp [WalWrite.outstanding] at hd
  have hma : ¬(knowledge.stream ≠ backend.stream ∨ knowledge.writerEpoch ≠ write.writerEpoch ∨
      knowledge.committedLsn ≠ write.entryPosition) := by
    simp [hst,he,hls]
  have hap : appendLocked backend state write entry (.ok knowledge) =
      ⟨.ok (.committed ⟨write.entryPosition,knowledge⟩),
        (commitWrite { state with pending := some ⟨write.entryPosition,write.payload⟩ } write entry
          knowledge).2,
        some ⟨state.nextPosition,backend.stream,write.writerEpoch,write.entryPosition,
          write.entryPosition - 1,write.payload⟩⟩ := by
    simp only [appendLocked,if_neg hp,if_neg hpe,settleWrite,if_neg hma,
      commitWrite,if_neg (Nat.not_le.mpr hr)]
  rw [hl _ (by rw [hap]),hap]
  refine ⟨⟨_,rfl,rfl⟩,?_,?_⟩
  · simp only [commitWrite,if_neg (Nat.not_le.mpr hr)]
    exact h.clean
  · simp only [commitWrite,if_neg (Nat.not_le.mpr hr)]

/-- The retry of a write that was recovered commits without a change. -/
theorem Recovered.commits {write : WalWrite ν π} (h : Recovered write.outstanding state)
    (hs : Sendable backend codec write fence) (tail : RecoverAnswer ν π)
    (answer : AppendAnswer ν) (occupied : RecoverAnswer ν π) :
    CommittedAt write.entryPosition
        (appendAtPosition backend codec state write fence tail answer occupied) ∧
      (appendAtPosition backend codec state write fence tail answer occupied).state = state := by
  obtain ⟨position,hn,hl⟩ := h.next
  have hl : write.entryPosition < position := hl
  obtain ⟨existing,he,hp⟩ := h.retained
  have he : state.committed[write.entryPosition]? = some existing := he
  have hp : existing.payload = write.payload := hp
  obtain ⟨entry,hlo⟩ := appendAtPosition_eq hs h.clean hn tail answer occupied
  have ha : appendLocked backend state write entry answer =
      ⟨.ok (.committed ⟨write.entryPosition,existing.knowledge⟩),state,none⟩ := by
    simp only [appendLocked,hn,Option.getD_some,if_pos (Nat.ne_of_lt hl),repeatWrite,
      if_pos hl,he,if_pos hp]
  rw [hlo _ (by rw [ha]),ha]
  exact ⟨⟨_,rfl,rfl⟩,rfl⟩

theorem Settling.retries {write : WalWrite ν π} (h : Settling write.outstanding state)
    (hs : Sendable backend codec write fence) (hr : write.entryPosition < u64Max) :
    RetrySucceeds backend codec write fence state := by
  intro tail knowledge occupied ha
  have hret : CommitsCleanly write.entryPosition
      (appendAtPosition backend codec state write fence tail (.ok knowledge) occupied) := by
    cases h with
    | inl ho =>
      have hrea : Ready write state := ⟨ho.clean,ho.next,.inr ho.pending⟩
      exact hrea.commits hs hr ha tail occupied
    | inr hre =>
      obtain ⟨hc,hst⟩ := hre.commits hs tail (.ok knowledge) occupied
      unfold CommitsCleanly
      rw [hst]
      exact ⟨hc,hre.clean,hre.pending⟩
  obtain ⟨hc,hcl,hp⟩ := hret
  refine ⟨hc,?_⟩
  intro next nextFence tail' knowledge' occupied' hn hr' hpo ha'
  have hrea : Ready next (appendAtPosition backend codec state write fence tail (.ok knowledge)
      occupied).state := ⟨hcl,hpo,.inl hp⟩
  exact (hrea.commits hn hr' ha' tail' occupied').1

/-- After an append whose outcome is unknown, and any calls that bring its position in through a
strict recovery only, the write can be retried. -/
theorem uncertain_append_can_be_retried {write : WalWrite ν π}
    (hroom : write.entryPosition < u64Max)
    (h : Reachable (UncertainAppend backend codec write fence) (followCall backend codec)
      (SettlesFirst backend codec write.outstanding) state) :
    RetrySucceeds backend codec write fence state := by
  have hse : Sendable backend codec write fence ∧ Settling write.outstanding state := by
    apply h.invariant
    · intro s hs
      obtain ⟨hsen,ho⟩ := hs.outstanding
      exact ⟨hsen,.inl ho⟩
    · intro s call s' hs hok hst
      refine ⟨hs.1,?_⟩
      unfold followCall at hst
      split at hst
      · cases hst
        exact hs.2.call hok
      · cases hst
  exact hse.2.retries hse.1 hroom

def firstWrite : WalWrite Nat (Nat × Nat) := ⟨9, 1, 1, (1, 3)⟩

def unansweredWrite : BackendState Nat (Nat × Nat) :=
  (appendAtPosition plainBackend plainCodec plainBackend.start firstWrite false (.ok [])
    (.error (.replica .quorumUnavailable)) (.ok [])).state

theorem unansweredWrite_uncertain :
    UncertainAppend plainBackend plainCodec firstWrite false unansweredWrite := by
  refine .lance (Kept.start plainBackend).cursors ⟨rfl,?_⟩ ⟨⟨_,rfl,rfl⟩,_,rfl,?_⟩
  · intro records hre record hr
    cases hre
    cases hr
  · decide

/-- A recovery brings the write in, and a read of Lance and a position probe follow. -/
theorem first_write_retried_after_recovery :
    ∃ state, Reachable (UncertainAppend plainBackend plainCodec firstWrite false)
        (followCall plainBackend plainCodec)
        (SettlesFirst plainBackend plainCodec firstWrite.outstanding) state ∧
      state.pending = none ∧ RetrySucceeds plainBackend plainCodec firstWrite false state := by
  have hs : Reachable (UncertainAppend plainBackend plainCodec firstWrite false)
      (followCall plainBackend plainCodec)
      (SettlesFirst plainBackend plainCodec firstWrite.outstanding) unansweredWrite :=
    .start unansweredWrite_uncertain
  have hp : (runs (followCall plainBackend plainCodec)
      (SettlesFirst plainBackend plainCodec firstWrite.outstanding) unansweredWrite
      [.recoverWithWatermark 0 ⟨5,1,1,some 8⟩ (.ok [plainRecord 1 3]),
       .read 9 2 (.ok [plainRecord 2 4]),.nextPositionForLance 9 none (.ok [])]).map
        (·.pending) = some none := by
    decide +kernel
  obtain ⟨state,hrun,hp⟩ := Option.map_eq_some_iff.mp hp
  have hr := hs.of_runs _ hrun
  exact ⟨state,hr,hp,uncertain_append_can_be_retried (by decide) hr⟩

/-- A read of Lance brings the write in and leaves it outstanding: the retry is answered from what
is retained, and the next write is refused. -/
theorem lance_read_leaves_write_outstanding :
    ¬∀ state, Reachable (UncertainAppend plainBackend plainCodec firstWrite false)
        (followCall plainBackend plainCodec)
        (FromStored plainBackend plainCodec firstWrite.outstanding) state →
      RetrySucceeds plainBackend plainCodec firstWrite false state := by
  intro ha
  have hr := ha _ (.of_start unansweredWrite_uncertain [.read 9 1 (.ok [plainRecord 1 3])] rfl)
  obtain ⟨-,hn⟩ := hr (.ok []) ⟨5,1,1,none⟩ (.ok []) ⟨rfl,rfl,rfl⟩
  obtain ⟨commit,hc,-⟩ := hn ⟨9,1,2,(1,4)⟩ false (.ok []) ⟨5,1,2,none⟩ (.ok [])
    ⟨rfl,_,rfl⟩ (by decide) rfl ⟨rfl,rfl,rfl⟩
  cases hc

end Retry

end Walleye.Lance
