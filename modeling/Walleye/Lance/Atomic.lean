import Walleye.Lance.Laws

namespace Walleye.Lance

open Walleye.Base Walleye.Base.BTreeMap
open Walleye.Engine (u64Max saturatingAdd)

variable {ν π β : Type}

def Atomic (state : BackendState ν π) (entries : List (RecoveredEntry π β))
    (applied : WalResult ν Unit × BackendState ν π) : Prop :=
  (applied.1 = .ok () ∧
    (∀ entry ∈ entries, state.checkpointedPosition < entry.position →
      ∃ kept, applied.2.committed[entry.position]? = some kept ∧ kept.payload = entry.payload) ∧
    ∀ last ∈ entries.getLast?, ∃ next ∈ applied.2.nextPosition, last.position < next) ∨
  (applied.1 ≠ .ok () ∧ applied.2.committed = state.committed ∧
    applied.2.knowledge = state.knowledge ∧ applied.2.nextPosition = state.nextPosition ∧
    applied.2.pending = state.pending)

def InPlace (state : BackendState ν π) (entry : RecoveredEntry π β) : Prop :=
  state.checkpointedPosition < entry.position →
    state.committed[entry.position]? = some ⟨entry.payload, state.knowledge⟩

variable {state : BackendState ν π} {entry : RecoveredEntry π β}
  {entries : List (RecoveredEntry π β)}

section Retain

theorem retainAll_knowledge :
    (retainAll known state entries).knowledge = entries.foldl known state.knowledge := by
  rw [retainAll_eq]

theorem InPlace.retain (h : InPlace state entry) :
    retainEntry state entry state.knowledge =
      { state with recoveredTailPosition := max state.recoveredTailPosition entry.position } := by
  have hc : (retainEntry state entry state.knowledge).committed = state.committed := by
    apply Std.ExtTreeMap.ext_getElem?
    intro position
    rw [getElem?_retainEntry]
    split
    · rename_i ha
      rw [← ha.2,h ha.1]
    · rfl
  change ({ state with
    committed := (retainEntry state entry state.knowledge).committed
    recoveredTailPosition := _ } : BackendState ν π) = _
  rw [hc]

/-- Nothing changes exactly when all entries are in place and nothing new is known at any, if
knowledge that has changed does not change back. -/
theorem Ascending.retainAll_same_iff (h : Ascending entries) (hb : ∀ knowledge entry rest,
      List.foldl known (known knowledge entry) rest = knowledge →
        known knowledge entry = knowledge) :
    ((retainAll known state entries).committed = state.committed ∧
      (retainAll known state entries).knowledge = state.knowledge) ↔
    ∀ entry ∈ entries, known state.knowledge entry = state.knowledge ∧ InPlace state entry := by
  induction entries generalizing state with
  | nil => simp [retainAll]
  | cons entry rest ih =>
    obtain ⟨hbe,hr⟩ := List.pairwise_cons.mp h
    have hc : retainAll known state (entry :: rest) =
        retainAll known (retainEntry state entry (known state.knowledge entry)) rest := rfl
    rw [List.forall_mem_cons,hc]
    constructor
    · intro hs
      have hk : known state.knowledge entry = state.knowledge :=
        hb _ _ rest (retainAll_knowledge.symm.trans hs.2)
      rw [hk] at hs
      have hp : InPlace state entry := by
        intro hcov
        rw [← hs.1,getElem?_retainAll fun other ho => (hbe other ho).ne',
          getElem?_retainEntry,if_pos ⟨hcov,rfl⟩]
      rw [hp.retain] at hs
      have hoth := (ih hr).mp hs
      exact ⟨⟨hk,hp⟩,hoth⟩
    · intro hp
      rw [hp.1.1,hp.1.2.retain]
      exact (ih hr).mpr hp.2

end Retain

/-- A tail that is retained whole is applied. -/
theorem Tail.atomic (h : Tail expected entries)
    (ha : after.committed = (retainAll known state entries).committed) :
    Atomic state entries (finishTail entries (.ok (),after)) := by
  refine .inl ⟨rfl,fun entry he hc => ?_,fun last hl => h.past (List.mem_of_getLast? hl)⟩
  change ∃ kept, after.committed[entry.position]? = some kept ∧ _
  rw [ha]
  exact h.ascending.retained he hc

/-- A tail that is refused is to have changed nothing. -/
theorem atomic_error_iff :
    Atomic state entries (finishTail entries (.error error,retainAll known state before)) ↔
      (retainAll known state before).committed = state.committed ∧
        (retainAll known state before).knowledge = state.knowledge := by
  simp [Atomic,finishTail,retainAll_nextPosition,retainAll_pending]

section Lance

theorem le_knownForLance :
    knowledge.committedLsn ≤ (knownForLance backend knowledge entry).committedLsn := by
  unfold knownForLance
  split
  · exact Nat.le_refl _
  · exact Nat.le_of_lt (Nat.not_le.mp ‹_›)

theorem le_foldl_knownForLance :
    knowledge.committedLsn ≤ (entries.foldl (knownForLance backend) knowledge).committedLsn := by
  induction entries generalizing knowledge with
  | nil => exact Nat.le_refl _
  | cons entry rest ih => exact Nat.le_trans le_knownForLance ih

theorem knownForLance_eq_self : knownForLance backend knowledge entry = knowledge ↔
    entry.position ≤ knowledge.committedLsn := by
  unfold knownForLance
  split
  · simp [*]
  · rename_i hb
    refine iff_of_false (fun he => hb ?_) hb
    rw [← he]
    exact Nat.le_refl _

theorem knownForLance_back (h : entries.foldl (knownForLance backend)
      (knownForLance backend knowledge entry) = knowledge) :
    knownForLance backend knowledge entry = knowledge := by
  rw [knownForLance_eq_self]
  by_contra hb
  have hl : (knownForLance backend knowledge entry).committedLsn ≤ knowledge.committedLsn :=
    Nat.le_trans le_foldl_knownForLance (Nat.le_of_eq (congrArg _ h))
  rw [knownForLance,if_neg hb] at hl
  exact hb hl

variable [DecidableEq π]

def SettledForLance (state : BackendState ν π) (entries : List (RecoveredEntry π β)) : Prop :=
  ∀ conflict ∈ entries.find? (fun entry => Conflicts state entry), ∀ entry ∈ entries,
    entry.position < conflict.position →
      entry.position ≤ state.knowledge.committedLsn ∧ InPlace state entry

theorem Tail.atomicForLance_iff (h : Tail expected entries) :
    Atomic state entries (applyRecoveryForLance backend state entries) ↔
      SettledForLance state entries := by
  unfold SettledForLance applyRecoveryForLance
  cases h.retainForLance_cases backend state with
  | inl hw =>
    rw [hw.1,hw.2]
    exact iff_of_true (h.atomic rfl) nofun
  | inr hs =>
    obtain ⟨error,before,conflict,after,he,hf,-,-,hr⟩ := hs
    have ha : Ascending (before ++ conflict :: after) := he ▸ h.ascending
    rw [hr,atomic_error_iff,ha.left.retainAll_same_iff fun _ _ _ =>
      knownForLance_back,ha.forall_before,← he,hf]
    simp only [knownForLance_eq_self,Option.mem_def,Option.some.injEq,forall_eq']

end Lance

section Strict

variable {persisted : Option (CommitKnowledge ν)}

/-- A tail beyond what is known, asked for without a watermark. -/
def Uncertified (state : BackendState ν π) (entries : List (RecoveredEntry π β))
    (persisted : Option (CommitKnowledge ν)) : Prop :=
  persisted = none ∧ ∃ last ∈ entries.getLast?, state.knowledge.committedLsn < last.position

theorem recoveredKnowledge_of_uncertified (h : Uncertified state entries persisted) :
    recoveredKnowledge state entries persisted = .error .commitCertificateMissing := by
  obtain ⟨rfl,last,hl,hb⟩ := h
  simp [recoveredKnowledge,Option.mem_def.mp hl,hb]

theorem recoveredKnowledge_of_certified (h : ¬ Uncertified state entries persisted) :
    recoveredKnowledge state entries persisted = .ok (persisted.getD state.knowledge) := by
  cases persisted with
  | some knowledge => rfl
  | none =>
    refine if_pos ?_
    cases hl : entries.getLast? with
    | none => exact Nat.zero_le _
    | some last => exact Nat.not_lt.mp fun hb => h ⟨rfl,last,hl,hb⟩

variable [DecidableEq π]

/-- The tail is refused at once, or nothing new is known of it and its entries are in place, up
to the one that differs from the outstanding write. -/
def SettledStrict (state : BackendState ν π) (entries : List (RecoveredEntry π β))
    (persisted : Option (CommitKnowledge ν)) : Prop :=
  ∀ conflict ∈ entries.find? (fun entry => Differs state entry),
    Uncertified state entries persisted ∨
      persisted.getD state.knowledge = state.knowledge ∧ InPlace state conflict ∧
        ∀ entry ∈ entries, entry.position < conflict.position → InPlace state entry

/-- A strict recovery is atomic exactly when the tail is settled. -/
theorem Tail.atomicStrict_iff (h : Tail expected entries) :
    Atomic state entries (applyRecovery state entries persisted) ↔
      SettledStrict state entries persisted := by
  unfold SettledStrict applyRecovery
  by_cases hc : Uncertified state entries persisted
  · rw [recoveredKnowledge_of_uncertified hc]
    exact iff_of_true (.inr ⟨nofun,rfl,rfl,rfl,rfl⟩) fun _ _ => .inl hc
  rw [recoveredKnowledge_of_certified hc]
  generalize persisted.getD state.knowledge = knowledge
  simp only [hc,false_or]
  cases h.retainStrict_cases knowledge state with
  | inl hw =>
    obtain ⟨hf,pending,-,hr⟩ := hw
    rw [hf,hr]
    exact iff_of_true (h.atomic rfl) nofun
  | inr hs =>
    obtain ⟨error,before,conflict,after,hent,hf,-,hr⟩ := hs
    have ha : Ascending (before ++ conflict :: after) := hent ▸ h.ascending
    have hu : Ascending (before ++ [conflict]) :=
      ha.sublist (List.Sublist.append_left (by simp) before)
    rw [hr,atomic_error_iff,hu.retainAll_same_iff,hf]
    · simp only [List.forall_mem_append,List.forall_mem_singleton,ha.forall_before,
        ← hent,Option.mem_def,Option.some.injEq,forall_eq']
      constructor
      · intro hp
        exact ⟨hp.2.1,hp.2.2,fun entry he hl => (hp.1 entry he hl).2⟩
      · intro hp
        exact ⟨fun entry he hl => ⟨hp.1,hp.2.2 entry he hl⟩,hp.1,
          hp.2.1⟩
    · intro known entry rest hsa
      rwa [List.foldl_fixed' fun _ => rfl] at hsa

end Strict

/-- A validated tail is applied whole, or leaves the adapter as it was, exactly when the entries
applied before the first conflict are in place. -/
theorem recovery_atomic_iff_settled [DecidableEq ν] [DecidableEq π] {backend : BitrWalBackend ν}
    {codec : WalCodec ν π β} {afterLsn : Nat} {records : List (AppendRecord ν π)}
    {epoch : Option Nat}
    (h : decodeRecoveryRecordsWithEpochBound backend codec afterLsn records epoch = .ok entries)
    (state : BackendState ν π) (persisted : Option (CommitKnowledge ν)) :
    (Atomic state entries (applyRecovery state entries persisted) ↔
        SettledStrict state entries persisted) ∧
      (Atomic state entries (applyRecoveryForLance backend state entries) ↔
        SettledForLance state entries) := by
  simp only [decodeRecoveryRecordsWithEpochBound,guard_ok] at h
  have ht := (decodeRecordsFrom_tail h.2).1
  exact ⟨ht.atomicStrict_iff,ht.atomicForLance_iff⟩

def unanswered : BackendState Nat (Nat × Nat) :=
  [plainAppend 1 3 (.ok ⟨5, 1, 1, none⟩),
    plainAppend 2 4 (.error (.replica .quorumUnavailable))].foldl
      (fun state call => (callBackend plainBackend plainCodec state call).state) plainBackend.start

/-- The tail that the replicas hold when the second write has reached them. -/
def answeredTail (number : Nat) : List (RecoveredEntry (Nat × Nat) Unit) :=
  [⟨1, 1, false, [()], (1, 3)⟩, ⟨2, 1, false, [()], (1, number)⟩]

/-- An unanswered write that the replicas stored. -/
theorem recovery_atomic_of_unanswered :
    Atomic unanswered (answeredTail 4)
        (applyRecovery unanswered (answeredTail 4) (some ⟨5, 1, 2, some 8⟩)) ∧
      Atomic unanswered (answeredTail 4)
        (applyRecoveryForLance plainBackend unanswered (answeredTail 4)) := by
  have hd : decodeRecoveryRecordsWithEpochBound plainBackend plainCodec 0
      [plainRecord 1 3,plainRecord 2 4] (some 1) = .ok (answeredTail 4) := rfl
  have ha := recovery_atomic_iff_settled hd unanswered (some ⟨5,1,2,some 8⟩)
  refine ⟨ha.1.mpr ?_,ha.2.mpr ?_⟩
  · intro conflict hc
    cases hc
  · intro conflict hc
    cases hc

/-- The replicas hold other bytes: the recovery is refused, and the adapter retains them. -/
theorem refused_recovery_is_applied :
    ¬∀ (records : List (AppendRecord Nat (Nat × Nat))) entries
        (state : BackendState Nat (Nat × Nat)) persisted,
      decodeRecoveryRecordsWithEpochBound plainBackend plainCodec 0 records (some 1) = .ok entries →
        Atomic state entries (applyRecovery state entries persisted) := by
  intro ha
  cases ha [plainRecord 1 3,plainRecord 2 6] (answeredTail 6) unanswered
    (some ⟨5,1,2,some 8⟩) rfl with
  | inl hw => exact absurd hw.1 (by decide)
  | inr hs => exact absurd hs.2.2.1 (by decide)

end Walleye.Lance
