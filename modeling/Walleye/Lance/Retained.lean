import Walleye.Lance.Backend

namespace Walleye.Lance

open Walleye.Base Walleye.Base.BTreeMap
open Walleye.Engine (u64Max)

variable {ν π β : Type} {state : BackendState ν π} {entry : RecoveredEntry π β}
  {entries before : List (RecoveredEntry π β)} {expected : Nat}

section Tail

inductive Tail : Nat → List (RecoveredEntry π β) → Prop
  | nil (expected : Nat) : Tail expected []
  | cons {expected : Nat} {entry : RecoveredEntry π β} {rest : List (RecoveredEntry π β)} :
      entry.position = expected → expected < u64Max → Tail (expected + 1) rest →
      Tail expected (entry :: rest)

theorem Tail.mem (h : Tail expected entries)
    (he : entry ∈ entries) : expected ≤ entry.position ∧ entry.position < u64Max := by
  induction h with
  | nil => cases he
  | cons hp hb _ ih =>
    cases List.mem_cons.mp he with
    | inl heq =>
      subst heq
      omega
    | inr hm =>
      have := ih hm
      omega

theorem Tail.le_last (h : Tail expected entries)
    (hl : entries.getLast? = some last) (he : entry ∈ entries) :
    entry.position ≤ last.position := by
  induction h with
  | nil => cases he
  | @cons expected first rest hp hb ht ih =>
    cases hr : rest with
    | nil =>
      subst hr
      simp only [List.getLast?_singleton,Option.some.injEq] at hl
      rw [List.mem_singleton.mp he,hl]
    | cons second others =>
      rw [hr,List.getLast?_cons_cons,← hr] at hl
      cases List.mem_cons.mp he with
      | inl heq =>
        have hm := ht.mem (List.mem_of_getLast? hl)
        subst heq
        omega
      | inr hm => exact ih hl hm

/-- A tail that starts at or before a position and does not have it ends before it. -/
theorem Tail.lt_of_absent (h : Tail expected entries) (he : entries ≠ [] → expected ≤ position)
    (ha : ∀ entry ∈ entries, entry.position ≠ position) :
    ∀ entry ∈ entries, entry.position < position := by
  induction h with
  | nil => exact nofun
  | cons hp _ _ ih =>
    rw [List.forall_mem_cons] at ha ⊢
    have hl := he (List.cons_ne_nil _ _)
    exact ⟨by omega,ih (fun _ => by omega) ha.2⟩

variable [DecidableEq ν] {backend : BitrWalBackend ν}

theorem decodeRecord_eq_ok (h : decodeRecord backend codec epoch expected record = .ok entry) :
    entry.position = expected ∧ expected < u64Max ∧ record.lsn = expected ∧
      entry.payload = record.payload := by
  simp only [decodeRecord,guard_ok,not_not,Except.bind_eq_ok,Nat.not_le,
    Except.ok.injEq] at h
  obtain ⟨-,hl,-,-,decoded,-,-,_,-,hb,rfl⟩ := h
  exact ⟨hl,hb,hl,rfl⟩

theorem decodeRecordsFrom_tail
    (h : decodeRecordsFrom backend codec epoch expected records = .ok entries) :
    Tail expected entries ∧
      ∀ entry ∈ entries, ∃ record ∈ records,
        record.lsn = entry.position ∧ record.payload = entry.payload := by
  induction records generalizing expected entries with
  | nil =>
    cases h
    exact ⟨.nil expected,by simp⟩
  | cons record rest ih =>
    simp only [decodeRecordsFrom,Except.bind_eq_ok,Except.map_eq_ok] at h
    obtain ⟨first,hf,others,ho,rfl⟩ := h
    obtain ⟨hp,hb,hl,hpa⟩ := decodeRecord_eq_ok hf
    obtain ⟨ht,hfr⟩ := ih ho
    refine ⟨.cons hp hb ht,?_⟩
    intro entry he
    cases List.mem_cons.mp he with
    | inl heq =>
      subst heq
      exact ⟨record,List.mem_cons_self,hl.trans hp.symm,hpa.symm⟩
    | inr hm =>
      obtain ⟨found,hfo,hs⟩ := hfr entry hm
      exact ⟨found,List.mem_cons_of_mem _ hfo,hs⟩

theorem load_tail {answer : RecoverAnswer ν π}
    (h : (answer.mapError mapReplicaError).bind (fun records =>
      decodeRecoveryRecordsWithEpochBound backend codec afterLsn records epoch) = .ok entries) :
    Tail (afterLsn + 1) entries ∧
      ∃ records, answer = .ok records ∧ ∀ entry ∈ entries, ∃ record ∈ records,
        record.lsn = entry.position ∧ record.payload = entry.payload := by
  simp only [Except.bind_eq_ok,Except.mapError_eq_ok,decodeRecoveryRecordsWithEpochBound,
    guard_ok] at h
  obtain ⟨records,ha,-,hd⟩ := h
  obtain ⟨ht,hf⟩ := decodeRecordsFrom_tail hd
  exact ⟨ht,records,ha,hf⟩

end Tail

section Ascending

def Ascending (entries : List (RecoveredEntry π β)) : Prop :=
  entries.Pairwise fun earlier later => earlier.position < later.position

theorem Tail.ascending (h : Tail expected entries) : Ascending entries := by
  induction h with
  | nil => exact .nil
  | cons hp _ ht ih =>
    refine .cons (fun later hl => ?_) ih
    have := ht.mem hl
    omega

variable {after : List (RecoveredEntry π β)} (h : Ascending (before ++ entry :: after))
include h

theorem Ascending.left : Ascending before := (List.pairwise_append.mp h).1

theorem Ascending.mem_before (ho : other ∈ before ++ entry :: after) :
    other.position < entry.position ↔ other ∈ before := by
  obtain ⟨-,ha,hac⟩ := List.pairwise_append.mp h
  cases List.mem_append.mp ho with
  | inl hm => exact iff_of_true (hac other hm entry List.mem_cons_self) hm
  | inr hm =>
    refine iff_of_false (fun hl => ?_) fun hi => Nat.lt_irrefl _ (hac other hi other hm)
    cases List.mem_cons.mp hm with
    | inl he => exact Nat.lt_irrefl _ (he ▸ hl)
    | inr hla => exact Nat.lt_asymm hl ((List.pairwise_cons.mp ha).1 other hla)

theorem Ascending.lt_of_before (ho : other ∈ before) : other.position < entry.position :=
  (h.mem_before (List.mem_append_left _ ho)).mpr ho

theorem Ascending.forall_before {holds : RecoveredEntry π β → Prop} :
    (∀ other ∈ before, holds other) ↔
      ∀ other ∈ before ++ entry :: after, other.position < entry.position → holds other := by
  constructor
  · intro ha other ho hl
    exact ha other ((h.mem_before ho).mp hl)
  · intro ha other ho
    exact ha other (List.mem_append_left _ ho) (h.lt_of_before ho)

end Ascending

section Retain

def retainAll (known : CommitKnowledge ν → RecoveredEntry π β → CommitKnowledge ν)
    (state : BackendState ν π) (entries : List (RecoveredEntry π β)) : BackendState ν π :=
  entries.foldl (fun s entry => retainEntry s entry (known s.knowledge entry)) state

/-- Only what is retained and what is known changes. -/
theorem retainAll_eq : retainAll known state entries =
    { state with
      committed := (retainAll known state entries).committed
      knowledge := entries.foldl known state.knowledge
      recoveredTailPosition := (retainAll known state entries).recoveredTailPosition } := by
  induction entries generalizing state with
  | nil => rfl
  | cons entry rest ih => exact ih

@[simp] theorem retainAll_nextPosition :
    (retainAll known state entries).nextPosition = state.nextPosition := by
  rw [retainAll_eq]

@[simp] theorem retainAll_pending : (retainAll known state entries).pending = state.pending := by
  rw [retainAll_eq]

@[simp] theorem retainAll_poisoned :
    (retainAll known state entries).poisoned = state.poisoned := by
  rw [retainAll_eq]

theorem retainAll_withPending (state : BackendState ν π) (pending : Option (PendingWrite π)) :
    retainAll known { state with pending } entries =
      { retainAll known state entries with pending } := by
  induction entries generalizing state with
  | nil => rfl
  | cons entry rest ih => exact ih (retainEntry state entry (known state.knowledge entry))

theorem getElem?_retainEntry (state : BackendState ν π) (entry : RecoveredEntry π β)
    (knowledge : CommitKnowledge ν) (position : Nat) :
    (retainEntry state entry knowledge).committed[position]? =
      if state.checkpointedPosition < entry.position ∧ entry.position = position then
        some ⟨entry.payload,knowledge⟩
      else state.committed[position]? := by
  unfold retainEntry
  by_cases hc : state.checkpointedPosition < entry.position
  · simp [hc,Std.ExtTreeMap.getElem?_insert]
  · simp [hc]

theorem getElem?_retainAll (h : ∀ entry ∈ entries, entry.position ≠ position) :
    (retainAll known state entries).committed[position]? = state.committed[position]? := by
  induction entries generalizing state with
  | nil => rfl
  | cons entry rest ih =>
    rw [List.forall_mem_cons] at h
    refine (ih h.2).trans ?_
    rw [getElem?_retainEntry,if_neg fun ha => h.1 ha.2]

theorem Ascending.retained (h : Ascending entries) (he : entry ∈ entries)
    (hc : state.checkpointedPosition < entry.position) :
    ∃ kept, (retainAll known state entries).committed[entry.position]? = some kept ∧
      kept.payload = entry.payload := by
  induction entries generalizing state with
  | nil => cases he
  | cons first rest ih =>
    rw [Ascending,List.pairwise_cons] at h
    cases List.mem_cons.mp he with
    | inl heq =>
      subst heq
      exact ⟨⟨entry.payload,_⟩,
        (getElem?_retainAll fun other ho => (h.1 other ho).ne').trans
          ((getElem?_retainEntry ..).trans (if_pos ⟨hc,rfl⟩)),rfl⟩
    | inr hm => exact ih h.2 hm hc

end Retain

section Lance

def knownForLance (backend : BitrWalBackend ν) (knowledge : CommitKnowledge ν)
    (entry : RecoveredEntry π β) : CommitKnowledge ν :=
  if entry.position ≤ knowledge.committedLsn then knowledge
  else .replica backend.stream entry.writerEpoch entry.position

def Conflicts (state : BackendState ν π) (entry : RecoveredEntry π β) : Prop :=
  ∃ existing ∈ state.committed[entry.position]?, existing.payload ≠ entry.payload

instance [DecidableEq π] : Decidable (Conflicts state entry) :=
  inferInstanceAs (Decidable (∃ existing ∈ state.committed[entry.position]?, _))

variable [DecidableEq π]

/-- Entries that do not conflict are retained. -/
theorem Ascending.retainForLance_append (h : Ascending before) (backend : BitrWalBackend ν)
    (hn : ∀ entry ∈ before, ¬ Conflicts state entry) (rest : List (RecoveredEntry π β)) :
    retainForLance backend state (before ++ rest) =
      retainForLance backend (retainAll (knownForLance backend) state before) rest := by
  induction before generalizing state with
  | nil => rfl
  | cons entry others ih =>
    obtain ⟨hb,hoth⟩ := List.pairwise_cons.mp h
    rw [List.forall_mem_cons] at hn
    refine (if_neg hn.1).trans (ih hoth fun other ho => ?_)
    unfold Conflicts
    rw [getElem?_retainEntry,if_neg fun ha => (hb other ho).ne ha.2]
    exact hn.2 other ho

/-- A tail for Lance is retained whole, or up to its first entry that conflicts. -/
theorem Tail.retainForLance_cases (h : Tail expected entries) (backend : BitrWalBackend ν)
    (state : BackendState ν π) :
    (entries.find? (fun entry => Conflicts state entry) = none ∧
      retainForLance backend state entries =
        (.ok (),retainAll (knownForLance backend) state entries)) ∨
    ∃ error before conflict after, entries = before ++ conflict :: after ∧
      entries.find? (fun entry => Conflicts state entry) = some conflict ∧
      (∀ entry ∈ before, ¬ Conflicts state entry) ∧ Conflicts state conflict ∧
      retainForLance backend state entries =
        (.error error,retainAll (knownForLance backend) state before) := by
  cases hf : entries.find? (fun entry => Conflicts state entry) with
  | none =>
    have hn : ∀ entry ∈ entries, ¬ Conflicts state entry := by simpa using hf
    have hr := h.ascending.retainForLance_append backend hn []
    exact .inl ⟨rfl,by simpa [retainForLance] using hr⟩
  | some conflict =>
    obtain ⟨hc,before,after,hent,hn⟩ := List.find?_eq_some_iff_append.mp hf
    simp only [decide_eq_true_eq,Bool.not_eq_true',decide_eq_false_iff_not] at hc hn
    have ha : Ascending (before ++ conflict :: after) := hent ▸ h.ascending
    have hs : Conflicts (retainAll (knownForLance backend) state before) conflict := by
      unfold Conflicts
      rwa [getElem?_retainAll fun entry he => (ha.lt_of_before he).ne]
    have hsto := ha.left.retainForLance_append backend hn (conflict :: after)
    rw [← hent] at hsto
    exact .inr ⟨_,before,conflict,after,hent,rfl,hn,hc,hsto.trans (if_pos hs)⟩

end Lance

section Strict

/-- The outstanding write once a tail is taken: it is settled when the tail has its position. -/
def Remains (state : BackendState ν π) (entries : List (RecoveredEntry π β))
    (pending : Option (PendingWrite π)) : Prop :=
  pending = state.pending ∧
      (∀ write ∈ state.pending, ∀ entry ∈ entries, entry.position ≠ write.position) ∨
    pending = none ∧ ∃ write ∈ state.pending, ∃ entry ∈ entries, entry.position = write.position

theorem Remains.mem (h : Remains state entries pending) :
    ∀ write ∈ pending, write ∈ state.pending := by
  intro write hw
  cases h with
  | inl hs => exact hs.1 ▸ hw
  | inr hse =>
    rw [hse.1] at hw
    cases hw

variable [DecidableEq π]

def Differs (state : BackendState ν π) (entry : RecoveredEntry π β) : Prop :=
  ∃ pending ∈ state.pending, pending.position = entry.position ∧ pending.payload ≠ entry.payload

instance : Decidable (Differs state entry) :=
  inferInstanceAs (Decidable (∃ pending ∈ state.pending, _))

theorem retainStrict_cons (state : BackendState ν π) (entry : RecoveredEntry π β)
    (rest : List (RecoveredEntry π β))
    (h : ∀ write ∈ state.pending, write.position ≠ entry.position) :
    retainStrict knowledge state (entry :: rest) =
      retainStrict knowledge (retainEntry state entry knowledge) rest := by
  rw [retainStrict]
  cases hw : state.pending with
  | none => simp only [show (retainEntry state entry knowledge).pending = none from hw]
  | some write =>
    simp only [show (retainEntry state entry knowledge).pending = some write from hw]
    rw [if_pos (h write hw)]

/-- The entry that differs is retained too. -/
theorem Differs.retainStrict (h : Differs state entry) (knowledge : CommitKnowledge ν)
    (rest : List (RecoveredEntry π β)) :
    ∃ error, Lance.retainStrict knowledge state (entry :: rest) =
      (.error error,retainEntry state entry knowledge) := by
  obtain ⟨write,hw,ha,hb⟩ := h
  rw [Lance.retainStrict]
  simp only [show (retainEntry state entry knowledge).pending = some write from hw]
  rw [if_neg (not_not.mpr ha),if_pos hb]
  exact ⟨_,rfl⟩

/-- Entries at other positions than the outstanding write are retained. -/
theorem retainStrict_append
    (h : ∀ entry ∈ before, ∀ write ∈ state.pending, write.position ≠ entry.position)
    (rest : List (RecoveredEntry π β)) :
    retainStrict knowledge state (before ++ rest) =
      retainStrict knowledge (retainAll (fun _ _ => knowledge) state before) rest := by
  induction before generalizing state with
  | nil => rfl
  | cons entry others ih =>
    rw [List.forall_mem_cons] at h
    exact (retainStrict_cons state entry _ h.1).trans (ih h.2)

/-- A tail that does not differ from the outstanding write is retained as a whole. -/
theorem retainStrict_whole (h : ∀ entry ∈ entries, ¬ Differs state entry)
    (knowledge : CommitKnowledge ν) :
    ∃ pending, Remains state entries pending ∧ retainStrict knowledge state entries =
      (.ok (),{ retainAll (fun _ _ => knowledge) state entries with pending }) := by
  induction entries generalizing state with
  | nil => exact ⟨state.pending,.inl ⟨rfl,by simp⟩,rfl⟩
  | cons entry rest ih =>
    rw [List.forall_mem_cons] at h
    by_cases ho : ∀ write ∈ state.pending, write.position ≠ entry.position
    · obtain ⟨pending,hr,he⟩ := @ih (retainEntry state entry knowledge) h.2
      refine ⟨pending,?_,(retainStrict_cons state entry rest ho).trans he⟩
      cases hr with
      | inl hs =>
        exact .inl ⟨hs.1,fun write hw => List.forall_mem_cons.mpr
          ⟨(ho write hw).symm,hs.2 write hw⟩⟩
      | inr hse =>
        obtain ⟨hn,write,hw,found,hf,ha⟩ := hse
        exact .inr ⟨hn,write,hw,found,List.mem_cons_of_mem _ hf,ha⟩
    · simp only [not_forall,not_not] at ho
      obtain ⟨write,hw,ha⟩ := ho
      have hp : write.payload = entry.payload := by
        by_contra hne
        exact h.1 ⟨write,hw,ha,hne⟩
      have hst : retainStrict knowledge state (entry :: rest) = retainStrict knowledge
          { retainEntry state entry knowledge with pending := none } rest := by
        rw [retainStrict]
        simp [show (retainEntry state entry knowledge).pending = some write from hw,ha,
          hp]
      obtain ⟨pending,hr,haf⟩ :=
        @ih { retainEntry state entry knowledge with pending := none } (by simp [Differs])
      rw [retainAll_withPending] at haf
      have hn : pending = none := by
        cases hr with
        | inl hs => exact hs.1
        | inr hse => exact hse.1
      exact ⟨pending,.inr ⟨hn,write,hw,entry,List.mem_cons_self,ha.symm⟩,
        hst.trans haf⟩

/-- A strict tail is retained whole, or up to the entry that differs from the outstanding write,
with that entry. -/
theorem Tail.retainStrict_cases (h : Tail expected entries) (knowledge : CommitKnowledge ν)
    (state : BackendState ν π) :
    (entries.find? (fun entry => Differs state entry) = none ∧
      ∃ pending, Remains state entries pending ∧ retainStrict knowledge state entries =
        (.ok (),{ retainAll (fun _ _ => knowledge) state entries with pending })) ∨
    ∃ error before conflict after, entries = before ++ conflict :: after ∧
      entries.find? (fun entry => Differs state entry) = some conflict ∧ Differs state conflict ∧
      retainStrict knowledge state entries =
        (.error error,retainAll (fun _ _ => knowledge) state (before ++ [conflict])) := by
  cases hf : entries.find? (fun entry => Differs state entry) with
  | none => exact .inl ⟨rfl,retainStrict_whole (by simpa using hf) knowledge⟩
  | some conflict =>
    obtain ⟨hc,before,after,hent,-⟩ := List.find?_eq_some_iff_append.mp hf
    replace hc : Differs state conflict := of_decide_eq_true hc
    have ha : Ascending (before ++ conflict :: after) := hent ▸ h.ascending
    have ho : ∀ entry ∈ before, ∀ write ∈ state.pending, write.position ≠ entry.position := by
      intro entry he write hw
      obtain ⟨pending,hp,hat,-⟩ := hc
      rw [Option.mem_unique hw hp,hat]
      exact (ha.lt_of_before he).ne'
    have hsti : Differs (retainAll (fun _ _ => knowledge) state before) conflict := by
      unfold Differs
      rwa [retainAll_pending]
    obtain ⟨error,hs⟩ := hsti.retainStrict knowledge after
    refine .inr ⟨error,before,conflict,after,hent,rfl,hc,?_⟩
    rw [hent,retainStrict_append ho,hs]
    simp [retainAll]

end Strict

end Walleye.Lance
