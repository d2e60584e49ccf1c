import Walleye.Lance.Atomic

namespace Walleye.Lance

open Walleye.Base Walleye.Base.BTreeMap
open Walleye.Engine (u64Max saturatingAdd)

variable {ν π β : Type} {state next last : BackendState ν π} {entries : List (RecoveredEntry π β)}

structure Known (state : BackendState ν π) : Prop where
  knowledge : state.knowledge.committedLsn < state.nextPosition.getD 1
  retained : ∀ (position : Nat) entry, state.committed[position]? = some entry →
    position ≤ state.nextPosition.getD 1

structure Grown (state next : BackendState ν π) : Prop where
  known : Known next
  le : state.knowledge.committedLsn ≤ next.knowledge.committedLsn

theorem Known.grown (h : Known state) : Grown state state := ⟨h,Nat.le_refl _⟩

theorem Grown.trans (h : Grown state next) (h' : Grown next last) : Grown state last :=
  ⟨h'.known,Nat.le_trans h.le h'.le⟩

theorem Known.poison (h : Known state) (error : WalBackendError ν) :
    Grown state (poisonIfStructural state error) := by
  unfold poisonIfStructural
  split
  · exact ⟨⟨h.knowledge,h.retained⟩,Nat.le_refl _⟩
  · exact h.grown

theorem getD_le_advance :
    state.nextPosition.getD 1 ≤ (advanceNextPosition state entries).nextPosition.getD 1 := by
  change _ ≤ (candidates state entries).max?.getD 1
  cases hn : state.nextPosition with
  | some position => exact le_max_getD (mem_candidates.mpr (.inl hn))
  | none =>
    cases max_getD_mem (candidates state entries) with
    | inr ho => exact Nat.le_of_eq ho.2.symm
    | inl hm =>
      simp only [mem_candidates,hn,reduceCtorEq,false_or] at hm
      obtain ⟨entry,-,he⟩ | ⟨key,-,he⟩ := hm
      · exact he ▸ (saturatingAdd_one_bounds entry.position).1
      · exact he ▸ (saturatingAdd_one_bounds key).1

section Tails

theorem Known.retainAll (h : Known state) (hc : next.committed =
      (Lance.retainAll known state entries).committed)
    (hn : state.nextPosition.getD 1 ≤ next.nextPosition.getD 1)
    (hent : ∀ entry ∈ entries, entry.position ≤ next.nextPosition.getD 1)
    (hk : next.knowledge.committedLsn < next.nextPosition.getD 1) : Known next := by
  refine ⟨hk,fun position entry he => ?_⟩
  by_cases hi : ∃ other ∈ entries, other.position = position
  · obtain ⟨other,ho,rfl⟩ := hi
    exact hent other ho
  · rw [hc,getElem?_retainAll fun other ho heq => hi ⟨other,ho,heq⟩] at he
    exact Nat.le_trans (h.retained position entry he) hn

/-- A tail that is taken whole. -/
theorem Known.whole (h : Known state) (ht : Tail expected entries)
    (hl : state.knowledge.committedLsn ≤ (entries.foldl known state.knowledge).committedLsn)
    (hb : (entries.foldl known state.knowledge).committedLsn < state.nextPosition.getD 1 ∨
      ∃ entry ∈ entries, (entries.foldl known state.knowledge).committedLsn ≤ entry.position)
    (pending : Option (PendingWrite π)) :
    Grown state (advanceNextPosition
      { Lance.retainAll known state entries with pending } entries) := by
  generalize ha : advanceNextPosition _ _ = after
  have hk : after.knowledge = entries.foldl known state.knowledge := by
    rw [← ha,← retainAll_knowledge]
    rfl
  have hn : state.nextPosition.getD 1 ≤ after.nextPosition.getD 1 := by
    have hs : (Lance.retainAll known state entries).nextPosition = state.nextPosition :=
      retainAll_nextPosition
    rw [← ha,← hs]
    exact getD_le_advance
  have hp : ∀ entry ∈ entries, entry.position < after.nextPosition.getD 1 := by
    intro entry he
    obtain ⟨position,hpo,hlt⟩ := ha ▸ ht.past he
    rw [hpo]
    exact hlt
  refine ⟨h.retainAll (by rw [← ha]; rfl) hn (fun entry he => (hp entry he).le)
    ?_,hk ▸ hl⟩
  rw [hk]
  cases hb with
  | inl hlt => exact Nat.lt_of_lt_of_le hlt hn
  | inr he =>
    obtain ⟨entry,he,hl⟩ := he
    exact Nat.lt_of_le_of_lt hl (hp entry he)

/-- A tail that is taken up to an entry below the next position. -/
theorem Known.stopped (h : Known state)
    (he : ∀ entry ∈ entries, entry.position ≤ state.nextPosition.getD 1)
    (hl : state.knowledge.committedLsn ≤ (entries.foldl known state.knowledge).committedLsn)
    (hb : (entries.foldl known state.knowledge).committedLsn < state.nextPosition.getD 1) :
    Grown state (Lance.retainAll known state entries) := by
  rw [← retainAll_knowledge] at hl hb
  rw [← retainAll_nextPosition] at he hb
  exact ⟨h.retainAll rfl (Nat.le_of_eq (by rw [retainAll_nextPosition])) he hb,hl⟩

theorem foldl_knownForLance (backend : BitrWalBackend ν) (knowledge : CommitKnowledge ν) :
    (entries.foldl (knownForLance backend) knowledge).committedLsn = knowledge.committedLsn ∨
      ∃ entry ∈ entries,
        (entries.foldl (knownForLance backend) knowledge).committedLsn = entry.position := by
  induction entries generalizing knowledge with
  | nil => exact .inl rfl
  | cons entry rest ih =>
    cases ih (knownForLance backend knowledge entry) with
    | inr hl =>
      obtain ⟨later,hl,he⟩ := hl
      exact .inr ⟨later,List.mem_cons_of_mem _ hl,he⟩
    | inl hs =>
      rw [List.foldl_cons,hs,knownForLance]
      split
      · exact .inl rfl
      · exact .inr ⟨entry,List.mem_cons_self,rfl⟩

variable [DecidableEq π]

/-- A recovery for Lance lowers no committed LSN. -/
theorem Known.lance (h : Known state) (backend : BitrWalBackend ν) (ht : Tail expected entries) :
    Grown state (applyRecoveryForLance backend state entries).2 := by
  unfold applyRecoveryForLance
  cases ht.retainForLance_cases backend state with
  | inl hw =>
    rw [hw.2]
    refine h.whole ht le_foldl_knownForLance ?_ _
    cases foldl_knownForLance backend state.knowledge with
    | inl hs => exact .inl (hs ▸ h.knowledge)
    | inr he =>
      obtain ⟨entry,he,heq⟩ := he
      exact .inr ⟨entry,he,Nat.le_of_eq heq⟩
  | inr hst =>
    obtain ⟨error,before,conflict,after,rfl,-,-,⟨existing,hex,-⟩,hr⟩ := hst
    rw [hr]
    have hb : ∀ entry ∈ before, entry.position < state.nextPosition.getD 1 :=
      fun entry he => Nat.lt_of_lt_of_le (ht.ascending.lt_of_before he)
        (h.retained _ existing hex)
    refine h.stopped (fun entry he => (hb entry he).le) le_foldl_knownForLance ?_
    cases foldl_knownForLance backend state.knowledge with
    | inl hs => exact hs ▸ h.knowledge
    | inr he =>
      obtain ⟨entry,he,heq⟩ := he
      exact heq ▸ hb entry he

/-- A strict tail, of which no less is known than before, and which repeats the outstanding
write if it is asked for with a watermark. -/
theorem Known.strict (h : Known state) (ht : Tail expected entries) (hp : ∀ knowledge ∈ persisted,
      state.knowledge.committedLsn ≤ knowledge.committedLsn ∧
      (∀ last ∈ entries.getLast?, knowledge.committedLsn ≤ last.position) ∧
      ∀ entry ∈ entries, ¬ Differs state entry) :
    Grown state (applyRecovery state entries persisted).2 := by
  unfold applyRecovery
  by_cases hc : Uncertified state entries persisted
  · rw [recoveredKnowledge_of_uncertified hc]
    exact h.grown
  rw [recoveredKnowledge_of_certified hc]
  cases persisted with
  | none =>
    have hs : ∀ xs : List (RecoveredEntry π β),
        xs.foldl (fun _ _ => state.knowledge) state.knowledge = state.knowledge :=
      List.foldl_fixed' fun _ => rfl
    cases ht.retainStrict_cases state.knowledge state with
    | inl hw =>
      obtain ⟨-,pending,-,hr⟩ := hw
      simp only [Option.getD_none,hr]
      exact h.whole ht (Nat.le_of_eq (by rw [hs])) (.inl (by rw [hs]; exact h.knowledge)) pending
    | inr hsto =>
      obtain ⟨error,before,conflict,after,hent,-,-,hr⟩ := hsto
      simp only [Option.getD_none,hr]
      have hst := hs (before ++ [conflict])
      refine h.stopped ?_ (Nat.le_of_eq (by rw [hst])) (by rw [hst]; exact h.knowledge)
      intro entry he
      have hi : entry ∈ entries := by
        rw [hent,List.append_cons]
        exact List.mem_append_left after he
      have hl := List.getLast?_eq_some_getLast (List.ne_nil_of_mem hi)
      have hk := Nat.not_lt.mp fun hb => hc ⟨rfl,_,hl,hb⟩
      have := ht.le_last hl hi
      have := h.knowledge
      omega
  | some knowledge =>
    obtain ⟨hle,hl,hn⟩ := hp knowledge rfl
    obtain ⟨pending,-,hr⟩ := retainStrict_whole hn knowledge
    simp only [Option.getD_some,hr]
    cases hent : entries.getLast? with
    | none =>
      rw [List.getLast?_eq_none_iff] at hent
      subst hent
      exact h.whole ht (Nat.le_refl _) (.inl h.knowledge) pending
    | some last =>
      have hk : entries.foldl (fun _ _ => knowledge) state.knowledge = knowledge := by
        cases entries with
        | nil => cases hent
        | cons entry rest => exact List.foldl_fixed' (fun _ => rfl) rest
      exact h.whole ht (by rwa [hk]) (.inr ⟨last,List.mem_of_getLast? hent,
        by rw [hk]; exact hl last hent⟩) pending

theorem Known.take (h : Known state) {loaded : WalResult ν (List (RecoveredEntry π β))}
    (hl : ∀ entries, loaded = .ok entries → ∃ expected, Tail expected entries ∧
      ∀ knowledge ∈ persisted, state.knowledge.committedLsn ≤ knowledge.committedLsn ∧
        (∀ last ∈ entries.getLast?, knowledge.committedLsn ≤ last.position) ∧
        ∀ entry ∈ entries, ¬ Differs state entry) :
    Grown state (takeStrict state loaded persisted).2 := by
  cases loaded with
  | error error => exact h.poison error
  | ok entries =>
    obtain ⟨expected,ht,hp⟩ := hl entries rfl
    have hg := h.strict ht hp
    unfold takeStrict
    simp only
    generalize applyRecovery state entries persisted = applied at *
    obtain ⟨result,after⟩ := applied
    cases result <;> exact hg

end Tails

section Calls

variable [DecidableEq ν] (backend : BitrWalBackend ν)

/-- An answered write lowers no committed LSN. -/
theorem Known.settle (h : Known state)
    (hn : write.entryPosition = state.nextPosition.getD 1) (entry : IpcEntry β)
    (answer : AppendAnswer ν) :
    Grown state (settleWrite backend state write entry answer).2 := by
  unfold settleWrite
  split
  · simp only
    split
    · exact h.poison _
    · exact h.grown
  split
  · exact h.poison _
  rename_i knowledge hm
  simp only [not_or,not_not] at hm
  have hr : ∀ (position : Nat) found,
      (state.committed.insert write.entryPosition ⟨write.payload,knowledge⟩)[position]? =
        some found → position ≤ write.entryPosition := by
    intro position found hf
    rw [Std.ExtTreeMap.getElem?_insert] at hf
    split at hf
    · exact Nat.le_of_eq (Std.LawfulEqCmp.eq_of_compare ‹_›).symm
    · exact hn ▸ h.retained position found hf
  have hl := h.knowledge
  unfold commitWrite
  simp only
  split
  · exact ⟨⟨hl,hn ▸ hr⟩,Nat.le_refl _⟩
  · refine ⟨⟨?_,fun position found hf =>
      Nat.le_succ_of_le (hr position found hf)⟩,?_⟩
    · simp only [Option.getD_some]
      omega
    · simp only
      omega

theorem Known.checkpointed (h : Known state) (shardId : ν) (covered : Nat) :
    Grown state (Lance.checkpointed backend state shardId covered) := by
  unfold Lance.checkpointed
  split
  · exact h.grown
  · refine ⟨⟨h.knowledge,fun position found hf => ?_⟩,Nat.le_refl _⟩
    rw [getElem?_foldl_erase] at hf
    split at hf
    · cases hf
    · exact h.retained position found hf

variable [DecidableEq π] (codec : WalCodec ν π β)

theorem Known.load (h : Known state) (afterLsn : Nat) (answer : RecoverAnswer ν π) :
    Grown state (takeStrict state (loadRecovery backend codec afterLsn answer) none).2 :=
  h.take fun _ hl => ⟨_,(load_tail hl).1,nofun⟩

/-- Discovering the position lowers no committed LSN. -/
theorem Known.ensure (h : Known state) (answer : RecoverAnswer ν π) :
    Grown state (ensurePosition backend codec state answer).2 := by
  have hl := h.load backend codec 0 answer
  unfold ensurePosition
  cases hn : state.nextPosition with
  | some position => exact h.grown
  | none =>
    have hk := h.knowledge
    have hr := h.retained
    rw [hn] at hk hr
    have hu : ∀ entries, (takeStrict state (loadRecovery backend codec 0 answer) none).1 =
        .ok entries → entries = [] ∧ _ := takeStrict_unknown (Nat.lt_one_iff.mp hk)
      fun _ hloa => (load_tail hloa).1
    generalize takeStrict state (loadRecovery backend codec 0 answer) none = taken at *
    obtain ⟨result,after⟩ := taken
    cases result with
    | error error => exact hl
    | ok entries =>
      obtain ⟨rfl,rfl⟩ := hu entries rfl
      exact ⟨⟨hk,hr⟩,Nat.le_refl _⟩

theorem Known.append (h : Known state) (write : WalWrite ν π) (entry : IpcEntry β)
    (answer : AppendAnswer ν) :
    Grown state (appendLocked backend state write entry answer).state := by
  unfold appendLocked
  simp only
  split
  · unfold repeatWrite
    simp only
    repeat' split
    all_goals first | exact h.poison _ | exact h.grown
  · rename_i hn
    split
    · exact h.poison _
    · have hw : Known { state with pending := some ⟨write.entryPosition,write.payload⟩ } :=
        ⟨h.knowledge,h.retained⟩
      have hs := hw.settle backend (not_not.mp hn) entry answer
      exact ⟨hs.known,hs.le⟩

theorem Known.fence (h : Known state) (position writerEpoch : Nat) (answer : RecoverAnswer ν π) :
    Grown state (recoverFencePosition backend codec state position writerEpoch answer).2 := by
  unfold recoverFencePosition
  cases hl : loadRecoveryForLance backend codec (position - 1) answer with
  | error error => exact h.poison error
  | ok entries =>
    have hla := h.lance backend (load_tail hl).1
    simp only
    split
    · exact h.poison _
    split
    · exact h.grown
    generalize applyRecoveryForLance backend state entries = applied at *
    obtain ⟨result,after⟩ := applied
    cases result with
    | error error => exact hla.trans (hla.known.poison error)
    | ok u => exact ⟨⟨hla.known.knowledge,hla.known.retained⟩,hla.le⟩

variable {backend codec}

theorem Known.appending (h : Known state) {fence : Bool}
    (ha : Appending backend codec state fence tail answer place occupied appended) :
    Grown state appended.state := by
  have he := h.ensure backend codec tail
  cases ha with
  | refused error => exact h.grown
  | unplaced heq =>
    rw [heq] at he
    exact he
  | placed hp =>
    rw [hp.ensured] at he
    exact he.trans (he.known.append backend _ _ answer)
  | @fenced entry position _ _ _ _ hp _ _ =>
    rw [hp.ensured] at he
    have ha := he.trans (he.known.append backend (place position) entry answer)
    exact ha.trans (ha.known.fence backend codec _ _ _)

end Calls

section Reports

def commitKnowledge (state : BackendState ν π) : WalResult ν (CommitKnowledge ν) :=
  (ensureNotPoisoned state).map fun _ => state.knowledge

/-- An adapter that is asked after each call, and the LSNs it reported, latest first. -/
structure Reported (ν π : Type) where
  state : BackendState ν π
  lsns : List Nat

def Reported.start (backend : BitrWalBackend ν) : Reported ν π := ⟨backend.start, []⟩

variable [DecidableEq ν] [DecidableEq π] (backend : BitrWalBackend ν) (codec : WalCodec ν π β)

def reportCall (reported : Reported ν π) (call : BackendCall ν π) : Option (Reported ν π) :=
  let state := (callBackend backend codec reported.state call).state
  some ⟨state, ((commitKnowledge state).toOption.map (·.committedLsn)).toList ++ reported.lsns⟩

def BackendCall.askedWatermark : BackendCall ν π → Option (CommitKnowledge ν × RecoverAnswer ν π)
  | .recoverWithWatermark _ knowledge answer => some (knowledge, answer)
  | _ => none

def KeepsUp (reported : Reported ν π) (call : BackendCall ν π) : Prop :=
  ∀ asked ∈ call.askedWatermark,
    reported.state.knowledge.committedLsn ≤ asked.1.committedLsn ∧
    ∀ records ∈ asked.2.toOption, ∀ record ∈ records, ∀ write ∈ reported.state.pending,
      record.lsn = write.position → record.payload = write.payload

instance (reported : Reported ν π) : DecidablePred (KeepsUp reported) :=
  fun call => inferInstanceAs (Decidable (∀ asked ∈ call.askedWatermark, _ ∧ _))

variable {backend codec}

/-- A read that keeps up lowers no committed LSN. -/
theorem Known.reads (h : Known state) (ho : KeepsUp ⟨state,lsns⟩ call)
    (hr : Reads backend codec state call next) : Grown state next := by
  cases hr with
  | same => exact h.grown
  | @strict afterLsn answer persisted ha hs hw =>
    refine h.take fun entries hl => ?_
    obtain ⟨hl,he⟩ := loadStrict_eq_ok hl
    obtain ⟨ht,records,rfl,hf⟩ := load_tail hl
    refine ⟨_,ht,fun knowledge hk => ?_⟩
    obtain ⟨hle,hrep⟩ := ho (knowledge,.ok records) (by
      cases call with
      | recoverWithWatermark afterLsn asked answer =>
        cases ha
        cases hw
        cases hk
        rfl
      | _ =>
        cases hw
        cases hk)
    refine ⟨hle,fun last hla => ?_,?_⟩
    · by_cases hb : afterLsn < knowledge.committedLsn
      · have hp := he knowledge hk hb
        rw [Option.mem_def.mp hla] at hp
        exact Nat.le_of_eq (Option.some.inj hp).symm
      · have := (ht.mem (List.mem_of_getLast? hla)).1
        omega
    · intro entry hent hd
      obtain ⟨write,hwr,hat,hby⟩ := hd
      obtain ⟨record,hr,hls,hpa⟩ := hf entry hent
      exact hby ((hrep records rfl record hr write hwr
        (hls.trans hat.symm)).symm.trans hpa)
  | ensure answer => exact h.ensure backend codec answer
  | lance ha hl hla => exact h.lance backend (load_tail hl).1
  | discover hn afterLsn tail =>
    have hk := h.knowledge
    have hr := h.retained
    rw [hn,Option.getD_none] at hk hr
    refine ⟨⟨?_,fun position found hfo => ?_⟩,Nat.le_refl _⟩
    · exact Nat.lt_of_lt_of_le hk (Nat.le_max_right _ _)
    · exact Nat.le_trans (hr position found hfo) (Nat.le_max_right _ _)

theorem Known.called (h : Known state) (ho : KeepsUp ⟨state,lsns⟩ call) :
    Grown state (callBackend backend codec state call).state := by
  by_cases ha : call.asks = none
  · cases call with
    | appendEncoded payload fence tail answer => exact h.appending (appendPayload_appending ..)
    | append write fence tail answer occupied => exact h.appending (appendAtPosition_appending ..)
    | checkpointed shardId covered => exact h.checkpointed backend shardId covered
    | _ => cases ha
  · obtain ⟨next,he,hr⟩ := callBackend_reads ha
    rw [he]
    exact h.reads ho hr

/-- In every run where watermarks do not fall behind what is known and their tails repeat the
outstanding write, the LSN reported to be committed never decreases. -/
theorem reported_lsn_never_decreases {reported : Reported ν π}
    (h : Reachable (· = Reported.start backend) (reportCall backend codec) KeepsUp reported) :
    reported.lsns.Pairwise (· ≥ ·) := by
  have hk : Known reported.state ∧ reported.lsns.Pairwise (· ≥ ·) ∧
      ∀ lsn ∈ reported.lsns, lsn ≤ reported.state.knowledge.committedLsn := by
    apply h.invariant
    · intro reported hsta
      rw [hsta]
      exact ⟨⟨Nat.zero_lt_one,by simp [Reported.start,BitrWalBackend.start]⟩,.nil,nofun⟩
    · intro reported call after hk ho hs
      obtain ⟨hkn,hp,hb⟩ := hk
      have hg : Grown reported.state (callBackend backend codec reported.state call).state :=
        hkn.called ho
      cases hs
      generalize (callBackend backend codec reported.state call).state = state at *
      have hb : ∀ lsn ∈ reported.lsns, lsn ≤ state.knowledge.committedLsn :=
        fun lsn hl => Nat.le_trans (hb lsn hl) hg.le
      unfold commitKnowledge
      cases ensureNotPoisoned state with
      | error error => exact ⟨hg.known,hp,hb⟩
      | ok u =>
        exact ⟨hg.known,.cons hb hp,
          List.forall_mem_cons.mpr ⟨Nat.le_refl _,hb⟩⟩
  exact hk.2.1

/-- A write, a second one that is not answered, and a recovery up to it with its certificate. -/
theorem reported_lsn_never_decreases_of_watermark :
    ∃ reported, Reachable (· = Reported.start plainBackend) (reportCall plainBackend plainCodec)
        KeepsUp reported ∧ reported.lsns = [2, 1, 1] ∧ reported.lsns.Pairwise (· ≥ ·) := by
  have hs : Reachable (· = Reported.start plainBackend) (reportCall plainBackend plainCodec)
      KeepsUp (Reported.start plainBackend) := .start rfl
  have hl : (runs (reportCall plainBackend plainCodec) KeepsUp (Reported.start plainBackend)
      [plainAppend 1 3 (.ok ⟨5,1,1,none⟩),
        plainAppend 2 4 (.error (.replica .quorumUnavailable)),
        .recoverWithWatermark 0 ⟨5,1,2,some 8⟩ (.ok [plainRecord 1 3,plainRecord 2 4])]).map
      (·.lsns) = some [2,1,1] := by
    decide +kernel
  obtain ⟨reported,hrun,hl⟩ := Option.map_eq_some_iff.mp hl
  have hr := hs.of_runs _ hrun
  exact ⟨reported,hr,hl,reported_lsn_never_decreases hr⟩

/-- Two writes, and a recovery with the certificate of the first. -/
theorem earlier_certificate_lowers_the_reported_lsn :
    ¬∀ reported, Reachable (· = Reported.start plainBackend) (reportCall plainBackend plainCodec)
        anyStep reported → reported.lsns.Pairwise (· ≥ ·) := by
  intro ha
  have hs : Reachable (· = Reported.start plainBackend) (reportCall plainBackend plainCodec)
      anyStep (Reported.start plainBackend) := .start rfl
  have hr := ha _ (hs.of_runs
    [plainAppend 1 3 (.ok ⟨5,1,1,some 8⟩),plainAppend 2 4 (.ok ⟨5,1,2,some 9⟩),
      .recoverWithWatermark 0 ⟨5,1,1,some 8⟩ (.ok [plainRecord 1 3])] rfl)
  exact absurd hr (by decide +kernel)

end Reports

end Walleye.Lance
