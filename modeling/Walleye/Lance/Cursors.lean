import Walleye.Lance.Retained

namespace Walleye.Lance

open Walleye.Base Walleye.Base.BTreeMap
open Walleye.Engine (u64Max saturatingAdd)

variable {ν π β : Type}

section Invariant

structure Filling (acknowledged : List (PendingWrite π)) (bound : Nat) (state : BackendState ν π) :
    Prop where
  covered : state.checkpointedPosition < state.nextPosition.getD 1
  limit : state.nextPosition.getD 1 ≤ u64Max
  retained : ∀ (position : Nat) entry, state.committed[position]? = some entry →
    state.checkpointedPosition < position ∧ position < max (state.nextPosition.getD 1) bound
  outstanding : ∀ write ∈ state.pending, write.position ≤ state.nextPosition.getD 1
  below : ∀ write ∈ acknowledged, write.position < state.nextPosition.getD 1
  bytes : ∀ write ∈ acknowledged, state.checkpointedPosition < write.position →
    ∃ entry, state.committed[write.position]? = some entry ∧ entry.payload = write.payload

structure Undiscovered (acknowledged : List (PendingWrite π)) (state : BackendState ν π) :
    Prop where
  committed : state.committed = ∅
  pending : state.pending = none
  knowledge : state.knowledge.committedLsn = 0
  acknowledged : acknowledged = []

structure Cursors (acknowledged : List (PendingWrite π)) (state : BackendState ν π) : Prop where
  filling : Filling acknowledged 0 state
  undiscovered : state.nextPosition = none → Undiscovered acknowledged state

structure Moved (acknowledged : List (PendingWrite π)) (state next : BackendState ν π) :
    Prop where
  cursors : Cursors acknowledged next
  position : state.nextPosition.getD 0 ≤ next.nextPosition.getD 0
  poisoned : state.poisoned ≠ none → next.poisoned ≠ none

variable {acknowledged : List (PendingWrite π)} {state next last : BackendState ν π}

theorem Cursors.moved (h : Cursors acknowledged state) : Moved acknowledged state state :=
  ⟨h,Nat.le_refl _,id⟩

theorem Moved.trans (h : Moved acknowledged state next) (h' : Moved acknowledged next last) :
    Moved acknowledged state last :=
  ⟨h'.cursors,Nat.le_trans h.position h'.position,fun hp => h'.poisoned (h.poisoned hp)⟩

theorem Cursors.retained_lt (h : Cursors acknowledged state)
    (he : state.committed[position]? = some entry) :
    position < state.nextPosition.getD 1 := by
  have := (h.filling.retained position entry he).2
  omega

theorem Filling.close (h : Filling acknowledged bound state)
    (hb : bound ≤ state.nextPosition.getD 1) (hn : state.nextPosition ≠ none) :
    Cursors acknowledged state := by
  refine ⟨⟨h.covered,h.limit,?_,h.outstanding,h.below,h.bytes⟩,fun hno => absurd hno hn⟩
  intro position entry he
  have := h.retained position entry he
  omega

theorem Cursors.poison (h : Cursors acknowledged state) (error : WalBackendError ν) :
    Moved acknowledged state (poisonIfStructural state error) := by
  unfold poisonIfStructural
  split
  · refine ⟨⟨⟨h.filling.covered,h.filling.limit,h.filling.retained,h.filling.outstanding,
      h.filling.below,h.filling.bytes⟩,?_⟩,Nat.le_refl _,fun _ => by simp⟩
    intro hn
    have hu := h.undiscovered hn
    exact ⟨hu.committed,hu.pending,hu.knowledge,hu.acknowledged⟩
  · exact h.moved

theorem Filling.withPending (h : Filling acknowledged bound state)
    (hp : ∀ write ∈ pending, write.position ≤ state.nextPosition.getD 1) :
    Filling acknowledged bound { state with pending } :=
  ⟨h.covered,h.limit,h.retained,hp,h.below,h.bytes⟩

theorem Cursors.noPending (h : Cursors acknowledged state) :
    Cursors acknowledged { state with pending := none } := by
  refine ⟨h.filling.withPending nofun,fun hn => ?_⟩
  have hu := h.undiscovered hn
  exact ⟨hu.committed,rfl,hu.knowledge,hu.acknowledged⟩

end Invariant

section Recovery

variable {acknowledged : List (PendingWrite π)} {state : BackendState ν π}
  {entries : List (RecoveredEntry π β)}

def RepeatsBytes (acknowledged : List (PendingWrite π)) (checkpointed : Nat)
    (entry : RecoveredEntry π β) : Prop :=
  ∀ write ∈ acknowledged, checkpointed < write.position → entry.position = write.position →
    entry.payload = write.payload

theorem Filling.mono (h : Filling acknowledged bound state) (hl : bound ≤ upper) :
    Filling acknowledged upper state := by
  refine ⟨h.covered,h.limit,?_,h.outstanding,h.below,h.bytes⟩
  intro position entry he
  have := h.retained position entry he
  omega

/-- A retained entry repeats the acknowledged bytes. -/
theorem Filling.retain (h : Filling acknowledged bound state) (hp : entry.position < bound)
    (hb : RepeatsBytes acknowledged state.checkpointedPosition entry)
    (knowledge : CommitKnowledge ν) :
    Filling acknowledged bound (retainEntry state entry knowledge) := by
  refine ⟨h.covered,h.limit,?_,h.outstanding,h.below,?_⟩
  · intro position found hg
    rw [getElem?_retainEntry] at hg
    change state.checkpointedPosition < position ∧
      position < max (state.nextPosition.getD 1) bound
    split at hg
    · omega
    · exact h.retained position found hg
  · intro write hw hc
    rw [getElem?_retainEntry]
    split
    · rename_i hs
      exact ⟨_,rfl,hb write hw hc hs.2⟩
    · exact h.bytes write hw hc

theorem Filling.retainAll (h : Filling acknowledged bound state)
    (hl : ∀ entry ∈ entries, entry.position < bound)
    (hb : ∀ entry ∈ entries, RepeatsBytes acknowledged state.checkpointedPosition entry) :
    Filling acknowledged bound (Lance.retainAll known state entries) := by
  induction entries generalizing state with
  | nil => exact h
  | cons entry rest ih =>
    rw [List.forall_mem_cons] at hl hb
    exact ih (h.retain hl.1 hb.1 _) hl.2 hb.2

theorem le_max_getD {xs : List Nat} (h : x ∈ xs) : x ≤ xs.max?.getD 1 := by
  cases hm : xs.max? with
  | none =>
    rw [List.max?_eq_none_iff.mp hm] at h
    cases h
  | some m => exact (List.max?_eq_some_iff.mp hm).2 x h

theorem max_getD_mem (xs : List Nat) : xs.max?.getD 1 ∈ xs ∨ (xs = [] ∧ xs.max?.getD 1 = 1) := by
  cases hm : xs.max? with
  | none => exact .inr ⟨List.max?_eq_none_iff.mp hm,rfl⟩
  | some m => exact .inl (List.max?_eq_some_iff.mp hm).1

variable {m : BTreeMap Nat (CommittedEntry ν π)}

theorem mem_keys_iff : key ∈ m.keys ↔ ∃ entry, m[key]? = some entry := by
  rw [Std.ExtTreeMap.mem_keys,Std.ExtTreeMap.mem_iff_isSome_getElem?,Option.isSome_iff_exists]

theorem maxKey_mem (h : m.keys.max? = some key) : ∃ entry, m[key]? = some entry :=
  mem_keys_iff.mp (List.max?_eq_some_iff.mp h).1

theorem le_maxKey (h : m[key]? = some entry) :
    ∃ greatest, m.keys.max? = some greatest ∧ key ≤ greatest := by
  have hm : key ∈ m.keys := mem_keys_iff.mpr ⟨entry,h⟩
  cases hma : m.keys.max? with
  | none =>
    rw [List.max?_eq_none_iff.mp hma] at hm
    cases hm
  | some greatest => exact ⟨greatest,rfl,(List.max?_eq_some_iff.mp hma).2 key hm⟩

def candidates (state : BackendState ν π) (entries : List (RecoveredEntry π β)) : List Nat :=
  state.nextPosition.toList ++
    (entries.getLast?.map fun entry => saturatingAdd entry.position 1).toList ++
    (state.committed.keys.max?.map fun position => saturatingAdd position 1).toList

theorem mem_candidates : position ∈ candidates state entries ↔
    state.nextPosition = some position ∨
      (∃ entry, entries.getLast? = some entry ∧ saturatingAdd entry.position 1 = position) ∨
      ∃ key, state.committed.keys.max? = some key ∧ saturatingAdd key 1 = position := by
  simp only [candidates,List.mem_append,Option.mem_toList,Option.map_eq_some_iff,
    or_assoc]

theorem saturatingAdd_one_bounds (position : Nat) :
    1 ≤ saturatingAdd position 1 ∧ saturatingAdd position 1 ≤ u64Max := by
  unfold saturatingAdd u64Max
  omega

/-- The next position is past a whole tail. -/
theorem Tail.past (h : Tail expected entries) (he : entry ∈ entries) :
    ∃ next ∈ (advanceNextPosition state entries).nextPosition, entry.position < next := by
  have hl := List.getLast?_eq_some_getLast (List.ne_nil_of_mem he)
  have hle := h.le_last hl he
  have hm := le_max_getD (mem_candidates.mpr (.inr (.inl ⟨_,hl,rfl⟩)) :
    _ ∈ candidates state entries)
  have hb := (h.mem (List.mem_of_getLast? hl)).2
  refine ⟨_,rfl,Nat.lt_of_lt_of_le ?_ hm⟩
  unfold saturatingAdd
  omega

theorem Filling.candidate_bounds (h : Filling acknowledged bound state)
    (hm : position ∈ candidates state entries) : 1 ≤ position ∧ position ≤ u64Max := by
  cases mem_candidates.mp hm with
  | inl hn =>
    have hc := h.covered
    have hl := h.limit
    rw [hn,Option.getD_some] at hc hl
    omega
  | inr ho =>
    cases ho with
    | inl hla =>
      obtain ⟨entry,-,rfl⟩ := hla
      exact saturatingAdd_one_bounds entry.position
    | inr hk =>
      obtain ⟨key,-,rfl⟩ := hk
      exact saturatingAdd_one_bounds key

/-- The next position follows the entries and never moves back. -/
theorem Filling.advance (h : Filling acknowledged bound state) (hb : bound ≤ u64Max)
    (entries : List (RecoveredEntry π β)) :
    Cursors acknowledged (advanceNextPosition state entries) ∧
      state.nextPosition.getD 0 ≤ (advanceNextPosition state entries).nextPosition.getD 0 := by
  have hne : (advanceNextPosition state entries).nextPosition =
      some ((candidates state entries).max?.getD 1) := rfl
  generalize hp : (candidates state entries).max?.getD 1 = position at hne
  have hbou : 1 ≤ position ∧ position ≤ u64Max := by
    cases max_getD_mem (candidates state entries) with
    | inl hm => exact hp ▸ h.candidate_bounds hm
    | inr ho =>
      rw [← hp,ho.2]
      exact ⟨Nat.le_refl 1,by decide⟩
  have hl : ∀ x ∈ candidates state entries, x ≤ position := by
    intro x hx
    rw [← hp]
    exact le_max_getD hx
  have hs : state.nextPosition.getD 1 ≤ position ∧ state.nextPosition.getD 0 ≤ position := by
    cases hn : state.nextPosition with
    | none => exact ⟨hbou.1,Nat.zero_le _⟩
    | some n =>
      have := hl n (mem_candidates.mpr (.inl hn))
      exact ⟨this,this⟩
  have hkey : ∀ (key : Nat) entry, state.committed[key]? = some entry → key < position := by
    intro key entry hk
    obtain ⟨greatest,hg,hk⟩ := le_maxKey hk
    obtain ⟨found,hf⟩ := maxKey_mem hg
    have hr := (h.retained greatest found hf).2
    have hli := h.limit
    have hsu := hl _ (mem_candidates.mpr (.inr (.inr ⟨greatest,hg,rfl⟩)))
    unfold saturatingAdd at hsu
    omega
  constructor
  · refine ⟨⟨?_,?_,?_,?_,?_,h.bytes⟩,fun hno => ?_⟩
    · have hc := h.covered
      rw [hne,Option.getD_some]
      exact Nat.lt_of_lt_of_le hc hs.1
    · rw [hne]
      exact hbou.2
    · intro key entry hk
      rw [hne,Option.getD_some,Nat.max_zero]
      exact ⟨(h.retained key entry hk).1,hkey key entry hk⟩
    · intro write hw
      rw [hne,Option.getD_some]
      exact Nat.le_trans (h.outstanding write hw) hs.1
    · intro write hw
      rw [hne,Option.getD_some]
      exact Nat.lt_of_lt_of_le (h.below write hw) hs.1
    · rw [hne] at hno
      cases hno
  · rw [hne,Option.getD_some]
    exact hs.2

/-- A tail that is taken whole. -/
theorem Cursors.whole (h : Cursors acknowledged state) (ht : Tail expected entries)
    (hb : ∀ entry ∈ entries, RepeatsBytes acknowledged state.checkpointedPosition entry)
    (hp : ∀ write ∈ pending, write ∈ state.pending) :
    Moved acknowledged state
      (advanceNextPosition { retainAll known state entries with pending } entries) := by
  have hr : Filling acknowledged u64Max (retainAll known state entries) :=
    (h.filling.mono (Nat.zero_le _)).retainAll (fun entry he => (ht.mem he).2) hb
  have hpen : ∀ write ∈ pending,
      write.position ≤ (retainAll known state entries).nextPosition.getD 1 := by
    rw [retainAll_nextPosition]
    exact fun write hw => h.filling.outstanding write (hp write hw)
  obtain ⟨hc,hl⟩ := (hr.withPending hpen).advance (Nat.le_refl _) entries
  exact ⟨hc,by simpa using hl,by simp [advanceNextPosition]⟩

/-- A tail that is taken up to an entry below the next position. -/
theorem Cursors.stopped (h : Cursors acknowledged state) (hn : state.nextPosition ≠ none)
    (hl : ∀ entry ∈ entries, entry.position < state.nextPosition.getD 1)
    (hb : ∀ entry ∈ entries, RepeatsBytes acknowledged state.checkpointedPosition entry) :
    Moved acknowledged state (retainAll known state entries) := by
  have hr : Filling acknowledged (state.nextPosition.getD 1) (retainAll known state entries) :=
    (h.filling.mono (Nat.zero_le _)).retainAll hl hb
  exact ⟨hr.close (by simp) (by simpa using hn),by simp,by simp⟩

variable [DecidableEq π]

/-- The tail of Lance up to an entry that differs from what is retained: that one, and with it
all that was taken, is below the next position. -/
theorem Cursors.movedForLance (backend : BitrWalBackend ν) (h : Cursors acknowledged state)
    (ht : Tail expected entries) :
    Moved acknowledged state (applyRecoveryForLance backend state entries).2 := by
  have hb : ∀ entry : RecoveredEntry π β, ¬ Conflicts state entry →
      RepeatsBytes acknowledged state.checkpointedPosition entry := by
    intro entry hn write hw hc hs
    obtain ⟨existing,he,hp⟩ := h.filling.bytes write hw hc
    by_contra hne
    exact hn ⟨existing,hs ▸ he,fun heq => hne (heq.symm.trans hp)⟩
  unfold applyRecoveryForLance
  cases ht.retainForLance_cases backend state with
  | inl hwh =>
    rw [hwh.2]
    have hn : ∀ entry ∈ entries, ¬ Conflicts state entry := by simpa using hwh.1
    have hpe : ∀ write ∈ (retainAll (knownForLance backend) state entries).pending,
        write ∈ state.pending := by simp
    exact h.whole ht (fun entry hen => hb entry (hn entry hen)) hpe
  | inr hst =>
    obtain ⟨error,before,conflict,after,rfl,-,hn,hc,heq⟩ := hst
    rw [heq]
    obtain ⟨existing,he,-⟩ := hc
    refine h.stopped (fun hne => ?_) (fun entry hen => Nat.lt_trans
      (ht.ascending.lt_of_before hen) (h.retained_lt he)) fun entry hen =>
        hb entry (hn entry hen)
    rw [(h.undiscovered hne).committed] at he
    simp at he

def RepeatsPending (state : BackendState ν π) (entry : RecoveredEntry π β) : Prop :=
  ∀ write ∈ state.pending, state.nextPosition = some write.position →
    entry.position = write.position → entry.payload = write.payload

/-- A strict recovery that repeats what was acknowledged keeps the cursors. -/
theorem Cursors.movedStrict (h : Cursors acknowledged state) (ht : Tail expected entries)
    (hb : ∀ entry ∈ entries, RepeatsBytes acknowledged state.checkpointedPosition entry)
    (hp : ∀ entry ∈ entries, RepeatsPending state entry) (persisted : Option (CommitKnowledge ν)) :
    Moved acknowledged state (applyRecovery state entries persisted).2 := by
  unfold applyRecovery
  cases recoveredKnowledge state entries persisted with
  | error error => exact h.moved
  | ok knowledge =>
    simp only
    cases ht.retainStrict_cases knowledge state with
    | inl hw =>
      obtain ⟨-,pending,hr,he⟩ := hw
      rw [he]
      exact h.whole ht hb hr.mem
    | inr hs =>
      obtain ⟨error,before,conflict,after,rfl,-,⟨write,hwr,ha,hd⟩,he⟩ := hs
      simp only [he,finishTail]
      have hso : state.nextPosition ≠ none := by
        intro hn
        rw [(h.undiscovered hn).pending] at hwr
        cases hwr
      obtain ⟨position,hne⟩ := Option.ne_none_iff_exists'.mp hso
      have hl := h.filling.outstanding write hwr
      have hbe : state.nextPosition ≠ some write.position := fun hnex =>
        hd (hp conflict (by simp) write hwr hnex ha.symm).symm
      have hlt : conflict.position < state.nextPosition.getD 1 := by
        rw [hne,Option.getD_some] at hl ⊢
        have : position ≠ write.position := fun he => hbe (he ▸ hne)
        omega
      refine h.stopped hso (fun entry hen => ?_) fun entry hen => hb entry ?_
      · cases List.mem_append.mp hen with
        | inl hi => exact Nat.lt_trans (ht.ascending.lt_of_before hi) hlt
        | inr ho => exact List.mem_singleton.mp ho ▸ hlt
      · rw [List.append_cons]
        exact List.mem_append_left _ hen

end Recovery

end Walleye.Lance
