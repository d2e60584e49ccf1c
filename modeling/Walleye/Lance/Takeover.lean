import Walleye.Base.Guards

namespace Walleye.Lance

open Walleye.Base

structure ShardManifest where
  writerEpoch : Nat
  replayAfterWalEntryPosition : Nat
  walEntryPositionLastSeen : Nat
deriving DecidableEq, Repr

/-- A note of acknowledged rows that no flush has covered, and the log they are in if it says. -/
structure OpenTailNote (ν : Type) where
  log : Option ν
deriving DecidableEq, Repr

/-- The storage of a table: the manifest of its shard, the positions in its log directory, the
note, and the epoch in its ownership record. -/
structure TableStorage (ν : Type) where
  manifest : Option ShardManifest
  walEntries : List Nat
  note : Option (OpenTailNote ν)
  recordEpoch : Nat
deriving DecidableEq, Repr

/-- Where a writer's log is; of a Bitr log, with what its quorum recovers of the stream. -/
inductive LanceDurability (ρ : Type) where
  | objectStore
  | bitr (history : List ρ)
deriving DecidableEq, Repr

inductive OpenError where
  /-- The log directory has entries that no checkpoint covers. -/
  | onlyObjectStoreHolds (first last : Nat)
  | notOwner
  /-- The acknowledged rows are not in the log that this writer reads. -/
  | unreachableTail
deriving DecidableEq, Repr

variable {ν ρ : Type}

def ShardManifest.takenOver (manifest : ShardManifest) : ShardManifest where
  writerEpoch := manifest.writerEpoch + 1
  replayAfterWalEntryPosition := 0
  walEntryPositionLastSeen := 0

def newestWalEntry (entries : List Nat) : Nat := entries.foldl max 0

/-- Prepare a stream that a single node wrote last for a Bitr cluster. -/
def prepareBitrTakeover (storage : TableStorage ν) (history : List ρ) :
    Except OpenError (TableStorage ν) :=
  match storage.manifest with
  | none => .ok storage
  | some manifest =>
    let newest := newestWalEntry storage.walEntries
    if newest = 0 ∧ manifest.walEntryPositionLastSeen = 0 then .ok storage
    else if !history.isEmpty then .ok storage
    else if manifest.replayAfterWalEntryPosition < newest then
      .error (.onlyObjectStoreHolds (manifest.replayAfterWalEntryPosition + 1) newest)
    else .ok { storage with manifest := some manifest.takenOver }

/-- Whether the tail that the last writer left is one this writer can read. -/
def reachableTail [DecidableEq ν] (storage : TableStorage ν) (log : Option ν)
    (durability : LanceDurability ρ) : Bool :=
  match storage.note with
  | none => true
  | some note =>
    match note.log, log with
    | some held, some mine => held = mine
    | _, _ =>
      match durability with
      | .objectStore => !storage.walEntries.isEmpty
      | .bitr history => !history.isEmpty

def prepareOpen (storage : TableStorage ν) :
    LanceDurability ρ → Except OpenError (TableStorage ν)
  | .objectStore => .ok storage
  | .bitr history => prepareBitrTakeover storage history

def TableStorage.nextWriterEpoch (storage : TableStorage ν) : Nat :=
  (storage.manifest.map (·.writerEpoch + 1)).getD 1

def TableStorage.memWalWriter (storage : TableStorage ν) : TableStorage ν :=
  { storage with
    manifest := some
      { (storage.manifest.getD ⟨0, 0, 0⟩) with writerEpoch := storage.nextWriterEpoch } }

/-- Open the writer of a table: prepare a takeover, record the epoch that will be claimed, check
the note and claim. `owned` is whether the ownership record could be moved. -/
def claimTable [DecidableEq ν] (storage : TableStorage ν) (log : Option ν)
    (durability : LanceDurability ρ) (owned : Bool) : Except OpenError Unit × TableStorage ν :=
  match prepareOpen storage durability with
  | .error error => (.error error, storage)
  | .ok prepared =>
    if !owned then (.error .notOwner, prepared)
    else
      let recorded := { prepared with recordEpoch := prepared.nextWriterEpoch }
      if !reachableTail recorded log durability then (.error .unreachableTail, recorded)
      else (.ok (), recorded.memWalWriter)

def TableStorage.Admits (storage : TableStorage ν) (epoch : Nat) : Prop :=
  storage.manifest.map (·.writerEpoch) = some epoch

structure TakesNothing (before after : TableStorage ν) : Prop where
  epoch : after.manifest.map (·.writerEpoch) = before.manifest.map (·.writerEpoch)
  positions : after.manifest.map (fun m =>
      (m.replayAfterWalEntryPosition, m.walEntryPositionLastSeen)) =
    before.manifest.map fun m => (m.replayAfterWalEntryPosition, m.walEntryPositionLastSeen)
  appends : ∀ epoch, after.Admits epoch ↔ before.Admits epoch

/-- The stream was flushed from another log and this Bitr cluster has never held it. -/
def TakesOver (storage : TableStorage ν) (durability : LanceDurability ρ) : Prop :=
  ∃ manifest ∈ storage.manifest, durability = .bitr [] ∧
    ¬(newestWalEntry storage.walEntries = 0 ∧ manifest.walEntryPositionLastSeen = 0) ∧
    newestWalEntry storage.walEntries ≤ manifest.replayAfterWalEntryPosition

theorem prepareOpen_eq_ok (h : prepareOpen storage durability = .ok after) :
    (TakesOver storage durability ∧ ∃ manifest ∈ storage.manifest,
      after = { storage with manifest := some manifest.takenOver }) ∨
    (¬ TakesOver storage durability ∧ after = storage) := by
  unfold TakesOver
  cases durability with
  | objectStore =>
    cases h
    simp
  | bitr history =>
    unfold prepareOpen prepareBitrTakeover at h
    cases hm : storage.manifest with
    | none =>
      rw [hm] at h
      cases h
      simp
    | some manifest =>
      simp only [hm] at h
      split at h
      · cases h
        simp [*]
      split at h
      · cases h
        simp_all
      · simp only [guard_ok,Except.ok.injEq] at h
        obtain ⟨hc,rfl⟩ := h
        simp_all

theorem prepareOpen_ne_unreachable : prepareOpen storage durability ≠ .error .unreachableTail := by
  unfold prepareOpen prepareBitrTakeover
  simp only
  repeat' split
  all_goals simp

/-- An open that the note refuses takes nothing exactly when it does not take over the stream from
another log. -/
theorem refused_open_takes_nothing_iff [DecidableEq ν] {log : Option ν} {owned : Bool}
    (h : claimTable storage log durability owned = (.error .unreachableTail, after)) :
    TakesNothing storage after ↔ ¬ TakesOver storage durability := by
  unfold claimTable at h
  split at h
  · rename_i hp
    cases h
    exact absurd hp prepareOpen_ne_unreachable
  rename_i prepared hp
  split at h
  · cases h
  simp only at h
  split at h
  · cases h
    cases prepareOpen_eq_ok hp with
    | inl ht =>
      obtain ⟨ht,manifest,hm,rfl⟩ := ht
      refine iff_of_false (fun hn => ?_) (not_not.mpr ht)
      have he := hn.epoch
      simp [Option.mem_def.mp hm,ShardManifest.takenOver] at he
    | inr hs =>
      obtain ⟨ht,rfl⟩ := hs
      exact iff_of_true ⟨rfl,rfl,fun _ => Iff.rfl⟩ ht
  · cases h

/-- A cluster that has held the stream is refused for a tail in another cluster's log. -/
theorem refused_open_takes_nothing_of_held :
    TakesNothing (ν := Nat) ⟨some ⟨2, 5, 5⟩, [], some ⟨some 1⟩, 2⟩
      ⟨some ⟨2, 5, 5⟩, [], some ⟨some 1⟩, 3⟩ := by
  have hr : claimTable ⟨some ⟨2,5,5⟩,[],some ⟨some 1⟩,2⟩ (some 0)
      (.bitr [()]) true =
        (.error .unreachableTail,⟨some ⟨2,5,5⟩,[],some ⟨some 1⟩,3⟩) := rfl
  exact (refused_open_takes_nothing_iff hr).mpr (by simp [TakesOver])

/-- A second cluster that has never held the stream is refused, and has reset its positions. -/
theorem refused_open_resets_the_manifest :
    ¬∀ (storage after : TableStorage Nat) (log : Option Nat) (durability : LanceDurability Unit)
        (owned : Bool),
      claimTable storage log durability owned = (.error .unreachableTail, after) →
        TakesNothing storage after := by
  intro ha
  have hn := ha ⟨some ⟨2,5,5⟩,[],some ⟨some 1⟩,2⟩ _ (some 0) (.bitr []) true rfl
  exact absurd hn.epoch (by decide)

end Walleye.Lance
