import Mathlib.Data.List.Dedup
import Mathlib.Data.List.Sort
import Walleye.Bitr.Log
import Walleye.Bitr.FanOut

namespace Walleye.Bitr

open Walleye.Base

variable {σ β : Type}

section Evidence

variable (owns : Fin 3 → EncryptedRecord σ β → Bool)
  (snapshots : Fin 3 → Option (NodeSnapshot σ β))

def Shows (r : EncryptedRecord σ β) (m : Fin 3) : Prop :=
  ∃ s ∈ snapshots m, r ∈ s.records ∧ owns m r = true

def Marks (r : EncryptedRecord σ β) (m : Fin 3) : Prop :=
  ∃ s ∈ snapshots m, (r ∈ s.records ∧ owns m r = true) ∧ r ∈ s.committed

def Answers (r : EncryptedRecord σ β) (m : Fin 3) : Prop :=
  (snapshots m).isSome = true ∧ owns m r = true

def evidence : List (EncryptedRecord σ β) :=
  [0, 1, 2].flatMap fun m => (snapshots m).elim [] fun s => s.records.filter (owns m)

variable {owns snapshots}

variable {r : EncryptedRecord σ β}

theorem mem_evidence : r ∈ evidence owns snapshots ↔ ∃ m, Shows owns snapshots r m := by
  simp only [evidence,List.mem_flatMap,Shows]
  refine exists_congr fun m => ?_
  have hm : m ∈ ([0,1,2] : List (Fin 3)) := by
    revert m
    decide
  cases snapshots m <;> simp [hm,List.mem_filter]

theorem Marks.shows (h : Marks owns snapshots r m) : Shows owns snapshots r m := by
  obtain ⟨s,hs,hr,_⟩ := h
  exact ⟨s,hs,hr⟩

variable [DecidableEq σ] [DecidableEq β]

instance (r : EncryptedRecord σ β) : DecidablePred (Shows owns snapshots r) := fun m =>
  match h : snapshots m with
  | none => isFalse (by simp [Shows, h])
  | some s => decidable_of_iff (r ∈ s.records ∧ owns m r = true) (by simp [Shows, h])

instance (r : EncryptedRecord σ β) : DecidablePred (Marks owns snapshots r) := fun m =>
  match h : snapshots m with
  | none => isFalse (by simp [Marks, h])
  | some s => decidable_of_iff ((r ∈ s.records ∧ owns m r = true) ∧ r ∈ s.committed)
      (by simp [Marks, h])

instance (r : EncryptedRecord σ β) : DecidablePred (Answers owns snapshots r) := fun _ =>
  inferInstanceAs (Decidable (_ ∧ _))

variable (owns snapshots) in
/-- Evidence enough for a record: a quorum of markers, or one marker while the owners that
answered cannot confirm the record absent. -/
def Eligible (r : EncryptedRecord σ β) : Prop :=
  r.committedLsn < r.lsn ∧
    (ackQuorum ≤ countOf (Marks owns snapshots r) ∨
      (0 < countOf (Marks owns snapshots r) ∧
        countOf (Answers owns snapshots r) - countOf (Shows owns snapshots r) < ackQuorum))

instance : DecidablePred (Eligible owns snapshots) := fun _ =>
  inferInstanceAs (Decidable (_ ∧ _))

variable (owns snapshots) in
def collectCandidates (stream : σ) : List (EncryptedRecord σ β) :=
  (evidence owns snapshots).dedup.filter fun r => decide (r.stream = stream ∧
    Eligible owns snapshots r ∧ ∀ q ∈ evidence owns snapshots,
      q.stream = stream → q.lsn = r.lsn → Eligible owns snapshots q → q = r)

theorem mem_collectCandidates :
    r ∈ collectCandidates owns snapshots stream ↔
      r ∈ evidence owns snapshots ∧ r.stream = stream ∧ Eligible owns snapshots r ∧
        ∀ q ∈ evidence owns snapshots, q.stream = stream → q.lsn = r.lsn →
          Eligible owns snapshots q → q = r := by
  simp [collectCandidates,List.mem_filter]

theorem collectCandidates_unique (hr : r ∈ collectCandidates owns snapshots stream)
    (hq : q ∈ collectCandidates owns snapshots stream) (he : r.lsn = q.lsn) : r = q := by
  obtain ⟨hre,hrs,hrl,_⟩ := mem_collectCandidates.mp hr
  exact (mem_collectCandidates.mp hq).2.2.2 r hre hrs he hrl

theorem Eligible.of_shows (hl : r.committedLsn < r.lsn)
    (hm : Marks owns snapshots r m) (hs : snapshots silent = none) :
    Eligible owns snapshots r := by
  have h1 : 0 < countOf (Marks owns snapshots r) := countOf_pos.mpr ⟨m,hm⟩
  have h2 : 0 < countOf (Shows owns snapshots r) := countOf_pos.mpr ⟨m,hm.shows⟩
  have h3 : countOf (Answers owns snapshots r) ≤ 2 :=
    countOf_le_two (m := silent) (by simp [Answers,hs])
  exact ⟨hl,.inr ⟨h1,by unfold ackQuorum; omega⟩⟩

theorem Eligible.twoOf (h : Eligible owns snapshots r)
    (ha : ∀ m, Answers owns snapshots r m) : TwoOf (Shows owns snapshots r) := by
  rcases h.2 with hq | ⟨_,hl⟩
  · exact (two_le_countOf.mp hq).mono fun m hm => hm.shows
  · refine two_le_countOf.mp ?_
    rw [countOf_all ha] at hl
    unfold ackQuorum at hl
    omega

end Evidence

end Walleye.Bitr
