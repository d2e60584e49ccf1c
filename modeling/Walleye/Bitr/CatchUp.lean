import Walleye.Base.Quorum
import Walleye.Bitr.Archive

namespace Walleye.Bitr

open Walleye.Base

structure StreamWriterState (σ β : Type) where
  writerEpoch : Nat
  committedLsn : Nat
  records : List (EncryptedRecord σ β)
deriving DecidableEq, Repr

variable {σ β : Type}

def StreamWriterState.empty : StreamWriterState σ β := ⟨0, 0, []⟩

def copyAt (copies : List (EncryptedRecord σ β)) (lsn : Nat) : Option (EncryptedRecord σ β) :=
  copies.find? fun r => decide (r.lsn = lsn)

variable {copies : List (EncryptedRecord σ β)} {r : EncryptedRecord σ β}

theorem copyAt_eq_some (h : copyAt copies lsn = some r) : r ∈ copies ∧ r.lsn = lsn :=
  ⟨List.mem_of_find?_eq_some h,by simpa using List.find?_some h⟩

theorem copyAt_of_unique
    (hu : ∀ x ∈ copies, ∀ y ∈ copies, x.lsn = y.lsn → x = y) (hr : r ∈ copies) :
    copyAt copies r.lsn = some r := by
  have hs : (copyAt copies r.lsn).isSome = true :=
    List.find?_isSome.mpr ⟨r,hr,by simp⟩
  obtain ⟨q,hq⟩ := Option.isSome_iff_exists.mp hs
  obtain ⟨hm,hl⟩ := copyAt_eq_some hq
  rw [hq,hu q hm r hr hl]

/-- What a catch-up decides to send: a withdrawal first, then the missing records, an
append for each batch. -/
structure CatchUpPlan (σ β : Type) where
  supersede : Option (Nat × Nat)
  batches : List (List (EncryptedRecord σ β))
deriving DecidableEq, Repr

def catchUpBatch : Nat := 256

def catchUpBatches (batch : List (EncryptedRecord σ β)) :
    List (EncryptedRecord σ β) → List (List (EncryptedRecord σ β))
  | [] => if batch.isEmpty then [] else [batch]
  | r :: rest =>
    if (batch.getLast?.any fun q => decide (q.writerEpoch ≠ r.writerEpoch)) = true ∨
        catchUpBatch ≤ batch.length then batch :: catchUpBatches [r] rest
    else catchUpBatches (batch ++ [r]) rest

/-- The committed records from `expected` on: adjacent, certified, chained and of an epoch
not older than the one before. -/
def missingRecords (copies : List (EncryptedRecord σ β)) (certified : Nat) :
    Nat → Nat → Nat → List (EncryptedRecord σ β)
  | 0, _, _ => []
  | fuel + 1, expected, ownEpoch =>
    match copyAt copies expected with
    | none => []
    | some r =>
      if certified < r.lsn ∨ r.committedLsn ≠ r.lsn - 1 ∨ r.writerEpoch < ownEpoch then []
      else r :: missingRecords copies certified fuel (expected + 1) r.writerEpoch

theorem missingRecords_chained (hp : 0 < expected) :
    ∀ r ∈ missingRecords copies certified fuel expected epoch, r.Chained := by
  induction fuel generalizing expected epoch with
  | zero => simp [missingRecords]
  | succ fuel ih =>
    intro r hr
    simp only [missingRecords] at hr
    split at hr
    · cases hr
    · rename_i q hq
      split at hr
      · cases hr
      · rename_i ho
        simp only [not_or,ne_eq,not_not] at ho
        rcases List.mem_cons.mp hr with rfl | hr
        · have hl := (copyAt_eq_some hq).2
          exact ⟨by omega,ho.2.1⟩
        · exact ih (Nat.succ_pos _) r hr

theorem mem_catchUpBatches (hb : b ∈ catchUpBatches batch records) (hr : r ∈ b) :
    r ∈ batch ∨ r ∈ records := by
  induction records generalizing batch with
  | nil =>
    simp only [catchUpBatches] at hb
    split at hb
    · cases hb
    · rw [List.mem_singleton] at hb
      exact .inl (hb ▸ hr)
  | cons q rest ih =>
    simp only [catchUpBatches] at hb
    split at hb
    · rcases List.mem_cons.mp hb with rfl | hb
      · exact .inl hr
      · rcases ih hb with hq | hq
        · exact .inr (List.mem_cons.mpr (.inl (List.mem_singleton.mp hq)))
        · exact .inr (List.mem_cons_of_mem _ hq)
    · rcases ih hb with hq | hq
      · rcases List.mem_append.mp hq with hq | hq
        · exact .inl hq
        · exact .inr (List.mem_cons.mpr (.inl (List.mem_singleton.mp hq)))
      · exact .inr (List.mem_cons_of_mem _ hq)

variable [DecidableEq σ]

def peerRecords (stream : σ) (member : Fin 3) (snapshots : Fin 3 → Option (NodeSnapshot σ β))
    (floor : Nat) : List (EncryptedRecord σ β) :=
  ([0, 1, 2].filter (· ≠ member)).flatMap fun peer =>
    (snapshots peer).elim [] fun s =>
      s.records.filter fun r => decide (r.stream = stream ∧ floor < r.lsn)

def peersTrimmed (stream : σ) (member : Fin 3) (snapshots : Fin 3 → Option (NodeSnapshot σ β)) :
    Nat :=
  ([0, 1, 2].filter (· ≠ member)).foldl
    (fun high peer => max high ((snapshots peer).elim 0 fun s => floorOf s.trimmed stream)) 0

variable [DecidableEq β]

/-- One peer record: the first copy of an LSN is kept, and the lowest LSN at which two
peers disagree. -/
def addCopy (acc : List (EncryptedRecord σ β) × Option Nat) (r : EncryptedRecord σ β) :
    List (EncryptedRecord σ β) × Option Nat :=
  match copyAt acc.1 r.lsn with
  | some existing =>
    if existing ≠ r then (acc.1, some (acc.2.elim r.lsn (min r.lsn))) else acc
  | none => (acc.1 ++ [r], acc.2)

def peerCopies (records : List (EncryptedRecord σ β)) : List (EncryptedRecord σ β) :=
  let (copies, disagreement) := records.foldl addCopy ([], none)
  disagreement.elim copies fun low => copies.filter fun r => decide (r.lsn < low)

/-- Evidence added to the copies: it must agree with what is there. -/
def mergeCopies (copies : List (EncryptedRecord σ β)) :
    List (EncryptedRecord σ β) → Except ReplicaError (List (EncryptedRecord σ β))
  | [] => .ok copies
  | r :: rest =>
    match copyAt copies r.lsn with
    | some existing =>
      if existing ≠ r then .error .lsnConflict else mergeCopies copies rest
    | none => mergeCopies (copies ++ [r]) rest

/-- How far the member agrees with the copies, and the certified LSN at which a copy differs and
outranks all it holds from there. -/
def agreedPrefix (own copies : List (EncryptedRecord σ β)) (certified : Nat) :
    Nat → Nat → Nat → Nat × Nat × Option (Nat × Nat)
  | 0, position, ownEpoch => (position, ownEpoch, none)
  | fuel + 1, position, ownEpoch =>
    match copyAt own (position + 1) with
    | none => (position, ownEpoch, none)
    | some r =>
      match copyAt copies (position + 1) with
      | none => (position, ownEpoch, none)
      | some copy =>
        if copy = r then
          agreedPrefix own copies certified fuel (position + 1) (max ownEpoch r.writerEpoch)
        else if position + 1 ≤ certified ∧
            ∀ q ∈ own, position + 1 ≤ q.lsn → q.writerEpoch < copy.writerEpoch then
          (position, ownEpoch, some (position + 1, copy.writerEpoch))
        else (position, ownEpoch, none)

/-- The decisions of a catch-up of one member, from the snapshots it heard, the
coordinator's memory of the stream and the archive. -/
def catchUpMember (stream : σ) (member : Fin 3) (snapshots : Fin 3 → Option (NodeSnapshot σ β))
    (acknowledged : StreamWriterState σ β) (archive : List (EncryptedRecord σ β)) :
    Except ReplicaError (CatchUpPlan σ β) :=
  match snapshots member with
  | none => .error .nodeUnavailable
  | some snapshot =>
    let floor := floorOf snapshot.trimmed stream
    let own := snapshot.records.filter fun r => decide (r.stream = stream ∧ floor < r.lsn)
    let peers := peerRecords stream member snapshots floor
    let trimmed := peersTrimmed stream member snapshots
    let remembered := acknowledged.records.filter fun r =>
      decide (floor < r.lsn ∧ r.lsn ≤ acknowledged.committedLsn)
    let archived := if floor < trimmed then
      (archiveRecover archive floor).filter fun r => decide (r.lsn ≤ trimmed) else []
    (mergeCopies (peerCopies peers) remembered).bind fun copies =>
      (mergeCopies copies archived).bind fun copies =>
        let certified := (archived.map (·.lsn)).foldl max
          ((peers.map (·.committedLsn)).foldl max acknowledged.committedLsn)
        let ownEpoch := ((snapshot.trimmed.filter (·.stream = stream)).map (·.writerEpoch)).foldl max 0
        let (position, epoch, supersede) :=
          agreedPrefix own copies certified own.length floor ownEpoch
        .ok ⟨supersede, catchUpBatches []
          (missingRecords copies certified copies.length (position + 1) epoch)⟩

theorem catchUpMember_chained
    {plan : CatchUpPlan σ β}
    (h : catchUpMember stream member snapshots acknowledged archive = .ok plan) :
    ∀ b ∈ plan.batches, ∀ r ∈ b, r.Chained := by
  unfold catchUpMember at h
  split at h
  · cases h
  · simp only [Except.bind_eq_ok] at h
    obtain ⟨_,_,_,_,hp⟩ := h
    cases hp
    intro b hb r hr
    refine missingRecords_chained (Nat.succ_pos _) r ((mem_catchUpBatches hb hr).resolve_left ?_)
    exact List.not_mem_nil

end Walleye.Bitr
