import Walleye.Bitr.Archive
import Walleye.Bitr.Candidates

namespace Walleye.Bitr

open Walleye.Base

variable {σ β : Type}

def sortByLsn (records : List (EncryptedRecord σ β)) : List (EncryptedRecord σ β) :=
  records.insertionSort fun r q => r.lsn ≤ q.lsn

theorem mem_sortByLsn : r ∈ sortByLsn records ↔ r ∈ records :=
  (List.perm_insertionSort _ records).mem_iff

theorem sortByLsn_sorted (records : List (EncryptedRecord σ β)) :
    (sortByLsn records).Pairwise (·.lsn ≤ ·.lsn) :=
  List.pairwise_insertionSort _ records

/-- The tail of candidates from `expected` on. A candidate past a missing LSN is a gap; one
that does not continue the chain ends the tail. -/
def contiguousTail (expected epoch : Nat) :
    List (EncryptedRecord σ β) → Except ReplicaError (List (EncryptedRecord σ β))
  | [] => .ok []
  | r :: rest =>
    if r.lsn < expected then contiguousTail expected epoch rest
    else if r.lsn ≠ expected then .error (.recoveryGap expected r.lsn)
    else if r.committedLsn ≠ expected - 1 ∨ r.writerEpoch < epoch then .ok []
    else (contiguousTail (expected + 1) r.writerEpoch rest).bind fun tail => .ok (r :: tail)

structure Reaches (expected epoch : Nat) (records : List (EncryptedRecord σ β))
    (r : EncryptedRecord σ β) : Prop where
  mem : r ∈ records
  above : expected ≤ r.lsn
  chained : ∀ x ∈ records, expected ≤ x.lsn → x.lsn ≤ r.lsn → x.Chained
  ordered : ∀ x ∈ records, ∀ y ∈ records, expected ≤ x.lsn → x.lsn ≤ y.lsn → y.lsn ≤ r.lsn →
    x.writerEpoch ≤ y.writerEpoch
  newer : ∀ x ∈ records, expected ≤ x.lsn → x.lsn ≤ r.lsn → epoch ≤ x.writerEpoch

/-- What a chain of candidates reaches is in the contiguous tail. -/
theorem Reaches.mem_contiguousTail
    {r : EncryptedRecord σ β} (h : Reaches expected epoch records r)
    (hs : records.Pairwise (·.lsn ≤ ·.lsn))
    (hu : ∀ x ∈ records, ∀ y ∈ records, x.lsn = y.lsn → x = y)
    (ht : contiguousTail expected epoch records = .ok tail) : r ∈ tail := by
  induction records generalizing expected epoch tail with
  | nil => cases h.mem
  | cons x rest ih =>
    obtain ⟨hle,hr⟩ := List.pairwise_cons.mp hs
    have hu' : ∀ a ∈ rest, ∀ b ∈ rest, a.lsn = b.lsn → a = b := fun a ha b hb =>
      hu a (List.mem_cons_of_mem _ ha) b (List.mem_cons_of_mem _ hb)
    simp only [contiguousTail] at ht
    split at ht
    · rename_i hlt
      refine ih ⟨?_,h.above,?_,?_,?_⟩ hr hu' ht
      · rcases List.mem_cons.mp h.mem with rfl | hm
        · exact absurd h.above (Nat.not_le_of_lt hlt)
        · exact hm
      · exact fun a ha => h.chained a (List.mem_cons_of_mem _ ha)
      · exact fun a ha b hb => h.ordered a (List.mem_cons_of_mem _ ha) b (List.mem_cons_of_mem _ hb)
      · exact fun a ha => h.newer a (List.mem_cons_of_mem _ ha)
    · rename_i hg
      simp only [guard_ok,ne_eq,not_not] at ht
      obtain ⟨hx,ht⟩ := ht
      have hxr : x.lsn ≤ r.lsn := hx ▸ h.above
      have hch := h.chained x List.mem_cons_self (Nat.le_of_eq hx.symm) hxr
      have hnew := h.newer x List.mem_cons_self (Nat.le_of_eq hx.symm) hxr
      rw [if_neg (by rintro (hc | he); exacts [hc (hx ▸ hch.2),Nat.not_lt_of_le hnew he])] at ht
      obtain ⟨tail',ht',heq⟩ := Except.bind_eq_ok.mp ht
      cases heq
      by_cases hx' : x = r
      · exact hx' ▸ List.mem_cons_self
      · have hm := (List.mem_cons.mp h.mem).resolve_left (Ne.symm hx')
        have hn : x.lsn ≠ r.lsn := fun heq =>
          hx' (hu x List.mem_cons_self r (List.mem_cons_of_mem _ hm) heq)
        refine List.mem_cons_of_mem _ (ih ⟨hm,by omega,?_,?_,?_⟩ hr hu' ht')
        · exact fun a ha hl => h.chained a (List.mem_cons_of_mem _ ha) (by omega)
        · exact fun a ha b hb hl => h.ordered a (List.mem_cons_of_mem _ ha) b
            (List.mem_cons_of_mem _ hb) (by omega)
        · intro a ha hl har
          exact h.ordered x List.mem_cons_self a (List.mem_cons_of_mem _ ha)
            (Nat.le_of_eq hx.symm) (by omega) har

theorem archiveRecover_reached (h : Archived stream archive) (after : Nat) :
    (archiveRecover archive after).getLast?.elim after (·.lsn) = max after (headLsn archive) := by
  obtain ⟨front,hf⟩ := filter_suffix_of_chain h.chain after
  change front ++ archiveRecover archive after = archive at hf
  cases hl : (archiveRecover archive after).getLast? with
  | none =>
    have hn := List.getLast?_eq_none_iff.mp hl
    have hle : headLsn archive ≤ after := by
      by_contra hlt
      obtain ⟨r,hr,hls⟩ := h.exists_at (n := headLsn archive) (by omega) (Nat.le_refl _)
      have hm : r ∈ archiveRecover archive after :=
        List.mem_filter.mpr ⟨hr,decide_eq_true (by omega)⟩
      rw [hn] at hm
      cases hm
    exact (Nat.max_eq_left hle).symm
  | some r =>
    have hh : headLsn archive = r.lsn := by
      rw [headLsn,← hf,List.getLast?_append,hl]
      rfl
    have hr := (List.mem_filter.mp (List.mem_of_getLast? hl)).2
    have hr' : after < r.lsn := by simpa using hr
    simp only [Option.elim_some]
    omega

/-- Where the hot part of a recovery starts: after the archived records it read. -/
def hotAfter (after : Nat) (archived : List (EncryptedRecord σ β)) : Nat :=
  max (archived.getLast?.elim after (·.lsn)) after

section Recover

variable [DecidableEq σ] (owns : Fin 3 → EncryptedRecord σ β → Bool)
  (snapshots : Fin 3 → Option (NodeSnapshot σ β)) (stream : σ)

/-- The watermark the hot tier can serve from: the caller's, or the highest trim checkpoint
an answering member reports. -/
def trimmedFloor (after : Nat) : Nat :=
  [0, 1, 2].foldl
    (fun high m => max high ((snapshots m).elim 0 fun s => floorOf s.trimmed stream)) after

variable {snapshots stream} in
theorem trimmedFloor_le : after ≤ trimmedFloor snapshots stream after ∧
    ∀ m, ∀ s ∈ snapshots m, floorOf s.trimmed stream ≤ trimmedFloor snapshots stream after := by
  refine ⟨?_,fun m s hs => ?_⟩
  · simp only [trimmedFloor,List.foldl]
    omega
  · have hm : m = 0 ∨ m = 1 ∨ m = 2 := by omega
    rw [Option.mem_def] at hs
    rcases hm with rfl | rfl | rfl <;>
    · simp only [trimmedFloor,List.foldl,hs,Option.elim_some]
      omega

variable [DecidableEq β]

/-- A matching data quorum without a marker quorum, lowest LSN first. -/
def ambiguousQuorum (after : Nat) : Option (EncryptedRecord σ β) :=
  (sortByLsn (evidence owns snapshots)).find? fun r => decide (after < r.lsn ∧ r.stream = stream ∧
    r.committedLsn < r.lsn ∧ ackQuorum ≤ countOf (Shows owns snapshots r) ∧
    countOf (Marks owns snapshots r) < ackQuorum)

def recoverHotTail (after : Nat) : Except ReplicaError (List (EncryptedRecord σ β) × Nat) :=
  let floor := trimmedFloor snapshots stream after
  match ambiguousQuorum owns snapshots stream floor with
  | some r =>
    .error (.recoveryAmbiguous r.lsn (countOf (Marks owns snapshots r)) ackQuorum)
  | none =>
    (contiguousTail (floor + 1) 0 (sortByLsn
      ((collectCandidates owns snapshots stream).filter fun r => decide (floor < r.lsn)))).bind
        fun tail => .ok (tail, floor)

def recoverRecords (after : Nat) (archived late : List (EncryptedRecord σ β)) :
    Except ReplicaError (List (EncryptedRecord σ β)) :=
  let served := hotAfter after archived
  (recoverHotTail owns snapshots stream served).bind fun (hot, floor) =>
    if served < floor then
      let lateRecords := archiveRecover late served
      let reached := lateRecords.getLast?.elim served (·.lsn)
      if reached < floor then
        .error (.nodeStorage "member trim checkpoint exceeds the archive tail")
      else .ok (archived ++ lateRecords ++ hot.filter fun r => decide (reached < r.lsn))
    else .ok (archived ++ hot)

variable {owns snapshots stream}

theorem mem_recoverHotTail
    {r : EncryptedRecord σ β} (h : recoverHotTail owns snapshots stream after = .ok (tail,floor))
    (hr : Reaches (floor + 1) 0 ((collectCandidates owns snapshots stream).filter
      fun r => decide (floor < r.lsn)) r) : r ∈ tail := by
  simp only [recoverHotTail] at h
  split at h
  · cases h
  · obtain ⟨tail',ht,he⟩ := Except.bind_eq_ok.mp h
    cases he
    have hm : ∀ x, x ∈ sortByLsn ((collectCandidates owns snapshots stream).filter
        fun r => decide (trimmedFloor snapshots stream after < r.lsn)) →
        x ∈ (collectCandidates owns snapshots stream).filter
          fun r => decide (trimmedFloor snapshots stream after < r.lsn) := fun x =>
      mem_sortByLsn.mp
    refine Reaches.mem_contiguousTail ⟨mem_sortByLsn.mpr hr.mem,hr.above,?_,?_,?_⟩
      (sortByLsn_sorted _) ?_ ht
    · exact fun x hx => hr.chained x (hm x hx)
    · exact fun x hx y hy => hr.ordered x (hm x hx) y (hm y hy)
    · exact fun x hx => hr.newer x (hm x hx)
    · exact fun x hx y hy => collectCandidates_unique (List.mem_filter.mp (hm x hx)).1
        (List.mem_filter.mp (hm y hy)).1

end Recover

end Walleye.Bitr
