import Walleye.Archive.Contents

namespace Walleye.Archive

open Walleye.Base Walleye.Bitr
open Walleye.Engine (u64Max saturatingAdd)

variable {σ β κ δ ω : Type}

def Run (stream : σ) : Nat → Nat → List (EncryptedRecord σ β) → Prop
  | _, _, [] => True
  | expected, epoch, r :: rest =>
    (r.stream = stream ∧ r.lsn = expected ∧ r.committedLsn = expected - 1 ∧
      epoch ≤ r.writerEpoch ∧ r.lsn < u64Max) ∧ Run stream (expected + 1) r.writerEpoch rest

def lastEpoch (epoch : Nat) (records : List (EncryptedRecord σ β)) : Nat :=
  records.getLast?.elim epoch (·.writerEpoch)

theorem lastEpoch_nil (epoch : Nat) : lastEpoch epoch ([] : List (EncryptedRecord σ β)) = epoch :=
  rfl

theorem lastEpoch_append (epoch : Nat) (xs ys : List (EncryptedRecord σ β)) :
    lastEpoch epoch (xs ++ ys) = lastEpoch (lastEpoch epoch xs) ys := by
  unfold lastEpoch
  rw [List.getLast?_append]
  cases ys.getLast? <;> simp

theorem lastEpoch_cons (epoch : Nat) (r : EncryptedRecord σ β) (rest : List (EncryptedRecord σ β)) :
    lastEpoch epoch (r :: rest) = lastEpoch r.writerEpoch rest := by
  unfold lastEpoch
  rw [List.getLast?_cons]
  cases rest.getLast? <;> simp

variable {stream : σ}

variable {expected epoch : Nat} {batch : List (EncryptedRecord σ β)}

theorem Run.append :
    Run stream expected epoch (xs ++ ys) ↔
      Run stream expected epoch xs ∧
        Run stream (expected + xs.length) (lastEpoch epoch xs) ys := by
  induction xs generalizing expected epoch with
  | nil => simp [Run,lastEpoch_nil]
  | cons r rest ih =>
    simp only [List.cons_append,Run,ih,lastEpoch_cons,List.length_cons,and_assoc]
    rw [Nat.add_right_comm expected 1,Nat.add_assoc expected]

theorem Run.older (hle : epoch' ≤ epoch) (h : Run stream expected epoch records) :
    Run stream expected epoch' records := by
  cases records with
  | nil => trivial
  | cons r rest =>
    obtain ⟨⟨hs,hl,hc,he,hm⟩,hr⟩ := h
    exact ⟨⟨hs,hl,hc,Nat.le_trans hle he,hm⟩,hr⟩

theorem Run.place (h : Run stream expected epoch records) (hr : records[i]? = some r) :
    r.stream = stream ∧ r.lsn = expected + i ∧ r.committedLsn = r.lsn - 1 ∧ r.lsn < u64Max := by
  induction records generalizing expected epoch i with
  | nil => simp at hr
  | cons x rest ih =>
    obtain ⟨⟨hs,hl,hc,-,hm⟩,hre⟩ := h
    cases i with
    | zero =>
      cases hr
      exact ⟨hs,hl,by rw [hc,hl],hm⟩
    | succ i =>
      obtain ⟨h1,h2,h3,h4⟩ := ih hre (by simpa using hr)
      exact ⟨h1,by omega,h3,h4⟩

theorem Run.mem (h : Run stream expected epoch records) (hr : r ∈ records) :
    expected ≤ r.lsn ∧ r.lsn < expected + records.length ∧ r.lsn < u64Max := by
  obtain ⟨i,hi⟩ := List.getElem?_of_mem hr
  obtain ⟨hlt,-⟩ := List.getElem?_eq_some_iff.mp hi
  obtain ⟨-,hl,-,hm⟩ := h.place hi
  omega

theorem Run.epochs {records : List (EncryptedRecord σ β)} (h : Run stream expected epoch records) :
    records.Pairwise (·.writerEpoch ≤ ·.writerEpoch) ∧ ∀ r ∈ records, epoch ≤ r.writerEpoch := by
  induction records generalizing expected epoch with
  | nil => simp
  | cons r rest ih =>
    obtain ⟨⟨-,-,-,he,-⟩,hr⟩ := h
    obtain ⟨hp,hl⟩ := ih hr
    refine ⟨List.pairwise_cons.mpr ⟨hl,hp⟩,?_⟩
    intro q hq
    obtain rfl | hq := List.mem_cons.mp hq
    · exact he
    · exact Nat.le_trans he (hl q hq)

theorem Run.le_lastEpoch {records : List (EncryptedRecord σ β)}
    (h : Run stream expected epoch records) : epoch ≤ lastEpoch epoch records := by
  unfold lastEpoch
  cases hl : records.getLast? with
  | none => exact Nat.le_refl _
  | some r => exact h.epochs.2 r (List.mem_of_getLast? hl)

theorem lastEpoch_of_ne_nil (hn : records ≠ [])
    (epoch epoch' : Nat) : lastEpoch epoch records = lastEpoch epoch' records := by
  simp [lastEpoch,List.getLast?_eq_some_getLast hn]

/-! The segment that holds one batch. -/

def batchFirst (batch : List (EncryptedRecord σ β)) : Nat := batch.head?.elim 0 (·.lsn)

def batchLast (batch : List (EncryptedRecord σ β)) : Nat :=
  batch.getLast?.elim (batchFirst batch) (·.lsn)

def Segment.ofBatch (stream : σ) (batch : List (EncryptedRecord σ β)) : Segment σ β :=
  ⟨stream, batchFirst batch, batchLast batch, batch⟩

def segmentRef (codec : ArchiveCodec σ β κ δ ω) (stream : σ) (batch : List (EncryptedRecord σ β)) :
    SegmentRef κ δ :=
  let digest := codec.digest (codec.encode (.ofBatch stream batch))
  ⟨batchFirst batch, batchLast batch,
    codec.segmentKey stream (batchFirst batch) (batchLast batch) digest, digest⟩

def Stored (codec : ArchiveCodec σ β κ δ ω) (object : κ → Option ω) (stream : σ)
    (batch : List (EncryptedRecord σ β)) : Prop :=
  object (segmentRef codec stream batch).key = some (codec.encode (.ofBatch stream batch))

theorem Run.head
    (h : Run stream expected epoch batch) (hn : batch ≠ []) : batchFirst batch = expected := by
  cases batch with
  | nil => exact absurd rfl hn
  | cons r rest => exact h.1.2.1

theorem Run.last (h : Run stream expected epoch batch) (hn : batch ≠ []) :
    batchLast batch + 1 = expected + batch.length ∧ batchLast batch < u64Max := by
  have hp := List.length_pos_iff.mpr hn
  have hg : batch[batch.length - 1]? = some (batch.getLast hn) := by
    rw [← List.getLast?_eq_getElem?,List.getLast?_eq_some_getLast hn]
  obtain ⟨-,hl,-,hm⟩ := h.place hg
  have he : batchLast batch = (batch.getLast hn).lsn := by
    simp [batchLast,List.getLast?_eq_some_getLast hn]
  omega

theorem lastEpoch_filter (hn : batch ≠ []) (ha : ¬batchLast batch ≤ after) :
    lastEpoch epoch (batch.filter fun r => decide (after < r.lsn)) = lastEpoch epoch batch := by
  have hl : batchLast batch = (batch.getLast hn).lsn := by
    simp [batchLast,List.getLast?_eq_some_getLast hn]
  have hk : decide (after < (batch.getLast hn).lsn) = true := by
    simp only [decide_eq_true_eq]
    omega
  have hs := List.dropLast_append_getLast hn
  have ho : [batch.getLast hn].filter (fun r => decide (after < r.lsn)) = [batch.getLast hn] :=
    List.filter_cons_of_pos hk
  rw [← hs,List.filter_append,ho,lastEpoch_append,lastEpoch_append]
  simp [lastEpoch]

variable (codec : ArchiveCodec σ β κ δ ω)

structure Holds (object : κ → Option ω) (stream : σ) (head : ArchiveHead σ κ δ)
    (records : List (EncryptedRecord σ β)) (batches : List (List (EncryptedRecord σ β))) :
    Prop where
  named : head.stream = stream
  archived : head.archivedLsn = records.length
  epoch : head.writerEpoch = lastEpoch 0 records
  listed : head.segments = batches.map (segmentRef codec stream)
  flat : records = batches.flatten
  stored : ∀ batch ∈ batches, batch ≠ [] ∧ Stored codec object stream batch
  run : Run stream 1 0 records

theorem Holds.empty (object : κ → Option ω) :
    Holds codec object stream (.empty stream) ([] : List (EncryptedRecord σ β)) [] :=
  ⟨rfl,rfl,rfl,rfl,rfl,by simp,trivial⟩

variable {codec}

theorem validateReferences_of_run
    {batches : List (List (EncryptedRecord σ β))} (hn : ∀ batch ∈ batches, batch ≠ [])
    (hr : Run stream expected epoch batches.flatten) :
    validateReferences codec stream expected (batches.map (segmentRef codec stream)) =
      .ok (expected + batches.flatten.length) := by
  induction batches generalizing expected epoch with
  | nil => simp [validateReferences]
  | cons batch rest ih =>
    have hba := hn batch List.mem_cons_self
    obtain ⟨hr,hre⟩ := Run.append.mp (List.flatten_cons ▸ hr)
    obtain ⟨hl,hm⟩ := hr.last hba
    have hp := List.length_pos_iff.mpr hba
    have hf := hr.head hba
    have ht := ih (fun b hb => hn b (List.mem_cons_of_mem _ hb)) hre
    have hbo : ¬((segmentRef codec stream batch).firstLsn ≠ expected ∨
        (segmentRef codec stream batch).lastLsn < (segmentRef codec stream batch).firstLsn) := by
      simp only [segmentRef]
      omega
    have hfo : ¬(codec.underStream stream (segmentRef codec stream batch).key = false ∨
        codec.hexDigest (segmentRef codec stream batch).digest = false) := by
      simp [segmentRef,codec.segmentKey_under,codec.digest_hex]
    have hro : ¬ u64Max ≤ (segmentRef codec stream batch).lastLsn := by
      simp only [segmentRef]
      omega
    simp only [List.map_cons,validateReferences,if_neg hbo,if_neg hfo,if_neg hro]
    have hnex : (segmentRef codec stream batch).lastLsn + 1 = expected + batch.length := hl
    rw [hnex,ht]
    simp [Nat.add_assoc]

theorem validateReferences_lt (h : validateReferences codec stream expected refs = .ok next) :
    ∀ reference ∈ refs, reference.lastLsn < u64Max := by
  induction refs generalizing expected with
  | nil => simp
  | cons reference rest ih =>
    simp only [validateReferences,guard_ok,Nat.not_le] at h
    obtain ⟨-,-,hr,hre⟩ := h
    intro q hq
    obtain rfl | hq := List.mem_cons.mp hq
    · exact hr
    · exact ih hre q hq

theorem Holds.tail_last
    (h : Holds codec object stream head records batches) (ha : after < head.archivedLsn) :
    (records.filter fun r => decide (after < r.lsn)).getLast? = records.getLast? ∧
      (records.getLast?.map (·.lsn)) = some head.archivedLsn := by
  have hn : records ≠ [] := by
    rintro rfl
    rw [h.archived] at ha
    exact absurd ha (Nat.not_lt_zero _)
  have hl := (h.run.last hn).1
  have he : batchLast records = (records.getLast hn).lsn := by
    simp [batchLast,List.getLast?_eq_some_getLast hn]
  have hls : (records.getLast hn).lsn = head.archivedLsn := by
    rw [h.archived]
    omega
  refine ⟨?_,by simp [List.getLast?_eq_some_getLast hn,hls]⟩
  have hk : decide (after < (records.getLast hn).lsn) = true := by
    simp only [decide_eq_true_eq]
    omega
  have ho : [records.getLast hn].filter (fun r => decide (after < r.lsn)) =
    [records.getLast hn] := List.filter_cons_of_pos hk
  conv_lhs => rw [← List.dropLast_append_getLast hn,List.filter_append,ho]
  simp [List.getLast?_append,List.getLast?_eq_some_getLast hn]

section Readers

variable [DecidableEq σ]

theorem validateHeadChain_lt (h : validateHeadChain codec stream head = .ok ()) :
    ∀ reference ∈ head.segments, reference.lastLsn < u64Max := by
  simp only [Archive.validateHeadChain,guard_ok] at h
  obtain ⟨next,hr,-⟩ := Except.bind_eq_ok.mp h.2
  exact validateReferences_lt hr

theorem Holds.validateHeadChain
    (h : Holds codec object stream head records batches) :
    validateHeadChain codec stream head = .ok () := by
  have hr : validateReferences codec stream 1 (batches.map (segmentRef codec stream)) =
      .ok (1 + batches.flatten.length) :=
    validateReferences_of_run (fun b hb => (h.stored b hb).1) (h.flat ▸ h.run)
  unfold Archive.validateHeadChain
  rw [if_neg (by simp [h.named]),h.listed,hr]
  simp only [Except.bind,← h.flat]
  rw [if_neg (by rw [h.archived]; omega),if_neg]
  rintro ⟨hz,he⟩
  rw [h.archived,List.length_eq_zero_iff] at hz
  rw [h.epoch,hz] at he
  exact he rfl

theorem verifyRecords_of_run (h : Run stream expected epoch records) :
    verifyRecords codec key stream expected epoch records = .ok () := by
  induction records generalizing expected epoch with
  | nil => rfl
  | cons r rest ih =>
    obtain ⟨⟨hs,hl,hc,he,hm⟩,hr⟩ := h
    have hn : saturatingAdd expected 1 = expected + 1 := by
      unfold saturatingAdd
      omega
    rw [verifyRecords,if_neg (by simp [hs,hl,hc,he]),hn]
    exact ih hr

variable [DecidableEq δ]

theorem fetchSegment_of_stored (hn : batch ≠ [])
    (hs : Stored codec store.object stream batch) (hr : Run stream expected epoch batch) :
    fetchSegment codec store stream (segmentRef codec stream batch) =
      .ok (.ofBatch stream batch) := by
  have hv : verifySegment codec (.ofBatch stream batch) (segmentRef codec stream batch)
      stream = .ok () := by
    have hf : batch.head?.map (·.lsn) = some (batchFirst batch) := by
      cases batch with
      | nil => exact absurd rfl hn
      | cons r rest => rfl
    have hl : batch.getLast?.map (·.lsn) = some (batchLast batch) := by
      simp [batchLast,List.getLast?_eq_some_getLast hn]
    rw [verifySegment,if_neg (by simp [Segment.ofBatch,segmentRef,hf,hl])]
    apply verifyRecords_of_run
    simp only [segmentRef,Segment.ofBatch,hr.head hn]
    exact hr.older (Nat.zero_le _)
  have ho : store.object (segmentRef codec stream batch).key =
    some (codec.encode (.ofBatch stream batch)) := hs
  have hd : (segmentRef codec stream batch).digest =
    codec.digest (codec.encode (.ofBatch stream batch)) := rfl
  simp [fetchSegment,ho,hd,codec.decode_encode,hv,Except.map]

/-- A run of stored segments reads back as its records past `after`. -/
theorem readTail_of_run
    {batches : List (List (EncryptedRecord σ β))}
    (hs : ∀ batch ∈ batches, batch ≠ [] ∧ Stored codec store.object stream batch)
    (hru : Run stream expected epoch batches.flatten) (hl : epoch' ≤ epoch) :
    readTail codec store stream after expected epoch' (batches.map (segmentRef codec stream)) =
      .ok (expected + batches.flatten.length,
        lastEpoch epoch' (batches.flatten.filter fun r => decide (after < r.lsn)),
        batches.flatten.filter fun r => decide (after < r.lsn)) := by
  induction batches generalizing expected epoch epoch' with
  | nil => simp [readTail,lastEpoch]
  | cons batch rest ih =>
    obtain ⟨hn,ho⟩ := hs batch List.mem_cons_self
    obtain ⟨hba,hre⟩ := Run.append.mp (List.flatten_cons ▸ hru)
    obtain ⟨hla,hm⟩ := hba.last hn
    have hp := List.length_pos_iff.mpr hn
    have hf := hba.head hn
    have hnex : saturatingAdd (segmentRef codec stream batch).lastLsn 1 =
        expected + batch.length := by
      simp only [segmentRef,saturatingAdd]
      omega
    have ht := fun ep (he : ep ≤ lastEpoch epoch batch) =>
      ih (fun b hb => hs b (List.mem_cons_of_mem _ hb)) hre he
    have hbo : ¬((segmentRef codec stream batch).firstLsn ≠ expected ∨
        (segmentRef codec stream batch).lastLsn < (segmentRef codec stream batch).firstLsn) := by
      simp only [segmentRef]
      omega
    simp only [List.map_cons,readTail,if_neg hbo,hnex,List.flatten_cons,
      List.filter_append,List.length_append,lastEpoch_append]
    have hlas : (segmentRef codec stream batch).lastLsn = batchLast batch := rfl
    rw [hlas]
    by_cases hsk : batchLast batch ≤ after
    · have hno : batch.filter (fun r => decide (after < r.lsn)) = [] := by
        apply List.filter_eq_nil_iff.mpr
        intro r hr
        have := (hba.mem hr).2.1
        simp only [decide_eq_true_eq]
        omega
      rw [if_pos hsk,ht epoch' (Nat.le_trans hl hba.le_lastEpoch),hno]
      simp [lastEpoch_nil,Nat.add_assoc]
    · have hh : batch.head?.any (fun r => decide (r.writerEpoch < epoch')) = false := by
        cases batch with
        | nil => exact absurd rfl hn
        | cons r more =>
          have := hba.1.2.2.2.1
          simp only [List.head?_cons,Option.any_some,decide_eq_false_iff_not]
          omega
      have hepo : lastEpoch epoch' (batch.filter fun r => decide (after < r.lsn)) =
          lastEpoch epoch' batch := lastEpoch_filter hn hsk
      have hlat : lastEpoch epoch' batch ≤ lastEpoch epoch batch :=
        Nat.le_of_eq (lastEpoch_of_ne_nil hn _ _)
      rw [if_neg hsk,fetchSegment_of_stored hn ho hba,hepo]
      simp only [Except.bind,Segment.ofBatch]
      have hrea := ht (lastEpoch epoch' batch) hlat
      unfold lastEpoch at hrea ⊢
      rw [hrea]
      simp [hh,Nat.add_assoc]

variable (store : Contents σ κ δ ω)

theorem Holds.readTail (h : Holds codec store.object stream head records batches) (after : Nat) :
    readTail codec store stream after 1 0 head.segments =
      .ok (1 + records.length,lastEpoch 0 (records.filter fun r => decide (after < r.lsn)),
        records.filter fun r => decide (after < r.lsn)) := by
  rw [h.listed,h.flat]
  exact readTail_of_run h.stored (h.flat ▸ h.run) (Nat.le_refl _)

theorem Holds.recover (h : Holds codec store.object stream head records batches)
    (hl : loadHead codec store stream = .ok head) (after : Nat) :
    recover codec store stream after = .ok (records.filter fun r => decide (after < r.lsn)) := by
  rw [Archive.recover,hl]
  simp only [Except.bind,h.readTail store]
  rw [if_neg (by rw [h.archived]; omega),if_neg]
  rintro ⟨ha,he⟩
  apply he
  rw [h.epoch,lastEpoch,lastEpoch,(h.tail_last ha).1]

/-- The tail query answers the last record past `after`, and fails past the head. -/
theorem Holds.archivedTail (h : Holds codec store.object stream head records batches)
    (hl : loadHead codec store stream = .ok head) (after : Nat) :
    (records.length < after → ∃ e, archivedTail codec store stream after = .error e) ∧
      (after ≤ records.length → archivedTail codec store stream after =
        .ok ((records.filter fun r => decide (after < r.lsn)).getLast?.map
          fun r => (r.lsn,r.writerEpoch))) := by
  rw [Archive.archivedTail,hl]
  simp only [Except.bind,h.readTail store,← h.archived]
  refine ⟨fun hlt => ?_,fun hle => ?_⟩
  · rw [if_pos hlt]
    exact ⟨_,rfl⟩
  · rw [if_neg (by omega)]
    by_cases he : head.archivedLsn = after
    · have hn : records.filter (fun r => decide (after < r.lsn)) = [] := by
        apply List.filter_eq_nil_iff.mpr
        intro r hr
        have := (h.run.mem hr).2.1
        rw [h.archived] at he
        simp only [decide_eq_true_eq]
        omega
      rw [if_pos he,hn]
      rfl
    · have ha : after < head.archivedLsn := by omega
      obtain ⟨hla,hls⟩ := h.tail_last ha
      have hep : lastEpoch 0 (records.filter fun r => decide (after < r.lsn)) =
          head.writerEpoch := by
        rw [h.epoch,lastEpoch,lastEpoch,hla]
      rw [if_neg he,if_neg (by simp [hep]),hla]
      cases hr : records.getLast? with
      | none => simp [hr] at hls
      | some r =>
        rw [hr] at hls
        simp only [Option.map_some,Option.some.injEq] at hls ⊢
        rw [h.epoch,lastEpoch,hr,hls]
        rfl

end Readers

end Walleye.Archive
