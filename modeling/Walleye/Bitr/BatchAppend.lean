import Walleye.Bitr.LogFile

namespace Walleye.Bitr

open Walleye.Base

variable {σ β : Type}

def LogWrite.lines : LogWrite σ β → List (LogEntry σ β)
  | .extend entries => entries
  | .rewrite entries => entries

/-- Records of a batch that were taken in, and those still to come: one stream and epoch, at
increasing LSNs. -/
structure Batched (stream : σ) (epoch : Nat) (fresh rest : List (EncryptedRecord σ β)) : Prop where
  stream : ∀ r ∈ fresh ++ rest, r.stream = stream
  epoch : ∀ r ∈ fresh ++ rest, r.writerEpoch = epoch
  watermark : ∀ r ∈ rest, r.committedLsn < r.lsn
  sorted : (fresh ++ rest).Pairwise (·.lsn < ·.lsn)

variable {stream : σ} {epoch : Nat} {fresh rest batch : List (EncryptedRecord σ β)}
  {r : EncryptedRecord σ β}

theorem Batched.skip (h : Batched stream epoch fresh (r :: rest)) :
    Batched stream epoch fresh rest where
  stream q hq := h.stream q (by simp only [List.mem_append,List.mem_cons] at hq ⊢; tauto)
  epoch q hq := h.epoch q (by simp only [List.mem_append,List.mem_cons] at hq ⊢; tauto)
  watermark q hq := h.watermark q (List.mem_cons_of_mem r hq)
  sorted := h.sorted.sublist ((List.sublist_cons_self r rest).append_left fresh)

theorem Batched.take (h : Batched stream epoch fresh (r :: rest)) :
    Batched stream epoch (fresh ++ [r]) rest where
  stream := by simpa using h.stream
  epoch := by simpa using h.epoch
  watermark q hq := h.watermark q (List.mem_cons_of_mem r hq)
  sorted := by simpa using h.sorted

variable [DecidableEq σ]

def NodeMaps.taken (m : NodeMaps σ β) (fresh : List (EncryptedRecord σ β)) : NodeMaps σ β :=
  { m with
    highestEpoch := fresh.foldl (fun h r => raiseTo h r.stream r.writerEpoch) m.highestEpoch
    records := m.records ++ fresh }

theorem NodeMaps.taken_nil (m : NodeMaps σ β) : m.taken [] = m := by
  simp [NodeMaps.taken]

theorem NodeMaps.taken_taken (m : NodeMaps σ β) (fresh added : List (EncryptedRecord σ β)) :
    (m.taken fresh).taken added = m.taken (fresh ++ added) := by
  simp [NodeMaps.taken]

theorem NodeMaps.taken_concat (m : NodeMaps σ β) (fresh : List (EncryptedRecord σ β))
    (r : EncryptedRecord σ β) :
    m.taken (fresh ++ [r]) =
      { m.taken fresh with
        highestEpoch := Function.update (m.taken fresh).highestEpoch r.stream
          (some (max r.writerEpoch (((m.taken fresh).highestEpoch r.stream).getD 0)))
        records := (m.taken fresh).records ++ [r] } := by
  simp [NodeMaps.taken,raiseTo_eq]

theorem lt_foldl_max {xs : List Nat} (h : ∀ x ∈ xs, x ≤ e) : e < xs.foldl max a ↔ e < a := by
  induction xs generalizing a with
  | nil => simp
  | cons x xs ih =>
    have hx := h x List.mem_cons_self
    rw [List.foldl_cons,ih fun y hy => h y (List.mem_cons_of_mem x hy)]
    omega

variable {m : NodeMaps σ β}

theorem Batched.recordAt_fresh (h : Batched stream epoch fresh (r :: rest)) :
    recordAt fresh r.stream r.lsn = none := by
  unfold recordAt
  rw [List.find?_eq_none]
  intro q hq
  have hl : q.lsn < r.lsn := (List.pairwise_append.mp h.sorted).2.2 q hq r List.mem_cons_self
  simp only [decide_eq_true_eq,not_and]
  omega

theorem Batched.fenced_iff (h : Batched stream epoch fresh (r :: rest)) :
    r.writerEpoch < ((m.taken fresh).highestEpoch r.stream).getD 0 ↔
      r.writerEpoch < (m.highestEpoch r.stream).getD 0 := by
  show r.writerEpoch < (fresh.foldl _ m.highestEpoch r.stream).getD 0 ↔ _
  rw [getD_foldl_raiseTo]
  apply lt_foldl_max
  intro x hx
  obtain ⟨q,hq,rfl⟩ := List.mem_map.mp hx
  have hq : q ∈ fresh := (List.mem_filter.mp hq).1
  rw [h.epoch q (List.mem_append_left _ hq),h.epoch r (by simp)]

theorem batched_of_validateAppendBatch (h : validateAppendBatch batch = .ok ()) :
    ∃ stream epoch, Batched stream epoch [] batch := by
  have hv := validateAppendBatch_spec h
  have hs := validateAppendBatch_sorted h
  cases batch with
  | nil => cases h
  | cons first rest =>
    refine ⟨first.stream,first.writerEpoch,?_,?_,hv.watermark,hs⟩
    · exact fun r hr => hv.stream r hr first List.mem_cons_self
    · exact fun r hr => hv.epoch r hr first List.mem_cons_self

variable [DecidableEq β]

def NodeMaps.appendEach (m : NodeMaps σ β) (fence : Option MaintenanceFence)
    (boundary : EncryptedRecord σ β → Bool) (token : Option MaintenanceFence) :
    List (EncryptedRecord σ β) → Except ReplicaError (NodeMaps σ β × List (LogEntry σ β))
  | [] => .ok (m, [])
  | r :: rest => (m.append fence boundary token r).bind fun (m, w) =>
    (m.appendEach fence boundary token rest).map fun (m, lines) => (m, w.lines ++ lines)

variable {boundary : EncryptedRecord σ β → Bool}

/-- What the checks of a batch say of one record, after those taken in: refused, there already, or
new. -/
def DiskState.verdict (s : DiskState σ β) (boundary : EncryptedRecord σ β → Bool)
    (fresh : List (EncryptedRecord σ β)) (r : EncryptedRecord σ β) : Except ReplicaError Bool :=
  if r.writerEpoch < s.highestEpoch r.stream then .error .writerFenced
  else if (prefixOf s.trimmed r.stream).any fun p => decide (r.lsn ≤ p.archivedLsn) then
    .error .lsnConflict
  else match recordAt s.records r.stream r.lsn with
    | some existing => if existing ≠ r then .error .lsnConflict else .ok false
    | none =>
      if 1 < r.lsn ∧ recordAt fresh r.stream (r.lsn - 1) = none ∧
          recordAt s.records r.stream (r.lsn - 1) = none ∧
          (prefixOf s.trimmed r.stream).any (fun p => decide (p.archivedLsn = r.lsn - 1)) = false ∧
          boundary r = false then .error .lsnConflict
      else .ok true

theorem DiskState.checkNew_cons (s : DiskState σ β) (fresh rest : List (EncryptedRecord σ β))
    (r : EncryptedRecord σ β) :
    s.checkNew boundary (r :: rest) fresh =
      (s.verdict boundary fresh r).bind fun new =>
        s.checkNew boundary rest (if new then fresh ++ [r] else fresh) := by
  rw [DiskState.checkNew]
  unfold DiskState.verdict
  split
  · rfl
  · split
    · rfl
    · cases recordAt s.records r.stream r.lsn with
      | some existing =>
        dsimp only
        split
        · rfl
        · rfl
      | none =>
        dsimp only
        split
        · rfl
        · rfl

theorem Batched.verdict_taken (h : Batched stream epoch fresh (r :: rest)) :
    ((m.taken fresh).disk fence).verdict boundary [] r =
      (m.disk fence).verdict boundary fresh r := by
  have ha : recordAt ((m.taken fresh).disk fence).records r.stream r.lsn =
      recordAt (m.disk fence).records r.stream r.lsn := by
    show recordAt (m.records ++ fresh) r.stream r.lsn = _
    rw [recordAt_append,h.recordAt_fresh,Option.or_none]
    rfl
  have hb : recordAt ((m.taken fresh).disk fence).records r.stream (r.lsn - 1) = none ↔
      recordAt fresh r.stream (r.lsn - 1) = none ∧
        recordAt (m.disk fence).records r.stream (r.lsn - 1) = none := by
    show recordAt (m.records ++ fresh) r.stream (r.lsn - 1) = none ↔ _
    rw [recordAt_append,Option.or_eq_none_iff,and_comm]
    rfl
  have he : r.writerEpoch < ((m.taken fresh).disk fence).highestEpoch r.stream ↔
      r.writerEpoch < (m.disk fence).highestEpoch r.stream := h.fenced_iff
  have ht : ((m.taken fresh).disk fence).trimmed = (m.disk fence).trimmed := rfl
  have hn : recordAt ([] : List (EncryptedRecord σ β)) r.stream (r.lsn - 1) = none := rfl
  unfold DiskState.verdict
  simp only [ha,hb,he,ht,hn,true_and,and_assoc]

/-- A single append is the verdict on its record, and writes one line when it is new. -/
theorem NodeMaps.append_eq (m : NodeMaps σ β) (hm : r.committedLsn < r.lsn) :
    m.append fence boundary fence r = ((m.disk fence).verdict boundary [] r).map fun new =>
      if new then (m.taken [r],.extend [.record r]) else (m,.extend []) := by
  have hf : ¬(m.disk fence).maintenance ≠ fence := not_not.mpr rfl
  unfold NodeMaps.append DiskState.append DiskState.verdict
  rw [if_neg hf,if_neg (Nat.not_le_of_lt hm)]
  by_cases he : r.writerEpoch < (m.disk fence).highestEpoch r.stream
  · rw [if_pos he,if_pos he]
    rfl
  rw [if_neg he,if_neg he]
  split
  · rfl
  have hr : recordAt m.records r.stream r.lsn =
      recordAt (m.disk fence).records r.stream r.lsn := rfl
  rw [hr]
  cases recordAt (m.disk fence).records r.stream r.lsn with
  | some existing =>
    dsimp only
    split
    · rfl
    · rfl
  | none =>
    have hn : recordAt ([] : List (EncryptedRecord σ β)) r.stream (r.lsn - 1) = none := rfl
    have ht := m.taken_concat [] r
    rw [List.nil_append,m.taken_nil] at ht
    simp only [hn,true_and,ht]
    split
    · rfl
    · rfl

/-- Checking a batch as a whole takes the records that one append after another takes. -/
theorem Batched.checkNew_eq (h : Batched stream epoch fresh rest) (m : NodeMaps σ β)
    (fence : Option MaintenanceFence) (boundary : EncryptedRecord σ β → Bool) :
    ((m.disk fence).checkNew boundary rest fresh).map
        (fun all => (m.taken all,all.map LogEntry.record)) =
      ((m.taken fresh).appendEach fence boundary fence rest).map
        (fun out => (out.1,fresh.map LogEntry.record ++ out.2)) := by
  induction rest generalizing fresh with
  | nil => simp [DiskState.checkNew,NodeMaps.appendEach,Except.map]
  | cons r rest ih =>
    rw [DiskState.checkNew_cons,NodeMaps.appendEach,
      NodeMaps.append_eq _ (h.watermark r List.mem_cons_self),h.verdict_taken]
    cases (m.disk fence).verdict boundary fresh r with
    | error e => rfl
    | ok new =>
      cases new with
      | false =>
        have hs := ih h.skip
        simp only [Except.bind,Except.map,Bool.false_eq_true,if_false] at hs ⊢
        rw [hs]
        cases (m.taken fresh).appendEach fence boundary fence rest with
        | error e => rfl
        | ok out => simp [LogWrite.lines]
      | true =>
        have ht := ih h.take
        simp only [Except.bind,Except.map,if_true,NodeMaps.taken_taken] at ht ⊢
        rw [ht]
        cases (m.taken (fresh ++ [r])).appendEach fence boundary fence rest with
        | error e => rfl
        | ok out => simp [LogWrite.lines]

/-- A batch append leaves the maps and writes the lines that its records leave and write one by one,
and is refused as they are. A node that refuses it is as it was. -/
theorem batch_append_is_sequential (h : validateAppendBatch batch = .ok ()) :
    m.appendMany fence boundary token false batch =
        (m.appendEach fence boundary token batch).map (fun out => (out.1, .extend out.2)) ∧
      ∀ (codec : LineCodec (LogEntry σ β)) (s : NodeFile σ β) (e : ReplicaError),
        NodeFile.attempt codec none s (.appendMany boundary token false batch) = .error e →
        NodeFile.step codec none s (.call (.appendMany boundary token false batch)) = some s := by
  constructor
  · unfold NodeMaps.appendMany
    rw [h]
    by_cases hf : fence = token
    · subst hf
      obtain ⟨stream,epoch,hb⟩ := batched_of_validateAppendBatch h
      have hc := hb.checkNew_eq m fence boundary
      rw [m.taken_nil] at hc
      simp only [Except.bind,if_neg (not_not.mpr (rfl : fence = fence)),Bool.false_eq_true,
        if_false,List.map_nil,List.nil_append,List.append_nil] at hc ⊢
      cases hn : (m.disk fence).checkNew boundary batch [] with
      | error e =>
        cases he : m.appendEach fence boundary fence batch with
        | error e' =>
          rw [hn,he] at hc
          cases hc
          rfl
        | ok out =>
          rw [hn,he] at hc
          cases hc
      | ok fresh =>
        cases he : m.appendEach fence boundary fence batch with
        | error e =>
          rw [hn,he] at hc
          cases hc
        | ok out =>
          obtain ⟨maps,lines⟩ := out
          rw [hn,he] at hc
          cases hc
          rfl
    · cases batch with
      | nil => cases h
      | cons first rest =>
        have hr : m.append fence boundary token first = .error .writerFenced := by
          have hd : (m.disk fence).maintenance ≠ token := hf
          unfold NodeMaps.append DiskState.append
          rw [if_pos hd]
          rfl
        rw [NodeMaps.appendEach,hr]
        simp only [Except.bind,if_pos hf]
        rfl
  · intro codec s e hr
    simp only [NodeFile.step,hr]

/-- A batch whose first record is on the node already. -/
theorem batch_append_is_sequential_on_retry :
    let r := fun lsn => (⟨7,1,lsn,lsn - 1,lsn⟩ : EncryptedRecord Nat Nat)
    let m := (NodeMaps.empty : NodeMaps Nat Nat).taken [r 1]
    (m.appendMany none (fun _ => false) none false [r 1,r 2,r 3]).toOption.map (·.1.records) =
        some [r 1,r 2,r 3] ∧
      m.appendMany none (fun _ => false) none false [r 1,r 2,r 3] =
        (m.appendEach none (fun _ => false) none [r 1,r 2,r 3]).map
          (fun out => (out.1,.extend out.2)) :=
  ⟨rfl,(batch_append_is_sequential rfl).1⟩

end Walleye.Bitr
