import Walleye.Archive.Contents

namespace Walleye.Archive

open Walleye.Base Walleye.Bitr
open Walleye.Engine (u64Max saturatingAdd saturatingAdd_le)

variable {σ β κ δ ω : Type}

/-- Records that follow each other from `expected` on as the readers check it: the next LSN is a
saturating successor, so the last one is its own. -/
def Linked : Nat → Nat → List (EncryptedRecord σ β) → Prop
  | _, _, [] => True
  | expected, epoch, r :: rest =>
    (r.lsn = expected ∧ r.committedLsn = expected - 1 ∧ epoch ≤ r.writerEpoch) ∧
      Linked (saturatingAdd expected 1) r.writerEpoch rest

def nextLsn (expected : Nat) (records : List (EncryptedRecord σ β)) : Nat :=
  records.getLast?.elim expected fun r => saturatingAdd r.lsn 1

def seenEpoch (epoch : Nat) (records : List (EncryptedRecord σ β)) : Nat :=
  records.getLast?.elim epoch (·.writerEpoch)

theorem nextLsn_cons (expected : Nat) (r : EncryptedRecord σ β) (rest : List (EncryptedRecord σ β)) :
    nextLsn expected (r :: rest) = nextLsn (saturatingAdd r.lsn 1) rest := by
  unfold nextLsn
  rw [List.getLast?_cons]
  cases rest.getLast? <;> simp

theorem seenEpoch_cons (epoch : Nat) (r : EncryptedRecord σ β) (rest : List (EncryptedRecord σ β)) :
    seenEpoch epoch (r :: rest) = seenEpoch r.writerEpoch rest := by
  unfold seenEpoch
  rw [List.getLast?_cons]
  cases rest.getLast? <;> simp

theorem le_saturatingAdd_one (h : a ≤ u64Max) : a ≤ saturatingAdd a 1 :=
  Nat.le_min.mpr ⟨Nat.le_succ a,h⟩

theorem saturatingAdd_one_mono (h : a ≤ b) : saturatingAdd a 1 ≤ saturatingAdd b 1 :=
  Nat.le_min.mpr ⟨Nat.le_trans (Nat.min_le_left _ _) (Nat.succ_le_succ h),saturatingAdd_le a 1⟩

theorem saturatingAdd_one_le (h : a < b) : saturatingAdd a 1 ≤ b :=
  Nat.le_trans (Nat.min_le_left _ _) h

theorem Linked.append :
    Linked expected epoch (xs ++ ys) ↔
      Linked expected epoch xs ∧ Linked (nextLsn expected xs) (seenEpoch epoch xs) ys := by
  induction xs generalizing expected epoch with
  | nil => simp [Linked,nextLsn,seenEpoch]
  | cons r rest ih =>
    simp only [List.cons_append,Linked,ih,nextLsn_cons,seenEpoch_cons,and_assoc]
    constructor
    · rintro ⟨rfl,hc,he,hr,hy⟩
      exact ⟨rfl,hc,he,hr,hy⟩
    · rintro ⟨rfl,hc,he,hr,hy⟩
      exact ⟨rfl,hc,he,hr,hy⟩

theorem linked_epoch :
    Linked expected epoch records ↔
      Linked expected 0 records ∧ ∀ r ∈ records.head?, epoch ≤ r.writerEpoch := by
  cases records with
  | nil => simp [Linked]
  | cons r rest => simp [Linked,and_assoc,and_comm,and_left_comm]

theorem Linked.bounds (h : Linked expected epoch records) (hm : expected ≤ u64Max) :
    ∀ r ∈ records, expected ≤ r.lsn ∧ r.lsn ≤ u64Max := by
  induction records generalizing expected epoch with
  | nil => simp
  | cons r rest ih =>
    obtain ⟨⟨rfl,-,-⟩,hr⟩ := h
    intro q hq
    obtain rfl | hq := List.mem_cons.mp hq
    · exact ⟨Nat.le_refl _,hm⟩
    · have := ih hr (saturatingAdd_le _ _) q hq
      have := le_saturatingAdd_one hm
      omega

/-- Dropping the records up to `after` leaves a linked run. -/
theorem Linked.filter_gt
    (h : Linked expected epoch records) (hl : expected ≤ saturatingAdd after 1) :
    Linked (saturatingAdd after 1) epoch (records.filter fun r => decide (after < r.lsn)) := by
  induction records generalizing expected epoch with
  | nil => trivial
  | cons r rest ih =>
    have ha := h
    obtain ⟨⟨hls,hc,he⟩,hr⟩ := h
    have hm := Nat.le_trans hl (saturatingAdd_le after 1)
    by_cases haf : after < r.lsn
    · have heq : expected = saturatingAdd after 1 :=
        Nat.le_antisymm hl (saturatingAdd_one_le (hls ▸ haf))
      have hk : (r :: rest).filter (fun r => decide (after < r.lsn)) = r :: rest := by
        apply List.filter_eq_self.mpr
        intro q hq
        have := (ha.bounds hm q hq).1
        simp only [decide_eq_true_eq]
        omega
      rw [hk,← heq]
      exact ha
    · rw [List.filter_cons_of_neg (by simpa using haf)]
      have hn : saturatingAdd expected 1 ≤ saturatingAdd after 1 :=
        saturatingAdd_one_mono (by omega)
      have hla := ih hr hn
      rw [linked_epoch] at hla ⊢
      refine ⟨hla.1,?_⟩
      intro q hq
      exact Nat.le_trans he (hla.2 q hq)

theorem Linked.filter_le (h : Linked expected epoch records) (hm : expected ≤ u64Max) :
    Linked expected epoch (records.filter fun r => decide (r.lsn ≤ limit)) := by
  induction records generalizing expected epoch with
  | nil => trivial
  | cons r rest ih =>
    have ha := h
    obtain ⟨⟨hl,hc,he⟩,hr⟩ := h
    by_cases hli : r.lsn ≤ limit
    · rw [List.filter_cons_of_pos (by simpa using hli)]
      exact ⟨⟨hl,hc,he⟩,ih hr (saturatingAdd_le _ _)⟩
    · have hn : (r :: rest).filter (fun r => decide (r.lsn ≤ limit)) = [] := by
        apply List.filter_eq_nil_iff.mpr
        intro q hq
        have := (ha.bounds hm q hq).1
        simp only [decide_eq_true_eq]
        omega
      rw [hn]
      trivial

section Readers

variable [DecidableEq σ] {codec : ArchiveCodec σ β κ δ ω}

theorem linked_of_verifyRecords
    (h : verifyRecords codec key stream expected epoch records = .ok ()) :
    Linked expected epoch records := by
  induction records generalizing expected epoch with
  | nil => trivial
  | cons r rest ih =>
    simp only [verifyRecords,guard_ok,not_or,not_not,Nat.not_lt,ne_eq] at h
    obtain ⟨⟨-,hl,hc,he⟩,hr⟩ := h
    exact ⟨⟨hl,hc,he⟩,ih hr⟩

theorem linked_of_verifySegment (h : verifySegment codec seg reference stream = .ok ()) :
    Linked reference.firstLsn 0 seg.records ∧
      seg.records.getLast?.map (·.lsn) = some reference.lastLsn := by
  simp only [verifySegment,guard_ok,not_or,not_not,ne_eq] at h
  obtain ⟨⟨-,-,-,-,hl⟩,hr⟩ := h
  exact ⟨linked_of_verifyRecords hr,hl⟩

variable [DecidableEq δ]

theorem linked_of_fetchSegment (h : fetchSegment codec store stream reference = .ok seg) :
    Linked reference.firstLsn 0 seg.records ∧
      seg.records.getLast?.map (·.lsn) = some reference.lastLsn := by
  unfold fetchSegment at h
  split at h
  · cases h
  · simp only [guard_ok] at h
    obtain ⟨-,h⟩ := h
    split at h
    · cases h
    · rename_i decoded _
      cases hv : verifySegment codec decoded reference stream with
      | error e => simp [hv,Except.map] at h
      | ok _ =>
        simp only [hv,Except.map,Except.ok.injEq] at h
        subst h
        exact linked_of_verifySegment hv

theorem readTail_past
    (h : readTail codec store stream after expected epoch refs = .ok (expected',epoch',tail)) :
    ∀ r ∈ tail, after < r.lsn := by
  induction refs generalizing expected epoch expected' epoch' tail with
  | nil =>
    cases h
    simp
  | cons reference rest ih =>
    simp only [readTail,guard_ok] at h
    obtain ⟨-,h⟩ := h
    split at h
    · exact ih h
    · obtain ⟨segment,-,h⟩ := Except.bind_eq_ok.mp h
      simp only [guard_ok] at h
      obtain ⟨-,h⟩ := h
      obtain ⟨⟨expected₁,epoch₁,more⟩,hm,h⟩ := Except.bind_eq_ok.mp h
      simp only [Except.ok.injEq,Prod.mk.injEq] at h
      obtain ⟨-,-,rfl⟩ := h
      intro r hr
      obtain hr | hr := List.mem_append.mp hr
      · simpa using (List.mem_filter.mp hr).2
      · exact ih hm r hr

/-- What a tail read returns is linked, whatever the store holds. -/
theorem readTail_linked
    (h : readTail codec store stream after expected epoch refs = .ok (expected',epoch',tail))
    (hm : expected ≤ u64Max) :
    (after < expected → Linked expected epoch tail) ∧
      (expected ≤ saturatingAdd after 1 → Linked (saturatingAdd after 1) epoch tail) := by
  induction refs generalizing expected epoch expected' epoch' tail with
  | nil =>
    cases h
    exact ⟨fun _ => trivial,fun _ => trivial⟩
  | cons reference rest ih =>
    simp only [readTail,guard_ok,not_or,not_not,Nat.not_lt,ne_eq] at h
    obtain ⟨⟨hf,hb⟩,h⟩ := h
    have hn := saturatingAdd_le reference.lastLsn 1
    by_cases hs : reference.lastLsn ≤ after
    · rw [if_pos hs] at h
      obtain ⟨-,hre⟩ := ih h hn
      exact ⟨fun ha => by omega,fun _ => hre (saturatingAdd_one_mono hs)⟩
    · rw [if_neg hs] at h
      obtain ⟨segment,hfe,h⟩ := Except.bind_eq_ok.mp h
      simp only [guard_ok] at h
      obtain ⟨hh,h⟩ := h
      obtain ⟨⟨expected₁,epoch₁,more⟩,hmo,h⟩ := Except.bind_eq_ok.mp h
      simp only [Except.ok.injEq,Prod.mk.injEq] at h
      obtain ⟨-,-,rfl⟩ := h
      obtain ⟨hse,hl⟩ := linked_of_fetchSegment hfe
      obtain ⟨last,hlast,hlas⟩ := Option.map_eq_some_iff.mp hl
      have hrea : reference.lastLsn ≤ u64Max := by
        rw [← hlas]
        exact (hse.bounds (hf ▸ hm) last (List.mem_of_getLast? hlast)).2
      have hp : after < saturatingAdd reference.lastLsn 1 :=
        Nat.lt_of_lt_of_le (Nat.lt_of_not_le hs) (le_saturatingAdd_one hrea)
      have hli : Linked expected epoch (segment.records ++ more) := by
        apply Linked.append.mpr
        constructor
        · rw [linked_epoch]
          refine ⟨hf ▸ hse,?_⟩
          intro r hr
          rw [Option.mem_def.mp hr] at hh
          simpa using hh
        · have hre := (ih hmo hn).1 hp
          simpa [nextLsn,seenEpoch,hlast,hlas] using hre
      have hmor : more.filter (fun r => decide (after < r.lsn)) = more := by
        apply List.filter_eq_self.mpr
        intro r hr
        have := (((ih hmo hn).1 hp).bounds hn r hr).1
        simp only [decide_eq_true_eq]
        omega
      have ht : segment.records.filter (fun r => decide (after < r.lsn)) ++ more =
          (segment.records ++ more).filter fun r => decide (after < r.lsn) := by
        rw [List.filter_append,hmor]
      rw [ht]
      refine ⟨fun ha => ?_,fun hle => hli.filter_gt hle⟩
      rw [List.filter_eq_self.mpr]
      · exact hli
      · intro r hr
        have := (hli.bounds hm r hr).1
        simp only [decide_eq_true_eq]
        omega

theorem recover_linked (h : recover codec store stream after = .ok records) :
    Linked (saturatingAdd after 1) 0 records ∧ ∀ r ∈ records, after < r.lsn := by
  obtain ⟨head,-,h⟩ := Except.bind_eq_ok.mp h
  obtain ⟨⟨expected,epoch,tail⟩,ht,h⟩ := Except.bind_eq_ok.mp h
  simp only [guard_ok,Except.ok.injEq] at h
  obtain ⟨-,-,rfl⟩ := h
  refine ⟨(readTail_linked ht (by decide)).2 ?_,readTail_past ht⟩
  exact Nat.le_min.mpr ⟨Nat.le_add_left 1 after,by decide⟩

end Readers

end Walleye.Archive
