import Walleye.Archive.Refines
import Walleye.Recovery.Walks

namespace Walleye.Recovery

open Walleye.Base Walleye.Bitr Walleye.Archive
open Walleye.Engine (u64Max saturatingAdd saturatingAdd_le)

variable {σ β ν κ δ ω : Type}

/-- An unbroken chain of records: each LSN is its predecessor's plus one, each record names the LSN
before its own as committed, and writer epochs never decrease. -/
def Unbroken : Nat → Nat → List (EncryptedRecord σ β) → Prop
  | _, _, [] => True
  | expected, epoch, r :: rest =>
    (r.lsn = expected ∧ r.committedLsn = expected - 1 ∧ epoch ≤ r.writerEpoch) ∧
      Unbroken (expected + 1) r.writerEpoch rest

def reach (after : Nat) (records : List (EncryptedRecord σ β)) : Nat :=
  records.getLast?.elim after (·.lsn)

def Seam (xs ys : List (EncryptedRecord σ β)) : Prop :=
  ∀ p ∈ xs.getLast?, ∀ q ∈ ys.head?, p.writerEpoch ≤ q.writerEpoch

def LastLsnOnce (records : List (EncryptedRecord σ β)) : Prop :=
  (records.map (·.lsn)).count u64Max ≤ 1

variable {epoch : Nat} {records : List (EncryptedRecord σ β)}

theorem unbroken_append :
    Unbroken expected epoch (xs ++ ys) ↔
      Unbroken expected epoch xs ∧ Unbroken (expected + xs.length) (seenEpoch epoch xs) ys := by
  induction xs generalizing expected epoch with
  | nil => simp [Unbroken,seenEpoch]
  | cons r rest ih =>
    simp only [List.cons_append,Unbroken,ih,seenEpoch_cons,and_assoc,List.length_cons,
      Nat.add_comm rest.length 1,Nat.add_assoc]

theorem unbroken_epoch :
    Unbroken expected epoch records ↔
      Unbroken expected 0 records ∧ ∀ r ∈ records.head?, epoch ≤ r.writerEpoch := by
  cases records with
  | nil => simp [Unbroken]
  | cons r rest => simp [Unbroken,and_assoc,and_comm,and_left_comm]

theorem Unbroken.reach_eq
    (h : Unbroken (after + 1) epoch records) : reach after records = after + records.length := by
  induction records generalizing after epoch with
  | nil => rfl
  | cons r rest ih =>
    obtain ⟨⟨hl,-,-⟩,hr⟩ := h
    have hrea : reach after (r :: rest) = reach (after + 1) rest := by
      unfold reach
      rw [List.getLast?_cons,← hl]
      cases rest.getLast? <;> simp
    rw [hrea,ih hr,List.length_cons]
    omega

/-- A linked run is unbroken unless the last LSN stands in it twice. -/
theorem unbroken_iff_of_linked
    (h : Linked (saturatingAdd after 1) epoch records) (hp : ∀ r ∈ records, after < r.lsn) :
    Unbroken (after + 1) epoch records ↔ LastLsnOnce records := by
  induction records generalizing after epoch with
  | nil => simp [Unbroken,LastLsnOnce]
  | cons r rest ih =>
    obtain ⟨⟨hl,hc,he⟩,hre⟩ := h
    have hr := hp r List.mem_cons_self
    have hn : saturatingAdd after 1 = after + 1 := by
      unfold saturatingAdd at hl ⊢
      omega
    have hm : after + 1 ≤ u64Max := hn ▸ saturatingAdd_le after 1
    rw [hn] at hl hc hre
    have hh : Unbroken (after + 1) epoch (r :: rest) ↔
        Unbroken (after + 1 + 1) r.writerEpoch rest := by
      simp only [Unbroken,hl,hc,he,true_and]
    rw [hh]
    by_cases hla : after + 1 = u64Max
    · cases rest with
      | nil =>
        have ho : LastLsnOnce [r] := List.count_le_length
        exact iff_of_true trivial ho
      | cons q more =>
        have hq : q.lsn = u64Max := by
          rw [hre.1.1,hla]
          rfl
        have hf : ¬ Unbroken (after + 1 + 1) r.writerEpoch (q :: more) := by
          rintro ⟨⟨hq',-,-⟩,-⟩
          omega
        have ht : ¬ LastLsnOnce (r :: q :: more) := by
          simp [LastLsnOnce,hl,hla,hq]
        exact iff_of_false hf ht
    · have hs : saturatingAdd (after + 1) 1 = after + 1 + 1 :=
        Nat.min_eq_left (Nat.lt_of_le_of_ne hm hla)
      have ho : LastLsnOnce (r :: rest) ↔ LastLsnOnce rest := by
        simp [LastLsnOnce,hl,hla]
      rw [ho]
      apply ih hre
      intro q hq
      have := (hre.bounds (saturatingAdd_le _ _) q hq).1
      omega

theorem unbroken_append_iff
    (hx : Unbroken (after + 1) 0 xs) (h : Archive.Linked (saturatingAdd (reach after xs) 1) 0 ys)
    (hp : ∀ r ∈ ys, reach after xs < r.lsn) :
    Unbroken (after + 1) 0 (xs ++ ys) ↔ LastLsnOnce ys ∧ Seam xs ys := by
  have hn : after + 1 + xs.length = reach after xs + 1 := by
    rw [hx.reach_eq]
    omega
  have hs : (∀ r ∈ ys.head?, seenEpoch 0 xs ≤ r.writerEpoch) ↔ Seam xs ys := by
    unfold seenEpoch Seam
    cases xs.getLast? <;> simp
  rw [unbroken_append,hn,and_iff_right hx,unbroken_epoch,unbroken_iff_of_linked h hp,
    hs]

theorem lastLsnOnce_of_sorted (h : records.Pairwise (·.lsn < ·.lsn)) : LastLsnOnce records := by
  apply List.nodup_iff_count_le_one.mp
  exact List.pairwise_map.mpr (h.imp Nat.ne_of_lt)

/-- A record the members offer right after `reached`, at the end of an unbroken stretch of offered
records that starts above the floor. -/
def Leads (offered : List (EncryptedRecord σ β)) (committed : Option Nat) (floor reached : Nat)
    (q : EncryptedRecord σ β) : Prop :=
  q.lsn = reached + 1 ∧ ∃ before, Linked (saturatingAdd floor 1) 0 (before ++ [q]) ∧
    ∀ r ∈ before ++ [q], r ∈ offered ∧ Within committed r

/-- The first hot record past the archive leads on from it. -/
theorem head_hot_iff (hw : Walk committed (saturatingAdd floor 1) 0 offered ho)
    (hs : offered.Pairwise (·.lsn < ·.lsn)) (hf : floor ≤ reached) (q : EncryptedRecord σ β) :
    (ho.filter fun r => decide (reached < r.lsn)).head? = some q ↔
      Leads offered committed floor reached q := by
  have hm := saturatingAdd_le floor 1
  have hp : Linked (saturatingAdd reached 1) 0 (ho.filter fun r => decide (reached < r.lsn)) :=
    hw.linked.filter_gt (saturatingAdd_one_mono hf)
  constructor
  · intro hh
    have hq : q ∈ ho.filter fun r => decide (reached < r.lsn) := List.mem_of_head? hh
    obtain ⟨hme,hpas⟩ := List.mem_filter.mp hq
    simp only [decide_eq_true_eq] at hpas
    have hl : q.lsn = saturatingAdd reached 1 := by
      obtain ⟨more,hmo⟩ := List.head?_eq_some_iff.mp hh
      rw [hmo] at hp
      exact hp.1.1
    obtain ⟨before,behind,rfl⟩ := List.append_of_mem hme
    have hsp : before ++ q :: behind = before ++ [q] ++ behind := by simp
    refine ⟨?_,before,?_,?_⟩
    · unfold saturatingAdd at hl
      omega
    · exact (Linked.append.mp (hsp ▸ hw.linked)).1
    · intro r hr
      have hr' : r ∈ before ++ q :: behind := by
        rw [hsp]
        exact List.mem_append_left _ hr
      exact ⟨hw.sublist.subset hr',hw.within r hr'⟩
  · rintro ⟨hl,before,hli,hsu⟩
    have hme : q ∈ ho := hw.mem_of_linked hm hs hli hsu q (by simp)
    have hq : q ∈ ho.filter fun r => decide (reached < r.lsn) := by
      apply List.mem_filter.mpr
      exact ⟨hme,by simp [hl]⟩
    have hst : (ho.filter fun r => decide (reached < r.lsn)).Pairwise (·.lsn < ·.lsn) :=
      hs.sublist (List.filter_sublist.trans hw.sublist)
    cases hpast : ho.filter fun r => decide (reached < r.lsn) with
    | nil => simp [hpast] at hq
    | cons x rest =>
      rw [hpast] at hq hst hp
      obtain rfl | hq := List.mem_cons.mp hq
      · rfl
      · have hx := hp.1.1
        have hla := (List.pairwise_cons.mp hst).1 q hq
        have hxP : reached < x.lsn := by
          have : x ∈ ho.filter fun r => decide (reached < r.lsn) := by simp [hpast]
          simpa using (List.mem_filter.mp this).2
        omega

theorem reach_append (after : Nat) (xs ys : List (EncryptedRecord σ β)) :
    reach after (xs ++ ys) = reach (reach after xs) ys := by
  unfold reach
  rw [List.getLast?_append]
  cases ys.getLast? <;> simp

theorem reach_max (h : ∀ r ∈ records, after < r.lsn) :
    max (reach after records) after = reach after records := by
  apply Nat.max_eq_left
  unfold reach
  cases hl : records.getLast? with
  | none => exact Nat.le_refl _
  | some r => exact Nat.le_of_lt (h r (List.mem_of_getLast? hl))

theorem ensureExactWatermark_eq_ok (h : ensureExactWatermark after limit records = .ok ()) :
    limit = after ∨ ∃ r, records.getLast? = some r ∧ r.lsn = limit := by
  unfold ensureExactWatermark at h
  split at h
  · exact .inl ‹_›
  · split at h
    · rename_i hl
      right
      simpa [Option.any_eq_true] using hl
    · cases h

/-- What the archive part returns is linked. -/
theorem archivedRecords_linked [DecidableEq σ] [DecidableEq δ]
     {archive : Contents σ κ δ ω}
    (h : archivedRecords inputs stream archive after committed = .ok records) :
    Linked (saturatingAdd after 1) 0 records ∧
      ∀ r ∈ records, after < r.lsn ∧ Within committed r := by
  unfold archivedRecords at h
  split at h
  · cases h
  · rename_i read hre
    cases h
    obtain ⟨hl,hp⟩ := recover_linked hre
    refine ⟨?_,?_⟩
    · cases committed with
      | none => simpa using hl
      | some limit => simpa using hl.filter_le (saturatingAdd_le _ _)
    · intro r hr
      obtain ⟨hm,hw⟩ := List.mem_filter.mp hr
      refine ⟨hp r hm,?_⟩
      simpa [Within,Option.all_eq_true] using hw

section Recover

variable [DecidableEq ν] [DecidableEq σ] [DecidableEq β] [DecidableEq δ]

/-- What one recovery finds: the archived records of its first read, the floor above which members
offer records, those records, and the second read, made only when members have trimmed past the
first. -/
structure Finds (inputs : Inputs σ β ν κ δ ω) (stream : σ) (after : Nat) (committed : Option Nat)
    (archived late offered : List (EncryptedRecord σ β)) (floor : Nat) : Prop where
  first : archivedRecords inputs stream inputs.archive after committed = .ok archived
  offers : hotOffer inputs stream (reach after archived) committed = .ok (floor, offered)
  second : if reach after archived < floor then
      archivedRecords inputs stream inputs.lateArchive (reach after archived) committed = .ok late
    else late = []

/-- The seams of one recovery: neither archive read holds the last LSN twice, and neither the second
read nor the record to which the members' records lead goes back in epochs. -/
def Seamless (inputs : Inputs σ β ν κ δ ω) (stream : σ) (after : Nat) (committed : Option Nat) :
    Prop :=
  ∀ archived late offered floor, Finds inputs stream after committed archived late offered floor →
    LastLsnOnce archived ∧ LastLsnOnce late ∧ Seam archived late ∧
      ∀ p ∈ (archived ++ late).getLast?, ∀ q, Leads offered committed floor p.lsn q →
        p.writerEpoch ≤ q.writerEpoch

structure Spliced (after : Nat) (committed : Option Nat) (records : List (EncryptedRecord σ β)) :
    Prop where
  unbroken : Unbroken (after + 1) 0 records
  ends : ∀ limit ∈ committed, reach after records = limit

variable {inputs : Inputs σ β ν κ δ ω} {stream : σ}

variable {records : List (EncryptedRecord σ β)}

/-- A recovery is its two archive parts and the hot records past them. -/
theorem recover_parts
    (h : recoverWithWatermarkCertificate inputs stream after committed = .ok records) :
    ∃ archived late offered ho floor,
      Finds inputs stream after committed archived late offered floor ∧
      Walk committed (saturatingAdd floor 1) 0 offered ho ∧
      floor ≤ reach (reach after archived) late ∧
      records = archived ++ late ++
        ho.filter (fun r => decide (reach (reach after archived) late < r.lsn)) ∧
      ∀ limit ∈ committed, ensureExactWatermark after limit records = .ok () := by
  obtain ⟨archived,ha,h⟩ := Except.bind_eq_ok.mp h
  have hp := (archivedRecords_linked ha).2
  have hm : max (archived.getLast?.elim after (·.lsn)) after = reach after archived :=
    reach_max fun r hr => (hp r hr).1
  rw [hm] at h
  obtain ⟨⟨ho,floor⟩,hh,h⟩ := Except.bind_eq_ok.mp h
  obtain ⟨found,hf,h⟩ := Except.bind_eq_ok.mp h
  obtain ⟨offered,hof,hw⟩ := recoverHotTail_walk hh
  obtain ⟨hg,hs,hab⟩ := hotOffer_sorted hof
  have he : records = found ∧
      ∀ limit ∈ committed, ensureExactWatermark after limit found = .ok () := by
    cases committed with
    | none =>
      cases h
      exact ⟨rfl,by simp⟩
    | some limit =>
      cases hen : ensureExactWatermark after limit found with
      | error e => simp [hen,Except.map] at h
      | ok _ =>
        simp only [hen,Except.map,Except.ok.injEq] at h
        exact ⟨h.symm,by simp [hen]⟩
  obtain ⟨rfl,he⟩ := he
  split at hf
  · rename_i ht
    obtain ⟨late,hl,hf⟩ := Except.bind_eq_ok.mp hf
    simp only [guard_ok,Nat.not_lt,Except.ok.injEq] at hf
    obtain ⟨hre,rfl⟩ := hf
    exact ⟨archived,late,offered,ho,floor,
      ⟨ha,hof,by rwa [if_pos ht]⟩,hw,hre,rfl,he⟩
  · rename_i hk
    cases hf
    have hfl : floor = reach after archived := by omega
    have hal : ho.filter (fun r => decide (reach after archived < r.lsn)) = ho := by
      apply List.filter_eq_self.mpr
      intro r hr
      simpa [hfl] using hab r (hw.sublist.subset hr)
    refine ⟨archived,[],offered,ho,floor,
      ⟨ha,hof,by rw [if_neg hk]⟩,hw,Nat.le_of_eq hfl,?_,he⟩
    have hsa : reach (reach after archived) ([] : List (EncryptedRecord σ β)) =
        reach after archived := rfl
    rw [List.append_nil,hsa,hal]

theorem recover_bounds
    (h : recoverWithWatermarkCertificate inputs stream after committed = .ok records) :
    ∀ r ∈ records, after < r.lsn ∧ Within committed r := by
  obtain ⟨archived,late,offered,ho,floor,hf,hw,hfl,rfl,-⟩ := recover_parts h
  have ha := (archivedRecords_linked hf.first).2
  have hre : after ≤ reach after archived := by
    rw [← reach_max fun r hr => (ha r hr).1]
    exact Nat.le_max_right _ _
  obtain ⟨hg,-,hab⟩ := hotOffer_sorted hf.offers
  intro r hr
  obtain hr | hr := List.mem_append.mp hr
  · obtain hr | hr := List.mem_append.mp hr
    · exact ha r hr
    · have hl := hf.second
      split at hl
      · obtain ⟨hp,hwi⟩ := (archivedRecords_linked hl).2 r hr
        exact ⟨by omega,hwi⟩
      · simp [hl] at hr
  · have hr := (List.mem_filter.mp hr).1
    have := hab r (hw.sublist.subset hr)
    exact ⟨by omega,hw.within r hr⟩

theorem recover_ends
    (h : recoverWithWatermarkCertificate inputs stream after committed = .ok records) :
    ∀ limit ∈ committed, reach after records = limit := by
  have hb := recover_bounds h
  obtain ⟨-,-,-,-,-,-,-,-,-,he⟩ := recover_parts h
  intro limit hl
  obtain rfl | ⟨r,hr,rfl⟩ := ensureExactWatermark_eq_ok (he limit hl)
  · have hn : records = [] := by
      apply List.eq_nil_iff_forall_not_mem.mpr
      intro r hr
      obtain ⟨hp,hw⟩ := hb r hr
      exact Nat.not_lt_of_le (hw limit hl) hp
    rw [hn]
    rfl
  · simp [reach,hr]

theorem Finds.unique (h : Finds inputs stream after committed archived late offered floor)
    (h' : Finds inputs stream after committed archived' late' offered' floor') :
    archived' = archived ∧ late' = late ∧ offered' = offered ∧ floor' = floor := by
  obtain rfl : archived' = archived := Except.ok.inj (h'.first.symm.trans h.first)
  obtain ⟨rfl,rfl⟩ := Prod.mk.inj (Except.ok.inj (h'.offers.symm.trans h.offers))
  refine ⟨rfl,?_,rfl,rfl⟩
  have hl := h.second
  have hl' := h'.second
  by_cases ht : reach after archived' < floor'
  · rw [if_pos ht] at hl hl'
    exact Except.ok.inj (hl'.symm.trans hl)
  · rw [if_neg ht] at hl hl'
    rw [hl,hl']

theorem Finds.unbroken_iff (h : Finds inputs stream after committed archived late offered floor) :
    Unbroken (after + 1) 0 (archived ++ late) ↔
      LastLsnOnce archived ∧ LastLsnOnce late ∧ Seam archived late := by
  obtain ⟨hl,hp⟩ := archivedRecords_linked h.first
  have hf := unbroken_iff_of_linked hl fun r hr => (hp r hr).1
  have hla : Linked (saturatingAdd (reach after archived) 1) 0 late ∧
      ∀ r ∈ late, reach after archived < r.lsn := by
    have hs := h.second
    split at hs
    · obtain ⟨hl,hp⟩ := archivedRecords_linked hs
      exact ⟨hl,fun r hr => (hp r hr).1⟩
    · subst hs
      exact ⟨trivial,by simp⟩
  rw [← hf]
  constructor
  · intro ha
    have hx := (unbroken_append.mp ha).1
    exact ⟨hx,(unbroken_append_iff hx hla.1 hla.2).mp ha⟩
  · rintro ⟨hx,hre⟩
    exact (unbroken_append_iff hx hla.1 hla.2).mpr hre

/-- A successful recovery is one unbroken chain that ends at its bound exactly when its seams
hold. -/
theorem recover_spliced_iff {records : List (EncryptedRecord σ β)}
    (h : recoverWithWatermarkCertificate inputs stream after committed = .ok records) :
    Spliced after committed records ↔ Seamless inputs stream after committed := by
  have he := recover_ends h
  obtain ⟨archived,late,offered,ho,floor,hf,hw,hfl,rfl,-⟩ := recover_parts h
  obtain ⟨-,hs,-⟩ := hotOffer_sorted hf.offers
  have hre : reach after (archived ++ late) = reach (reach after archived) late :=
    reach_append after archived late
  rw [← hre] at hfl he ⊢
  have hh : Linked (saturatingAdd (reach after (archived ++ late)) 1) 0
      (ho.filter fun r => decide (reach after (archived ++ late) < r.lsn)) :=
    hw.linked.filter_gt (saturatingAdd_one_mono hfl)
  have hpa : ∀ r ∈ ho.filter fun r => decide (reach after (archived ++ late) < r.lsn),
      reach after (archived ++ late) < r.lsn := fun r hr => by
    simpa using (List.mem_filter.mp hr).2
  have hon : LastLsnOnce
      (ho.filter fun r => decide (reach after (archived ++ late) < r.lsn)) :=
    lastLsnOnce_of_sorted (hs.sublist (List.filter_sublist.trans hw.sublist))
  have hse : Seam (archived ++ late)
        (ho.filter fun r => decide (reach after (archived ++ late) < r.lsn)) ↔
      ∀ p ∈ (archived ++ late).getLast?, ∀ q, Leads offered committed floor p.lsn q →
        p.writerEpoch ≤ q.writerEpoch := by
    refine forall₂_congr fun p hp => forall_congr' fun q => ?_
    have hp' : reach after (archived ++ late) = p.lsn := by
      simp only [reach,Option.mem_def.mp hp,Option.elim_some]
    rw [← hp',Option.mem_def,head_hot_iff hw hs hfl q]
  constructor
  · intro hsp archived' late' offered' floor' hf'
    obtain ⟨rfl,rfl,rfl,rfl⟩ := hf.unique hf'
    have hx := (unbroken_append.mp hsp.unbroken).1
    obtain ⟨hfir,hl,hbet⟩ := hf.unbroken_iff.mp hx
    exact ⟨hfir,hl,hbet,
      hse.mp ((unbroken_append_iff hx hh hpa).mp hsp.unbroken).2⟩
  · intro hsea
    obtain ⟨hfir,hl,hbet,hb⟩ := hsea _ _ _ _ hf
    have hx := hf.unbroken_iff.mpr ⟨hfir,hl,hbet⟩
    exact ⟨(unbroken_append_iff hx hh hpa).mpr ⟨hon,hse.mpr hb⟩,he⟩

end Recover

def archiveOf (records : List (EncryptedRecord Nat Unit)) (first last epoch : Nat) :
    Contents Nat (Option (Nat × Nat × Nat × Segment Nat Unit)) (Segment Nat Unit)
      (Segment Nat Unit) :=
  let segment : Segment Nat Unit := ⟨0, first, last, records⟩
  let key := plainCodec.segmentKey 0 first last segment
  ⟨fun stream => if stream = 0 then some ⟨0, last, epoch, [⟨first, last, key, segment⟩]⟩ else none,
    fun k => if k = key then some segment else none⟩

def members (records : List (EncryptedRecord Nat Unit)) : Snapshots Nat Nat Unit :=
  [0, 1, 2].map fun n => (n, some ⟨records, records, []⟩)

def inputsOf (archive : Contents Nat (Option (Nat × Nat × Nat × Segment Nat Unit))
    (Segment Nat Unit) (Segment Nat Unit)) (hot : List (EncryptedRecord Nat Unit)) :
    Inputs Nat Unit Nat (Option (Nat × Nat × Nat × Segment Nat Unit)) (Segment Nat Unit)
      (Segment Nat Unit) where
  codec := plainCodec
  showError := fun _ => "archive"
  showStream := toString
  archive := archive
  lateArchive := archive
  owns := fun _ _ _ => true
  early := .ok (members hot)
  recovery := .ok (members hot)
  verify := fun _ => none

/-- One record archived and one hot. -/
theorem recover_splices_two_records :
    Spliced 0 none [recordAt 1, recordAt 2] ↔
      Seamless (inputsOf (archiveOf [recordAt 1] 1 1 1) [recordAt 2]) 0 0 none := by
  refine recover_spliced_iff ?_
  decide

/-- The archive ends with a record of epoch 5 and the members hold a committed record of epoch 3
behind it: the recovery returns both. -/
theorem recover_goes_back_in_epochs :
    recoverWithWatermarkCertificate
        (inputsOf (archiveOf [⟨0, 5, 1, 0, ()⟩] 1 1 5) [⟨0, 3, 2, 1, ()⟩]) 0 0 none =
      .ok [⟨0, 5, 1, 0, ()⟩, ⟨0, 3, 2, 1, ()⟩] ∧
    ¬ Spliced 0 none [(⟨0, 5, 1, 0, ()⟩ : EncryptedRecord Nat Unit), ⟨0, 3, 2, 1, ()⟩] := by
  refine ⟨by decide,?_⟩
  intro h
  have he := h.unbroken.2.1.2.2
  exact absurd he (by decide)

end Walleye.Recovery
