import Walleye.Archive.Linked
import Walleye.Recovery.Splice

namespace Walleye.Recovery

open Walleye.Base Walleye.Bitr Walleye.Archive
open Walleye.Engine (u64Max saturatingAdd saturatingAdd_le)

variable {σ β ν κ δ ω : Type}

def Within (committed : Option Nat) (r : EncryptedRecord σ β) : Prop :=
  ∀ limit ∈ committed, r.lsn ≤ limit

/-- Both walks over the offered records: they differ in the bound and in a record past a missing
LSN, which an ordinary recovery refuses. -/
inductive Walk (committed : Option Nat) :
    Nat → Nat → List (EncryptedRecord σ β) → List (EncryptedRecord σ β) → Prop where
  | done {expected epoch : Nat} : Walk committed expected epoch [] []
  | skip {expected epoch : Nat} {r : EncryptedRecord σ β} {rest tail} :
      r.lsn < expected → Walk committed expected epoch rest tail →
        Walk committed expected epoch (r :: rest) tail
  | stop {expected epoch : Nat} {r : EncryptedRecord σ β} {rest} :
      expected ≤ r.lsn →
      ¬ (r.lsn = expected ∧ r.committedLsn = expected - 1 ∧ epoch ≤ r.writerEpoch ∧
        Within committed r) →
        Walk committed expected epoch (r :: rest) []
  | take {expected epoch : Nat} {r : EncryptedRecord σ β} {rest tail} :
      r.lsn = expected → r.committedLsn = expected - 1 → epoch ≤ r.writerEpoch →
      Within committed r → Walk committed (saturatingAdd expected 1) r.writerEpoch rest tail →
        Walk committed expected epoch (r :: rest) (r :: tail)

theorem walk_of_ordinaryWalk
    (h : ordinaryWalk expected epoch offered = .ok tail) : Walk none expected epoch offered tail := by
  induction offered generalizing expected epoch tail with
  | nil =>
    cases h
    exact .done
  | cons r rest ih =>
    unfold ordinaryWalk at h
    split at h
    · rename_i hl
      exact .skip hl (ih h)
    · rename_i hg
      simp only [guard_ok,ne_eq,not_not] at h
      obtain ⟨hls,h⟩ := h
      split at h
      · rename_i hb
        cases h
        refine .stop (Nat.le_of_not_lt hg) ?_
        rintro ⟨-,hc,he,-⟩
        exact hb.elim (absurd hc) (Nat.not_lt_of_le he)
      · rename_i hcon
        simp only [not_or,not_not,Nat.not_lt] at hcon
        cases hr : ordinaryWalk (saturatingAdd expected 1) r.writerEpoch rest with
        | error e => simp [hr,Except.map] at h
        | ok more =>
          simp only [hr,Except.map,Except.ok.injEq] at h
          subst h
          exact .take hls hcon.1 hcon.2 (by simp [Within]) (ih hr)

theorem walk_of_certifiedWalk (committed expected epoch : Nat)
    (offered : List (EncryptedRecord σ β)) :
    Walk (some committed) expected epoch offered
      (certifiedWalk committed expected epoch offered) := by
  induction offered generalizing expected epoch with
  | nil => exact .done
  | cons r rest ih =>
    unfold certifiedWalk
    split
    · rename_i hl
      exact .skip hl (ih expected epoch)
    · rename_i hg
      split
      · rename_i hb
        refine .stop (Nat.le_of_not_lt hg) ?_
        rintro ⟨hls,hc,he,hw⟩
        have := hw committed rfl
        omega
      · rename_i hcon
        simp only [not_or,not_not,Nat.not_lt,ne_eq] at hcon
        obtain ⟨hls,hle,hc,he⟩ := hcon
        refine .take hls hc he ?_ (ih _ _)
        simpa [Within] using hle

section Walk

variable {committed : Option Nat}
  {offered tail : List (EncryptedRecord σ β)}

theorem Walk.linked (h : Walk committed expected epoch offered tail) :
    Linked expected epoch tail := by
  induction h with
  | done => trivial
  | skip _ _ ih => exact ih
  | stop _ _ => trivial
  | take hl hc he _ _ ih => exact ⟨⟨hl,hc,he⟩,ih⟩

theorem Walk.sublist (h : Walk committed expected epoch offered tail) : tail.Sublist offered := by
  induction h with
  | done => exact .slnil
  | skip _ _ ih => exact ih.cons _
  | stop _ _ => exact List.nil_sublist _
  | take _ _ _ _ _ ih => exact ih.cons_cons _

theorem Walk.within (h : Walk committed expected epoch offered tail) :
    ∀ r ∈ tail, Within committed r := by
  induction h with
  | done => simp
  | skip _ _ ih => exact ih
  | stop _ _ => simp
  | take _ _ _ hw _ ih => exact List.forall_mem_cons.mpr ⟨hw,ih⟩

/-- A walk over distinct LSNs misses nothing that is linked. At the last LSN a linked list may
repeat itself, and then it repeats the record just taken. -/
theorem Walk.mem_of_linked (h : Walk committed expected epoch offered tail)
    (hm : expected ≤ u64Max) (hs : offered.Pairwise (·.lsn < ·.lsn))
    (hch : Archive.Linked expected epoch chain)
    (hsu : ∀ r ∈ chain, r ∈ offered ∧ Within committed r) : ∀ r ∈ chain, r ∈ tail := by
  induction h generalizing chain with
  | done => exact fun r hr => (hsu r hr).1
  | @skip expected epoch x rest tail hl _ ih =>
    refine ih hm (List.pairwise_cons.mp hs).2 hch ?_
    intro r hr
    obtain ⟨hme,hw⟩ := hsu r hr
    refine ⟨(List.mem_cons.mp hme).resolve_left ?_,hw⟩
    rintro rfl
    exact Nat.not_lt_of_le (hch.bounds hm r hr).1 hl
  | @stop expected epoch x rest hg hb =>
    cases chain with
    | nil => simp
    | cons c cs =>
      obtain ⟨⟨hls,hco,he⟩,-⟩ := hch
      obtain ⟨hme,hw⟩ := hsu c List.mem_cons_self
      obtain rfl | hme := List.mem_cons.mp hme
      · exact absurd ⟨hls,hco,he,hw⟩ hb
      · have := (List.pairwise_cons.mp hs).1 c hme
        omega
  | @take expected epoch x rest tail hls hco he hw hwa ih =>
    obtain ⟨hlat,hre⟩ := List.pairwise_cons.mp hs
    cases chain with
    | nil => simp
    | cons c cs =>
      obtain ⟨⟨hc,-,hcE⟩,hcs⟩ := hch
      obtain ⟨hme,-⟩ := hsu c List.mem_cons_self
      have hcx : c = x := by
        refine (List.mem_cons.mp hme).resolve_right ?_
        intro hc'
        have := hlat c hc'
        omega
      subst hcx
      have hn := saturatingAdd_le expected 1
      by_cases hrep : c ∈ cs
      · have hla : expected = u64Max := by
          have := (hcs.bounds hn c hrep).1
          unfold saturatingAdd at this
          omega
        intro r hr
        obtain ⟨hr',-⟩ := hsu r hr
        obtain rfl | hr' := List.mem_cons.mp hr'
        · exact List.mem_cons_self
        · have := hlat r hr'
          obtain rfl | hr := List.mem_cons.mp hr
          · exact List.mem_cons_self
          · have := (hcs.bounds hn r hr).2
            omega
      · intro r hr
        obtain rfl | hr := List.mem_cons.mp hr
        · exact List.mem_cons_self
        · refine List.mem_cons_of_mem _ (ih hn hre hcs ?_ r hr)
          intro q hq
          obtain ⟨hq',hqw⟩ := hsu q (List.mem_cons_of_mem _ hq)
          refine ⟨(List.mem_cons.mp hq').resolve_left ?_,hqw⟩
          rintro rfl
          exact hrep hq

end Walk

theorem dedupAfter_spec (records : List (EncryptedRecord σ β)) (r : EncryptedRecord σ β)
    (hs : (r :: records).Pairwise (·.lsn ≤ ·.lsn)) :
    (dedupAfter r records).Sublist (r :: records) ∧
      (dedupAfter r records).Pairwise (·.lsn < ·.lsn) ∧
      ∀ q ∈ dedupAfter r records, r.lsn ≤ q.lsn := by
  induction records generalizing r with
  | nil => simp [dedupAfter]
  | cons x rest ih =>
    obtain ⟨hl,hr⟩ := List.pairwise_cons.mp hs
    unfold dedupAfter
    split
    · rename_i hsa
      have hs' : (r :: rest).Pairwise (·.lsn ≤ ·.lsn) :=
        hs.sublist ((List.sublist_cons_self x rest).cons_cons r)
      obtain ⟨hsu,hst,hg⟩ := ih r hs'
      exact ⟨hsu.trans ((List.sublist_cons_self x rest).cons_cons r),hst,hg⟩
    · rename_i ho
      obtain ⟨hsu,hst,hg⟩ := ih x hr
      have hrx : r.lsn < x.lsn := by
        have := hl x List.mem_cons_self
        omega
      refine ⟨hsu.cons_cons r,List.pairwise_cons.mpr ⟨?_,hst⟩,?_⟩
      · exact fun q hq => Nat.lt_of_lt_of_le hrx (hg q hq)
      · intro q hq
        obtain rfl | hq := List.mem_cons.mp hq
        · exact Nat.le_refl _
        · exact Nat.le_trans (Nat.le_of_lt hrx) (hg q hq)

theorem dedupByLsn_spec {records : List (EncryptedRecord σ β)}
    (hso : records.Pairwise (·.lsn ≤ ·.lsn)) :
    (dedupByLsn records).Sublist records ∧ (dedupByLsn records).Pairwise (·.lsn < ·.lsn) := by
  cases records with
  | nil => simp [dedupByLsn]
  | cons r rest =>
    obtain ⟨hs,hst,-⟩ := dedupAfter_spec rest r hso
    exact ⟨hs,hst⟩

section Offers

variable [DecidableEq ν] [DecidableEq σ] [DecidableEq β] {snapshots : Snapshots ν σ β} {stream : σ}

theorem mem_candidatesOf (h : r ∈ candidatesOf owns snapshots stream) :
    r ∈ shown owns snapshots stream ∧ eligible owns snapshots r = true ∧
      ∀ q ∈ shown owns snapshots stream, q.lsn = r.lsn →
        eligible owns snapshots q = true → q = r := by
  rw [candidatesOf,mem_sortByLsn,List.mem_filter,List.mem_dedup] at h
  simpa only [Bool.and_eq_true,List.all_eq_true,decide_eq_true_eq] using h

theorem candidatesOf_sorted : (candidatesOf owns snapshots stream).Pairwise (·.lsn < ·.lsn) := by
  have hs := sortByLsn_sorted ((shown owns snapshots stream).dedup.filter fun r =>
    eligible owns snapshots r && (shown owns snapshots stream).all fun q =>
      decide (q.lsn = r.lsn → eligible owns snapshots q = true → q = r))
  have hn : (candidatesOf owns snapshots stream).Nodup :=
    (List.perm_insertionSort _ _).nodup_iff.mpr ((List.nodup_dedup _).filter _)
  refine List.Pairwise.imp_of_mem ?_ (hs.and hn)
  intro r q hr hq hrq
  have hne : r.lsn ≠ q.lsn := fun he =>
    hrq.2 ((mem_candidatesOf hq).2.2 r (mem_candidatesOf hr).1 he (mem_candidatesOf hr).2.1)
  exact Nat.lt_of_le_of_ne hrq.1 hne

variable {inputs : Inputs σ β ν κ δ ω}

def hotOffer (inputs : Inputs σ β ν κ δ ω) (stream : σ) (after : Nat) :
    Option Nat → Except ReplicaError (Nat × List (EncryptedRecord σ β))
  | none => inputs.early.map (ordinaryOffer inputs stream after)
  | some committed => inputs.early.bind fun early =>
      inputs.recovery.map (certifiedOffer inputs stream after committed early)

/-- The hot candidates ascend from the trim floor. -/
theorem hotOffer_sorted (h : hotOffer inputs stream after committed = .ok (floor,offered)) :
    after ≤ floor ∧ offered.Pairwise (·.lsn < ·.lsn) ∧ ∀ r ∈ offered, floor < r.lsn := by
  cases committed with
  | none =>
    simp only [hotOffer] at h
    cases he : inputs.early with
    | error e => simp [he,Except.map] at h
    | ok snapshots =>
      simp only [he,Except.map,ordinaryOffer,Except.ok.injEq,Prod.mk.injEq] at h
      obtain ⟨rfl,rfl⟩ := h
      refine ⟨Nat.le_max_left _ _,candidatesOf_sorted.sublist List.filter_sublist,?_⟩
      intro r hr
      simpa using (List.mem_filter.mp hr).2
  | some limit =>
    obtain ⟨early,-,h⟩ := Except.bind_eq_ok.mp h
    cases hre : inputs.recovery with
    | error e => simp [hre,Except.map] at h
    | ok recovery =>
      simp only [hre,Except.map,certifiedOffer,Except.ok.injEq,Prod.mk.injEq] at h
      obtain ⟨rfl,rfl⟩ := h
      obtain ⟨hs,hst⟩ := dedupByLsn_spec (sortByLsn_sorted
        ((candidatesOf inputs.owns early stream).filter (fun r =>
            decide (trimmedFloor stream after (some limit) recovery < r.lsn)) ++
          watermarkCandidates inputs.owns recovery stream
            (trimmedFloor stream after (some limit) recovery) limit))
      refine ⟨Nat.le_max_left _ _,hst,?_⟩
      intro r hr
      obtain hr | hr := List.mem_append.mp (mem_sortByLsn.mp (hs.subset hr))
      · simpa using (List.mem_filter.mp hr).2
      · simp only [watermarkCandidates,mem_sortByLsn,List.mem_filter,List.mem_dedup,
          Bool.and_eq_true,decide_eq_true_eq] at hr
        exact hr.1.2.1.1.1

/-- The hot tail is a walk over the candidates. -/
theorem recoverHotTail_walk (h : recoverHotTail inputs stream after committed = .ok (ho,floor)) :
    ∃ offered, hotOffer inputs stream after committed = .ok (floor,offered) ∧
      Walk committed (saturatingAdd floor 1) 0 offered ho := by
  cases committed with
  | none =>
    obtain ⟨snapshots,he,h⟩ := Except.bind_eq_ok.mp h
    simp only [ordinaryOffer] at h
    split at h
    · cases h
    · cases hw : ordinaryWalk
          (saturatingAdd (trimmedFloor stream after none snapshots) 1) 0
          ((candidatesOf inputs.owns snapshots stream).filter fun r =>
            decide (trimmedFloor stream after none snapshots < r.lsn)) with
      | error e => simp [hw,Except.map] at h
      | ok tail =>
        simp only [hw,Except.map,Except.ok.injEq,Prod.mk.injEq] at h
        obtain ⟨rfl,rfl⟩ := h
        exact ⟨_,by simp [hotOffer,he,Except.map,ordinaryOffer],walk_of_ordinaryWalk hw⟩
  | some limit =>
    simp only [recoverHotTail,guard_ok] at h
    obtain ⟨-,h⟩ := h
    obtain ⟨early,he,h⟩ := Except.bind_eq_ok.mp h
    obtain ⟨recovery,hr,h⟩ := Except.bind_eq_ok.mp h
    obtain ⟨-,-,h⟩ := Except.bind_eq_ok.mp h
    have hof : hotOffer inputs stream after (some limit) =
        .ok (certifiedOffer inputs stream after limit early recovery) := by
      simp [hotOffer,he,hr,Except.map,Except.bind]
    have hp : ho = certifiedWalk limit
          (saturatingAdd (certifiedOffer inputs stream after limit early recovery).1 1) 0
          (certifiedOffer inputs stream after limit early recovery).2 ∧
        floor = (certifiedOffer inputs stream after limit early recovery).1 := by
      split at h
      · cases h
        exact ⟨rfl,rfl⟩
      · split at h
        · cases h
          exact ⟨rfl,rfl⟩
        · split at h
          · cases h
          · rename_i result _
            cases result with
            | error e => simp [Except.map] at h
            | ok _ =>
              cases h
              exact ⟨rfl,rfl⟩
    obtain ⟨rfl,rfl⟩ := hp
    exact ⟨_,hof,walk_of_certifiedWalk _ _ _ _⟩

end Offers

end Walleye.Recovery
