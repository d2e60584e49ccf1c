import Mathlib.Data.List.Sort
import Walleye.Bitr.Record
import Walleye.Engine.Arrival

namespace Walleye.Bitr

open Walleye.Base
open Walleye.Engine (u64Max saturatingAdd)

def checkedAdd (a b : Nat) : Option Nat := if a + b ≤ u64Max then some (a + b) else none

structure SealedBody (ν χ θ : Type) where
  nonce : ν
  ciphertext : χ
  authentication : θ
deriving DecidableEq, Repr

structure AppendRecord (σ π : Type) where
  stream : σ
  writerEpoch : Nat
  lsn : Nat
  committedLsn : Nat
  payload : π
deriving DecidableEq, Repr

inductive ClientError (σ : Type) where
  | protocol (message : String)
  | encryption
  | recoveryGap (expectedLsn receivedLsn : Nat)
  | recoveryStreamMismatch (expectedStream receivedStream : σ)
  | invalidWatermark (lsn committedLsn : Nat)
  | recoveryIncomplete (expectedLsn committedLsn : Nat)
deriving DecidableEq, Repr

/-- Cipher and authentication code under one key. The cipher is ideal: what opens under a nonce is
what the payload is sealed to. -/
structure Crypto (σ π ν χ θ : Type) where
  size : π → Nat
  nonce : AppendRecord σ π → ν
  encrypt : ν → π → χ
  decrypt : ν → χ → Option π
  mac : σ → Nat → Nat → Nat → χ → θ
  decrypt_eq_some : ∀ nonce ciphertext payload,
    decrypt nonce ciphertext = some payload ↔ ciphertext = encrypt nonce payload

def maxEncryptedRecordPlaintextBytes : Nat := 8 * 1024 * 1024 - 16

section Model

variable {σ π ν χ θ : Type} [DecidableEq σ] [DecidableEq θ] (c : Crypto σ π ν χ θ)

def Crypto.sealRecord (record : AppendRecord σ π) :
    Except (ClientError σ) (EncryptedRecord σ (SealedBody ν χ θ)) :=
  if maxEncryptedRecordPlaintextBytes < c.size record.payload then
    .error (.protocol "append payload exceeds encrypted record plaintext limit")
  else
    let nonce := c.nonce record
    let ciphertext := c.encrypt nonce record.payload
    .ok ⟨record.stream, record.writerEpoch, record.lsn, record.committedLsn, nonce, ciphertext,
      c.mac record.stream record.writerEpoch record.lsn record.committedLsn ciphertext⟩

def Crypto.openRecord (record : EncryptedRecord σ (SealedBody ν χ θ)) :
    Except (ClientError σ) (AppendRecord σ π) :=
  if c.mac record.stream record.writerEpoch record.lsn record.committedLsn
      record.body.ciphertext ≠ record.body.authentication then .error .encryption
  else match c.decrypt record.body.nonce record.body.ciphertext with
    | some payload =>
      .ok ⟨record.stream, record.writerEpoch, record.lsn, record.committedLsn, payload⟩
    | none => .error .encryption

def Crypto.openChain (stream : σ) : Option Nat → List (EncryptedRecord σ (SealedBody ν χ θ)) →
    Except (ClientError σ) (List (AppendRecord σ π) × Option Nat)
  | expected, [] => .ok ([], expected)
  | none, record :: _ => .error (.recoveryGap u64Max record.lsn)
  | some expected, record :: rest =>
    if record.stream ≠ stream then .error (.recoveryStreamMismatch stream record.stream)
    else if record.lsn ≠ expected then .error (.recoveryGap expected record.lsn)
    else if record.committedLsn ≠ expected - 1 then
      .error (.invalidWatermark record.lsn record.committedLsn)
    else do
      let plain ← c.openRecord record
      let (recovered, next) ← openChain stream (checkedAdd expected 1) rest
      .ok (plain :: recovered, next)

def endsAt (afterLsn committedLsn : Nat) (recovered : List (AppendRecord σ π)) : Bool :=
  if committedLsn = afterLsn then recovered.isEmpty
  else recovered.getLast?.any fun record => decide (record.lsn = committedLsn)

/-- Validates, authenticates, and decrypts a gateway's recovery response. -/
def Crypto.decryptRecovery (stream : σ) (afterLsn : Nat) (committedLsn : Option Nat)
    (records : List (EncryptedRecord σ (SealedBody ν χ θ))) :
    Except (ClientError σ) (List (AppendRecord σ π)) :=
  match committedLsn with
  | none => do
    let (recovered, _) ← c.openChain stream (checkedAdd afterLsn 1)
      (records.insertionSort (·.lsn ≤ ·.lsn))
    .ok recovered
  | some committedLsn =>
    if committedLsn < afterLsn then
      .error (.recoveryIncomplete (saturatingAdd afterLsn 1) committedLsn)
    else do
      let (recovered, expected) ← c.openChain stream (checkedAdd afterLsn 1)
        (records.insertionSort (·.lsn ≤ ·.lsn))
      if endsAt afterLsn committedLsn recovered then .ok recovered
      else .error (.recoveryIncomplete (expected.getD u64Max) committedLsn)

end Model

variable {σ π ν χ θ : Type}

section Spec

variable (c : Crypto σ π ν χ θ)

structure Crypto.Opens (r : EncryptedRecord σ (SealedBody ν χ θ)) (p : AppendRecord σ π) :
    Prop where
  stream : p.stream = r.stream
  writerEpoch : p.writerEpoch = r.writerEpoch
  lsn : p.lsn = r.lsn
  committedLsn : p.committedLsn = r.committedLsn
  authentic : c.mac r.stream r.writerEpoch r.lsn r.committedLsn r.body.ciphertext =
    r.body.authentication
  payload : r.body.ciphertext = c.encrypt r.body.nonce p.payload

/-- One record for each LSN after `afterLsn`, in any order, each of the stream, authentic and naming
its predecessor; the last one is at the watermark. -/
structure Crypto.ExactTail (stream : σ) (afterLsn : Nat) (committedLsn : Option Nat)
    (records : List (EncryptedRecord σ (SealedBody ν χ θ))) : Prop where
  stream : ∀ r ∈ records, r.stream = stream
  lsns : (records.map (·.lsn)).Perm (List.range' (afterLsn + 1) records.length)
  linked : ∀ r ∈ records, r.committedLsn = r.lsn - 1
  authentic : ∀ r ∈ records, ∃ p, c.Opens r p
  ends : ∀ w ∈ committedLsn, w = afterLsn + records.length

def EpochsKept {β : Type} (records : List (EncryptedRecord σ β)) : Prop :=
  ∀ r ∈ records, ∀ q ∈ records, r.lsn < q.lsn → r.writerEpoch ≤ q.writerEpoch

structure Linked {β : Type} (stream : σ) (afterLsn : Nat) (rs : List (EncryptedRecord σ β)) :
    Prop where
  stream : ∀ r ∈ rs, r.stream = stream
  lsns : rs.map (·.lsn) = List.range' (afterLsn + 1) rs.length
  linked : ∀ r ∈ rs, r.committedLsn = r.lsn - 1

variable {c} {stream : σ} {committedLsn : Option Nat}
  {records rs : List (EncryptedRecord σ (SealedBody ν χ θ))}

theorem linked_cons :
    Linked stream afterLsn (r :: rs) ↔ r.stream = stream ∧ r.lsn = afterLsn + 1 ∧
      r.committedLsn = afterLsn ∧ Linked stream (afterLsn + 1) rs := by
  constructor
  · rintro ⟨hs,hlsn,hl⟩
    simp only [List.map_cons,List.length_cons,List.range'_succ,List.cons.injEq] at hlsn
    obtain ⟨hls,hr⟩ := hlsn
    have hc := hl r List.mem_cons_self
    exact ⟨hs r List.mem_cons_self,hls,by omega,
      fun q hq => hs q (List.mem_cons_of_mem _ hq),hr,
      fun q hq => hl q (List.mem_cons_of_mem _ hq)⟩
  · rintro ⟨hs,hls,hc,hr⟩
    refine ⟨?_,?_,?_⟩
    · intro q hq
      rcases List.mem_cons.mp hq with rfl | hq
      · exact hs
      · exact hr.stream q hq
    · simp only [List.map_cons,List.length_cons,List.range'_succ,hls,hr.lsns]
    · intro q hq
      rcases List.mem_cons.mp hq with rfl | hq
      · omega
      · exact hr.linked q hq

theorem Crypto.openRecord_eq_ok [DecidableEq θ] : c.openRecord r = .ok p ↔ c.Opens r p := by
  unfold Crypto.openRecord
  constructor
  · intro h
    rw [guard_ok,not_not] at h
    obtain ⟨hm,h⟩ := h
    split at h
    · rename_i payload ho
      cases h
      exact ⟨rfl,rfl,rfl,rfl,hm,(c.decrypt_eq_some ..).mp ho⟩
    · cases h
  · rintro ⟨hs,he,hl,hc,hm,hp⟩
    have ho : c.decrypt r.body.nonce r.body.ciphertext = some p.payload :=
      (c.decrypt_eq_some ..).mpr hp
    rw [if_neg (not_not.mpr hm),ho]
    cases p
    cases hs
    cases he
    cases hl
    cases hc
    rfl

theorem linked_insertionSort :
    Linked stream afterLsn (records.insertionSort (·.lsn ≤ ·.lsn)) ↔
      (∀ r ∈ records, r.stream = stream) ∧
      (records.map (·.lsn)).Perm (List.range' (afterLsn + 1) records.length) ∧
      ∀ r ∈ records, r.committedLsn = r.lsn - 1 := by
  have hp : (records.insertionSort (·.lsn ≤ ·.lsn)).Perm records := List.perm_insertionSort ..
  constructor
  · rintro ⟨hs,hl,hli⟩
    refine ⟨fun r hr => hs r (hp.mem_iff.mpr hr),?_,
      fun r hr => hli r (hp.mem_iff.mpr hr)⟩
    rw [← hp.length_eq,← hl]
    exact (hp.map _).symm
  · rintro ⟨hs,hl,hli⟩
    refine ⟨fun r hr => hs r (hp.mem_iff.mp hr),?_,
      fun r hr => hli r (hp.mem_iff.mp hr)⟩
    rw [hp.length_eq]
    have hso : ((records.insertionSort (·.lsn ≤ ·.lsn)).map (·.lsn)).Pairwise (· ≤ ·) := by
      rw [List.pairwise_map]
      exact List.pairwise_insertionSort (·.lsn ≤ ·.lsn) records
    have hra : (List.range' (afterLsn + 1) records.length).Pairwise (· ≤ ·) :=
      (List.pairwise_lt_range' ..).imp Nat.le_of_lt
    exact ((hp.map _).trans hl).eq_of_pairwise' hso hra

theorem Linked.recovered_lsns (h : Linked stream afterLsn rs)
    (ha : List.Forall₂ c.Opens rs recovered) :
    recovered.map (·.lsn) = List.range' (afterLsn + 1) rs.length := by
  rw [← h.lsns]
  clear h
  induction ha with
  | nil => rfl
  | cons hp _ ih => rw [List.map_cons,List.map_cons,hp.lsn,ih]

/-- A linked chain ends at the watermark exactly when its length says so. -/
theorem Linked.endsAt (h : Linked stream afterLsn rs) (ha : List.Forall₂ c.Opens rs recovered)
    : endsAt afterLsn w recovered = true ↔ w = afterLsn + rs.length := by
  have hls := h.recovered_lsns ha
  have hle : recovered.length = rs.length := ha.length_eq.symm
  unfold Bitr.endsAt
  split
  · rw [List.isEmpty_iff,← List.length_eq_zero_iff]
    omega
  · have hla := congrArg List.getLast? hls
    rw [List.getLast?_map,List.getLast?_range'] at hla
    cases hl : recovered.getLast? with
    | none =>
      have hn : recovered = [] := List.getLast?_eq_none_iff.mp hl
      subst hn
      simp only [List.length_nil] at hle
      simp only [Option.any_none,Bool.false_eq_true,false_iff]
      omega
    | some p =>
      rw [hl] at hla
      simp only [Option.any_some,decide_eq_true_eq]
      split at hla
      · cases hla
      · simp only [Option.map_some,Option.some.injEq] at hla
        omega

theorem Crypto.sealRecord_opens (h : c.sealRecord p = .ok r) : c.Opens r p := by
  unfold Crypto.sealRecord at h
  rw [guard_ok] at h
  obtain ⟨-,h⟩ := h
  cases h
  exact ⟨rfl,rfl,rfl,rfl,rfl,rfl⟩

variable [DecidableEq σ] [DecidableEq θ]

/-- A chain opens exactly when it is linked and each record opens. -/
theorem Crypto.openChain_eq_ok (hb : ∀ r ∈ rs, r.lsn ≤ u64Max) :
    c.openChain stream (checkedAdd afterLsn 1) rs = .ok (recovered,next) ↔
      Linked stream afterLsn rs ∧ List.Forall₂ c.Opens rs recovered ∧
        next = checkedAdd (afterLsn + rs.length) 1 := by
  induction rs generalizing afterLsn recovered with
  | nil =>
    simp only [openChain,Except.ok.injEq,Prod.mk.injEq,List.forall₂_nil_left_iff,
      List.length_nil,Nat.add_zero]
    constructor
    · rintro ⟨rfl,rfl⟩
      exact ⟨⟨by simp,by simp,by simp⟩,rfl,rfl⟩
    · rintro ⟨-,rfl,rfl⟩
      exact ⟨rfl,rfl⟩
  | cons r rest ih =>
    have hre := fun q hq => hb q (List.mem_cons_of_mem r hq)
    have hr := hb r List.mem_cons_self
    have hl : afterLsn + (r :: rest).length = afterLsn + 1 + rest.length := by
      simp only [List.length_cons]
      omega
    rw [linked_cons,hl]
    by_cases hm : afterLsn + 1 ≤ u64Max
    · have he : checkedAdd afterLsn 1 = some (afterLsn + 1) := if_pos hm
      rw [he,openChain]
      simp only [guard_ok,not_not,Nat.add_sub_cancel]
      constructor
      · rintro ⟨hs,hls,hc,h⟩
        obtain ⟨p,hp,h⟩ := Except.bind_eq_ok.mp h
        obtain ⟨⟨recovered',next'⟩,hch,h⟩ := Except.bind_eq_ok.mp h
        cases h
        obtain ⟨hli,ha,hn⟩ := (ih hre).mp hch
        exact ⟨⟨hs,hls,hc,hli⟩,.cons (openRecord_eq_ok.mp hp) ha,hn⟩
      · rintro ⟨⟨hs,hls,hc,hli⟩,ha,hn⟩
        cases ha with
        | cons hp ha =>
          refine ⟨hs,hls,hc,?_⟩
          rw [openRecord_eq_ok.mpr hp]
          simp only [bind,Except.bind]
          rw [(ih hre).mpr ⟨hli,ha,hn⟩]
    · have he : checkedAdd afterLsn 1 = none := if_neg hm
      rw [he,openChain]
      constructor
      · intro h
        cases h
      · rintro ⟨⟨-,hls,-⟩,-⟩
        omega

/-- A response decrypts exactly when its sorted records are a chain up to the watermark. -/
theorem Crypto.decryptRecovery_eq_ok (hb : ∀ r ∈ records, r.lsn ≤ u64Max) :
    c.decryptRecovery stream afterLsn committedLsn records = .ok recovered ↔
      Linked stream afterLsn (records.insertionSort (·.lsn ≤ ·.lsn)) ∧
        List.Forall₂ c.Opens (records.insertionSort (·.lsn ≤ ·.lsn)) recovered ∧
        ∀ w ∈ committedLsn, w = afterLsn + records.length := by
  have hp : (records.insertionSort (·.lsn ≤ ·.lsn)).Perm records := List.perm_insertionSort ..
  have hs : ∀ r ∈ records.insertionSort (·.lsn ≤ ·.lsn), r.lsn ≤ u64Max :=
    fun r hr => hb r (hp.mem_iff.mp hr)
  unfold Crypto.decryptRecovery
  cases committedLsn with
  | none =>
    simp only [Option.mem_def,reduceCtorEq,false_implies,implies_true,and_true]
    constructor
    · intro h
      obtain ⟨⟨recovered',next⟩,hc,h⟩ := Except.bind_eq_ok.mp h
      cases h
      obtain ⟨hl,ha,-⟩ := (openChain_eq_ok hs).mp hc
      exact ⟨hl,ha⟩
    · rintro ⟨hl,ha⟩
      have hc := (openChain_eq_ok hs).mpr ⟨hl,ha,rfl⟩
      exact Except.bind_eq_ok.mpr ⟨_,hc,rfl⟩
  | some w =>
    simp only [Option.mem_def,Option.some.injEq,forall_eq',guard_ok]
    constructor
    · rintro ⟨hw,h⟩
      obtain ⟨⟨recovered',next⟩,hc,h⟩ := Except.bind_eq_ok.mp h
      obtain ⟨hl,ha,-⟩ := (openChain_eq_ok hs).mp hc
      dsimp only at h
      split at h
      · rename_i he
        cases h
        have hla := (hl.endsAt ha).mp he
        rw [hp.length_eq] at hla
        exact ⟨hl,ha,hla⟩
      · cases h
    · rintro ⟨hl,ha,rfl⟩
      have hc := (openChain_eq_ok hs).mpr ⟨hl,ha,rfl⟩
      have he := (hl.endsAt ha).mpr (congrArg (afterLsn + ·) hp.length_eq.symm)
      refine ⟨by omega,Except.bind_eq_ok.mpr ⟨_,hc,?_⟩⟩
      dsimp only
      rw [if_pos he]

theorem Crypto.decryptRecovery_ok_iff (hb : ∀ r ∈ records, r.lsn ≤ u64Max) :
    (∃ recovered, c.decryptRecovery stream afterLsn committedLsn records = .ok recovered) ↔
      c.ExactTail stream afterLsn committedLsn records := by
  have hm : ∀ r, r ∈ records.insertionSort (·.lsn ≤ ·.lsn) ↔ r ∈ records :=
    fun r => List.mem_insertionSort _
  simp only [decryptRecovery_eq_ok hb]
  constructor
  · rintro ⟨recovered,hl,ha,he⟩
    obtain ⟨hs,hls,hc⟩ := linked_insertionSort.mp hl
    refine ⟨hs,hls,hc,?_,he⟩
    intro r hr
    obtain ⟨i,hi,rfl⟩ := List.getElem_of_mem ((hm r).mpr hr)
    exact ⟨_,ha.get hi (ha.length_eq ▸ hi)⟩
  · rintro ⟨hs,hls,hc,hau,he⟩
    have hpl : ∀ rs : List (EncryptedRecord σ (SealedBody ν χ θ)),
        (∀ r ∈ rs, ∃ p, c.Opens r p) → ∃ recovered, List.Forall₂ c.Opens rs recovered := by
      intro rs
      induction rs with
      | nil => exact fun _ => ⟨[],.nil⟩
      | cons r rest ih =>
        intro hrs
        obtain ⟨p,hp⟩ := hrs r List.mem_cons_self
        obtain ⟨recovered,ha⟩ := ih fun q hq => hrs q (List.mem_cons_of_mem r hq)
        exact ⟨p :: recovered,.cons hp ha⟩
    obtain ⟨recovered,ha⟩ := hpl _ fun r hr => hau r ((hm r).mp hr)
    exact ⟨recovered,linked_insertionSort.mpr ⟨hs,hls,hc⟩,ha,he⟩

/-- The check is exact unless an exact tail has an epoch that goes back. It returns the records of
the response, opened, in LSN order. -/
theorem Crypto.recovery_check_is_exact (hbound : ∀ r ∈ records, r.lsn ≤ u64Max) :
    (((∃ recovered, c.decryptRecovery stream afterLsn committedLsn records = .ok recovered) ↔
        c.ExactTail stream afterLsn committedLsn records ∧ EpochsKept records) ↔
      (c.ExactTail stream afterLsn committedLsn records → EpochsKept records)) ∧
    ∀ recovered, c.decryptRecovery stream afterLsn committedLsn records = .ok recovered →
      recovered.map (·.lsn) = List.range' (afterLsn + 1) records.length ∧
      ∃ rs, rs.Perm records ∧ List.Forall₂ c.Opens rs recovered := by
  constructor
  · rw [decryptRecovery_ok_iff hbound]
    tauto
  · intro recovered h
    obtain ⟨hl,ha,-⟩ := (decryptRecovery_eq_ok hbound).mp h
    have hp := List.perm_insertionSort (·.lsn ≤ ·.lsn) records
    refine ⟨?_,_,hp,ha⟩
    rw [hl.recovered_lsns ha,hp.length_eq]

/-- What a writer sealed comes back from its records in any order. -/
theorem Crypto.decryptRecovery_sealed (hs : List.Forall₂ (c.sealRecord · = .ok ·) sent rs)
    (hl : Linked stream afterLsn rs) (hb : ∀ r ∈ rs, r.lsn ≤ u64Max) (hr : records.Perm rs)
    (hw : ∀ w ∈ committedLsn, w = afterLsn + rs.length) :
    c.decryptRecovery stream afterLsn committedLsn records = .ok sent := by
  have ho : List.Forall₂ c.Opens rs sent := hs.flip.imp fun _ _ => sealRecord_opens
  have hlt : (rs.map (·.lsn)).Pairwise (· < ·) := hl.lsns ▸ List.pairwise_lt_range' ..
  have hso : records.insertionSort (·.lsn ≤ ·.lsn) = rs := by
    have hp := (List.perm_insertionSort (·.lsn ≤ ·.lsn) records).trans hr
    refine hp.eq_of_pairwise (fun a b ha hb hab hba => ?_) (List.pairwise_insertionSort ..)
      ((List.pairwise_map.mp hlt).imp Nat.le_of_lt)
    exact List.inj_on_of_nodup_map (hlt.imp Nat.ne_of_lt) (hp.mem_iff.mp ha) hb
      (hab.antisymm hba)
  rw [decryptRecovery_eq_ok fun r h => hb r (hr.mem_iff.mp h),hso,hr.length_eq]
  exact ⟨hl,ho,hw⟩

end Spec

section Runs

def Crypto.plain : Crypto Nat Nat Unit Nat (Nat × Nat × Nat × Nat × Nat) where
  size _ := 8
  nonce _ := ()
  encrypt _ payload := payload
  decrypt _ ciphertext := some ciphertext
  mac stream writerEpoch lsn committedLsn ciphertext :=
    (stream, writerEpoch, lsn, committedLsn, ciphertext)
  decrypt_eq_some _ ciphertext payload := by
    rw [Option.some.injEq]

def plainRecord (writerEpoch lsn : Nat) :
    EncryptedRecord Nat (SealedBody Unit Nat (Nat × Nat × Nat × Nat × Nat)) :=
  ⟨7, writerEpoch, lsn, lsn - 1, (), lsn, 7, writerEpoch, lsn, lsn - 1, lsn⟩

/-- A response that is out of order but complete. -/
theorem Crypto.recovery_check_of_shuffled_tail :
    plain.ExactTail 7 4 (some 6) [plainRecord 2 6, plainRecord 1 5] ∧
      EpochsKept [plainRecord 2 6, plainRecord 1 5] := by
  have hb : ∀ r ∈ [plainRecord 2 6,plainRecord 1 5], r.lsn ≤ u64Max := by decide
  have he : EpochsKept [plainRecord 2 6,plainRecord 1 5] := by
    unfold EpochsKept
    decide
  have ho : ∃ recovered, plain.decryptRecovery 7 4 (some 6) [plainRecord 2 6,plainRecord 1 5] =
      .ok recovered := ⟨_,rfl⟩
  exact ((recovery_check_is_exact hb).1.mpr fun _ => he).mp ho

/-- A record of an older writer after one of a newer writer is recovered. -/
theorem Crypto.recovery_takes_older_epoch :
    ¬ ∀ records : List (EncryptedRecord Nat (SealedBody Unit Nat (Nat × Nat × Nat × Nat × Nat))),
      (∀ r ∈ records, r.lsn ≤ u64Max) →
      ((∃ recovered, plain.decryptRecovery 7 4 (some 6) records = .ok recovered) ↔
        plain.ExactTail 7 4 (some 6) records ∧ EpochsKept records) := by
  intro ha
  have ho : ∃ recovered, plain.decryptRecovery 7 4 (some 6) [plainRecord 2 5,plainRecord 1 6] =
      .ok recovered := ⟨_,rfl⟩
  obtain ⟨-,he⟩ := (ha [plainRecord 2 5,plainRecord 1 6] (by decide)).mp ho
  have hb := he (plainRecord 2 5) (by simp) (plainRecord 1 6) (by simp) (by decide)
  exact absurd hb (by decide)

/-- Two records that arrive in the wrong order. -/
theorem Crypto.decryptRecovery_swapped : plain.decryptRecovery 7 4 (some 6)
    [plainRecord 2 6, plainRecord 1 5] = .ok [⟨7, 1, 5, 4, 5⟩, ⟨7, 2, 6, 5, 6⟩] :=
  decryptRecovery_sealed (.cons rfl (.cons rfl .nil)) ⟨by decide,rfl,by decide⟩ (by decide)
    (.swap ..) (by decide)

end Runs

end Walleye.Bitr
