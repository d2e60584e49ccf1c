import Walleye.Base.Maps
import Walleye.Bitr.Wire

namespace Walleye.Bitr

open Walleye.Base

namespace WireRecord

section Authentication

variable {r q : WireRecord}

def authenticatedTail (r : WireRecord) : List UInt8 :=
  beBytes 8 r.writerEpoch ++ (beBytes 8 r.lsn ++ (beBytes 8 r.committedLsn ++ r.body.ciphertext))

def authenticated (r : WireRecord) : List UInt8 := asBytes r.stream ++ r.authenticatedTail

structure Valid (r : WireRecord) : Prop where
  words : r.Words
  within : r.Within
  watermark : r.committedLsn < r.lsn

def SameFields (r q : WireRecord) : Prop :=
  r.stream = q.stream ∧ r.writerEpoch = q.writerEpoch ∧ r.lsn = q.lsn ∧
    r.committedLsn = q.committedLsn ∧ r.body.ciphertext = q.body.ciphertext

/-- The first bytes of one record's epoch, LSN, watermark and ciphertext end the other's stream
name, and the rest of them are the other's. -/
def Shifted (r q : WireRecord) : Prop :=
  ∃ moved, moved ≠ [] ∧ asBytes q.stream = asBytes r.stream ++ moved ∧
    r.authenticatedTail = moved ++ q.authenticatedTail

theorem asBytes_inj (h : asBytes s = asBytes t) : s = t := by
  have ht := fromUtf8_eq_some.mpr h
  rw [fromUtf8_eq_some.mpr rfl] at ht
  exact Option.some.inj ht

theorem Shifted.authenticated_eq (h : Shifted r q) : r.authenticated = q.authenticated := by
  obtain ⟨moved,-,hs,ht⟩ := h
  rw [authenticated,authenticated,hs,ht,List.append_assoc]

theorem not_shifted_of_length (h : (asBytes r.stream).length = (asBytes q.stream).length) :
    ¬Shifted r q := by
  intro hs
  obtain ⟨moved,hn,hst,-⟩ := hs
  rw [hst,List.length_append] at h
  exact hn (List.length_eq_zero_iff.mp (by omega))

theorem Words.authenticatedTail_inj (hr : r.Words) (hq : q.Words)
    (h : r.authenticatedTail = q.authenticatedTail) :
    r.writerEpoch = q.writerEpoch ∧ r.lsn = q.lsn ∧ r.committedLsn = q.committedLsn ∧
      r.body.ciphertext = q.body.ciphertext := by
  obtain ⟨he,h⟩ := List.append_inj h (by simp)
  obtain ⟨hl,h⟩ := List.append_inj h (by simp)
  obtain ⟨hc,h⟩ := List.append_inj h (by simp)
  exact ⟨beBytes_inj hr.writerEpoch hq.writerEpoch he,beBytes_inj hr.lsn hq.lsn hl,
    beBytes_inj hr.committedLsn hq.committedLsn hc,h⟩

theorem shifted_of_authenticated (hr : r.Words) (hq : q.Words) (hn : ¬SameFields r q)
    (h : r.authenticated = q.authenticated) : Shifted r q ∨ Shifted q r := by
  cases List.append_eq_append_iff.mp h with
  | inl hq' =>
    obtain ⟨moved,hs,ht⟩ := hq'
    refine .inl ⟨moved,?_,hs,ht⟩
    intro hni
    subst hni
    rw [List.append_nil] at hs
    exact hn ⟨(asBytes_inj hs).symm,hr.authenticatedTail_inj hq ht⟩
  | inr hr' =>
    obtain ⟨moved,hs,ht⟩ := hr'
    refine .inr ⟨moved,?_,hs,ht⟩
    intro hni
    subst hni
    rw [List.append_nil] at hs
    exact hn ⟨asBytes_inj hs,hr.authenticatedTail_inj hq ht.symm⟩

/-- Records that differ are told apart by what the code covers, unless one is the other with bytes
moved between the stream name and what follows it. -/
theorem authentication_binds_iff (hr : r.Valid) (hq : q.Valid) (hne : ¬SameFields r q) :
    (r.authenticated ≠ q.authenticated ∧
      ∀ (θ : Type) (mac : List UInt8 → θ), Function.Injective mac →
        mac r.authenticated ≠ mac q.authenticated) ↔ ¬Shifted r q ∧ ¬Shifted q r := by
  constructor
  · intro h
    obtain ⟨hb,-⟩ := h
    exact ⟨fun hs => hb hs.authenticated_eq,fun hs => hb hs.authenticated_eq.symm⟩
  · intro h
    obtain ⟨hrq,hqr⟩ := h
    have hb : r.authenticated ≠ q.authenticated := by
      intro he
      cases shifted_of_authenticated hr.words hq.words hne he with
      | inl hs => exact hrq hs
      | inr hs => exact hqr hs
    exact ⟨hb,fun θ mac hm he => hb (hm he)⟩

def bare (stream : String) (writerEpoch lsn committedLsn : Nat) (ciphertext : List UInt8) :
    WireRecord :=
  ⟨stream, writerEpoch, lsn, committedLsn, .replicate 24 0, ciphertext, .replicate 32 0⟩

/-- The same record on two streams. -/
theorem authentication_binds_of_two_streams :
    (bare "a" 1 2 1 [7, 8]).authenticated ≠ (bare "b" 1 2 1 [7, 8]).authenticated := by
  have ha : (bare "a" 1 2 1 [7,8]).Valid :=
    ⟨⟨by decide,by decide,by decide⟩,⟨by decide,by decide,by decide⟩,by decide⟩
  have hb : (bare "b" 1 2 1 [7,8]).Valid :=
    ⟨⟨by decide,by decide,by decide⟩,⟨by decide,by decide,by decide⟩,by decide⟩
  have hn : ¬SameFields (bare "a" 1 2 1 [7,8]) (bare "b" 1 2 1 [7,8]) :=
    fun h => absurd h.1 (by decide)
  exact ((authentication_binds_iff ha hb hn).mpr
    ⟨not_shifted_of_length rfl,not_shifted_of_length rfl⟩).1

/-- The record of stream `a` and the one of the stream whose name is longer by a zero byte. -/
theorem shifted_record_has_the_same_tag :
    ¬∀ r q : WireRecord, r.Valid → q.Valid → ¬SameFields r q →
      r.authenticated ≠ q.authenticated := by
  intro h
  apply h (bare "a" 1 2 1 [7,8]) (bare "a\x00" 256 512 263 [8])
  · exact ⟨⟨by decide,by decide,by decide⟩,⟨by decide,by decide,by decide⟩,by decide⟩
  · exact ⟨⟨by decide,by decide,by decide⟩,⟨by decide,by decide,by decide⟩,by decide⟩
  · intro hs
    cases hs.2.1
  · decide

end Authentication

end WireRecord

section Writer

def xchacha20poly1305TagBytes : Nat := 16

abbrev PlainRecord := AppendRecord String (List UInt8)

def appendEncodedLen (streamLen : Nat) : Nat → List PlainRecord → Except ReplicaError Nat
  | encodedLen, [] => .ok encodedLen
  | encodedLen, r :: rest =>
    if maxEncryptedRecordPlaintextBytes < r.payload.length then
      .error (.protocol "append payload exceeds encrypted record plaintext limit")
    else appendEncodedLen streamLen (encodedLen + (4 + (encryptedRecordBinaryFixedBytes + streamLen +
      (xchacha20poly1305TagBytes + r.payload.length)))) rest

def checkAppendAfter : PlainRecord → List PlainRecord → Except ReplicaError Unit
  | _, [] => .ok ()
  | previous, current :: rest =>
    if current.stream ≠ previous.stream then
      .error (.protocol "append batch contains multiple streams")
    else if current.writerEpoch ≠ previous.writerEpoch then
      .error (.protocol "append batch contains multiple writer epochs")
    else if current.lsn ≠ previous.lsn + 1 then .error .lsnConflict
    else if current.committedLsn ≠ previous.lsn then
      .error (.invalidWatermark current.lsn current.committedLsn)
    else checkAppendAfter current rest

def checkAppendMany : List PlainRecord → Except ReplicaError Unit
  | [] => .error (.protocol "append batch must not be empty")
  | first :: rest =>
    if maxEncryptedRecordBatchRecords < (first :: rest).length then
      .error (.protocol "append batch has too many records")
    else if first.lsn ≤ first.committedLsn then
      .error (.invalidWatermark first.lsn first.committedLsn)
    else if asBytes first.stream = [] ∨
        maxEncryptedRecordStreamBytes < (asBytes first.stream).length then
      .error (.protocol "append batch stream length is out of bounds")
    else (appendEncodedLen (asBytes first.stream).length 4 (first :: rest)).bind fun encodedLen =>
    if maxEncryptedRecordBatchBytes < encodedLen then
      .error (.protocol "append batch body is too large")
    else checkAppendAfter first rest

variable {c : Crypto String (List UInt8) (Vector UInt8 24) (List UInt8) (Vector UInt8 32)}

structure Tagged (c : Crypto String (List UInt8) (Vector UInt8 24) (List UInt8) (Vector UInt8 32)) :
    Prop where
  size : ∀ payload, c.size payload = payload.length
  tag : ∀ nonce payload,
    (c.encrypt nonce payload).length = xchacha20poly1305TagBytes + payload.length

def sealedRecord (c : Crypto String (List UInt8) (Vector UInt8 24) (List UInt8) (Vector UInt8 32))
    (r : PlainRecord) : WireRecord :=
  let ciphertext := c.encrypt (c.nonce r) r.payload
  ⟨r.stream, r.writerEpoch, r.lsn, r.committedLsn, c.nonce r, ciphertext,
    c.mac r.stream r.writerEpoch r.lsn r.committedLsn ciphertext⟩

variable {records rest : List PlainRecord}

theorem mapM_sealRecord (h : Tagged c) : records.mapM c.sealRecord = .ok batch ↔
    (∀ r ∈ records, r.payload.length ≤ maxEncryptedRecordPlaintextBytes) ∧
      batch = records.map (sealedRecord c) := by
  have hs : ∀ r sealed, c.sealRecord r = .ok sealed ↔
      r.payload.length ≤ maxEncryptedRecordPlaintextBytes ∧ sealedRecord c r = sealed := by
    intro r sealed
    simp only [Crypto.sealRecord,guard_ok,not_lt,h.size,Except.ok.injEq]
    rfl
  rw [mapM_eq_ok]
  simp only [hs]
  rw [List.forall₂_and_left,← List.forall₂_map_left_iff,List.forall₂_eq_eq_eq,eq_comm]

theorem checkAppendAfter_eq_ok (hst : previous.stream = first.stream)
    (hep : previous.writerEpoch = first.writerEpoch) :
    checkAppendAfter previous rest = .ok () ↔
      validateAfter (sealedRecord c first) (sealedRecord c previous)
        (rest.map (sealedRecord c)) = .ok () := by
  induction rest generalizing previous with
  | nil => simp [checkAppendAfter,validateAfter]
  | cons current rest ih =>
    simp only [checkAppendAfter,List.map_cons,validateAfter,guard_ok,ne_eq,not_not,
      not_le,hst,hep]
    constructor
    · intro h
      obtain ⟨hs,he,hl,hc,hr⟩ := h
      refine ⟨hs,he,hl,hc,?_,(ih hs he).mp hr⟩
      change current.committedLsn < current.lsn
      omega
    · intro h
      obtain ⟨hs,he,hl,hc,-,hr⟩ := h
      exact ⟨hs,he,hl,hc,(ih hs he).mpr hr⟩

theorem appendEncodedLen_eq_ok (h : Tagged c)
    (hs : ∀ r ∈ records, (asBytes r.stream).length = streamLen) :
    appendEncodedLen streamLen n records = .ok m ↔
      (∀ r ∈ records, r.payload.length ≤ maxEncryptedRecordPlaintextBytes) ∧
        m = n + (WireRecord.framed (records.map (sealedRecord c))).length := by
  induction records generalizing n with
  | nil => simp [appendEncodedLen,WireRecord.framed,eq_comm]
  | cons r rest ih =>
    obtain ⟨hr,hre⟩ := List.forall_mem_cons.mp hs
    have hl : (sealedRecord c r).encoded.length = encryptedRecordBinaryFixedBytes + streamLen +
        (xchacha20poly1305TagBytes + r.payload.length) := by
      rw [WireRecord.length_encoded,← hr,← h.tag (c.nonce r)]
      rfl
    simp only [appendEncodedLen,guard_ok,not_lt,ih hre,List.forall_mem_cons,
      List.map_cons,WireRecord.framed_cons,List.length_append,length_leBytes,hl,and_assoc,
      Nat.add_assoc]

theorem within_sealedRecord (h : Tagged c) : (sealedRecord c r).Within ↔
    (asBytes r.stream ≠ [] ∧ (asBytes r.stream).length ≤ maxEncryptedRecordStreamBytes) ∧
      r.payload.length ≤ maxEncryptedRecordPlaintextBytes := by
  have hlen : (sealedRecord c r).body.ciphertext.length =
      xchacha20poly1305TagBytes + r.payload.length := h.tag ..
  have hl : maxEncryptedRecordCiphertextBytes =
      xchacha20poly1305TagBytes + maxEncryptedRecordPlaintextBytes := rfl
  constructor
  · intro hr
    have hc := hr.ciphertextLen
    exact ⟨⟨hr.stream,hr.streamLen⟩,by omega⟩
  · intro hr
    obtain ⟨⟨hn,hle⟩,hp⟩ := hr
    exact ⟨hn,hle,by omega⟩

/-- The writer takes a batch if and only if the servers take what it is sealed to. -/
theorem append_many_checks_are_exact (h : Tagged c) :
    checkAppendMany records = .ok () ↔ ∃ batch bytes, records.mapM c.sealRecord = .ok batch ∧
      validateAppendBatch batch = .ok () ∧ WireRecord.encodeBinaryBatch batch = .ok bytes := by
  simp only [mapM_sealRecord h,WireRecord.encodeBinaryBatch_eq_ok]
  cases records with
  | nil => simp [checkAppendMany,validateAppendBatch]
  | cons first rest =>
    have ha : checkAppendAfter first rest = .ok () ↔ _ := checkAppendAfter_eq_ok (c := c) rfl rfl
    have hstr : checkAppendAfter first rest = .ok () →
        ∀ r ∈ first :: rest, r.stream = first.stream := by
      intro hc
      refine List.forall_mem_cons.mpr ⟨rfl,fun r hr => ?_⟩
      exact ((validateAfter_spec (ha.mp hc)).1 _ (List.mem_map_of_mem hr)).1
    have hl : checkAppendAfter first rest = .ok () → ∀ r ∈ first :: rest,
        (asBytes r.stream).length = (asBytes first.stream).length :=
      fun hc r hr => by rw [hstr hc r hr]
    simp only [checkAppendMany,guard_ok,not_lt,not_le,not_or,Except.bind_eq_ok]
    constructor
    · intro hc
      obtain ⟨hco,hm,hs,_,hap,hlen,hre⟩ := hc
      obtain ⟨hp,rfl⟩ := (appendEncodedLen_eq_ok h (hl hre)).mp hap
      refine ⟨_,_,⟨hp,rfl⟩,?_,⟨by simp,by simpa using hco,?_,hlen⟩,rfl⟩
      · simp only [List.map_cons,validateAppendBatch,guard_ok]
        exact ⟨not_le.mpr hm,ha.mp hre⟩
      · intro w hw
        obtain ⟨r,hr,rfl⟩ := List.mem_map.mp hw
        rw [within_sealedRecord h,hstr hre r hr]
        exact ⟨hs,hp r hr⟩
    · intro hb
      obtain ⟨_,_,⟨hp,rfl⟩,hv,hwi,-⟩ := hb
      simp only [List.map_cons,validateAppendBatch,guard_ok] at hv
      obtain ⟨hm,hv⟩ := hv
      have hre := ha.mpr hv
      have hf := (within_sealedRecord h).mp (hwi.each _ List.mem_cons_self)
      exact ⟨by simpa using hwi.count,not_le.mp hm,hf.1,_,
        (appendEncodedLen_eq_ok h (hl hre)).mpr ⟨hp,rfl⟩,hwi.length,hre⟩

/-- A cipher that hides nothing and puts a tag of zeros before the payload. -/
def Crypto.padded :
    Crypto String (List UInt8) (Vector UInt8 24) (List UInt8) (Vector UInt8 32) where
  size payload := payload.length
  nonce _ := .replicate 24 0
  encrypt _ payload := List.replicate 16 0 ++ payload
  decrypt _ ciphertext :=
    if ciphertext.take 16 = List.replicate 16 0 then some (ciphertext.drop 16) else none
  mac _ _ _ _ _ := .replicate 32 0
  decrypt_eq_some _ ciphertext payload := by
    rw [Option.ite_none_right_eq_some, Option.some.injEq]
    constructor
    · intro h
      rw [← h.1, ← h.2, List.take_append_drop]
    · intro h
      simp [h]

/-- A chain of two records, the second one empty. -/
theorem append_many_checks_are_exact_of_two_records :
    ∃ batch bytes,
      [⟨"a", 1, 4, 2, [7]⟩, ⟨"a", 1, 5, 4, []⟩].mapM Crypto.padded.sealRecord = .ok batch ∧
      validateAppendBatch batch = .ok () ∧ WireRecord.encodeBinaryBatch batch = .ok bytes := by
  have ht : Tagged .padded := ⟨fun _ => rfl,fun _ _ => List.length_append⟩
  exact (append_many_checks_are_exact ht).mp (by decide)

end Writer

end Walleye.Bitr
