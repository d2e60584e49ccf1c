import Walleye.Base.Bytes
import Walleye.Bitr.ClientRecovery

namespace Walleye.Bitr

open Walleye.Base

abbrev WireRecord :=
  EncryptedRecord String (SealedBody (Vector UInt8 24) (List UInt8) (Vector UInt8 32))

def maxEncryptedRecordStreamBytes : Nat := 4 * 1024
def maxEncryptedRecordCiphertextBytes : Nat := 8 * 1024 * 1024
def maxEncryptedRecordBatchRecords : Nat := 1024
def maxEncryptedRecordBatchBytes : Nat := 32 * 1024 * 1024
def encryptedRecordBinaryFixedBytes : Nat := 4 + 8 + 8 + 8 + 24 + 4 + 32
def maxEncryptedRecordBytes : Nat := encryptedRecordBinaryFixedBytes +
  maxEncryptedRecordStreamBytes + maxEncryptedRecordCiphertextBytes

def asBytes (s : String) : List UInt8 := s.toByteArray.data.toList

def fromUtf8 (bytes : List UInt8) : Option String := String.fromUTF8? bytes.toByteArray

def tryU32 (message : String) (n : Nat) : Except ReplicaError Nat :=
  if 2 ^ 32 ≤ n then .error (.protocol message) else .ok n

namespace WireRecord

section Encode

def binaryEncodedLen (r : WireRecord) : Except ReplicaError Nat :=
  let stream := asBytes r.stream
  if stream = [] ∨ maxEncryptedRecordStreamBytes < stream.length then
    .error (.protocol "encrypted record stream length is out of bounds")
  else if maxEncryptedRecordCiphertextBytes < r.body.ciphertext.length then
    .error (.protocol "encrypted record ciphertext length is out of bounds")
  else
    let encodedLen :=
      encryptedRecordBinaryFixedBytes + stream.length + r.body.ciphertext.length
    if maxEncryptedRecordBytes < encodedLen then
      .error (.protocol "encrypted record body is too large")
    else .ok encodedLen

def layout (r : WireRecord) (streamLen ciphertextLen : Nat) : List UInt8 :=
  leBytes 4 streamLen ++ (asBytes r.stream ++ (leBytes 8 r.writerEpoch ++ (leBytes 8 r.lsn ++
    (leBytes 8 r.committedLsn ++ (r.body.nonce.toList ++ (leBytes 4 ciphertextLen ++
    (r.body.ciphertext ++ r.body.authentication.toList)))))))

def encodeBinary (r : WireRecord) : Except ReplicaError (List UInt8) :=
  r.binaryEncodedLen.bind fun _ =>
  (tryU32 "encrypted record stream length overflows wire type"
    (asBytes r.stream).length).bind fun streamLen =>
  (tryU32 "encrypted record ciphertext length overflows wire type"
    r.body.ciphertext.length).map fun ciphertextLen => r.layout streamLen ciphertextLen

def batchEncodedLen : Nat → List WireRecord → Except ReplicaError Nat
  | encodedLen, [] => .ok encodedLen
  | encodedLen, r :: rest =>
    r.binaryEncodedLen.bind fun recordLen => batchEncodedLen (encodedLen + 4 + recordLen) rest

def encodeFrames : List WireRecord → Except ReplicaError (List UInt8)
  | [] => .ok []
  | r :: rest =>
    r.encodeBinary.bind fun record =>
    (tryU32 "encrypted record frame length overflows wire type" record.length).bind
      fun frameLen => (encodeFrames rest).map fun frames => leBytes 4 frameLen ++ (record ++ frames)

def encodeBinaryBatch (records : List WireRecord) : Except ReplicaError (List UInt8) :=
  if records = [] then .error (.protocol "encrypted record batch must not be empty")
  else if maxEncryptedRecordBatchRecords < records.length then
    .error (.protocol "encrypted record batch has too many records")
  else (batchEncodedLen 4 records).bind fun encodedLen =>
  if maxEncryptedRecordBatchBytes < encodedLen then
    .error (.protocol "encrypted record batch body is too large")
  else (tryU32 "encrypted record batch count overflows wire type" records.length).bind
    fun count => (encodeFrames records).map fun frames => leBytes 4 count ++ frames

end Encode

section Decode

def takeBytes (bytes : List UInt8) (length : Nat) :
    Except ReplicaError (List UInt8 × List UInt8) :=
  if bytes.length < length then .error (.protocol "encrypted record body is truncated")
  else .ok (bytes.splitAt length)

def readWord (width : Nat) (bytes : List UInt8) : Except ReplicaError (Nat × List UInt8) :=
  (takeBytes bytes width).map fun taken => (ofLeBytes taken.1, taken.2)

def readU32 : List UInt8 → Except ReplicaError (Nat × List UInt8) := readWord 4

def readU64 : List UInt8 → Except ReplicaError (Nat × List UInt8) := readWord 8

def readFixed (n : Nat) (bytes : List UInt8) :
    Except ReplicaError (Vector UInt8 n × List UInt8) :=
  (takeBytes bytes n).bind fun taken =>
    if h : taken.1.length = n then .ok (⟨taken.1.toArray, h⟩, taken.2)
    else .error (.protocol "encrypted record body is truncated")

def decodeBinary (bytes : List UInt8) : Except ReplicaError WireRecord :=
  if maxEncryptedRecordBytes < bytes.length then
    .error (.protocol "encrypted record body is too large")
  else (readU32 bytes).bind fun (streamLen, bytes) =>
  if streamLen = 0 ∨ maxEncryptedRecordStreamBytes < streamLen then
    .error (.protocol "encrypted record stream length is out of bounds")
  else (takeBytes bytes streamLen).bind fun (raw, bytes) =>
  match fromUtf8 raw with
  | none => .error (.protocol "encrypted record stream is not valid UTF-8")
  | some stream =>
    (readU64 bytes).bind fun (writerEpoch, bytes) =>
    (readU64 bytes).bind fun (lsn, bytes) =>
    (readU64 bytes).bind fun (committedLsn, bytes) =>
    (readFixed 24 bytes).bind fun (nonce, bytes) =>
    (readU32 bytes).bind fun (ciphertextLen, bytes) =>
    if maxEncryptedRecordCiphertextBytes < ciphertextLen then
      .error (.protocol "encrypted record ciphertext length is out of bounds")
    else if bytes.length ≠ ciphertextLen + 32 then
      .error (.protocol "encrypted record body is truncated or has trailing bytes")
    else (takeBytes bytes ciphertextLen).bind fun (ciphertext, bytes) =>
    (readFixed 32 bytes).map fun (authentication, _) =>
      ⟨stream, writerEpoch, lsn, committedLsn, nonce, ciphertext, authentication⟩

def decodeFrames : Nat → List UInt8 → Except ReplicaError (List WireRecord × List UInt8)
  | 0, bytes => .ok ([], bytes)
  | count + 1, bytes =>
    (readU32 bytes).bind fun (frameLen, bytes) =>
    if frameLen = 0 ∨ maxEncryptedRecordBytes < frameLen then
      .error (.protocol "encrypted record frame length is out of bounds")
    else (takeBytes bytes frameLen).bind fun (frame, bytes) =>
    (decodeBinary frame).bind fun record =>
    (decodeFrames count bytes).map fun (records, bytes) => (record :: records, bytes)

def decodeBinaryBatch (bytes : List UInt8) : Except ReplicaError (List WireRecord) :=
  if maxEncryptedRecordBatchBytes < bytes.length then
    .error (.protocol "encrypted record batch body is too large")
  else (readU32 bytes).bind fun (count, bytes) =>
  if count = 0 ∨ maxEncryptedRecordBatchRecords < count then
    .error (.protocol "encrypted record batch count is out of bounds")
  else (decodeFrames count bytes).bind fun (records, bytes) =>
  if bytes ≠ [] then .error (.protocol "encrypted record batch has trailing bytes")
  else .ok records

end Decode

section Exact

theorem fromUtf8_eq_some : fromUtf8 raw = some s ↔ raw = asBytes s := by
  have hb : (asBytes s).toByteArray = s.toByteArray := by
    apply ByteArray.ext
    simp [asBytes]
  rw [fromUtf8,String.fromUTF8?]
  constructor
  · intro h
    split at h
    · cases h
      exact List.toList_data_toByteArray.symm
    · cases h
  · intro h
    rw [h,hb,dif_pos s.isValidUTF8]
    rfl

theorem tryU32_eq_ok : tryU32 message n = .ok m ↔ n < 256 ^ 4 ∧ m = n := by
  simp only [tryU32,guard_ok,not_le,Except.ok.injEq]
  omega

theorem takeBytes_eq_ok :
    takeBytes bytes n = .ok (taken,rest) ↔ bytes = taken ++ rest ∧ taken.length = n := by
  simp only [takeBytes,guard_ok,not_lt,List.splitAt_eq,Except.ok.injEq,Prod.mk.injEq]
  constructor
  · intro h
    obtain ⟨hl,rfl,rfl⟩ := h
    exact ⟨(List.take_append_drop n bytes).symm,by simpa using hl⟩
  · intro h
    obtain ⟨rfl,rfl⟩ := h
    simp

theorem readWord_eq_ok : readWord width bytes = .ok (n,rest) ↔
    n < 256 ^ width ∧ bytes = leBytes width n ++ rest := by
  simp only [readWord,Except.map_eq_ok,Prod.exists,Prod.mk.injEq,takeBytes_eq_ok]
  constructor
  · intro h
    obtain ⟨taken,rest,⟨rfl,hl⟩,hn,rfl⟩ := h
    obtain ⟨hlt,rfl⟩ := (ofLeBytes_eq hl).mp hn
    exact ⟨hlt,rfl⟩
  · intro h
    obtain ⟨hlt,rfl⟩ := h
    exact ⟨_,rest,⟨rfl,length_leBytes ..⟩,ofLeBytes_leBytes hlt,rfl⟩

theorem readFixed_eq_ok : readFixed n bytes = .ok (v,rest) ↔ bytes = v.toList ++ rest := by
  simp only [readFixed,Except.bind_eq_ok,Prod.exists,takeBytes_eq_ok]
  constructor
  · intro h
    obtain ⟨taken,rest,⟨rfl,hl⟩,h⟩ := h
    rw [dif_pos hl] at h
    cases h
    rfl
  · intro h
    subst h
    refine ⟨v.toList,rest,⟨rfl,v.length_toList⟩,?_⟩
    rw [dif_pos v.length_toList]
    rfl

structure Words (r : WireRecord) : Prop where
  writerEpoch : r.writerEpoch < 256 ^ 8
  lsn : r.lsn < 256 ^ 8
  committedLsn : r.committedLsn < 256 ^ 8

structure Within (r : WireRecord) : Prop where
  stream : asBytes r.stream ≠ []
  streamLen : (asBytes r.stream).length ≤ maxEncryptedRecordStreamBytes
  ciphertextLen : r.body.ciphertext.length ≤ maxEncryptedRecordCiphertextBytes

def encoded (r : WireRecord) : List UInt8 :=
  r.layout (asBytes r.stream).length r.body.ciphertext.length

variable {r : WireRecord}

theorem length_encoded : r.encoded.length = encryptedRecordBinaryFixedBytes +
    (asBytes r.stream).length + r.body.ciphertext.length := by
  simp only [encoded,layout,List.length_append,length_leBytes,Vector.length_toList,
    encryptedRecordBinaryFixedBytes]
  omega

theorem Within.length_le (h : r.Within) : r.encoded.length ≤ maxEncryptedRecordBytes := by
  have hs := h.streamLen
  have hc := h.ciphertextLen
  rw [length_encoded,maxEncryptedRecordBytes]
  omega

theorem binaryEncodedLen_eq_ok : r.binaryEncodedLen = .ok n ↔ r.Within ∧ n = r.encoded.length := by
  simp only [binaryEncodedLen,guard_ok,not_or,not_lt,Except.ok.injEq,← length_encoded]
  constructor
  · intro h
    obtain ⟨⟨hs,hl⟩,hc,-,rfl⟩ := h
    exact ⟨⟨hs,hl,hc⟩,rfl⟩
  · intro h
    obtain ⟨h,rfl⟩ := h
    exact ⟨⟨h.stream,h.streamLen⟩,h.ciphertextLen,h.length_le,rfl⟩

theorem encodeBinary_eq_ok : r.encodeBinary = .ok bytes ↔ r.Within ∧ bytes = r.encoded := by
  simp only [encodeBinary,Except.bind_eq_ok,Except.map_eq_ok,binaryEncodedLen_eq_ok,tryU32_eq_ok]
  constructor
  · intro h
    obtain ⟨_,⟨hw,-⟩,_,⟨-,rfl⟩,_,⟨-,rfl⟩,rfl⟩ := h
    exact ⟨hw,rfl⟩
  · intro h
    obtain ⟨h,rfl⟩ := h
    have hs := h.streamLen
    have hc := h.ciphertextLen
    simp only [maxEncryptedRecordStreamBytes,maxEncryptedRecordCiphertextBytes] at hs hc
    exact ⟨_,⟨h,rfl⟩,_,⟨by omega,rfl⟩,_,⟨by omega,rfl⟩,rfl⟩

/-- Exactly the encodings of well-formed records decode. -/
theorem decodeBinary_eq_ok : decodeBinary bytes = .ok r ↔ r.Words ∧ r.encodeBinary = .ok bytes := by
  rw [encodeBinary_eq_ok]
  constructor
  · intro h
    simp only [decodeBinary,readU32,readU64,guard_ok,Except.bind_eq_ok,Prod.exists,
      readWord_eq_ok,takeBytes_eq_ok,not_or,not_lt] at h
    obtain ⟨-,_,_,⟨-,rfl⟩,⟨hz,hstr⟩,raw,_,⟨rfl,rfl⟩,h⟩ := h
    cases hr : fromUtf8 raw with
    | none => simp [hr] at h
    | some stream =>
      simp only [hr,Except.bind_eq_ok,Except.map_eq_ok,Prod.exists,readWord_eq_ok,
        readFixed_eq_ok,takeBytes_eq_ok,guard_ok,not_lt] at h
      obtain ⟨_,_,⟨he,rfl⟩,_,_,⟨hl,rfl⟩,_,_,⟨hc,rfl⟩,nonce,_,rfl,_,_,
        ⟨-,rfl⟩,hci,hle,ciphertext,_,⟨rfl,rfl⟩,tag,last,rfl,rfl⟩ := h
      obtain rfl := fromUtf8_eq_some.mp hr
      have hla : last = [] := by simpa using hle
      subst hla
      refine ⟨⟨he,hl,hc⟩,⟨?_,hstr,hci⟩,?_⟩
      · simpa using hz
      · simp [encoded,layout]
  · intro h
    obtain ⟨hw,hwit,rfl⟩ := h
    have hs := hwit.streamLen
    have hci := hwit.ciphertextLen
    have hlen := hwit.length_le
    have hwi : maxEncryptedRecordStreamBytes < 256 ^ 4 ∧
        maxEncryptedRecordCiphertextBytes < 256 ^ 4 := by decide
    simp only [encoded,layout] at hlen ⊢
    simp only [decodeBinary,readU32,readU64,guard_ok,Except.bind_eq_ok,Prod.exists,
      readWord_eq_ok,takeBytes_eq_ok,not_or,not_lt]
    refine ⟨hlen,_,_,⟨by omega,rfl⟩,⟨?_,hs⟩,_,_,⟨rfl,rfl⟩,?_⟩
    · simpa using hwit.stream
    · simp only [fromUtf8_eq_some.mpr rfl,Except.bind_eq_ok,Except.map_eq_ok,Prod.exists,
        readWord_eq_ok,readFixed_eq_ok,takeBytes_eq_ok,guard_ok,not_lt]
      refine ⟨_,_,⟨hw.writerEpoch,rfl⟩,_,_,⟨hw.lsn,rfl⟩,_,_,
        ⟨hw.committedLsn,rfl⟩,_,_,rfl,_,_,⟨by omega,rfl⟩,hci,?_,_,_,
        ⟨rfl,rfl⟩,_,[],?_,rfl⟩
      · simp
      · simp

def framed (records : List WireRecord) : List UInt8 :=
  records.flatMap fun r => leBytes 4 r.encoded.length ++ r.encoded

structure WithinBatch (records : List WireRecord) : Prop where
  nonempty : records ≠ []
  count : records.length ≤ maxEncryptedRecordBatchRecords
  each : ∀ r ∈ records, r.Within
  length : 4 + (framed records).length ≤ maxEncryptedRecordBatchBytes

theorem framed_cons : framed (r :: records) =
    leBytes 4 r.encoded.length ++ (r.encoded ++ framed records) := by
  simp [framed]

theorem Within.length_lt (h : r.Within) : r.encoded.length < 256 ^ 4 :=
  lt_of_le_of_lt h.length_le (by decide)

theorem batchEncodedLen_eq_ok : batchEncodedLen n records = .ok m ↔
    (∀ r ∈ records, r.Within) ∧ m = n + (framed records).length := by
  induction records generalizing n with
  | nil => simp [batchEncodedLen,framed,eq_comm]
  | cons r records ih =>
    simp only [batchEncodedLen,Except.bind_eq_ok,binaryEncodedLen_eq_ok,ih,framed_cons,
      List.length_append,length_leBytes,List.forall_mem_cons]
    constructor
    · intro h
      obtain ⟨_,⟨hr,rfl⟩,hre,rfl⟩ := h
      exact ⟨⟨hr,hre⟩,by omega⟩
    · intro h
      obtain ⟨⟨hr,hre⟩,rfl⟩ := h
      exact ⟨_,⟨hr,rfl⟩,hre,by omega⟩

theorem encodeFrames_eq_ok :
    encodeFrames records = .ok bytes ↔ (∀ r ∈ records, r.Within) ∧ bytes = framed records := by
  induction records generalizing bytes with
  | nil => simp [encodeFrames,framed,eq_comm]
  | cons r records ih =>
    simp only [encodeFrames,Except.bind_eq_ok,Except.map_eq_ok,encodeBinary_eq_ok,tryU32_eq_ok,
      ih,framed_cons,List.forall_mem_cons]
    constructor
    · intro h
      obtain ⟨_,⟨hr,rfl⟩,_,⟨-,rfl⟩,_,⟨hre,rfl⟩,rfl⟩ := h
      exact ⟨⟨hr,hre⟩,rfl⟩
    · intro h
      obtain ⟨⟨hr,hre⟩,rfl⟩ := h
      exact ⟨_,⟨hr,rfl⟩,_,⟨hr.length_lt,rfl⟩,_,⟨hre,rfl⟩,rfl⟩

theorem encodeBinaryBatch_eq_ok : encodeBinaryBatch records = .ok bytes ↔
    WithinBatch records ∧ bytes = leBytes 4 records.length ++ framed records := by
  simp only [encodeBinaryBatch,guard_ok,not_lt,Except.bind_eq_ok,Except.map_eq_ok,
    batchEncodedLen_eq_ok,tryU32_eq_ok,encodeFrames_eq_ok]
  constructor
  · intro h
    obtain ⟨hn,hc,_,⟨hr,rfl⟩,hl,_,⟨-,rfl⟩,_,⟨-,rfl⟩,rfl⟩ := h
    exact ⟨⟨hn,hc,hr,hl⟩,rfl⟩
  · intro h
    obtain ⟨h,rfl⟩ := h
    have hc : records.length < 256 ^ 4 := lt_of_le_of_lt h.count (by decide)
    exact ⟨h.nonempty,h.count,_,⟨h.each,rfl⟩,h.length,_,⟨hc,rfl⟩,_,
      ⟨h.each,rfl⟩,rfl⟩

/-- Exactly framed records decode, and what follows them is left. -/
theorem decodeFrames_eq_ok : decodeFrames n bytes = .ok (records,rest) ↔
    records.length = n ∧ (∀ r ∈ records, r.Words ∧ r.Within) ∧ bytes = framed records ++ rest := by
  induction n generalizing bytes records rest with
  | zero =>
    simp only [decodeFrames,Except.ok.injEq,Prod.mk.injEq,List.length_eq_zero_iff]
    constructor
    · intro h
      obtain ⟨rfl,rfl⟩ := h
      simp [framed]
    · intro h
      obtain ⟨rfl,-,rfl⟩ := h
      simp
  | succ n ih =>
    simp only [decodeFrames,readU32,guard_ok,not_or,not_lt,Except.bind_eq_ok,
      Except.map_eq_ok,Prod.exists,Prod.mk.injEq,readWord_eq_ok,takeBytes_eq_ok,
      decodeBinary_eq_ok,encodeBinary_eq_ok,ih]
    constructor
    · intro h
      obtain ⟨_,_,⟨-,rfl⟩,-,_,_,⟨rfl,rfl⟩,r,⟨hw,hwi,rfl⟩,rest',_,
        ⟨rfl,ha,rfl⟩,rfl,rfl⟩ := h
      refine ⟨rfl,List.forall_mem_cons.mpr ⟨⟨hw,hwi⟩,ha⟩,?_⟩
      simp [framed_cons]
    · intro h
      obtain ⟨hl,ha,rfl⟩ := h
      cases records with
      | nil => cases hl
      | cons r records =>
        obtain ⟨⟨hw,hwi⟩,ha⟩ := List.forall_mem_cons.mp ha
        have hp : r.encoded.length ≠ 0 := by
          rw [length_encoded,encryptedRecordBinaryFixedBytes]
          omega
        refine ⟨_,_,⟨hwi.length_lt,?_⟩,⟨hp,hwi.length_le⟩,r.encoded,_,⟨rfl,rfl⟩,
          r,⟨hw,hwi,rfl⟩,records,rest,⟨?_,ha,rfl⟩,rfl,rfl⟩
        · simp [framed_cons]
        · simpa using hl

theorem decodeBinaryBatch_eq_ok : decodeBinaryBatch bytes = .ok records ↔
    (∀ r ∈ records, r.Words) ∧ encodeBinaryBatch records = .ok bytes := by
  simp only [decodeBinaryBatch,readU32,guard_ok,not_lt,not_or,not_not,ne_eq,
    Except.bind_eq_ok,Prod.exists,readWord_eq_ok,decodeFrames_eq_ok,Except.ok.injEq,
    encodeBinaryBatch_eq_ok]
  constructor
  · intro h
    obtain ⟨hl,_,_,⟨-,rfl⟩,⟨hz,hc⟩,_,_,⟨rfl,ha,rfl⟩,rfl,rfl⟩ := h
    refine ⟨fun r hr => (ha r hr).1,⟨?_,hc,fun r hr => (ha r hr).2,?_⟩,?_⟩
    · simpa using hz
    · simpa using hl
    · simp
  · intro h
    obtain ⟨hw,h,rfl⟩ := h
    have hc : records.length < 256 ^ 4 := lt_of_le_of_lt h.count (by decide)
    have hl := h.length
    refine ⟨?_,_,_,⟨hc,rfl⟩,⟨?_,h.count⟩,records,[],
      ⟨rfl,fun r hr => ⟨hw r hr,h.each r hr⟩,?_⟩,rfl,rfl⟩
    · simpa using hl
    · simpa using h.nonempty
    · simp

end Exact

/-- Within the limits every record and every batch is read back from its encoding, and nothing
but the encoding of a value is read as the value. -/
theorem binary_codec_is_exact :
    (∀ r : WireRecord, r.Words → r.Within →
      ∃ bytes, r.encodeBinary = .ok bytes ∧ decodeBinary bytes = .ok r) ∧
    (∀ records : List WireRecord, (∀ r ∈ records, r.Words) → WithinBatch records →
      ∃ bytes, encodeBinaryBatch records = .ok bytes ∧ decodeBinaryBatch bytes = .ok records) ∧
    (∀ bytes r, decodeBinary bytes = .ok r → r.encodeBinary = .ok bytes) ∧
    (∀ bytes records, decodeBinaryBatch bytes = .ok records →
      encodeBinaryBatch records = .ok bytes) ∧
    ∀ (r : WireRecord) bytes, r.encodeBinary = .ok bytes →
      r.binaryEncodedLen = .ok bytes.length := by
  refine ⟨?_,?_,?_,?_,?_⟩
  · intro r hw hwi
    have he := encodeBinary_eq_ok.mpr ⟨hwi,rfl⟩
    exact ⟨_,he,decodeBinary_eq_ok.mpr ⟨hw,he⟩⟩
  · intro records hw hwi
    have he := encodeBinaryBatch_eq_ok.mpr ⟨hwi,rfl⟩
    exact ⟨_,he,decodeBinaryBatch_eq_ok.mpr ⟨hw,he⟩⟩
  · intro bytes r h
    exact (decodeBinary_eq_ok.mp h).2
  · intro bytes records h
    exact (decodeBinaryBatch_eq_ok.mp h).2
  · intro r bytes h
    obtain ⟨hwi,rfl⟩ := encodeBinary_eq_ok.mp h
    exact binaryEncodedLen_eq_ok.mpr ⟨hwi,rfl⟩

end WireRecord

end Walleye.Bitr
