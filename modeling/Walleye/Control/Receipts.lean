import Walleye.Control.History

namespace Walleye.Control

open Walleye.Base Walleye.Base.BTreeMap
open Walleye.Engine (u64Max saturatingAdd)

variable {ι δ : Type} [LinearOrder ι] {codec : HeadCodec ι δ}

theorem carried_eq_iff :
    ((∀ v w, current = some v → next = some w → w = v) ∧
      next.or replaced = next.or current) ↔
      (next = none → current = replaced) ∧
        ∀ d, next = some d → current = none ∨ current = some d := by
  cases next with
  | none => simp [eq_comm]
  | some w =>
    cases current with
    | none => simp
    | some v => simp [eq_comm]

theorem withPending_receipt_inj (hd : Function.Injective codec.metadataDigest)
    {next : ControlHead ι δ} :
    receiptMatchesHead (next.withPending codec p).receipt (next.withPending codec q) ↔ p = q := by
  constructor
  · rintro ⟨-,-,he⟩
    exact congrArg ControlMetadata.pendingHandoffs (hd he)
  · rintro rfl
    exact ⟨rfl,rfl,rfl⟩

variable [DecidableEq δ]

namespace HeadStore

variable {s : HeadStore ι δ}

variable {i j : Nat}

theorem Linear.follows (h : s.Linear codec policy)
    (hy : s.writes[n]? = some y) (hx : s.writes[n + 1]? = some x) :
    Follows codec policy (some y) x := by
  have hs := h.history (n + 1) x hx
  rwa [valueAt,hy] at hs

theorem Linear.valid (h : s.Linear codec policy) {n : Nat}
    (hw : s.writes[n]? = some w) : validateSizeAndHead codec w.head = .ok () := by
  have hs := h.history n w hw
  cases hp : valueAt s.writes n with
  | none =>
    rw [hp] at hs
    exact hs.2.2
  | some y =>
    rw [hp] at hs
    obtain ⟨next,preserve,m,-,-,hc⟩ := hs
    exact hc.valid

theorem Linear.receipts (h : s.Linear codec policy)
    (hi : i ≤ j) (hy : s.writes[i]? = some y) (hx : s.writes[j]? = some x) {op : ι}
    (hr : y.head.completedOperations[op]? = some r) :
    x.head.completedOperations[op]? = some r := by
  apply persists _ hi hy hx hr
  intro n y x hy hx hr
  obtain ⟨next,preserve,m,-,-,hc⟩ := h.follows hy hx
  exact hc.receipts hr

theorem Linear.own_receipt (h : s.Linear codec policy)
    (hi : i ≤ j) (hy : s.writes[i]? = some y) (hx : s.writes[j]? = some x) :
    x.head.completedOperations[y.head.operationId]? = some y.head.receipt :=
  h.receipts hi hy hx (validateSizeAndHead_spec (h.valid hy)).receipt

theorem Linear.operationId_ne (h : s.Linear codec policy)
    (hi : i < j) (hy : s.writes[i]? = some y) (hx : s.writes[j]? = some x) :
    y.head.operationId ≠ x.head.operationId := by
  obtain ⟨k,rfl⟩ : ∃ k, j = k + 1 := ⟨j - 1,by omega⟩
  have hl : k < s.writes.length := by
    have := (List.getElem?_eq_some_iff.mp hx).1
    omega
  have hz := List.getElem?_eq_getElem hl
  obtain ⟨next,preserve,n,-,-,hc⟩ := h.follows hz hx
  intro he
  have ho := h.own_receipt (Nat.le_of_lt_succ hi) hy hz
  rw [he,hc.new_operation] at ho
  cases ho

end HeadStore

def belowTop : Policy ι δ := fun stored call =>
  call.isUpdate = true → ∀ current ∈ stored, current.revision < u64Max

instance (stored : Option (ControlHead ι δ)) : DecidablePred (belowTop stored) := fun _ =>
  inferInstanceAs (Decidable (_ → _))

theorem Wants.below
    (h : Wants codec belowTop call current next preserve) : current.revision < u64Max := by
  obtain ⟨ha,hi⟩ := h
  cases hi with
  | update => exact ha rfl current rfl
  | claim _ _ _ hn => exact (headWithMetadata_spec hn).1
  | advance _ _ _ hn => exact (headWithMetadata_spec hn).1
  | publish _ _ _ _ hn => exact (headWithMetadata_spec hn).1
  | complete _ _ _ hn => exact (headWithMetadata_spec hn).1

theorem Follows.counts (h : Follows codec belowTop (some y) x) :
    x.head.revision = y.head.revision + 1 ∧
      (x.head.authorityEpoch = y.head.authorityEpoch ∨
        x.head.authorityEpoch = y.head.authorityEpoch + 1) ∧
      ∀ (op : ι) r, y.head.completedOperations[op]? = some r →
        x.head.completedOperations[op]? = some r := by
  obtain ⟨next,preserve,n,hw,-,hc⟩ := h
  obtain ⟨hre,hep⟩ := validateTransition_spec hc.transition
  obtain ⟨-,hr,he,-⟩ := hc.fields
  refine ⟨?_,?_,fun op r => hc.receipts⟩
  · have hb := hw.below
    rw [hr,hre,saturatingAdd]
    omega
  · rwa [he]

/-- The stored heads are one history: each counts one revision and at most one authority
epoch up and keeps every receipt, and no operation commits twice. -/
theorem HeadStore.heads_form_one_history {s : HeadStore ι δ}
    (h : Reachable (· = HeadStore.new) (HeadStore.step codec) (HeadStore.Meets belowTop) s) :
    (∀ n y x, s.heads[n]? = some y → s.heads[n + 1]? = some x →
      x.revision = y.revision + 1 ∧
      (x.authorityEpoch = y.authorityEpoch ∨ x.authorityEpoch = y.authorityEpoch + 1) ∧
      ∀ (op : ι) r, y.completedOperations[op]? = some r → x.completedOperations[op]? = some r) ∧
    (s.heads.map (·.operationId)).Nodup := by
  have hl := HeadStore.Linear.reachable (fun _ _ => nofun) h
  constructor
  · intro n y x hy hx
    simp only [HeadStore.heads,List.getElem?_map,Option.map_eq_some_iff] at hy hx
    obtain ⟨wy,hy,rfl⟩ := hy
    obtain ⟨wx,hx,rfl⟩ := hx
    exact (hl.follows hy hx).counts
  · rw [List.Nodup,HeadStore.heads,List.pairwise_map,List.pairwise_map,
      List.pairwise_iff_getElem]
    intro i j hi hj hij
    exact hl.operationId_ne hij (List.getElem?_eq_getElem hi) (List.getElem?_eq_getElem hj)

/-! ### A retry after a lost response -/

theorem Follows.update (h : Follows codec policy (some y) x) (hc : x.call = .update next) :
    ∃ pending : BTreeMap ι (PendingHandoffDescriptor ι),
      (∀ k : ι, pending[k]? =
        next.metadata.pendingHandoffs[k]?.or y.head.metadata.pendingHandoffs[k]?) ∧
      x.head.operationId = next.operationId ∧
      x.head.receipt = (next.withPending codec pending).receipt := by
  obtain ⟨next',preserve,n,⟨-,hi⟩,hn,hco⟩ := h
  rw [hc] at hi
  cases hi
  obtain ⟨pending,rfl,-,hg⟩ := preservePendingHandoffs_eq_ok.mp hn
  obtain ⟨ho,hr,he,-,hd⟩ := hco.fields
  refine ⟨pending,hg,ho,?_⟩
  rw [ControlHead.receipt,hr,he,hd]
  rfl

/-- An update whose operation has a receipt in the head it reads is answered from there, after that
head's claims were carried over. -/
theorem updateInner_answered (hd : Function.Injective codec.metadataDigest)
    {current expected next : ControlHead ι δ}
    (hv : validateSizeAndHead codec current = .ok ())
    (hr : current.completedOperations[next.operationId]? =
      some (next.withPending codec pending).receipt) :
    updateInner codec (some current) expected next true = .ok (.done current) ↔
      (∀ (k : ι) v w, current.metadata.pendingHandoffs[k]? = some v →
        next.metadata.pendingHandoffs[k]? = some w → w = v) ∧
      ∀ k : ι, pending[k]? =
        next.metadata.pendingHandoffs[k]?.or current.metadata.pendingHandoffs[k]? := by
  have hl : load codec (some current) = .ok current := load_eq_ok.mpr ⟨rfl,hv⟩
  simp only [updateInner,hl,Except.bind_eq_ok,prepareNext,if_true]
  constructor
  · rintro ⟨c,hc,n,hn,h⟩
    cases hc
    obtain ⟨carried,rfl,ha,hg⟩ := preservePendingHandoffs_eq_ok.mp hn
    refine ⟨ha,?_⟩
    have ho : (next.withPending codec carried).operationId = next.operationId := rfl
    rw [ho,hr] at h
    dsimp only at h
    split at h
    · rename_i hm
      cases (withPending_receipt_inj hd).mp hm
      exact hg
    · cases h
  · rintro ⟨ha,hg⟩
    refine ⟨current,rfl,_,preservePendingHandoffs_eq_ok.mpr ⟨pending,rfl,ha,hg⟩,?_⟩
    have ho : (next.withPending codec pending).operationId = next.operationId := rfl
    rw [ho,hr]
    exact if_pos ((withPending_receipt_inj hd).mpr rfl)

/-- The same update again, after its commit, returns the stored head if and only if it would carry
over the claims it carried over then. -/
theorem HeadStore.update_retry_returns_stored_head
    (hdigest : Function.Injective codec.metadataDigest) {s : HeadStore ι δ}
    (h : Reachable (· = HeadStore.new) (HeadStore.step codec) anyStep s)
    {i j : Nat} {y x z : HeadWrite ι δ} {next : ControlHead ι δ}
    (hy : s.writes[i]? = some y) (hx : s.writes[i + 1]? = some x) (hcall : x.call = .update next)
    (hij : i < j) (hz : s.writes[j]? = some z) :
    HeadStore.start codec (some z.head) y.head (.update next) = .ok (.done z.head) ↔
      ∀ stream : ι,
        (next.metadata.pendingHandoffs[stream]? = none →
          z.head.metadata.pendingHandoffs[stream]? = y.head.metadata.pendingHandoffs[stream]?) ∧
        ∀ d, next.metadata.pendingHandoffs[stream]? = some d →
          z.head.metadata.pendingHandoffs[stream]? = none ∨
            z.head.metadata.pendingHandoffs[stream]? = some d := by
  have hl : s.Linear codec fun _ _ => True :=
    HeadStore.Linear.reachable (fun _ _ => trivial) (h.mono fun _ a _ => by cases a <;> trivial)
  obtain ⟨pending,hg,ho,hr⟩ := (hl.follows hy hx).update hcall
  have hs := hl.own_receipt hij hx hz
  rw [ho,hr] at hs
  rw [HeadStore.start,updateInner_answered hdigest (hl.valid hz) hs,← forall_and]
  simp only [hg,carried_eq_iff]

section Examples

def plainCodec : HeadCodec Nat (ControlMetadata Nat) where
  empty := 0
  blank name := name = 0
  length _ := 1
  memberHash members := members.foldl (fun hash m => 10 * hash + m.1) 1
  manifestDigest _ := 1
  phaseId operation stream phase := 1000 * operation + 100 * stream + phase.length
  metadataDigest metadata := metadata
  blankDigest _ := false
  digestLength _ := 1
  encodedLength _ := 1

def plainHead (operationId revision : Nat) (metadata : ControlMetadata Nat) :
    ControlHead Nat (ControlMetadata Nat) where
  version := 1
  authorityEpoch := 1
  revision := revision
  operationId := operationId
  completedOperations := (∅ : BTreeMap Nat _).insert operationId ⟨1, revision, metadata⟩
  sourceMarker := ⟨1, 1, 1, metadata⟩
  metadataDigest := metadata
  metadata := metadata

def bootstrapMetadata : ControlMetadata Nat :=
  ⟨1, ∅, ∅, ⟨1, 0, 0, 0, 0, 0, 0, ∅, 0, 0, 0⟩, ∅⟩

/-- The first head and its successor. -/
theorem HeadStore.two_heads_form_one_history :
    ∃ s : HeadStore Nat (ControlMetadata Nat),
      Reachable (· = HeadStore.new) (HeadStore.step plainCodec) (HeadStore.Meets belowTop) s ∧
      s.heads.length = 2 ∧ (s.heads.map (·.operationId)).Nodup := by
  exact Reachable.exists_of_runs rfl
    [.call 0 (.create (plainHead 1 1 bootstrapMetadata)),
      .call 1 (.update (plainHead 2 2 bootstrapMetadata)),.resume 0] rfl
    fun hr => ⟨by decide,(HeadStore.heads_form_one_history hr).2⟩

/-- A head at the last revision is replaced by one of the same revision. -/
theorem HeadStore.last_revision_does_not_grow :
    ¬∀ s : HeadStore Nat (ControlMetadata Nat),
      Reachable (· = HeadStore.new) (HeadStore.step plainCodec) anyStep s →
      ∀ n y x, s.heads[n]? = some y → s.heads[n + 1]? = some x → x.revision = y.revision + 1 := by
  intro ha
  have hr := ha _ (.of_start rfl
    [.call 0 (.create (plainHead 1 u64Max bootstrapMetadata)),
      .call 1 (.update (plainHead 2 u64Max bootstrapMetadata)),.resume 0] rfl)
  exact absurd (hr 0 _ _ rfl rfl) (by decide)

/-- The update of the second head, retried after a third one. -/
theorem HeadStore.update_retry_after_another_update :
    ∃ (s : HeadStore Nat (ControlMetadata Nat)) (y z : HeadWrite Nat (ControlMetadata Nat)),
      Reachable (· = HeadStore.new) (HeadStore.step plainCodec) anyStep s ∧
      s.writes[0]? = some y ∧ s.writes[2]? = some z ∧
      HeadStore.start plainCodec (some z.head) y.head (.update (plainHead 2 2 bootstrapMetadata)) =
        .ok (.done z.head) := by
  have hs : Reachable (· = HeadStore.new) (HeadStore.step plainCodec) anyStep _ := .start rfl
  have hr := hs.of_runs
    [.call 0 (.create (plainHead 1 1 bootstrapMetadata)),
      .call 1 (.update (plainHead 2 2 bootstrapMetadata)),.resume 0,
      .call 2 (.update (plainHead 3 3 bootstrapMetadata)),.resume 1] rfl
  refine ⟨_,_,_,hr,rfl,rfl,?_⟩
  rw [HeadStore.update_retry_returns_stored_head Function.injective_id hr rfl rfl rfl
    (Nat.zero_lt_succ 1) rfl]
  intro stream
  exact ⟨fun _ => rfl,nofun⟩

def plainMember (id cohortId : Nat) (status : MemberStatus) : DurableMember Nat :=
  ⟨id, id, status, cohortId, 0, 0, 0, 0, 0, 0⟩

def targetMembers : List (DurableMember Nat) :=
  [plainMember 4 2 .joining, plainMember 5 2 .joining, plainMember 6 2 .joining]

def sourceRange : StreamSegment Nat := ⟨1, none, 1, [1, 2, 3], 1123, 1, 1, 1, 7, 0, 0⟩

def routedMetadata : ControlMetadata Nat where
  membershipEpoch := 1
  members := .ofList
    [(1, plainMember 1 1 .active), (2, plainMember 2 1 .active), (3, plainMember 3 1 .active),
      (4, plainMember 4 2 .joining), (5, plainMember 5 2 .joining), (6, plainMember 6 2 .joining)]
  cohorts := .ofList
    [(1, DurableCohort.mk 1 [1, 2, 3] .active 0 0), (2, DurableCohort.mk 2 [4, 5, 6] .joining 0 0)]
  manifest := ⟨1, 1, 1, 1, 1, 1123, 0, .ofList [(1, [sourceRange]), (2, [sourceRange])], 7, 0, 0⟩
  pendingHandoffs := ∅

def plainClaim (stream : Nat) : PendingHandoffDescriptor Nat :=
  ⟨9, stream, sourceRange, 2, targetMembers, 1456, 0, 0, 1, ⟨2, 1⟩, 3, none, .prepared, none, none⟩

/-- A claim on a stream between an update and its retry makes the retry a conflict. -/
theorem HeadStore.claim_breaks_an_update_retry :
    ¬∀ (s : HeadStore Nat (ControlMetadata Nat)) (i j : Nat)
        (y x z : HeadWrite Nat (ControlMetadata Nat)) (next : ControlHead Nat (ControlMetadata Nat)),
      Reachable (· = HeadStore.new) (HeadStore.step plainCodec) anyStep s →
      s.writes[i]? = some y → s.writes[i + 1]? = some x → x.call = .update next → i < j →
      s.writes[j]? = some z →
      HeadStore.start plainCodec (some z.head) y.head (.update next) = .ok (.done z.head) := by
  intro ha
  have hr := ha _ 0 2 _ _ _ _ (.of_start rfl
    [.call 0 (.create (plainHead 1 1 routedMetadata)),
      .call 1 (.update (plainHead 2 2 routedMetadata)),.resume 0,
      .call 2 (.claim (plainClaim 1)),.resume 1,.resume 2] rfl) rfl rfl rfl (by decide) rfl
  exact absurd hr (by decide)

end Examples

end Walleye.Control
