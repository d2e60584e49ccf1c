import Walleye.Control.Store

namespace Walleye.Control

open Walleye.Base Walleye.Base.BTreeMap
open Walleye.Engine (u64Max saturatingAdd)

variable {ι δ : Type} [LinearOrder ι] {codec : HeadCodec ι δ}

/-! ### What the functions of the store return -/

theorem preservePendingHandoffs_eq_ok :
    preservePendingHandoffs codec current next = .ok n ↔
      ∃ pending : BTreeMap ι (PendingHandoffDescriptor ι), n = next.withPending codec pending ∧
        (∀ (k : ι) v w, current.metadata.pendingHandoffs[k]? = some v →
          next.metadata.pendingHandoffs[k]? = some w → w = v) ∧
        ∀ k : ι, pending[k]? =
          next.metadata.pendingHandoffs[k]?.or current.metadata.pendingHandoffs[k]? := by
  simp only [preservePendingHandoffs,Except.bind_eq_ok,Except.ok.injEq,carryForward_eq_ok]
  constructor
  · rintro ⟨pending,hp,rfl⟩
    exact ⟨pending,rfl,hp⟩
  · rintro ⟨pending,rfl,hp⟩
    exact ⟨pending,hp,rfl⟩

theorem pendingOperationId_eq_ok (h : pendingOperationId codec operationId stream phase = .ok op) :
    op = codec.phaseId operationId stream phase := by
  simp only [pendingOperationId,guard_ok,Except.ok.injEq] at h
  exact h.2.symm

variable {operation : ι} {call : HeadCall ι δ}

theorem replayStage_eq_ok
    (h : replayStage current existing d operation = .ok reply) : reply = .done current := by
  simp only [replayStage] at h
  split at h
  · split at h
    · exact (Except.ok.inj h).symm
    · cases h
  · split at h
    · split at h
      · exact (Except.ok.inj h).symm
      · cases h
    · cases h

theorem HeadStore.stored_eq_some {s : HeadStore ι δ} (h : s.stored = some current) :
    ∃ y, valueAt s.writes s.writes.length = some y ∧ y.head = current := by
  rw [valueAt_length]
  exact Option.map_eq_some_iff.mp h

variable [DecidableEq δ]

theorem load_eq_ok :
    load codec stored = .ok current ↔
      stored = some current ∧ validateSizeAndHead codec current = .ok () := by
  unfold load validateSizeAndHead
  cases stored with
  | none => simp
  | some head =>
    simp only [guard_ok,Except.bind_eq_ok,Except.ok.injEq,Option.some.injEq,and_true]
    constructor
    · rintro ⟨hs,u,hv,rfl⟩
      exact ⟨rfl,u,hv,hs⟩
    · rintro ⟨rfl,u,hv,hs⟩
      exact ⟨hs,u,hv,rfl⟩

theorem validateSizeAndHead_spec (h : validateSizeAndHead codec head = .ok ()) : head.Valid codec := by
  obtain ⟨u,hv,-⟩ := Except.bind_eq_ok.mp h
  exact ControlHead.validate_spec codec hv

theorem validateExpected_eq_ok {expected current : ControlHead ι δ} :
    validateExpected expected current = .ok u ↔ expected = current := by
  simp only [validateExpected,guard_ok,ne_eq,not_not,and_true]
  constructor
  · exact fun h => h.2
  · rintro rfl
    exact ⟨rfl,rfl⟩

theorem validateTransition_spec {current next : ControlHead ι δ}
    (h : validateTransition current next = .ok u) :
    next.revision = saturatingAdd current.revision 1 ∧
      (next.authorityEpoch = current.authorityEpoch ∨
        next.authorityEpoch = current.authorityEpoch + 1) := by
  simp only [validateTransition,guard_ok,ne_eq,not_not,not_lt,not_and] at h
  obtain ⟨hr,hl,hn,-⟩ := h
  refine ⟨hr,?_⟩
  rcases Nat.eq_or_lt_of_le hl with he | hlt
  · exact .inl he.symm
  · have hs := hn hlt
    have : saturatingAdd current.authorityEpoch 1 ≤ current.authorityEpoch + 1 :=
      Nat.min_le_left _ _
    exact .inr (by omega)

structure Committed (codec : HeadCodec ι δ) (current next x : ControlHead ι δ) : Prop where
  fresh : current.completedOperations[next.operationId]? = none
  transition : validateTransition current next = .ok ()
  merged : next.mergeCompletedOperations codec current = .ok x
  valid : validateSizeAndHead codec x = .ok ()

theorem mergeCompletedOperations_spec {current next x : ControlHead ι δ}
    (h : next.mergeCompletedOperations codec current = .ok x) :
    (∀ (op : ι) v w, current.completedOperations[op]? = some v →
        next.completedOperations[op]? = some w → w = v) ∧
      ∃ receipts : BTreeMap ι (ControlOperationReceipt δ),
        (∀ op : ι, receipts[op]? =
          next.completedOperations[op]?.or current.completedOperations[op]?) ∧
        x = { next with completedOperations := receipts.insert next.operationId next.receipt } := by
  simp only [ControlHead.mergeCompletedOperations,Except.bind_eq_ok,Except.ok.injEq] at h
  obtain ⟨receipts,hr,u,-,rfl⟩ := h
  obtain ⟨ha,hg⟩ := carryForward_eq_ok.mp hr
  exact ⟨ha,receipts,hg,rfl⟩

variable {current next x : ControlHead ι δ}

theorem Committed.fields (h : Committed codec current next x) :
    x.operationId = next.operationId ∧ x.revision = next.revision ∧
      x.authorityEpoch = next.authorityEpoch ∧ x.metadata = next.metadata ∧
      x.metadataDigest = next.metadataDigest := by
  obtain ⟨-,receipts,-,rfl⟩ := mergeCompletedOperations_spec h.merged
  exact ⟨rfl,rfl,rfl,rfl,rfl⟩

theorem Committed.receipts (h : Committed codec current next x) {op : ι}
    (hr : current.completedOperations[op]? = some r) :
    x.completedOperations[op]? = some r := by
  obtain ⟨ha,receipts,hg,rfl⟩ := mergeCompletedOperations_spec h.merged
  have hne : next.operationId ≠ op := by
    rintro rfl
    rw [h.fresh] at hr
    cases hr
  simp only [Std.ExtTreeMap.getElem?_insert,compare_eq_iff_eq,hne,if_false,hg]
  cases hn : next.completedOperations[op]? with
  | none => simpa using hr
  | some w => simp [ha op r w hr hn]

theorem Committed.new_operation (h : Committed codec current next x) :
    current.completedOperations[x.operationId]? = none := by
  rw [h.fields.1]
  exact h.fresh

theorem headWithMetadata_spec (h : headWithMetadata codec current metadata operation = .ok next) :
    current.revision < u64Max ∧ next.operationId = operation ∧ next.metadata = metadata := by
  simp only [headWithMetadata,guard_ok,Nat.not_le,ControlHead.new,Except.bind_eq_ok,
    Except.ok.injEq] at h
  obtain ⟨hl,u,-,rfl⟩ := h
  exact ⟨hl,rfl,rfl⟩

/-! ### The head each call puts -/

/-- The head a call puts over the one it read, and whether it first takes over the claims
of that one. -/
inductive Intends (codec : HeadCodec ι δ) :
    HeadCall ι δ → ControlHead ι δ → ControlHead ι δ → Bool → Prop
  | update {current next : ControlHead ι δ} : Intends codec (.update next) current next true
  | claim {current next : ControlHead ι δ} {d : PendingHandoffDescriptor ι} :
      d.stage = .prepared → current.metadata.pendingHandoffs[d.stream]? = none →
      current.completedOperations[codec.phaseId d.operationId d.stream "claim"]? = none →
      headWithMetadata codec current { current.metadata with
          pendingHandoffs := current.metadata.pendingHandoffs.insert d.stream d }
        (codec.phaseId d.operationId d.stream "claim") = .ok next →
      Intends codec (.claim d) current next false
  | advance {current next : ControlHead ι δ} {d existing : PendingHandoffDescriptor ι}
      {operation : ι} : current.metadata.pendingHandoffs[d.stream]? = some existing →
      existing.ImmutableEq d → existing.stage.rank < d.stage.rank →
      headWithMetadata codec current { current.metadata with
          pendingHandoffs := current.metadata.pendingHandoffs.insert d.stream d }
        operation = .ok next →
      Intends codec (.advance d) current next false
  | publish {current next : ControlHead ι δ} {metadata : ControlMetadata ι}
      {d existing : PendingHandoffDescriptor ι} {operation : ι} :
      metadata.pendingHandoffs[d.stream]? = some d →
      current.metadata.pendingHandoffs[d.stream]? = some existing →
      existing.ImmutableEq d → existing.stage.rank < d.stage.rank →
      headWithMetadata codec current metadata operation = .ok next →
      Intends codec (.publish metadata d) current next false
  | complete {current next : ControlHead ι δ} {existing : PendingHandoffDescriptor ι}
      {stream operation : ι} : current.metadata.pendingHandoffs[stream]? = some existing →
      existing.stage = .routePublished →
      validateHandoffAgainstMetadata codec current.metadata existing true = .ok () →
      headWithMetadata codec current { current.metadata with
          pendingHandoffs := current.metadata.pendingHandoffs.erase stream }
        operation = .ok next →
      Intends codec (.complete stream existing.operationId) current next false

abbrev Policy (ι δ : Type) [LinearOrder ι] := Option (ControlHead ι δ) → HeadCall ι δ → Prop

structure Wants (codec : HeadCodec ι δ) (policy : Policy ι δ) (call : HeadCall ι δ)
    (current next : ControlHead ι δ) (preserve : Bool) : Prop where
  allowed : policy (some current) call
  intends : Intends codec call current next preserve

def Remembers (call : HeadCall ι δ) (a : Advance ι) : Prop :=
  call = .advance a.descriptor ∧ a.observed.ImmutableEq a.descriptor ∧
    a.observed.stage.rank < a.descriptor.stage.rank

inductive Leaves (codec : HeadCodec ι δ) (policy : Policy ι δ) (stored : Option (ControlHead ι δ))
    (expected : ControlHead ι δ) (call : HeadCall ι δ) : Reply ι δ → Prop
  | done (current : ControlHead ι δ) : Leaves codec policy stored expected call (.done current)
  | put {next n x : ControlHead ι δ} {preserve : Bool} :
      stored = some expected → Wants codec policy call expected next preserve →
      prepareNext codec preserve expected next = .ok n → Committed codec expected n x →
      Leaves codec policy stored expected call (.put x)
  | exact {current next : ControlHead ι δ} {retry : Option (Advance ι)} :
      stored = some current → Wants codec policy call current next false →
      (∀ a ∈ retry, Remembers call a) → Leaves codec policy stored expected call (.exact next retry)
  | rebase {a : Advance ι} : Remembers call a → Leaves codec policy stored expected call (.rebase a)

variable {policy : Policy ι δ} {stored : Option (ControlHead ι δ)}

theorem updateInner_leaves {preserve : Bool}
    (hw : stored = some expected → Wants codec policy call expected next preserve)
    (h : updateInner codec stored expected next preserve = .ok reply) :
    Leaves codec policy stored expected call reply := by
  simp only [updateInner,Except.bind_eq_ok] at h
  obtain ⟨current,hl,n,hn,h⟩ := h
  split at h
  · split at h
    · cases h
      exact .done current
    · cases h
  · rename_i hf
    simp only [Except.bind_eq_ok] at h
    obtain ⟨u,he,u',ht,x,hm,u'',hv,hx⟩ := h
    cases hx
    cases validateExpected_eq_ok.mp he
    have hs := (load_eq_ok.mp hl).1
    exact .put hs (hw hs) hn ⟨hf,ht,hm,hv⟩

theorem reconcileLostPut_leaves (h : reconcileLostPut codec stored next = .ok reply) :
    Leaves codec policy stored expected call reply := by
  simp only [reconcileLostPut,Except.bind_eq_ok] at h
  obtain ⟨latest,-,h⟩ := h
  split at h
  · cases h
    exact .done latest
  · cases h

variable {d : PendingHandoffDescriptor ι}

theorem claimPendingHandoff_leaves
    (hp : ∀ current, stored = some current → policy (some current) (.claim d))
    (h : claimPendingHandoff codec stored expected d = .ok reply) :
    Leaves codec policy stored expected (.claim d) reply := by
  simp only [claimPendingHandoff,guard_ok,Except.bind_eq_ok,ne_eq,not_not] at h
  obtain ⟨-,-,hs,current,hl,op,ho,h⟩ := h
  cases pendingOperationId_eq_ok ho
  split at h
  · split at h
    · cases h
      exact .done current
    · cases h
  · rename_i hno
    simp only [guard_ok,Except.bind_eq_ok] at h
    obtain ⟨hf,-,-,-,-,n,hn,hx⟩ := h
    cases hx
    have hsto := (load_eq_ok.mp hl).1
    refine .exact hsto ⟨hp current hsto,.claim hs hno ?_ hn⟩ (by simp)
    simpa using hf

theorem advancedHead_leaves
    (hp : ∀ current, stored = some current → policy (some current) (.advance d))
    (hs : stored = some current)
    (hc : current.metadata.pendingHandoffs[d.stream]? = some existing)
    (hsa : existing.ImmutableEq d) (hr : existing.stage.rank < d.stage.rank)
    (hre : ∀ a ∈ retry, Remembers (.advance d : HeadCall ι δ) a)
    (h : advancedHead codec current d operation retry = .ok reply) :
    Leaves codec policy stored expected (.advance d) reply := by
  simp only [advancedHead,Except.bind_eq_ok] at h
  obtain ⟨-,-,n,hn,hx⟩ := h
  cases hx
  exact .exact hs ⟨hp current hs,.advance hc hsa hr hn⟩ hre

theorem advancePendingHandoff_leaves
    (hp : ∀ current, stored = some current → policy (some current) (.advance d))
    (h : advancePendingHandoff codec stored expected d = .ok reply) :
    Leaves codec policy stored expected (.advance d) reply := by
  simp only [advancePendingHandoff,guard_ok,Except.bind_eq_ok] at h
  obtain ⟨-,-,-,current,hl,op,-,h⟩ := h
  split at h
  · split at h
    · cases h
      exact .done current
    · cases h
  · rename_i existing hc
    simp only [guard_ok,not_not] at h
    obtain ⟨-,hs,h⟩ := h
    split at h
    · cases replayStage_eq_ok h
      exact .done current
    · rename_i hr
      have hre : Remembers (.advance d : HeadCall ι δ) ⟨d,op,existing⟩ :=
        ⟨rfl,hs,Nat.lt_of_not_le hr⟩
      split at h
      · cases h
        exact .rebase hre
      · cases h
      · refine advancedHead_leaves hp (load_eq_ok.mp hl).1 hc hs hre.2.2 ?_ h
        intro a ha
        cases ha
        exact hre

theorem rebasePendingHandoffAdvance_leaves
    (hp : ∀ current, stored = some current → policy (some current) (.advance a.descriptor))
    (ha : Remembers call a) (h : rebasePendingHandoffAdvance codec stored a = .ok reply) :
    Leaves codec policy stored expected call reply := by
  obtain ⟨rfl,hs,hr⟩ := ha
  simp only [rebasePendingHandoffAdvance,Except.bind_eq_ok] at h
  obtain ⟨latest,hl,h⟩ := h
  split at h
  · cases h
  · rename_i claim hc
    simp only [guard_ok] at h
    obtain ⟨-,h⟩ := h
    split at h
    · cases h
      exact .done latest
    · split at h
      · split at h <;> cases h
      · rename_i ho
        rw [not_not] at ho
        subst ho
        exact advancedHead_leaves hp (load_eq_ok.mp hl).1 hc hs hr (by simp) h

theorem publishPendingHandoff_leaves
    (hp : ∀ current, stored = some current → policy (some current) (.publish metadata d))
    (h : publishPendingHandoff codec stored expected metadata d = .ok reply) :
    Leaves codec policy stored expected (.publish metadata d) reply := by
  simp only [publishPendingHandoff,guard_ok,Except.bind_eq_ok,ne_eq,not_not] at h
  obtain ⟨-,-,-,hm,current,hl,h⟩ := h
  split at h
  · cases h
  · rename_i existing hc
    simp only [guard_ok,Except.bind_eq_ok] at h
    obtain ⟨-,op,-,h⟩ := h
    split at h
    · cases h
      exact .done current
    · simp only [guard_ok,Except.bind_eq_ok,not_or,not_not,Nat.not_le] at h
      obtain ⟨⟨hs,hr,-⟩,-,-,-,-,n,hn,hx⟩ := h
      cases hx
      have hst := (load_eq_ok.mp hl).1
      exact .exact hst
        ⟨hp current hst,.publish hm hc hs hr hn⟩ (by simp)

theorem completePendingHandoff_leaves (hp : ∀ current, stored = some current →
      policy (some current) (.complete stream operationId))
    (h : completePendingHandoff codec stored expected stream operationId = .ok reply) :
    Leaves codec policy stored expected (.complete stream operationId) reply := by
  simp only [completePendingHandoff,Except.bind_eq_ok] at h
  obtain ⟨current,hl,op,-,h⟩ := h
  split at h
  · split at h
    · cases h
      exact .done current
    · cases h
  · rename_i existing hc
    simp only [guard_ok,Except.bind_eq_ok,ne_eq,not_not] at h
    obtain ⟨ho,hs,-,-,u,hr,n,hn,hx⟩ := h
    cases hx
    subst ho
    have hsto := (load_eq_ok.mp hl).1
    exact .exact hsto ⟨hp current hsto,.complete hc hs hr hn⟩ (by simp)

theorem start_leaves (hp : ∀ current, stored = some current → policy (some current) call)
    (h : HeadStore.start codec stored expected call = .ok reply) :
    Leaves codec policy stored expected call reply := by
  cases call with
  | create head => cases h
  | update next => exact updateInner_leaves (fun hs => ⟨hp expected hs,.update⟩) h
  | claim d => exact claimPendingHandoff_leaves hp h
  | advance d => exact advancePendingHandoff_leaves hp h
  | publish metadata d => exact publishPendingHandoff_leaves hp h
  | complete stream operationId => exact completePendingHandoff_leaves hp h

/-! ### Every write of a run -/

def Follows (codec : HeadCodec ι δ) (policy : Policy ι δ) :
    Option (HeadWrite ι δ) → HeadWrite ι δ → Prop
  | none, w => w.call = .create w.head ∧ policy none w.call ∧
      validateSizeAndHead codec w.head = .ok ()
  | some y, w => ∃ next preserve n, Wants codec policy w.call y.head next preserve ∧
      prepareNext codec preserve y.head next = .ok n ∧ Committed codec y.head n w.head

namespace HeadStore

def Grounded (codec : HeadCodec ι δ) (policy : Policy ι δ) (writes : List (HeadWrite ι δ))
    (task : HeadTask ι δ) : Prop :=
  match task.phase with
  | .exact next retry => (∀ a ∈ retry, Remembers task.call a) ∧ task.seen ≤ writes.length ∧
      ∃ y, valueAt writes task.seen = some y ∧ Wants codec policy task.call y.head next false
  | .put next retry => (∀ a ∈ retry, Remembers task.call a) ∧
      (∃ y, valueAt writes task.seen = some y) ∧
      Pending (Follows codec policy) writes task.seen ⟨next, task.call⟩
  | .rebase a => Remembers task.call a

structure Linear (codec : HeadCodec ι δ) (policy : Policy ι δ) (s : HeadStore ι δ) : Prop where
  history : History (Follows codec policy) s.writes
  tasks : ∀ t ∈ s.tasks, Grounded codec policy s.writes t

/-- A call stays grounded as writes are added. -/
theorem Grounded.append {writes : List (HeadWrite ι δ)}
    (h : Grounded codec policy writes t) (more : List (HeadWrite ι δ)) :
    Grounded codec policy (writes ++ more) t := by
  unfold Grounded at h ⊢
  split
  · rename_i next retry hp
    simp only [hp] at h
    obtain ⟨hr,hs,y,hy,hw⟩ := h
    refine ⟨hr,?_,y,?_,hw⟩
    · rw [List.length_append]
      omega
    · rw [valueAt_append hs,hy]
  · rename_i next retry hp
    simp only [hp] at h
    obtain ⟨hr,⟨y,hy⟩,hpe⟩ := h
    exact ⟨hr,⟨y,by rw [valueAt_append hpe.known,hy]⟩,hpe.append more⟩
  · rename_i a hp
    simpa only [hp] using h

variable {s s' : HeadStore ι δ}

theorem Linear.push (h : s.Linear codec policy)
    (ht : Grounded codec policy s.writes ⟨call,seen,phase⟩) :
    (s.push call seen phase).Linear codec policy where
  history := h.history
  tasks := by
    intro t hm
    rcases List.mem_append.mp hm with hm | hm
    · exact h.tasks t hm
    · cases List.mem_singleton.mp hm
      exact ht

theorem Linear.put (h : s.Linear codec policy) {seen : Nat}
    {writes : List (HeadWrite ι δ)} (hw : Pending (Follows codec policy) s.writes seen w)
    (hp : putIf s.writes seen w = some writes) :
    Linear codec policy { s with writes := writes } where
  history := h.history.putIf hw hp
  tasks := by
    obtain ⟨-,rfl⟩ := putIf_eq_some.mp hp
    intro t ht
    exact (h.tasks t ht).append [w]

/-- A call that answers, or prepares its put, keeps the history linear. -/
theorem Linear.follow (h : s.Linear codec policy) {call : HeadCall ι δ}
    (hr : ∀ a ∈ retry, Remembers call a) (hs : s.stored = some expected → seen ≤ s.writes.length ∧
      ∃ y, valueAt s.writes seen = some y ∧ y.head = expected)
    (hlea : ∀ reply, result = .ok reply → Leaves codec policy s.stored expected call reply) :
    (s.follow call seen retry result).Linear codec policy := by
  unfold HeadStore.follow
  split
  · exact h
  · rename_i x
    cases hlea _ rfl with
    | put hst hw hn hc =>
      obtain ⟨hl,y,hy,rfl⟩ := hs hst
      refine h.push ⟨hr,⟨y,hy⟩,hl,?_⟩
      rw [hy]
      exact ⟨_,_,_,hw,hn,hc⟩
  · rename_i next again
    cases hlea _ rfl with
    | exact hst hw hag =>
      obtain ⟨y,hy,rfl⟩ := stored_eq_some hst
      exact h.push ⟨hag,Nat.le_refl _,y,hy,hw⟩
  · rename_i a
    cases hlea _ rfl with
    | rebase ha => exact h.push ha
  · split
    · rename_i a
      exact h.push (hr a rfl)
    · exact h
  · exact h

def Meets (policy : Policy ι δ) (s : HeadStore ι δ) : HeadStep ι δ → Prop
  | .call _ call => policy s.stored call
  | .resume _ => True

instance [∀ stored, DecidablePred (policy stored)] (s : HeadStore ι δ) :
    DecidablePred (s.Meets policy)
  | .call _ call => inferInstanceAs (Decidable (policy s.stored call))
  | .resume _ => .isTrue trivial

section Run

variable (hadvance : ∀ current d, policy (some current) (.advance d))

include hadvance

/-- A put that lands extends the history by one write. -/
theorem Linear.resume (h : s.Linear codec policy) {t : HeadTask ι δ} (ht : t ∈ s.tasks)
    (hs : s.resume codec t = some s') : s'.Linear codec policy := by
  have hg := h.tasks t ht
  unfold HeadStore.resume at hs
  unfold Grounded at hg
  split at hs
  · rename_i next retry hp
    simp only [hp] at hg
    obtain ⟨hr,hse,y,hy,hw⟩ := hg
    rw [hy] at hs
    cases hs
    exact h.follow hr (fun _ => ⟨hse,y,hy,rfl⟩) fun _ => updateInner_leaves fun _ => hw
  · rename_i next retry hp
    simp only [hp] at hg
    obtain ⟨hr,⟨y,hy⟩,hpe⟩ := hg
    split at hs
    · rename_i writes hpu
      cases hs
      exact h.put hpe hpu
    · cases hs
      exact h.follow hr (fun _ => ⟨hpe.known,y,hy,rfl⟩) fun _ => reconcileLostPut_leaves
  · rename_i a hp
    simp only [hp] at hg
    cases hs
    cases hst : s.stored with
    | none => simpa [rebasePendingHandoffAdvance,load,Except.bind,HeadStore.follow] using h
    | some current =>
      rw [← hst]
      exact h.follow (by simp) (fun _ => ⟨Nat.le_refl _,stored_eq_some hst⟩) fun _ =>
        rebasePendingHandoffAdvance_leaves (fun current _ => hadvance current _) hg

/-- Every step keeps the history linear. -/
theorem Linear.step (h : s.Linear codec policy) {a : HeadStep ι δ} (ho : s.Meets policy a)
    (hs : s.step codec a = some s') : s'.Linear codec policy := by
  cases a with
  | resume i =>
    obtain ⟨t,ht,hs⟩ := Option.bind_eq_some_iff.mp hs
    exact h.resume hadvance (List.mem_of_getElem? ht) hs
  | call seen call =>
    cases call with
    | create head =>
      simp only [HeadStore.step,HeadStore.create] at hs
      split at hs
      · cases hs
      · rename_i u hv
        obtain ⟨writes,hp,rfl⟩ := Option.map_eq_some_iff.mp hs
        have he : s.writes = [] := List.length_eq_zero_iff.mp (putIf_eq_some.mp hp).1
        have hn : policy none (.create head) := by
          simpa [HeadStore.Meets,HeadStore.stored,he] using ho
        exact h.put ⟨Nat.zero_le _,rfl,hn,hv⟩ hp
    | _ =>
      simp only [HeadStore.step] at hs
      obtain ⟨y,hy,rfl⟩ := Option.map_eq_some_iff.mp hs
      refine h.follow (by simp) (fun _ => ⟨le_of_valueAt hy,y,hy,rfl⟩) fun _ =>
        start_leaves fun current hst => ?_
      rw [← hst]
      exact ho

theorem Linear.reachable
    (h : Reachable (· = HeadStore.new) (HeadStore.step codec) (HeadStore.Meets policy) s) :
    s.Linear codec policy := by
  apply h.invariant
  · rintro s rfl
    exact ⟨.nil,by simp [HeadStore.new]⟩
  · intro s a s' hl ho hs
    exact hl.step hadvance ho hs

end Run

end HeadStore

end Walleye.Control
