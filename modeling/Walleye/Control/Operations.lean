import Walleye.Control.Steps

namespace Walleye.Control

open Walleye.Base Walleye.Base.BTreeMap
open Walleye.Bitr (ReplicaError)

variable {ι : Type} [LinearOrder ι] {naming : ControlNaming ι}

section Later

variable {state next : DurableControlState ι}

structure Later (state next : DurableControlState ι) : Prop where
  epoch : state.membershipEpoch ≤ next.membershipEpoch
  revision : state.manifestRevision < next.manifestRevision ∨
    (next.manifestRevision = state.manifestRevision ∧ next.manifestDigest = state.manifestDigest)

theorem Later.refl (state : DurableControlState ι) : Later state state :=
  ⟨Nat.le_refl _,.inr ⟨rfl,rfl⟩⟩

theorem ValidControl.currentDigest_eq (h : ValidControl naming state)
    (hr : state.manifestRevision ≠ 0) :
    currentDigest naming state = state.manifestDigest := by
  have hd := h.digest (Nat.pos_of_ne_zero hr)
  unfold currentDigest
  rw [if_neg]
  rw [hd]
  exact naming.manifestDigest_ne_empty _

section Change

variable {request : MembershipCasRequest ι} {segments : StreamRanges ι}

theorem ChangesMembership.candidate_same
    (h : ChangesMembership naming state request named members epoch revision segments reconciled)
    (hs : ¬state.manifestRevision < revision) :
    candidateState naming state request members epoch revision segments =
      stageMembership state request members epoch := by
  obtain ⟨-,hse⟩ := (nextRoutes_cases h.routes).resolve_left hs
  rw [candidateState,if_neg hs,hse]
  rfl

theorem bindManifest_newer (naming : ControlNaming ι) (request : MembershipCasRequest ι)
    (reconciled : DurableControlState ι) (segments : StreamRanges ι)
    (h : state.manifestRevision < revision) :
    bindManifest naming state reconciled request revision segments =
      recordManifest reconciled
        (nextManifest naming reconciled revision request.operationId segments) :=
  if_pos h

theorem bindManifest_same (naming : ControlNaming ι) (request : MembershipCasRequest ι)
    (reconciled : DurableControlState ι) (segments : StreamRanges ι)
    (h : ¬state.manifestRevision < revision) :
    (bindManifest naming state reconciled request revision segments).manifestRevision =
        reconciled.manifestRevision ∧
      (bindManifest naming state reconciled request revision segments).manifestDigest =
        reconciled.manifestDigest ∧
      (bindManifest naming state reconciled request revision segments).streamSegments =
        reconciled.streamSegments := by
  unfold bindManifest
  simp only [if_neg h]
  split <;> exact ⟨rfl,rfl,rfl⟩

theorem ChangesMembership.epoch_frame
    (h : ChangesMembership naming state request named members epoch revision segments reconciled) :
    (bindManifest naming state reconciled request revision segments).membershipEpoch = epoch := by
  obtain ⟨-,-,he,-⟩ :=
    bindManifest_frame naming state reconciled request revision segments
  obtain ⟨_,_,_,_,_,_,_,rfl⟩ := reconcileCohorts_frame h.reconciles
  refine he.trans ?_
  show (candidateState naming state request members epoch revision segments).membershipEpoch = epoch
  unfold candidateState
  simp only
  split <;> rfl

/-- A membership change goes to a later document. -/
theorem ChangesMembership.state_later
    (h : ChangesMembership naming state request named members epoch revision segments reconciled)
    (hv : ValidControl naming state) (hsta : ValidControl naming
      (bindManifest naming state reconciled request revision segments)) :
    Later state (bindManifest naming state reconciled request revision segments) := by
  constructor
  · have hl := h.later
    have he := h.expected
    rw [h.epoch_frame]
    omega
  · by_cases hnew : state.manifestRevision < revision
    · rw [bindManifest_newer naming request reconciled segments hnew]
      exact .inl hnew
    · obtain ⟨hr,hd,-⟩ := bindManifest_same naming request reconciled segments
        hnew
      have hrec := h.reconciles
      rw [h.candidate_same hnew] at hrec
      by_cases hz : state.manifestRevision = 0
      · by_cases hs : (bindManifest naming state reconciled request revision
            segments).manifestRevision = 0
        · refine .inr ⟨hs.trans hz.symm,?_⟩
          rw [hsta.noDigest hs,hv.noDigest hz]
        · exact .inl (by omega)
      · obtain ⟨hk,hkep,-⟩ := reconcileCohorts_manifest hrec hz
        have hn : state.manifestDigest ≠ naming.empty := by
          rw [hv.digest (Nat.pos_of_ne_zero hz)]
          exact naming.manifestDigest_ne_empty _
        exact .inr ⟨hr.trans hk,hd.trans (hkep hn)⟩

end Change

end Later

section Recorded

def CurrentRecorded (naming : ControlNaming ι) (state : DurableControlState ι) : Prop :=
  state.manifestRevision ≠ 0 → naming.blank state.manifestOperationId = false ∧
    ∃ manifest, state.manifestOperations[state.manifestOperationId]? = some manifest ∧
      manifest.revision = state.manifestRevision

structure Recorded (naming : ControlNaming ι) (state : DurableControlState ι) : Prop where
  valid : ValidControl naming state
  unrouted : state.manifestRevision = 0 → state.streamSegments = ∅
  current : CurrentRecorded naming state

theorem recordManifest_current (naming : ControlNaming ι) (state : DurableControlState ι)
    (manifest : ReplicaManifest ι) (operations : BTreeMap ι (MembershipSnapshot ι))
    (ho : naming.blank manifest.operationId = false) :
    CurrentRecorded naming (pruneOperationRecords naming
      { recordManifest state manifest with operations := operations }) := by
  intro _
  refine ⟨ho,manifest,?_,rfl⟩
  exact (pruneRecords_keep _ _ _).trans Std.ExtTreeMap.getElem?_insert_self

section Manifest

variable {state next : DurableControlState ι} {request : ManifestCasRequest ι}

theorem Installs.recorded
    (h : Installs naming state request revision answer next) (hr : revision ≠ 0) :
    Recorded naming next where
  valid := validateControlState_eq_ok.mp h.valid
  unrouted hz := absurd (h.manifestRevision_eq.symm.trans hz) hr
  current := by
    rw [h.result,h.manifest]
    exact recordManifest_current naming state
      (nextManifest naming state revision request.operationId request.streamSegments)
      state.operations h.named

theorem ManifestCas.recorded (h : ManifestCas naming state request answer next)
    (hs : Recorded naming state) : Recorded naming next := by
  cases h with
  | replayed _ => exact hs
  | held _ _ _ _ _ => exact hs
  | repaired _ hz _ _ hi => exact hi.recorded hz
  | advanced _ _ _ _ _ _ hi => exact hi.recorded (Nat.succ_ne_zero _)

/-- Only the request's own id is recorded anew. -/
theorem ManifestCas.records (h : ManifestCas naming state request answer next) {id : ι}
    (hi : next.operations[id]? ≠ none ∨ next.manifestOperations[id]? ≠ none) :
    id = request.operationId ∨ state.operations[id]? ≠ none ∨
      state.manifestOperations[id]? ≠ none := by
  cases h.installs with
  | inl he => exact .inr (he ▸ hi)
  | inr hin =>
    obtain ⟨revision,hin⟩ := hin
    rw [hin.result,hin.manifest] at hi
    cases hi with
    | inl ho =>
      obtain ⟨value,hv⟩ := Option.ne_none_iff_exists'.mp ho
      have hk := getElem?_of_pruneRecords hv
      exact .inr (.inl (by rw [show state.operations[id]? = some value from hk]; simp))
    | inr ho =>
      obtain ⟨value,hv⟩ := Option.ne_none_iff_exists'.mp ho
      have hk := getElem?_of_pruneRecords hv
      by_cases hs : id = request.operationId
      · exact .inl hs
      · refine .inr (.inr ?_)
        simp only [recordManifest,Std.ExtTreeMap.getElem?_insert,compare_eq_iff_eq,
          nextManifest,if_neg (Ne.symm hs)] at hk
        rw [hk]
        simp

end Manifest

section Membership

variable {state next : DurableControlState ι} {request : MembershipCasRequest ι}
  {segments : StreamRanges ι}

theorem ChangesMembership.reconciled_records
    (h : ChangesMembership naming state request named members epoch revision segments reconciled) :
    reconciled.operations = state.operations ∧
      reconciled.manifestOperations = state.manifestOperations := by
  obtain ⟨_,_,_,_,_,_,_,rfl⟩ := reconcileCohorts_frame h.reconciles
  show (candidateState naming state request members epoch revision segments).operations = _ ∧
    (candidateState naming state request members epoch revision segments).manifestOperations = _
  unfold candidateState
  simp only
  split <;> exact ⟨rfl,rfl⟩

theorem bindManifest_records (naming : ControlNaming ι) (state reconciled : DurableControlState ι)
    (request : MembershipCasRequest ι) (revision : Nat) (segments : StreamRanges ι) {id : ι}
    (hi : id ≠ request.operationId) :
    (bindManifest naming state reconciled request revision segments).manifestOperations[id]? =
      reconciled.manifestOperations[id]? := by
  unfold bindManifest
  simp only
  split
  · simp [recordManifest,nextManifest,Std.ExtTreeMap.getElem?_insert,Ne.symm hi]
  · split
    · simp [Std.ExtTreeMap.getElem?_insert,Ne.symm hi]
    · rfl

/-- Only the request's own id is recorded anew. -/
theorem MembershipCas.records (h : MembershipCas naming state request answer next) {id : ι}
    (hi : next.operations[id]? ≠ none ∨ next.manifestOperations[id]? ≠ none) :
    id = request.operationId ∨ state.operations[id]? ≠ none ∨
      state.manifestOperations[id]? ≠ none := by
  cases h with
  | replayed _ _ => exact .inr hi
  | held _ => exact .inr hi
  | @changed named members epoch revision segments reconciled _ _ hc hr =>
    by_cases hs : id = request.operationId
    · exact .inl hs
    · refine .inr ?_
      obtain ⟨-,-,-,rfl⟩ := recordMembership_eq_ok.mp hr
      obtain ⟨-,-,-,hf⟩ :=
        bindManifest_frame naming state reconciled request revision segments
      obtain ⟨hops,hm⟩ := hc.reconciled_records
      cases hi with
      | inl ho =>
        obtain ⟨value,hv⟩ := Option.ne_none_iff_exists'.mp ho
        have hk := getElem?_of_pruneRecords hv
        simp only [Std.ExtTreeMap.getElem?_insert,compare_eq_iff_eq,if_neg (Ne.symm hs),
          hf,hops] at hk
        exact .inl (by simp [hk])
      | inr ho =>
        obtain ⟨value,hv⟩ := Option.ne_none_iff_exists'.mp ho
        have hk := getElem?_of_pruneRecords hv
        rw [bindManifest_records naming state reconciled request revision segments hs,
          hm] at hk
        exact .inr (by simp [hk])

/-- A change that keeps the revision keeps the record of the current manifest. -/
theorem ChangesMembership.current_same
    (h : ChangesMembership naming state request named members epoch revision segments reconciled)
    (hs : Recorded naming state) (hsa : ¬state.manifestRevision < revision)
    (operations : BTreeMap ι (MembershipSnapshot ι)) :
    CurrentRecorded naming (pruneOperationRecords naming
      { bindManifest naming state reconciled request revision segments with
        operations := operations }) := by
  obtain ⟨hrev,-,-⟩ := bindManifest_same naming request reconciled segments hsa
  obtain ⟨hr,-⟩ := (nextRoutes_cases h.routes).resolve_left hsa
  have hrec := h.reconciles
  rw [h.candidate_same hsa] at hrec
  intro hn
  have hsta : reconciled.manifestRevision ≠ 0 := fun hz => hn (hrev.trans hz)
  have hst : state.manifestRevision ≠ 0 := by
    intro hz
    have hu := reconcileCohorts_unrouted hrec hz (hs.unrouted hz)
    exact hsta (hu ▸ hz)
  obtain ⟨hk,-,hkep⟩ := reconcileCohorts_manifest hrec hst
  have hstat : reconciled.manifestRevision = state.manifestRevision := hk
  unfold bindManifest
  simp only [if_neg hsa]
  split
  · refine ⟨h.nonblank,_,(pruneRecords_keep _ _ _).trans Std.ExtTreeMap.getElem?_insert_self,?_⟩
    exact hr.trans hstat.symm
  · obtain ⟨ho,manifest,hre,hm⟩ := hs.current hst
    have hopN : state.manifestOperationId ≠ naming.empty := by
      intro he
      rw [he,naming.blank_empty] at ho
      cases ho
    have hopE : reconciled.manifestOperationId = state.manifestOperationId := hkep hopN
    refine ⟨hopE ▸ ho,manifest,?_,hm.trans hstat.symm⟩
    refine (pruneRecords_keep _ _ _).trans ?_
    show reconciled.manifestOperations[reconciled.manifestOperationId]? = some manifest
    rw [hopE,h.reconciled_records.2]
    exact hre

/-- A membership CAS keeps the current manifest recorded. -/
theorem MembershipCas.recorded (h : MembershipCas naming state request answer next)
    (hs : Recorded naming state) : Recorded naming next := by
  cases h with
  | replayed _ _ => exact hs
  | held _ => exact hs
  | @changed named members epoch revision segments reconciled _ _ hc hr =>
    obtain ⟨hsta,-,-,rfl⟩ := recordMembership_eq_ok.mp hr
    refine ⟨hsta.congr rfl rfl rfl rfl rfl rfl,?_,?_⟩
    · intro hz
      by_cases hnew : state.manifestRevision < revision
      · rw [bindManifest_newer naming request reconciled segments hnew] at hz
        have : revision = 0 := hz
        omega
      · obtain ⟨hrev,-,hse⟩ :=
          bindManifest_same naming request reconciled segments hnew
        have hrec := hc.reconciles
        rw [hc.candidate_same hnew] at hrec
        have hreco : reconciled.manifestRevision = 0 := hrev.symm.trans hz
        have hst : state.manifestRevision = 0 := by
          by_contra hn
          exact hn ((reconcileCohorts_manifest hrec hn).1.symm.trans hreco)
        have he := hs.unrouted hst
        have hu := reconcileCohorts_unrouted hrec hst he
        refine hse.trans ?_
        rw [hu]
        exact he
    · by_cases hnew : state.manifestRevision < revision
      · rw [bindManifest_newer naming request reconciled segments hnew]
        apply recordManifest_current naming
        exact hc.nonblank
      · exact hc.current_same hs hnew _

end Membership

end Recorded

section Calls

inductive ControlCall (ι : Type) [LinearOrder ι] where
  | membership (request : MembershipCasRequest ι)
  | manifest (request : ManifestCasRequest ι)

def callControl (naming : ControlNaming ι) (call : ι → ControlCall ι)
    (state : DurableControlState ι) (id : ι) : Except ReplicaError (DurableControlState ι) :=
  match call id with
  | .membership request =>
    (casMembershipDocumentWithOptions naming state { request with operationId := id }).map (·.2)
  | .manifest request =>
    (casManifestWithCutover naming state { request with operationId := id }).map (·.2)

structure CallLog (ι : Type) [LinearOrder ι] where
  state : DurableControlState ι
  answered : List ι
  changes : List ι

def callStep (naming : ControlNaming ι) (call : ι → ControlCall ι) (log : CallLog ι) (id : ι) :
    Option (CallLog ι) :=
  match callControl naming call log.state id with
  | .error _ => none
  | .ok next => some
    { state := next
      answered := id :: log.answered
      changes := if next = log.state then log.changes else id :: log.changes }

structure AtMostOnce (naming : ControlNaming ι) (call : ι → ControlCall ι) (log : CallLog ι) :
    Prop where
  once : log.changes.Nodup
  replays : ∀ id ∈ log.answered, ∀ next, callControl naming call log.state id = .ok next →
    next = log.state
  current : CurrentRecorded naming log.state

def OneRepairPerRevision (call : ι → ControlCall ι) : Prop :=
  ∀ (i j : ι) (r r' : ManifestCasRequest ι), call i = .manifest r → call j = .manifest r' →
    r.repair = true → r'.repair = true → r.expectedRevision = r'.expectedRevision →
    r.streamSegments = r'.streamSegments

def Fresh (naming : ControlNaming ι) (log : CallLog ι) : Prop :=
  ValidControl naming log.state ∧ log.state.manifestRevision = 0 ∧
    log.state.streamSegments = ∅ ∧ log.state.operations = ∅ ∧ log.state.manifestOperations = ∅ ∧
    log.answered = [] ∧ log.changes = []

def Spent (naming : ControlNaming ι) (state : DurableControlState ι) : ControlCall ι → Prop
  | .membership request =>
    request.expectedEpoch < state.membershipEpoch ∨
      ∃ target ∈ request.targetEpoch, target ≤ state.membershipEpoch
  | .manifest request =>
    request.expectedRevision < state.manifestRevision ∨
      (request.repair = true ∧ request.expectedRevision ≠ 0 ∧
        request.expectedRevision = state.manifestRevision ∧
        state.manifestDigest = naming.manifestDigest request.streamSegments)

section Membership

variable {state next : DurableControlState ι}

theorem MembershipCas.later (h : MembershipCas naming state request answer next)
    (hv : ValidControl naming state) : Later state next := by
  cases h with
  | replayed _ _ => exact .refl state
  | held _ => exact .refl state
  | changed hc hr =>
    obtain ⟨hs,-,-,rfl⟩ := recordMembership_eq_ok.mp hr
    have hl := hc.state_later hv hs
    exact ⟨hl.epoch,hl.revision⟩

theorem MembershipCas.spent_unchanged (h : MembershipCas naming state request answer next)
    (hs : Spent naming state (.membership request)) : next = state := by
  cases h with
  | replayed _ _ => rfl
  | held _ => rfl
  | changed hc _ =>
    have he := hc.expected
    have hl := hc.later
    cases hs with
    | inl hp => omega
    | inr ht =>
      obtain ⟨target,ht,hle⟩ := ht
      have hep := hc.epoch_eq
      rw [Option.mem_def.mp ht,Option.getD_some] at hep
      omega

theorem MembershipCas.spends (h : MembershipCas naming state request answer next)
    (hrec : state.operations[request.operationId]? ≠ none →
      Spent naming state (.membership request)) :
    Spent naming next (.membership request) := by
  cases h with
  | replayed _ hr => exact hrec (by simp [hr])
  | held ht => exact .inr ⟨_,ht,Nat.le_refl _⟩
  | changed hc hr =>
    obtain ⟨-,-,-,rfl⟩ := recordMembership_eq_ok.mp hr
    refine .inl ?_
    show request.expectedEpoch < (bindManifest naming state _ request _ _).membershipEpoch
    rw [hc.epoch_frame]
    exact hc.later

end Membership

section Manifest

variable {state next : DurableControlState ι}

theorem Installs.manifestDigest_eq (h : Installs naming state request revision answer next) :
    next.manifestDigest = naming.manifestDigest request.streamSegments := by
  rw [h.result,h.manifest]
  rfl

theorem ManifestCas.spent_unchanged (h : ManifestCas naming state request answer next)
    (hv : ValidControl naming state) (hs : Spent naming state (.manifest request)) :
    next = state := by
  cases h with
  | replayed _ => rfl
  | held _ _ _ _ _ => rfl
  | repaired _ hz hl ho _ =>
    cases hs with
    | inl hp => omega
    | inr hh =>
      obtain ⟨-,-,hrev,hd⟩ := hh
      refine absurd ?_ (ho hrev.symm)
      rw [hv.currentDigest_eq (by omega),hd]
  | advanced hr hrev _ _ _ _ _ =>
    cases hs with
    | inl hp => omega
    | inr hh => simp [hr] at hh

theorem ManifestCas.spends (h : ManifestCas naming state request answer next)
    (hv : ValidControl naming state)
    (hrec : state.manifestOperations[request.operationId]? ≠ none →
      Spent naming state (.manifest request)) :
    Spent naming next (.manifest request) := by
  cases h with
  | replayed hr => exact hrec (by simp [hr])
  | held _ hrep hz hrev hd =>
    refine .inr ⟨hrep,hz,hrev.symm,?_⟩
    rw [← hd,hv.currentDigest_eq (by omega)]
  | repaired hrep hz _ _ hi =>
    exact .inr ⟨hrep,hz,hi.manifestRevision_eq.symm,hi.manifestDigest_eq⟩
  | advanced _ _ _ _ _ _ hi =>
    refine .inl ?_
    rw [hi.manifestRevision_eq]
    exact Nat.lt_succ_self _

/-- A manifest CAS goes to a later document, or repairs the one it expects. -/
theorem ManifestCas.later (h : ManifestCas naming state request answer next)
    (hv : ValidControl naming state) :
    Later state next ∨ (request.repair = true ∧
      request.expectedRevision = state.manifestRevision ∧
      state.manifestDigest ≠ naming.manifestDigest request.streamSegments ∧
      next.manifestRevision = state.manifestRevision ∧
      next.membershipEpoch = state.membershipEpoch) := by
  cases h with
  | replayed _ => exact .inl (.refl state)
  | held _ _ _ _ _ => exact .inl (.refl state)
  | repaired hr hz hl ho hi =>
    have he : next.membershipEpoch = state.membershipEpoch := by
      rw [hi.result]
      rfl
    rcases Nat.lt_or_eq_of_le hl with hlt | heq
    · exact .inl ⟨Nat.le_of_eq he.symm,.inl (hi.manifestRevision_eq ▸ hlt)⟩
    · refine .inr ⟨hr,heq.symm,?_,hi.manifestRevision_eq.trans heq.symm,he⟩
      rw [← hv.currentDigest_eq (by omega)]
      exact ho heq
  | advanced _ hrev _ _ _ _ hi =>
    have he : next.membershipEpoch = state.membershipEpoch := by
      rw [hi.result]
      rfl
    refine .inl ⟨Nat.le_of_eq he.symm,.inl ?_⟩
    rw [hi.manifestRevision_eq]
    omega

end Manifest

/-- An id that is spent stays spent. -/
theorem Spent.later (h : Spent naming state call) (hl : Later state next) : Spent naming next call := by
  have he := hl.epoch
  cases call with
  | membership request =>
    cases h with
    | inl hp => exact .inl (by omega)
    | inr ht =>
      obtain ⟨target,ht,hle⟩ := ht
      exact .inr ⟨target,ht,by omega⟩
  | manifest request =>
    cases hl.revision with
    | inl hn =>
      cases h with
      | inl hp => exact .inl (by omega)
      | inr hh => exact .inl (by omega)
    | inr hs =>
      cases h with
      | inl hp => exact .inl (by omega)
      | inr hh =>
        obtain ⟨hr,hz,hrev,hd⟩ := hh
        exact .inr ⟨hr,hz,by omega,hs.2.trans hd⟩

structure Replayable (naming : ControlNaming ι) (call : ι → ControlCall ι) (log : CallLog ι) :
    Prop where
  recorded : Recorded naming log.state
  spent : ∀ id ∈ log.answered, Spent naming log.state (call id)
  records : ∀ id : ι, log.state.operations[id]? ≠ none ∨ log.state.manifestOperations[id]? ≠ none →
    id ∈ log.answered
  answered : ∀ id ∈ log.changes, id ∈ log.answered
  once : log.changes.Nodup

section Replay

variable {call : ι → ControlCall ι} {log : CallLog ι} {id : ι} {next : DurableControlState ι}

structure Answers (naming : ControlNaming ι) (call : ι → ControlCall ι) (log : CallLog ι) (id : ι)
    (next : DurableControlState ι) : Prop where
  recorded : Recorded naming next
  records : ∀ i : ι, next.operations[i]? ≠ none ∨ next.manifestOperations[i]? ≠ none →
    i = id ∨ log.state.operations[i]? ≠ none ∨ log.state.manifestOperations[i]? ≠ none
  spends : Spent naming next (call id)
  unchanged : Spent naming log.state (call id) → next = log.state
  keeps : ∀ i ∈ log.answered, Spent naming next (call i)

/-- A call that succeeds changes the document once, or answers as before. -/
theorem Replayable.answers (hl : Replayable naming call log)
    (hrepa : OneRepairPerRevision call) (h : callControl naming call log.state id = .ok next) :
    Answers naming call log id next := by
  have hv := hl.recorded.valid
  unfold callControl at h
  cases hcal : call id with
  | membership request =>
    rw [hcal] at h
    obtain ⟨⟨answer,s⟩,hc,he⟩ := Except.map_eq_ok.mp h
    have hs : s = next := he
    subst hs
    have hc := casMembership_cases hc
    have hsa : ∀ state, Spent naming state (call id) ↔
        Spent naming state (.membership { request with operationId := id }) := by
      intro state
      rw [hcal]
      rfl
    refine ⟨hc.recorded hl.recorded,fun i hi => hc.records hi,?_,?_,?_⟩
    · refine (hsa _).mpr (hc.spends ?_)
      intro hrec
      exact (hsa _).mp (hl.spent id (hl.records id (.inl hrec)))
    · intro hsp
      exact hc.spent_unchanged ((hsa _).mp hsp)
    · intro i hi
      exact (hl.spent i hi).later (hc.later hv)
  | manifest request =>
    rw [hcal] at h
    obtain ⟨⟨answer,s⟩,hc,he⟩ := Except.map_eq_ok.mp h
    have hs : s = next := he
    subst hs
    have hc := casManifest_cases hc
    have hsa : ∀ state, Spent naming state (call id) ↔
        Spent naming state (.manifest { request with operationId := id }) := by
      intro state
      rw [hcal]
      rfl
    refine ⟨hc.recorded hl.recorded,fun i hi => hc.records hi,?_,?_,?_⟩
    · refine (hsa _).mpr (hc.spends hv ?_)
      intro hrec
      exact (hsa _).mp (hl.spent id (hl.records id (.inr hrec)))
    · intro hsp
      exact hc.spent_unchanged hv ((hsa _).mp hsp)
    · intro i hi
      have hsp := hl.spent i hi
      cases hc.later hv with
      | inl hla => exact hsp.later hla
      | inr hrep =>
        obtain ⟨hrep,hex,ho,hrev,hep⟩ := hrep
        cases hi' : call i with
        | membership r =>
          rw [hi'] at hsp
          simpa only [Spent,hep] using hsp
        | manifest r =>
          rw [hi'] at hsp
          cases hsp with
          | inl hp => exact .inl (by omega)
          | inr hh =>
            obtain ⟨hr,-,hre,hd⟩ := hh
            have hra := hrepa i id r request hi' hcal hr hrep (hre.trans hex.symm)
            exact absurd (hd.trans (congrArg _ hra)) ho

/-- Every call keeps the log replayable. -/
theorem Replayable.step {next : CallLog ι} (hl : Replayable naming call log)
    (hr : OneRepairPerRevision call) (h : callStep naming call log id = some next) :
    Replayable naming call next := by
  unfold callStep at h
  cases hc : callControl naming call log.state id with
  | error e => simp [hc] at h
  | ok state =>
    rw [hc] at h
    cases h
    have ha := hl.answers hr hc
    refine ⟨ha.recorded,?_,?_,?_,?_⟩
    · intro i hi
      cases List.mem_cons.mp hi with
      | inl he => exact he ▸ ha.spends
      | inr hm => exact ha.keeps i hm
    · intro i hi
      cases ha.records i hi with
      | inl he => exact he ▸ List.mem_cons_self
      | inr ho => exact List.mem_cons_of_mem _ (hl.records i ho)
    · intro i hi
      simp only at hi
      split at hi
      · exact List.mem_cons_of_mem _ (hl.answered i hi)
      · cases List.mem_cons.mp hi with
        | inl he => exact he ▸ List.mem_cons_self
        | inr hm => exact List.mem_cons_of_mem _ (hl.answered i hm)
    · simp only
      split
      · exact hl.once
      · rename_i hch
        refine List.nodup_cons.mpr ⟨?_,hl.once⟩
        intro hm
        exact hch (ha.unchanged (hl.spent id (hl.answered id hm)))

end Replay

theorem Fresh.replayable (h : Fresh naming log) : Replayable naming call log := by
  obtain ⟨hv,hr,hs,ho,hm,ha,hc⟩ := h
  refine ⟨⟨hv,fun _ => hs,fun hn => absurd hr hn⟩,?_,?_,?_,?_⟩
  · simp [ha]
  · simp [ho,hm]
  · simp [hc]
  · simp [hc]

/-- As long as two repairs to one revision carry the same ranges, each operation id changes a
volume at most once, whenever its call is replayed. -/
theorem operations_apply_at_most_once {call : ι → ControlCall ι} {log : CallLog ι}
    (hrepairs : OneRepairPerRevision call)
    (h : Reachable (Fresh naming) (callStep naming call) anyStep log) :
    AtMostOnce naming call log := by
  have hl : Replayable naming call log := by
    apply h.invariant
    · intro log hf
      exact hf.replayable
    · intro log id next hl _ hs
      exact hl.step hrepairs hs
  refine ⟨hl.once,?_,hl.recorded.current⟩
  intro id hi next hn
  exact (hl.answers hrepairs hn).unchanged (hl.spent id hi)

theorem openControl_fresh
    (h : openControl naming none initial = .ok state) : Fresh naming ⟨state,[],[]⟩ := by
  simp only [openControl,Except.bind_eq_ok,guard_ok,Except.map_eq_ok] at h
  obtain ⟨first,hf,-,reconciled,hr,u,hv,rfl⟩ := h
  obtain ⟨nodes,-,rfl⟩ := Except.map_eq_ok.mp hf
  have he := reconcileCohorts_unrouted hr rfl rfl
  exact ⟨validateControlState_eq_ok.mp hv,by rw [he]; rfl,by rw [he]; rfl,
    by rw [he]; rfl,by rw [he]; rfl,rfl,rfl⟩

theorem threeMembers_fresh : Fresh numbered ⟨threeMembers,[],[]⟩ := by
  have ho : openControl numbered none [(1,11),(2,12),(3,13)] = .ok threeMembers := rfl
  exact openControl_fresh ho

def repairRequest (placementEpoch : ℕ) : ManifestCasRequest ℕ :=
  let segments : StreamRanges ℕ := Std.ExtTreeMap.ofList
    [(5, [{ rangeOfThree 1 none with placementEpoch := placementEpoch }])] compare
  { expectedRevision := 1
    expectedDigest := numbered.manifestDigest segments
    streamSegments := segments
    operationId := 0
    repair := true
    cutoverLsn := none }

def publishAndRepair : ℕ → ControlCall ℕ
  | 1 => .manifest (routeRequest 0 [rangeOfThree 1 none] none)
  | 2 => .manifest (repairRequest 2)
  | _ => .membership (membersRequest 1 [(1, .active), (2, .active), (3, .active), (4, .joining)])

theorem publishAndRepair_oneRepair : OneRepairPerRevision publishAndRepair := by
  have hre : ∀ (i : ℕ) (r : ManifestCasRequest ℕ), publishAndRepair i = .manifest r →
      r.repair = true → r = repairRequest 2 := by
    intro i r hi hr
    unfold publishAndRepair at hi
    split at hi
    · cases hi
      cases hr
    · exact (ControlCall.manifest.inj hi).symm
    · cases hi
  intro i j r r' hi hj hr hr' _
  rw [hre i r hi hr,hre j r' hj hr']

/-- Every operation is replayed after all have been answered. -/
theorem replayed_calls_change_nothing :
    ∃ log, OneRepairPerRevision publishAndRepair ∧
      Reachable (Fresh numbered) (callStep numbered publishAndRepair) anyStep log ∧
      log.changes = [3, 2, 1] ∧ AtMostOnce numbered publishAndRepair log := by
  have hs : Reachable (Fresh numbered) (callStep numbered publishAndRepair) anyStep
      ⟨threeMembers,[],[]⟩ := .start threeMembers_fresh
  have hr := hs.of_runs [1,2,3,1,2,3] rfl
  exact ⟨_,publishAndRepair_oneRepair,hr,rfl,
    operations_apply_at_most_once publishAndRepair_oneRepair hr⟩

/-- Nine repairs push different ranges at one revision, and the first of them is replayed. -/
def nineRepairs : Option (CallLog ℕ) :=
  runs (callStep numbered fun id => .manifest (repairRequest id)) anyStep ⟨threeMembers, [], []⟩
    [1, 2, 3, 4, 5, 6, 7, 8, 9, 1]

theorem nineRepairs_changes :
    nineRepairs.map (·.changes) = some [1,9,8,7,6,5,4,3,2,1] := by
  decide +kernel

/-- A repair whose record was pruned is applied a second time. -/
theorem pruned_repair_applies_twice :
    ¬∀ (call : ℕ → ControlCall ℕ) (log : CallLog ℕ),
      Reachable (Fresh numbered) (callStep numbered call) anyStep log →
      AtMostOnce numbered call log := by
  intro ha
  obtain ⟨log,hl,hc⟩ := Option.map_eq_some_iff.mp nineRepairs_changes
  have hs : Reachable (Fresh numbered) (callStep numbered fun id => .manifest (repairRequest id))
      anyStep ⟨threeMembers,[],[]⟩ := .start threeMembers_fresh
  have ho := (ha _ log (hs.of_runs _ hl)).once
  rw [hc] at ho
  revert ho
  decide

end Calls

end Walleye.Control
