import Walleye.Bitr.FanOut
import Walleye.Control.Operations
import Walleye.Control.Authority

namespace Walleye.Control

open Walleye.Base Walleye.Base.BTreeMap
open Walleye.Bitr (ackQuorum)

variable {ι : Type} [LinearOrder ι]

section Records

variable {naming : ControlNaming ι} {state next : DurableControlState ι}

structure RecordsBelow (state : DurableControlState ι) : Prop where
  manifests : ∀ (id : ι) manifest, state.manifestOperations[id]? = some manifest →
    manifest.revision ≤ state.manifestRevision
  snapshots : ∀ (id : ι) snapshot, state.operations[id]? = some snapshot →
    snapshot.manifestRevision ≤ state.manifestRevision

/-- An accepted CAS that answered a revision: the document's revision did not fall and bounds the
answer and the records. A fenced document stays as it is. -/
structure AnswersBelow (naming : ControlNaming ι) (state next : DurableControlState ι)
    (answered : Nat) : Prop where
  valid : ValidControl naming next
  records : RecordsBelow next
  answer : answered ≤ next.manifestRevision
  rises : state.manifestRevision ≤ next.manifestRevision
  head : next.controlHeadRevision = state.controlHeadRevision
  fenced : state.metadataFreeze ≠ none → next = state

theorem AnswersBelow.refl (hv : ValidControl naming state) (hr : RecordsBelow state)
    (h : answered ≤ state.manifestRevision) :
    AnswersBelow naming state state answered :=
  ⟨hv,hr,h,Nat.le_refl _,rfl,fun _ => rfl⟩

/-- An installed manifest answers a revision that the document reached. -/
theorem Installs.answersBelow (h : Installs naming state request revision answer next)
    (hr : RecordsBelow state) (hl : state.manifestRevision ≤ revision) :
    AnswersBelow naming state next answer.revision where
  valid := validateControlState_eq_ok.mp h.valid
  records := by
    constructor
    · intro id manifest hi
      rw [h.manifestRevision_eq]
      rw [h.result] at hi
      have hk := getElem?_of_pruneRecords hi
      simp only [recordManifest,Std.ExtTreeMap.getElem?_insert,compare_eq_iff_eq] at hk
      split at hk
      · cases hk
        rw [h.manifest]
        exact Nat.le_refl _
      · exact Nat.le_trans (hr.manifests id manifest hk) hl
    · intro id snapshot hi
      rw [h.manifestRevision_eq]
      rw [h.result] at hi
      have hk : state.operations[id]? = some snapshot := getElem?_of_pruneRecords hi
      exact Nat.le_trans (hr.snapshots id snapshot hk) hl
  answer := by
    rw [h.manifestRevision_eq,h.manifest]
    exact Nat.le_refl _
  rises := h.manifestRevision_eq ▸ hl
  head := by
    rw [h.result]
    rfl
  fenced hf := absurd (.inl hf) h.unfenced

theorem ManifestCas.answersBelow
    (h : ManifestCas naming state request answer next) (hv : ValidControl naming state)
    (hrec : RecordsBelow state) : AnswersBelow naming state next answer.revision := by
  cases h with
  | replayed hr => exact .refl hv hrec (hrec.manifests _ _ hr)
  | held _ _ _ _ _ => exact .refl hv hrec (Nat.le_refl _)
  | repaired _ _ hl _ hi => exact hi.answersBelow hrec hl
  | advanced _ hrev _ _ _ _ hi =>
    exact hi.answersBelow hrec (by omega)

section Change

variable {request : MembershipCasRequest ι} {named members : BTreeMap ι (DurableMember ι)}
  {epoch revision : Nat}

/-- No recorded manifest is past the document of a membership change. -/
theorem ChangesMembership.manifests_below
    (h : ChangesMembership naming state request named members epoch revision segments reconciled)
    (hrec : RecordsBelow state)
    (hl : Later state (bindManifest naming state reconciled request revision segments))
    {id : ι}
    (hi : (bindManifest naming state reconciled request revision
      segments).manifestOperations[id]? = some manifest) :
    manifest.revision ≤
      (bindManifest naming state reconciled request revision segments).manifestRevision := by
  have hr : state.manifestRevision ≤
      (bindManifest naming state reconciled request revision segments).manifestRevision := by
    rcases hl.revision with hlt | ⟨he,-⟩ <;> omega
  by_cases hs : id = request.operationId
  · by_cases hn : state.manifestRevision < revision
    · rw [bindManifest_newer naming request reconciled segments hn] at hi ⊢
      rw [hs] at hi
      have hre := Std.ExtTreeMap.getElem?_insert_self.symm.trans hi
      cases hre
      exact Nat.le_refl _
    · obtain ⟨hro,-⟩ := (nextRoutes_cases h.routes).resolve_left hn
      have hre : manifest.revision ≤ state.manifestRevision := by
        unfold bindManifest at hi
        simp only [if_neg hn] at hi
        split at hi
        · rw [hs] at hi
          have hre := Std.ExtTreeMap.getElem?_insert_self.symm.trans hi
          cases hre
          exact Nat.le_of_eq hro
        · rw [h.reconciled_records.2] at hi
          exact hrec.manifests id manifest hi
      exact Nat.le_trans hre hr
  · rw [bindManifest_records naming state reconciled request revision segments hs,
      h.reconciled_records.2] at hi
    exact Nat.le_trans (hrec.manifests id manifest hi) hr

theorem ChangesMembership.head_eq
    (h : ChangesMembership naming state request named members epoch revision segments reconciled) :
    (bindManifest naming state reconciled request revision segments).controlHeadRevision =
      state.controlHeadRevision := by
  obtain ⟨_,_,_,_,_,_,_,rfl⟩ := reconcileCohorts_frame h.reconciles
  have hc : (candidateState naming state request members epoch revision
      segments).controlHeadRevision = state.controlHeadRevision := by
    unfold candidateState
    simp only
    split <;> rfl
  rw [← hc]
  unfold bindManifest
  simp only
  split
  · rfl
  · split <;> rfl

end Change

/-- A membership CAS answers a revision that the document reached. -/
theorem MembershipCas.answersBelow (h : MembershipCas naming state request answer next)
    (hv : ValidControl naming state) (hrec : RecordsBelow state) :
    AnswersBelow naming state next answer.manifestRevision := by
  cases h with
  | replayed _ hr => exact .refl hv hrec (hrec.snapshots _ _ hr)
  | held _ => exact .refl hv hrec (Nat.le_refl _)
  | @changed named members epoch revision segments reconciled _ _ hc hr =>
    obtain ⟨hs,-,rfl,rfl⟩ := recordMembership_eq_ok.mp hr
    have hl := hc.state_later hv hs
    have hri : state.manifestRevision ≤
        (bindManifest naming state reconciled request revision segments).manifestRevision := by
      rcases hl.revision with hlt | ⟨he,-⟩ <;> omega
    refine ⟨hs.congr rfl rfl rfl rfl rfl rfl,⟨?_,?_⟩,Nat.le_refl _,hri,
      hc.head_eq,fun hfre => absurd (.inl hfre) hc.unfenced⟩
    · intro id manifest hi
      exact hc.manifests_below hrec hl (getElem?_of_pruneRecords hi)
    · intro id snapshot hi
      have hk := getElem?_of_pruneRecords hi
      obtain ⟨-,-,-,hf⟩ :=
        bindManifest_frame naming state reconciled request revision segments
      simp only [Std.ExtTreeMap.getElem?_insert,compare_eq_iff_eq,hf,
        hc.reconciled_records.1] at hk
      split at hk
      · cases hk
        exact Nat.le_refl _
      · exact Nat.le_trans (hrec.snapshots id snapshot hk) hri

end Records

section Model

/-- The three old control members while their authority is moved, with the revisions each answered.
Coordinators have what the members answered them. -/
structure Migration (ι : Type) [LinearOrder ι] where
  members : Fin 3 → DurableControlState ι
  answered : Fin 3 → List Nat
  reads : List (SourceReplicaSnapshot ι)
  acks : List (MetadataFreezeAck ι)
  /-- The first head, with the frozen source it was made from. -/
  created : Option (FrozenSourceQuorum ι × ControlHead ι ι)

inductive MigrationAct (ι : Type) [LinearOrder ι] where
  | casManifest (member : Fin 3) (request : ManifestCasRequest ι)
  | casMembership (member : Fin 3) (request : MembershipCasRequest ι)
  | read (member : Fin 3)
  | freeze (member : Fin 3) (request : MetadataFreeze ι)
  /-- A coordinator makes the head from answers it has, and the freeze on its own volume. -/
  | publish (responses : List (SourceReplicaSnapshot ι)) (ownFreeze : Option (MetadataFreeze ι))
      (acks : List (MetadataFreezeAck ι)) (operationId : ι)

namespace Migration

def persist (s : Migration ι) (member : Fin 3) (next : DurableControlState ι) : Migration ι :=
  { s with members := Function.update s.members member next }

def answer (s : Migration ι) (member : Fin 3) (revision : Nat) : Migration ι :=
  { s with answered := Function.update s.answered member (revision :: s.answered member) }

def acknowledge (s : Migration ι) (ack : MetadataFreezeAck ι) : Migration ι :=
  { s with acks := ack :: s.acks }

variable (naming : AuthorityNaming ι)

def certify (responses : List (SourceReplicaSnapshot ι)) (ownFreeze : Option (MetadataFreeze ι))
    (acks : List (MetadataFreezeAck ι)) (operationId : ι) :
    Option (FrozenSourceQuorum ι × ControlHead ι ι) :=
  if ∃ response ∈ responses, response.snapshot.controlHeadRevision ≠ 0 then none
  else do
    let certificate ← (certifySourceQuorum naming naming.legacyControlAuthority responses
      ackQuorum).toOption
    let expectedSource ← (certificate.sourceMarker naming).toOption
    let durable ← ((ownFreeze :: responses.map (·.snapshot.metadataFreeze)).foldlM
      (considerFreeze certificate expectedSource) none).toOption
    let freeze ← durable.or
      (certificate.freezeRequest naming operationId ackQuorum).toOption
    let frozen ← (certifyFrozenSource naming certificate freeze acks ackQuorum).toOption
    let head ← (frozen.certificate.initialHead naming frozen freeze.operationId).toOption
    let _ ← (validateSizeAndHead naming.toHeadCodec head).toOption
    pure (frozen, head)

def step (ids : Fin 3 → ι) (s : Migration ι) : MigrationAct ι → Option (Migration ι)
  | .casManifest member request =>
    (casManifestWithCutover naming.toControlNaming (s.members member) request).toOption.map
      fun (manifest, next) => (s.persist member next).answer member manifest.revision
  | .casMembership member request =>
    (casMembershipDocumentWithOptions naming.toControlNaming (s.members member)
      request).toOption.map fun (snapshot, next) =>
        (s.persist member next).answer member snapshot.manifestRevision
  | .read member =>
    if naming.blank (ids member) then none
    else some { s with
      reads := ⟨ids member, MembershipSnapshot.fromState naming.toControlNaming
        (s.members member)⟩ :: s.reads }
  | .freeze member request =>
    (freezeMetadataAuthority naming (s.members member) (ids member) request).toOption.map
      fun (ack, next) => (s.persist member next).acknowledge ack
  | .publish responses ownFreeze acks operationId =>
    if s.created = none ∧ (∀ response ∈ responses, response ∈ s.reads) ∧
        ∀ ack ∈ acks, ack ∈ s.acks then
      (certify naming responses ownFreeze acks operationId).map fun made =>
        { s with created := some made }
    else none

def Old (s : Migration ι) : Prop :=
  (∀ member, ValidControl naming.toControlNaming (s.members member) ∧
    RecordsBelow (s.members member) ∧ (s.members member).controlHeadRevision = 0 ∧
    s.answered member = []) ∧ s.reads = [] ∧ s.acks = [] ∧ s.created = none

end Migration

end Model

section Certificates

variable {naming : AuthorityNaming ι}

theorem ControlSourceMarker.new_eq_ok {authority : ι} {authorityEpoch revision : Nat} {digest : ι}
    (h : ControlSourceMarker.new naming authority authorityEpoch revision digest = .ok marker) :
    marker = ⟨authority,authorityEpoch,revision,digest⟩ := by
  obtain ⟨_,-,rfl⟩ := Except.map_eq_ok.mp h
  rfl

theorem sourceMarkerForState_revision {state : DurableControlState ι} {digest : ι}
    {marker : ControlSourceMarker ι ι}
    (h : sourceMarkerForState naming state digest = .ok marker)
    (hh : state.controlHeadRevision = 0) : marker.revision = max state.manifestRevision 1 := by
  simp only [sourceMarkerForState,guard_ok,Except.mapError_eq_ok] at h
  rw [ControlSourceMarker.new_eq_ok h.2]
  exact if_pos hh

/-- A freeze answers the revision it froze, and changes only the freeze. -/
theorem freezeMetadataAuthority_spec
    {ack : MetadataFreezeAck ι}
    (h : freezeMetadataAuthority naming state memberId request = .ok (ack,next))
    (hh : state.controlHeadRevision = 0) :
    ack.memberId = memberId ∧ ack.source.revision = max state.manifestRevision 1 ∧
      next = { state with metadataFreeze := some request } := by
  simp only [freezeMetadataAuthority,guard_ok,Except.bind_eq_ok] at h
  obtain ⟨-,digest,hmat,h⟩ := h
  have hr : request.source.revision = max state.manifestRevision 1 := by
    simp only [ensureRequestMatchesState,guard_ok,Except.bind_eq_ok,not_or,
      not_not] at hmat
    obtain ⟨-,marker,hm,⟨hs,-⟩,-⟩ := hmat
    rw [hs]
    exact sourceMarkerForState_revision hm hh
  cases hc : state.cohorts[request.controlCohortId]? with
  | none => simp [hc] at h
  | some cohort =>
    simp only [hc,guard_ok] at h
    obtain ⟨-,h⟩ := h
    cases hf : state.metadataFreeze with
    | none =>
      rw [hf] at h
      cases h
      exact ⟨rfl,hr,rfl⟩
    | some previous =>
      simp only [hf,guard_ok,not_not] at h
      obtain ⟨rfl,h⟩ := h
      cases h
      refine ⟨rfl,hr,?_⟩
      rw [← hf]

variable {certificate : SourceQuorumCertificate ι}
  {acks : List (MetadataFreezeAck ι)} {frozen : FrozenSourceQuorum ι}

theorem countAcknowledgements_spec
    (h : countAcknowledgements naming certificate freeze acks counted = .ok result) {id : ι}
    (hi : id ∈ result) :
    id ∈ counted ∨ ∃ ack ∈ acks, ack.memberId = id ∧ ack.source = freeze.source := by
  induction acks generalizing counted with
  | nil =>
    cases h
    exact .inl hi
  | cons ack rest ih =>
    simp only [countAcknowledgements,guard_ok,not_or,not_not] at h
    obtain ⟨⟨-,hs,-⟩,h⟩ := h
    rcases ih h with hc | ⟨other,hm,ho⟩
    · rcases Finset.mem_insert.mp hc with rfl | hc
      · exact .inr ⟨ack,List.mem_cons_self,rfl,hs⟩
      · exact .inl hc
    · exact .inr ⟨other,List.mem_cons_of_mem ack hm,ho⟩

theorem SourceQuorumCertificate.matchFreeze_revision
    (h : certificate.matchFreeze naming freeze = .ok ()) :
    freeze.source.revision = certificate.revision := by
  simp only [SourceQuorumCertificate.matchFreeze,Except.bind_eq_ok,guard_ok,not_or,
    not_not] at h
  obtain ⟨marker,hm,⟨hs,-⟩,-⟩ := h
  rw [hs,ControlSourceMarker.new_eq_ok (Except.mapError_eq_ok.mp hm)]

theorem certifyFrozenSource_spec
    (h : certifyFrozenSource naming certificate freeze acks ackQuorum = .ok frozen) :
    ∃ a ∈ acks, ∃ b ∈ acks, a.memberId ≠ b.memberId ∧
      a.source.revision = frozen.certificate.revision ∧
      b.source.revision = frozen.certificate.revision := by
  simp only [certifyFrozenSource,Except.bind_eq_ok,Except.map_eq_ok,guard_ok,
    not_lt] at h
  obtain ⟨_,-,_,hm,_,-,counted,hc,hq,_,-,rfl⟩ := h
  have hr := SourceQuorumCertificate.matchFreeze_revision hm
  obtain ⟨x,hx,y,hy,hn⟩ := Finset.one_lt_card.mp hq
  have hac : ∀ id ∈ counted, ∃ ack ∈ acks, ack.memberId = id ∧
      ack.source.revision = certificate.revision := by
    intro id hi
    rcases countAcknowledgements_spec hc hi with he | ⟨ack,hme,hmem,hs⟩
    · exact absurd he (Finset.notMem_empty id)
    · exact ⟨ack,hme,hmem,hs ▸ hr⟩
  obtain ⟨a,ha,rfl,har⟩ := hac x hx
  obtain ⟨b,hb,rfl,hbr⟩ := hac y hy
  exact ⟨a,ha,b,hb,hn,har,hbr⟩

theorem initialHead_spec (h : certificate.initialHead naming frozen operationId = .ok head) :
    head.metadata = certificate.metadata ∧ head.revision = certificate.revision := by
  simp only [SourceQuorumCertificate.initialHead,Except.bind_eq_ok,guard_ok,
    Except.mapError_eq_ok,ControlHead.new,Except.ok.injEq] at h
  obtain ⟨_,-,-,marker,-,_,-,rfl⟩ := h
  exact ⟨rfl,rfl⟩

theorem Migration.certify_spec
    (h : Migration.certify naming responses ownFreeze acks operationId = some (frozen,head)) :
    (head.metadata = frozen.certificate.metadata ∧
        head.revision = frozen.certificate.revision) ∧
      ∃ a ∈ acks, ∃ b ∈ acks, a.memberId ≠ b.memberId ∧
        a.source.revision = frozen.certificate.revision ∧
        b.source.revision = frozen.certificate.revision := by
  simp only [Migration.certify,Option.ite_none_left_eq_some,Option.bind_eq_bind,
    Option.bind_eq_some_iff,Except.toOption_eq_some,Option.pure_def,Option.some.injEq,
    Prod.mk.injEq] at h
  obtain ⟨-,certificate,-,source,-,durable,-,freeze,-,made,hm,head',hh,_,-,
    rfl,rfl⟩ := h
  exact ⟨initialHead_spec hh,certifyFrozenSource_spec hm⟩

end Certificates

section Runs

variable {naming : AuthorityNaming ι} {ids : Fin 3 → ι} {s s' : Migration ι}

def FrozenAt (members : Fin 3 → DurableControlState ι) (revision : Nat) (m : Fin 3) : Prop :=
  (members m).metadataFreeze ≠ none ∧ max (members m).manifestRevision 1 = revision

theorem FrozenAt.update
    (h : FrozenAt members revision m) (member : Fin 3) {next : DurableControlState ι}
    (hn : (members member).metadataFreeze ≠ none → next.metadataFreeze ≠ none ∧
      next.manifestRevision = (members member).manifestRevision) :
    FrozenAt (Function.update members member next) revision m := by
  by_cases hm : m = member
  · subst hm
    obtain ⟨hf,hr⟩ := hn h.1
    rw [FrozenAt,Function.update_self,hr]
    exact ⟨hf,h.2⟩
  · rw [FrozenAt,Function.update_of_ne hm]
    exact h

structure OldMember (naming : ControlNaming ι) (state : DurableControlState ι)
    (answered : List Nat) : Prop where
  valid : ValidControl naming state
  records : RecordsBelow state
  head : state.controlHeadRevision = 0
  answered : ∀ revision ∈ answered, revision ≤ state.manifestRevision

structure MigrationSound (naming : AuthorityNaming ι) (ids : Fin 3 → ι) (s : Migration ι) :
    Prop where
  member : ∀ m, OldMember naming.toControlNaming (s.members m) (s.answered m)
  acks : ∀ ack ∈ s.acks, ∃ m, ack.memberId = ids m ∧ FrozenAt s.members ack.source.revision m
  created : ∀ frozen head, s.created = some (frozen, head) →
    (head.metadata = frozen.certificate.metadata ∧ head.revision = frozen.certificate.revision) ∧
      TwoOf (FrozenAt s.members frozen.certificate.revision)

theorem Migration.Old.sound (h : Migration.Old naming s) : MigrationSound naming ids s := by
  obtain ⟨hm,-,ha,hc⟩ := h
  constructor
  · intro m
    obtain ⟨hv,hr,hh,han⟩ := hm m
    exact ⟨hv,hr,hh,by simp [han]⟩
  · simp [ha]
  · simp [hc]

namespace MigrationSound

variable {member : Fin 3}

/-- A frozen member keeps its revision. -/
theorem persist (h : MigrationSound naming ids s)
    (hn : OldMember naming.toControlNaming next (s.answered member))
    (hf : (s.members member).metadataFreeze ≠ none → next.metadataFreeze ≠ none ∧
      next.manifestRevision = (s.members member).manifestRevision) :
    MigrationSound naming ids (s.persist member next) := by
  have ha : ∀ (revision : Nat) (m : Fin 3), FrozenAt s.members revision m →
      FrozenAt (s.persist member next).members revision m :=
    fun _ _ hm => hm.update member hf
  constructor
  · intro m
    by_cases hm : m = member
    · subst hm
      simpa [Migration.persist] using hn
    · simpa [Migration.persist,hm] using h.member m
  · intro ack hac
    obtain ⟨m,hm,hfro⟩ := h.acks ack hac
    exact ⟨m,hm,ha _ m hfro⟩
  · intro frozen head hc
    obtain ⟨hh,ht⟩ := h.created frozen head hc
    exact ⟨hh,ht.mono (ha _)⟩

theorem answer (h : MigrationSound naming ids s)
    (hr : revision ≤ (s.members member).manifestRevision) :
    MigrationSound naming ids (s.answer member revision) := by
  refine ⟨?_,h.acks,h.created⟩
  intro m
  by_cases hm : m = member
  · subst hm
    have ho := h.member m
    refine ⟨ho.valid,ho.records,ho.head,?_⟩
    simpa [Migration.answer] using ⟨hr,ho.answered⟩
  · simpa [Migration.answer,hm] using h.member m

theorem accept (h : MigrationSound naming ids s)
    (hb : AnswersBelow naming.toControlNaming (s.members member) next revision) :
    MigrationSound naming ids ((s.persist member next).answer member revision) := by
  have ho := h.member member
  have hn : OldMember naming.toControlNaming next (s.answered member) :=
    ⟨hb.valid,hb.records,hb.head.trans ho.head,
      fun r hr => Nat.le_trans (ho.answered r hr) hb.rises⟩
  have hp : MigrationSound naming ids (s.persist member next) := by
    apply h.persist hn
    intro hf
    rw [hb.fenced hf]
    exact ⟨hf,rfl⟩
  apply hp.answer
  simpa [Migration.persist] using hb.answer

/-- A freeze is counted for the member that persisted it. -/
theorem freeze (h : MigrationSound naming ids s)
    {ack : MetadataFreezeAck ι} (hm : ack.memberId = ids member)
    (hr : ack.source.revision = max (s.members member).manifestRevision 1)
    (hn : next = { s.members member with metadataFreeze := some request }) :
    MigrationSound naming ids ((s.persist member next).acknowledge ack) := by
  have hf : next.metadataFreeze ≠ none ∧
      next.manifestRevision = (s.members member).manifestRevision := by
    rw [hn]
    exact ⟨Option.some_ne_none request,rfl⟩
  have ho := h.member member
  have hn' : OldMember naming.toControlNaming next (s.answered member) := by
    rw [hn]
    exact ⟨ho.valid.congr rfl rfl rfl rfl rfl rfl,
      ⟨ho.records.manifests,ho.records.snapshots⟩,ho.head,ho.answered⟩
  have hp := h.persist hn' fun _ => hf
  refine ⟨hp.member,?_,hp.created⟩
  intro other hot
  rcases List.mem_cons.mp hot with rfl | hot
  · refine ⟨member,hm,?_⟩
    simpa [FrozenAt,Migration.acknowledge,Migration.persist,hf.2,hr] using hf.1
  · exact hp.acks other hot

/-- Every step keeps the migration sound. -/
theorem step (h : MigrationSound naming ids s)
    (hs : s.step naming ids act = some s') : MigrationSound naming ids s' := by
  cases act with
  | casManifest member request =>
    simp only [Migration.step,Option.map_eq_some_iff,Except.toOption_eq_some] at hs
    obtain ⟨⟨manifest,next⟩,hc,rfl⟩ := hs
    have ho := h.member member
    exact h.accept ((casManifest_cases hc).answersBelow ho.valid ho.records)
  | casMembership member request =>
    simp only [Migration.step,Option.map_eq_some_iff,Except.toOption_eq_some] at hs
    obtain ⟨⟨snapshot,next⟩,hc,rfl⟩ := hs
    have ho := h.member member
    exact h.accept ((casMembership_cases hc).answersBelow ho.valid ho.records)
  | read member =>
    simp only [Migration.step,Option.ite_none_left_eq_some,Option.some.injEq] at hs
    obtain ⟨-,rfl⟩ := hs
    exact ⟨h.member,h.acks,h.created⟩
  | freeze member request =>
    simp only [Migration.step,Option.map_eq_some_iff,Except.toOption_eq_some] at hs
    obtain ⟨⟨ack,next⟩,hf,rfl⟩ := hs
    obtain ⟨hme,hr,hnex⟩ :=
      freezeMetadataAuthority_spec hf (h.member member).head
    exact h.freeze hme hr hnex
  | publish responses ownFreeze acks operationId =>
    simp only [Migration.step,Option.ite_none_right_eq_some,Option.map_eq_some_iff] at hs
    obtain ⟨⟨-,-,hac⟩,⟨frozen,head⟩,hce,rfl⟩ := hs
    obtain ⟨hh,a,ha,b,hb,hn,har,hbr⟩ := Migration.certify_spec hce
    refine ⟨h.member,h.acks,?_⟩
    intro frozen' head' hcr
    cases hcr
    refine ⟨hh,?_⟩
    obtain ⟨m,hm,hma⟩ := h.acks a (hac a ha)
    obtain ⟨m',hm',hmb⟩ := h.acks b (hac b hb)
    refine ⟨m,m',?_,har ▸ hma,hbr ▸ hmb⟩
    intro he
    exact hn (by rw [hm,hm',he])

end MigrationSound

/-- The head carries the certified metadata, and two of the old members never answer a CAS with a
later revision, before or after. -/
theorem certified_revision_is_last
    (h : Reachable (Migration.Old naming) (Migration.step naming ids) anyStep s)
    {frozen : FrozenSourceQuorum ι} {head : ControlHead ι ι}
    (hcreated : s.created = some (frozen, head)) :
    head.metadata = frozen.certificate.metadata ∧ head.revision = frozen.certificate.revision ∧
      ¬TwoOf fun m => ∃ revision ∈ s.answered m, frozen.certificate.revision < revision := by
  have hso : MigrationSound naming ids s :=
    h.invariant (fun _ => Migration.Old.sound) fun _ _ _ hs _ hst => hs.step hst
  obtain ⟨⟨hm,hr⟩,hf⟩ := hso.created frozen head hcreated
  refine ⟨hm,hr,?_⟩
  intro ha
  obtain ⟨m,⟨revision,han,hl⟩,-,hat⟩ := TwoOf.meet ha hf
  have := (hso.member m).answered revision han
  omega

def threeOldMembers : Migration ℕ :=
  { members := fun _ => threeMembers, answered := fun _ => [], reads := [], acks := []
    created := none }

theorem threeOldMembers_old : Migration.Old numberedAuthority threeOldMembers := by
  obtain ⟨hv,-,-,ho,hm,-,-⟩ := threeMembers_fresh
  have hr : RecordsBelow threeMembers := by
    constructor
    · intro id manifest hi
      rw [show threeMembers.manifestOperations = ∅ from hm] at hi
      simp at hi
    · intro id snapshot hi
      rw [show threeMembers.operations = ∅ from ho] at hi
      simp at hi
  exact ⟨fun _ => ⟨hv,hr,rfl,rfl⟩,rfl,rfl,rfl⟩

def routedMember : DurableControlState ℕ :=
  ((casManifestWithCutover numbered threeMembers
    (routeRequest 0 [rangeOfThree 1 none] none)).toOption.map (·.2)).getD threeMembers

def routedFreeze : MetadataFreeze ℕ where
  operationId := 7
  source := ⟨1, 1, 1, numbered.metadataDigest (controlMetadataFromState numbered routedMember)⟩
  targetAuthorityEpoch := 2
  controlCohortId := 0

def routedAck (memberId : ℕ) : MetadataFreezeAck ℕ where
  memberId := memberId
  operationId := 7
  source := routedFreeze.source
  targetAuthorityEpoch := 2
  metadataDigest := routedFreeze.source.digest
  controlCohortId := 0

def migrationActs : List (MigrationAct ℕ) :=
  let route := routeRequest 0 [rangeOfThree 1 none] none
  let cutover := routeRequest 1 [rangeOfThree 1 (some 5), rangeOfThree 6 none] (some 5)
  [.casManifest 0 route, .casManifest 1 route, .casManifest 2 route, .casManifest 2 cutover,
    .read 0, .read 1, .freeze 0 routedFreeze, .freeze 1 routedFreeze,
    .publish [⟨1, .fromState numbered routedMember⟩, ⟨2, .fromState numbered routedMember⟩] none
      [routedAck 1, routedAck 2] 7, .casManifest 0 route]

def migrated : Option (Migration ℕ) :=
  runs (Migration.step numberedAuthority fun m => m.val + 1) anyStep threeOldMembers migrationActs

theorem migrated_revisions :
    migrated.map (fun s => (s.created.map (·.1.certificate.revision),s.answered 2)) =
      some (some 1,[2,1]) := by
  decide +kernel

/-- A member that was ahead alone does not make a quorum. -/
theorem lone_revision_is_no_quorum :
    ∃ s frozen head,
      Reachable (Migration.Old numberedAuthority)
        (Migration.step numberedAuthority fun m => m.val + 1) anyStep s ∧
      s.created = some (frozen, head) ∧ s.answered 2 = [2, 1] ∧
      frozen.certificate.revision = 1 ∧ head.metadata = frozen.certificate.metadata ∧
      ¬TwoOf fun m => ∃ revision ∈ s.answered m, frozen.certificate.revision < revision := by
  obtain ⟨s,hr,hs⟩ := Option.map_eq_some_iff.mp migrated_revisions
  obtain ⟨hc,ha⟩ := Prod.mk.inj hs
  obtain ⟨⟨frozen,head⟩,hc,hrev⟩ := Option.map_eq_some_iff.mp hc
  have hre := (Reachable.start threeOldMembers_old).of_runs migrationActs hr
  obtain ⟨hm,-,hl⟩ := certified_revision_is_last hre hc
  exact ⟨s,frozen,head,hre,hc,ha,hrev,hm,hl⟩

end Runs

end Walleye.Control
