import Walleye.Control.Steps

namespace Walleye.Control

open Walleye.Base Walleye.Base.BTreeMap

theorem ManifestBinding.ext_fields {a b : ManifestBinding ι}
    (he : a.writerEpoch = b.writerEpoch) (hc : a.cohortId = b.cohortId)
    (hh : a.memberHash = b.memberHash) : a = b := by
  cases a
  cases b
  simp_all

variable {ι : Type} [LinearOrder ι] (naming : ControlNaming ι)
  {state next : DurableControlState ι}

section Metadata

variable (segments : StreamRanges ι)

theorem metadata_writerEpoch (state : DurableControlState ι) :
    (manifestMetadataForState naming state segments).writerEpoch =
      max state.manifestWriterEpoch (latestManifestBinding naming segments).writerEpoch := by
  unfold manifestMetadataForState
  dsimp only
  split_ifs <;> rfl

theorem metadata_of_writeCohort (h : state.writeCohortId ≠ 0) :
    (manifestMetadataForState naming state segments).cohortId = state.writeCohortId ∧
      (manifestMetadataForState naming state segments).memberHash =
        (cohortMemberHash naming state state.writeCohortId).getD naming.empty := by
  simp [manifestMetadataForState,h]

theorem metadata_of_tail (h : state.writeCohortId = 0)
    (ht : (latestManifestBinding naming segments).memberHash ≠ naming.empty) :
    (manifestMetadataForState naming state segments).cohortId =
        (latestManifestBinding naming segments).cohortId ∧
      (manifestMetadataForState naming state segments).memberHash =
        (latestManifestBinding naming segments).memberHash := by
  simp [manifestMetadataForState,h,ht]

theorem metadata_of_newest (h : state.writeCohortId = 0)
    (ht : (latestManifestBinding naming segments).memberHash = naming.empty) :
    (manifestMetadataForState naming state segments).cohortId =
        ((newestActiveCohort state).map (·.id)).getD state.manifestCohortId ∧
      (manifestMetadataForState naming state segments).memberHash =
        if (cohortMemberHash naming state
            (manifestMetadataForState naming state segments).cohortId).getD naming.empty =
            naming.empty then state.manifestMemberHash
        else (cohortMemberHash naming state
          (manifestMetadataForState naming state segments).cohortId).getD naming.empty := by
  simp [manifestMetadataForState,h,ht]

variable {naming} {segments}

/-- The bound metadata is that of the bound document. -/
theorem metadata_again (hm : next.members = state.members)
    (hcoh : next.cohorts = state.cohorts) (hw : next.writeCohortId = state.writeCohortId)
    (hb : manifestMetadataForState naming state segments =
      ⟨next.manifestWriterEpoch,next.manifestCohortId,next.manifestMemberHash⟩) :
    manifestMetadataForState naming next segments =
      manifestMetadataForState naming state segments := by
  have hh : cohortMemberHash naming next = cohortMemberHash naming state :=
    cohortMemberHash_congr hm hcoh
  have he : (manifestMetadataForState naming next segments).writerEpoch =
      (manifestMetadataForState naming state segments).writerEpoch := by
    have ho := metadata_writerEpoch naming segments state
    rw [metadata_writerEpoch,ho]
    rw [hb] at ho
    dsimp only at ho
    omega
  by_cases hz : state.writeCohortId = 0
  · have hz' : next.writeCohortId = 0 := hw.trans hz
    by_cases ht : (latestManifestBinding naming segments).memberHash = naming.empty
    · have ho := metadata_of_newest naming segments hz ht
      have hn := metadata_of_newest naming segments hz' ht
      have hc : (manifestMetadataForState naming next segments).cohortId =
          (manifestMetadataForState naming state segments).cohortId := by
        have hnew : newestActiveCohort next = newestActiveCohort state := by
          simp only [newestActiveCohort,hcoh]
        rw [hn.1,ho.1,hnew]
        cases hf : newestActiveCohort state with
        | some cohort => rfl
        | none =>
          rw [hb,hf] at ho
          exact ho.1
      apply ManifestBinding.ext_fields he hc
      rw [hn.2,ho.2,hc,hh]
      split_ifs with hem
      · rw [if_pos hem,hb] at ho
        exact ho.2
      · rfl
    · have ho := metadata_of_tail naming segments hz ht
      have hn := metadata_of_tail naming segments hz' ht
      exact ManifestBinding.ext_fields he (hn.1.trans ho.1.symm) (hn.2.trans ho.2.symm)
  · have ho := metadata_of_writeCohort naming segments hz
    have hn := metadata_of_writeCohort naming segments (hw.trans_ne hz)
    apply ManifestBinding.ext_fields he
    · rw [hn.1,ho.1,hw]
    · rw [hn.2,ho.2,hh,hw]

end Metadata

structure Fits (state : DurableControlState ι) (manifest : ReplicaManifest ι) : Prop where
  version : manifest.version = manifestVersion
  revision : manifest.revision ≠ 0
  digest : manifest.digest = naming.manifestDigest manifest.streamSegments
  writeCohort : manifest.writeCohortId = state.writeCohortId
  binding : manifestMetadataForState naming state manifest.streamSegments =
    ⟨manifest.writerEpoch, manifest.cohortId, manifest.memberSetHash⟩
  policy : manifestPolicyForState naming state manifest.streamSegments manifest.cohortId =
    (manifest.tier, manifest.maxAppendBytes)

namespace Fits

variable {naming} {manifest : ReplicaManifest ι}

theorem of_nextManifest {revision : Nat} (hr : revision ≠ 0) (operationId : ι)
    (segments : StreamRanges ι) :
    Fits naming state (nextManifest naming state revision operationId segments) :=
  ⟨rfl,hr,rfl,rfl,rfl,rfl⟩

theorem cohortId_eq (h : Fits naming state manifest) (hw : state.writeCohortId ≠ 0) :
    manifest.cohortId = state.writeCohortId := by
  have hc := (metadata_of_writeCohort naming manifest.streamSegments hw).1
  rwa [h.binding] at hc

theorem hash_eq_empty (h : Fits naming state manifest)
    (he : manifest.memberSetHash = naming.empty) :
    (cohortMemberHash naming state manifest.cohortId).getD naming.empty = naming.empty := by
  by_cases hw : state.writeCohortId = 0
  · by_cases ht : (latestManifestBinding naming manifest.streamSegments).memberHash = naming.empty
    · have hnew := (metadata_of_newest naming manifest.streamSegments hw ht).2
      rw [h.binding] at hnew
      by_contra hn
      rw [if_neg hn] at hnew
      exact hn (hnew.symm.trans he)
    · have hl := (metadata_of_tail naming manifest.streamSegments hw ht).2
      rw [h.binding] at hl
      exact absurd (hl.symm.trans he) ht
  · have hh := (metadata_of_writeCohort naming manifest.streamSegments hw).2
    rw [h.binding] at hh
    rw [h.cohortId_eq hw,← hh,he]

/-- A recorded manifest is read back. -/
theorem manifestFromState_record (h : Fits naming state manifest) :
    manifestFromState naming (recordManifest state manifest) = manifest := by
  have hc : manifestCohort (recordManifest state manifest) = manifest.cohortId := by
    by_cases hw : state.writeCohortId = 0
    · exact if_neg (not_not.mpr hw)
    · exact (if_pos hw).trans (h.cohortId_eq hw).symm
  have hd : currentDigest naming (recordManifest state manifest) = manifest.digest := by
    apply if_neg
    change manifest.digest ≠ naming.empty
    rw [h.digest]
    exact naming.manifestDigest_ne_empty _
  have hh : cohortMemberHash naming (recordManifest state manifest) =
      cohortMemberHash naming state :=
    cohortMemberHash_congr rfl rfl
  have hp : manifestPolicyForState naming (recordManifest state manifest)
      (recordManifest state manifest).streamSegments manifest.cohortId =
        (manifest.tier,manifest.maxAppendBytes) :=
    h.policy
  have hm : (if manifest.memberSetHash = naming.empty then
        (cohortMemberHash naming state manifest.cohortId).getD naming.empty
      else manifest.memberSetHash) = manifest.memberSetHash := by
    split_ifs with he
    · rw [h.hash_eq_empty he,he]
    · rfl
  unfold manifestFromState
  simp only [hc,hd,hh,hp]
  simp only [recordManifest,if_neg h.revision,hm,← h.version,← h.writeCohort]

theorem record (h : Fits naming state manifest) :
    Fits naming (recordManifest state manifest) manifest where
  version := h.version
  revision := h.revision
  digest := h.digest
  writeCohort := h.writeCohort
  binding := by
    have ha : manifestMetadataForState naming (recordManifest state manifest)
        manifest.streamSegments =
          manifestMetadataForState naming state manifest.streamSegments :=
      metadata_again rfl rfl rfl h.binding
    exact ha.trans h.binding
  policy := h.policy

theorem prune (h : Fits naming state manifest) :
    Fits naming (pruneOperationRecords naming state) manifest :=
  ⟨h.version,h.revision,h.digest,h.writeCohort,h.binding,h.policy⟩

theorem of_manifest {answer : ReplicaManifest ι} (h : state.manifest naming = .ok answer)
    (hr : state.manifestRevision ≠ 0) :
    Fits naming state (manifestFromState naming state) := by
  simp only [DurableControlState.manifest,Except.map_eq_ok,validateManifestAgainstState,
    Except.bind_eq_ok,guard_ok,not_or,not_and,not_not] at h
  obtain ⟨_,⟨_,-,hd,h⟩,-⟩ := h
  have hr' : (manifestFromState naming state).revision ≠ 0 := hr
  rw [if_neg hr'] at h
  simp only [guard_ok,not_or,not_not] at h
  obtain ⟨⟨he,hc,hh,-⟩,hp,-⟩ := h
  exact ⟨rfl,hr,hd.2 (Nat.pos_of_ne_zero hr'),rfl,
    ManifestBinding.ext_fields he.symm hc.symm hh.symm,hp.symm⟩

end Fits

def Bound (state : DurableControlState ι) : Prop :=
  state.manifestRevision ≠ 0 → Fits naming state (manifestFromState naming state)

variable {naming}

section Cas

theorem Installs.manifestFromState_eq (h : Installs naming state request revision answer next)
    (hr : revision ≠ 0) : manifestFromState naming next = answer := by
  have hf : Fits naming state answer :=
    h.manifest ▸ Fits.of_nextManifest hr _ _
  rw [h.result]
  exact hf.manifestFromState_record

theorem Installs.bound (h : Installs naming state request revision answer next)
    (hr : revision ≠ 0) : Bound naming next := by
  intro _
  have hf : Fits naming state answer :=
    h.manifest ▸ Fits.of_nextManifest hr _ _
  rw [h.manifestFromState_eq hr,h.result]
  exact hf.record.prune

end Cas

section Adopt

variable {manifest : ReplicaManifest ι}

def adoptedState (naming : ControlNaming ι) (state : DurableControlState ι)
    (manifest : ReplicaManifest ι) : DurableControlState ι :=
  let binding := manifestMetadataForState naming state manifest.streamSegments
  { state with
    writeCohortId := manifest.writeCohortId
    manifestRevision := manifest.revision
    manifestDigest := manifest.digest
    manifestOperationId := manifest.operationId
    manifestWriterEpoch := binding.writerEpoch
    manifestCohortId := binding.cohortId
    manifestMemberHash :=
      if manifest.memberSetHash = naming.empty then binding.memberHash
      else manifest.memberSetHash
    streamSegments := manifest.streamSegments
    manifestOperations := state.manifestOperations.insert manifest.operationId manifest }

structure Adopts (naming : ControlNaming ι) (state : DurableControlState ι)
    (manifest : ReplicaManifest ι) (next : DurableControlState ι) : Prop where
  validated : manifest.validate naming.toNaming = .ok ()
  digest : manifest.digest = naming.manifestDigest manifest.streamSegments
  later : state.manifestRevision ≤ manifest.revision
  segments : validateManifestSegments naming state manifest.streamSegments manifest.revision =
    .ok ()
  writeCohort : validateWriteCohort state manifest.writeCohortId = .ok ()
  result : next = pruneOperationRecords naming (adoptedState naming state manifest)
  valid : validateControlState naming next = .ok ()

theorem adoptManifest_adopts
    (h : adoptManifest naming state manifest forceSameRevision = .ok next) :
    Adopts naming state manifest next := by
  simp only [adoptManifest,Except.bind_eq_ok,Except.map_eq_ok,guard_ok,not_not,
    not_lt] at h
  obtain ⟨_,hval,hd,hl,-,_,hs,_,-,_,hw,_,hv,rfl⟩ := h
  exact ⟨hval,hd,hl,hs,hw,rfl,hv⟩

theorem Fits.adoptedState_eq (h : Fits naming state manifest) :
    adoptedState naming state manifest = recordManifest state manifest := by
  simp only [adoptedState,recordManifest,h.binding,h.writeCohort,ite_self]

theorem Adopts.of_fits (h : Adopts naming state manifest next) (hf : Fits naming state manifest) :
    manifestFromState naming next = manifest ∧ Bound naming next := by
  have hr : manifestFromState naming next = manifest := by
    rw [h.result,hf.adoptedState_eq]
    exact hf.manifestFromState_record
  refine ⟨hr,fun _ => ?_⟩
  rw [hr,h.result,hf.adoptedState_eq]
  exact hf.record.prune

theorem Adopts.revision_eq (h : Adopts naming state manifest next) :
    (manifestFromState naming next).revision = manifest.revision := by
  rw [h.result]
  rfl

end Adopt

end Walleye.Control
