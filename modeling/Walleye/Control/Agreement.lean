import Walleye.Base.Register
import Walleye.Control.Binding

namespace Walleye.Control

open Walleye.Base Walleye.Base.BTreeMap

variable {ι : Type} [LinearOrder ι]

section Model

structure ManifestCluster (ι : Type) [LinearOrder ι] where
  members : Fin 3 → DurableControlState ι
  held : Fin 3 → List (ReplicaManifest ι)

namespace ManifestCluster

def QuorumHeld (cluster : ManifestCluster ι) (manifest : ReplicaManifest ι) : Prop :=
  TwoOf fun member => manifest ∈ cluster.held member

instance (cluster : ManifestCluster ι) (manifest : ReplicaManifest ι) :
    Decidable (cluster.QuorumHeld manifest) :=
  inferInstanceAs (Decidable (TwoOf _))

def persist (naming : ControlNaming ι) (cluster : ManifestCluster ι) (member : Fin 3)
    (next : DurableControlState ι) : ManifestCluster ι where
  members m := if m = member then next else cluster.members m
  held m :=
    if m = member then manifestFromState naming next :: cluster.held m else cluster.held m

end ManifestCluster

/-- What a coordinator sends to one member. A repair and an adoption push a manifest that it
has seen on two members. -/
inductive ManifestAct (ι : Type) [LinearOrder ι] where
  | cas (member : Fin 3) (request : ManifestCasRequest ι)
  | repair (member : Fin 3) (manifest : ReplicaManifest ι)
  | adopt (member : Fin 3) (manifest : ReplicaManifest ι) (forceSameRevision : Bool)

def adoptionRequest (manifest : ReplicaManifest ι) : ManifestCasRequest ι where
  expectedRevision := manifest.revision
  expectedDigest := manifest.digest
  streamSegments := manifest.streamSegments
  operationId := manifest.operationId
  repair := true
  cutoverLsn := none

def clusterStep (naming : ControlNaming ι) (cluster : ManifestCluster ι) :
    ManifestAct ι → Option (ManifestCluster ι)
  | .cas member request =>
    if request.repair then none
    else (casManifestWithCutover naming (cluster.members member) request).toOption.map fun answer =>
      cluster.persist naming member answer.2
  | .repair member manifest =>
    if cluster.QuorumHeld manifest then
      (casManifestWithCutover naming (cluster.members member)
        (adoptionRequest manifest)).toOption.map fun answer =>
          cluster.persist naming member answer.2
    else none
  | .adopt member manifest forceSameRevision =>
    if cluster.QuorumHeld manifest then
      (adoptManifest naming (cluster.members member) manifest forceSameRevision).toOption.map
        fun next => cluster.persist naming member next
    else none

def ReadableCluster (naming : ControlNaming ι) (cluster : ManifestCluster ι) : Prop :=
  ∀ member,
    (cluster.members member).manifest naming =
        .ok (manifestFromState naming (cluster.members member)) ∧
      cluster.held member = [manifestFromState naming (cluster.members member)]

def KeepsSealed (earlier later : ReplicaManifest ι) : Prop :=
  ∀ (stream : ι) (ranges : List (StreamSegment ι)), earlier.streamSegments[stream]? = some ranges →
    ∀ segment ∈ ranges, segment.endLsn ≠ none →
      ∃ ranges', later.streamSegments[stream]? = some ranges' ∧ segment ∈ ranges'

/-- Two members hold at most one manifest of each revision, and the next one they hold keeps
the sealed ranges. -/
structure Agreement (cluster : ManifestCluster ι) : Prop where
  unique : ∀ manifest other, cluster.QuorumHeld manifest → cluster.QuorumHeld other →
    manifest.revision = other.revision → manifest = other
  appendOnly : ∀ earlier later, cluster.QuorumHeld earlier → cluster.QuorumHeld later →
    earlier.revision < later.revision →
    (∀ between, cluster.QuorumHeld between →
      ¬(earlier.revision < between.revision ∧ between.revision < later.revision)) →
    KeepsSealed earlier later

end Model

section Sealed

variable {naming : ControlNaming ι} {state next : DurableControlState ι}

/-- A range repeats what the check of a transition does not compare: epoch, revision, and the fields
that the other leaves empty. -/
def FillsNothing (naming : ControlNaming ι) (old new : StreamSegment ι) : Prop :=
  new.placementEpoch = old.placementEpoch ∧ new.manifestRevision = old.manifestRevision ∧
    (old.memberIds = [] → new.memberIds = []) ∧
    (old.memberHash = naming.empty → new.memberHash = naming.empty) ∧
    (old.writerEpoch = 0 → new.writerEpoch = 0) ∧
    (old.operationId = naming.empty → new.operationId = naming.empty) ∧
    (old.tier = naming.empty → new.tier = naming.empty) ∧
    (old.maxAppendBytes = 0 → new.maxAppendBytes = 0)

instance (old new : StreamSegment ι) : Decidable (FillsNothing naming old new) :=
  inferInstanceAs (Decidable (_ ∧ _ ∧ _ ∧ _ ∧ _ ∧ _ ∧ _ ∧ _))

def RepeatsSealed (naming : ControlNaming ι) (state : DurableControlState ι)
    (request : ManifestCasRequest ι) : Prop :=
  ∀ entry ∈ state.streamSegments.toList,
    ∀ pair ∈ entry.2.zip (request.streamSegments[entry.1]?.getD []),
      pair.1.endLsn ≠ none → FillsNothing naming pair.1 pair.2

instance (request : ManifestCasRequest ι) : Decidable (RepeatsSealed naming state request) :=
  inferInstanceAs (Decidable (∀ _ ∈ _, _))

theorem KeepsSealed.trans {a b c : ReplicaManifest ι} (ha : KeepsSealed a b)
    (hb : KeepsSealed b c) : KeepsSealed a c := by
  intro stream ranges hr segment hm hs
  obtain ⟨ranges',hr',hm'⟩ := ha stream ranges hr segment hm hs
  exact hb stream ranges' hr' segment hm' hs

theorem eq_of_empty_or (ho : a = e ∨ a = b) (hi : a = e → b = e) : a = b := by
  rcases ho with h | h
  · exact h.trans (hi h).symm
  · exact h

theorem Keeps.eq (h : Keeps naming old new)
    (hs : old.endLsn ≠ none) (hf : FillsNothing naming old new) : old = new := by
  obtain ⟨⟨hst,hc,hi,hh,hw,ho,ht,hl⟩,he⟩ := h
  obtain ⟨hp,hr,hi',hh',hw',ho',ht',hl'⟩ := hf
  obtain ⟨last,hla⟩ := Option.ne_none_iff_exists'.mp hs
  have he : old.endLsn = new.endLsn := hla.trans (he last hla).symm
  cases old
  cases new
  simp only at *
  rw [hst,he,hc,eq_of_empty_or hi hi',eq_of_empty_or hh hh',
    eq_of_empty_or hw hw',eq_of_empty_or ho ho',
    eq_of_empty_or ht ht',eq_of_empty_or hl hl',hp,hr]

theorem keepsSealed_of_transition (ht : validateManifestTransition naming state.streamSegments
      request.streamSegments = .ok ())
    (hr : RepeatsSealed naming state request) (he : earlier.streamSegments = state.streamSegments)
    (hl : after.streamSegments = request.streamSegments) : KeepsSealed earlier after := by
  intro stream ranges hra segment hm hs
  rw [he] at hra
  rw [hl]
  obtain ⟨i,hi⟩ := List.mem_iff_getElem?.mp hm
  have hst := validateManifestTransition_stream ht hra
  rcases validateStreamTransition_keeps hst hi with ⟨new,hn,hk⟩ | ⟨ho,-⟩
  · cases hf : request.streamSegments[stream]? with
    | none => simp [hf] at hn
    | some ranges' =>
      rw [hf,Option.getD_some] at hn
      have hp : (segment,new) ∈ ranges.zip ranges' :=
        List.mem_iff_getElem?.mpr ⟨i,by simp [List.getElem?_zip_eq_some,hi,hn]⟩
      have hfi := hr (stream,ranges)
        (Std.ExtTreeMap.mem_toList_iff_getElem?_eq_some.mpr hra) (segment,new)
        (by simpa [hf] using hp) hs
      have heq : segment = new := hk.eq hs hfi
      exact ⟨ranges',rfl,List.mem_iff_getElem?.mpr ⟨i,heq ▸ hn⟩⟩
  · exact absurd ho hs

end Sealed

section Runs

variable {naming : ControlNaming ι} {cluster cluster' : ManifestCluster ι}
  {g : Register (ReplicaManifest ι)} {member : Fin 3}

structure Tracks (naming : ControlNaming ι) (cluster : ManifestCluster ι)
    (g : Register (ReplicaManifest ι)) : Prop where
  current : ∀ m, (g m).current = manifestFromState naming (cluster.members m)
  held : ∀ m manifest, manifest ∈ cluster.held m ↔ manifest ∈ (g m).held
  bound : ∀ m, (g m).settled = true → Bound naming (cluster.members m)

theorem Tracks.quorumHeld (h : Tracks naming cluster g) :
    cluster.QuorumHeld manifest ↔ g.Seen manifest := by
  simp only [ManifestCluster.QuorumHeld,Register.Seen,h.held]

/-- A member that persists a document tracks the register that took it. -/
theorem Tracks.update (h : Tracks naming cluster g)
    (hc : replica.current = manifestFromState naming next)
    (hh : ∀ manifest, manifest ∈ replica.held ↔
      manifest = manifestFromState naming next ∨ manifest ∈ (g member).held)
    (hb : replica.settled = true → Bound naming next) :
    Tracks naming (cluster.persist naming member next) (g.update member replica) where
  current m := by
    by_cases hm : m = member
    · simp [Register.update,ManifestCluster.persist,hm,hc]
    · simp [Register.update,ManifestCluster.persist,hm,h.current]
  held m manifest := by
    by_cases hm : m = member
    · simp [Register.update,ManifestCluster.persist,hm,hh,h.held]
    · simp [Register.update,ManifestCluster.persist,hm,h.held]
  bound m := by
    by_cases hm : m = member
    · simpa [Register.update,ManifestCluster.persist,hm] using hb
    · simpa [Register.update,ManifestCluster.persist,hm] using h.bound m

variable (naming) in
def Agrees (cluster : ManifestCluster ι) : Prop :=
  ∃ g, Tracks naming cluster g ∧ Register.Sound (·.revision) KeepsSealed g

theorem Agrees.agreement (h : Agrees naming cluster) : Agreement cluster := by
  obtain ⟨g,ht,hs⟩ := h
  constructor
  · intro manifest other hm ho hr
    exact hs.seen_unique (ht.quorumHeld.mp hm) (ht.quorumHeld.mp ho)
      hr
  · intro earlier later he hl hlt hn
    exact hs.seen_follows (ht.quorumHeld.mp he) (ht.quorumHeld.mp hl) hlt
      fun between hb => hn between (ht.quorumHeld.mpr hb)

theorem ReadableCluster.agrees (h : ReadableCluster naming cluster) : Agrees naming cluster := by
  refine ⟨Register.initial fun m => manifestFromState naming (cluster.members m),?_,
    Register.sound_initial _⟩
  constructor
  · intro m
    rfl
  · intro m manifest
    simp [Register.initial,(h m).2]
  · intro m _ hr
    exact Fits.of_manifest (h m).1 hr

/-- A document with the same manifest changes no agreement. -/
theorem Agrees.unchanged (h : Tracks naming cluster g)
    (hs : Register.Sound (·.revision) KeepsSealed g)
    (hsa : manifestFromState naming next = manifestFromState naming (cluster.members member))
    (hb : (g member).settled = true → Bound naming next) :
    Agrees naming (cluster.persist naming member next) := by
  refine ⟨g,?_,hs⟩
  have hg : g.update member (g member) = g := by
    funext m
    by_cases hm : m = member <;> simp [Register.update,hm]
  rw [← hg]
  apply h.update
  · rw [hsa,h.current]
  · intro manifest
    rw [hsa,← h.current]
    constructor
    · exact .inr
    · rintro (rfl | hh)
      · exact hs.current member
      · exact hh
  · exact hb

theorem Agrees.advanced (h : Tracks naming cluster g)
    (hs : Register.Sound (·.revision) KeepsSealed g)
    (hr : (manifestFromState naming next).revision =
      (manifestFromState naming (cluster.members member)).revision + 1)
    (hk : KeepsSealed (manifestFromState naming (cluster.members member))
      (manifestFromState naming next))
    (hb : Bound naming next) : Agrees naming (cluster.persist naming member next) := by
  rw [← h.current] at hr hk
  refine ⟨g.advance member (manifestFromState naming next),?_,
    hs.advance hr (fun _ _ _ => KeepsSealed.trans) hk⟩
  exact h.update rfl (fun manifest => List.mem_cons) fun _ => hb

theorem Agrees.repaired (h : Tracks naming cluster g)
    (hs : Register.Sound (·.revision) KeepsSealed g) (hp : cluster.QuorumHeld pushed)
    (hl : (cluster.members member).manifestRevision ≤ pushed.revision)
    (hn : ¬((g member).settled = true ∧
      manifestFromState naming (cluster.members member) = pushed))
    (hr : (manifestFromState naming next).revision = pushed.revision) :
    Agrees naming (cluster.persist naming member next) := by
  rw [← h.current] at hn
  have hl' : (g member).current.revision ≤ pushed.revision := by
    rw [h.current]
    exact hl
  refine ⟨g.repair member (manifestFromState naming next),?_,
    hs.repair (h.quorumHeld.mp hp) hl' hn hr⟩
  exact h.update rfl (fun manifest => List.mem_cons) fun hse => nomatch hse

def RepeatsRanges (naming : ControlNaming ι) (cluster : ManifestCluster ι) :
    ManifestAct ι → Prop
  | .cas member request =>
    (cluster.members member).manifestOperations[request.operationId]? = none →
      RepeatsSealed naming (cluster.members member) request
  | .repair _ _ => True
  | .adopt _ _ _ => True

instance (cluster : ManifestCluster ι) : DecidablePred (RepeatsRanges naming cluster)
  | .cas _ _ => inferInstanceAs (Decidable (_ → _))
  | .repair _ _ => instDecidableTrue
  | .adopt _ _ _ => instDecidableTrue

theorem casStep_agrees (h : Agrees naming cluster)
    (ho : RepeatsRanges naming cluster (.cas member request))
    (hs : clusterStep naming cluster (.cas member request) = some cluster') :
    Agrees naming cluster' := by
  obtain ⟨g,ht,hso⟩ := h
  simp only [clusterStep,Option.ite_none_left_eq_some,Option.map_eq_some_iff,
    Except.toOption_eq_some] at hs
  obtain ⟨hr,⟨answer,next⟩,hc,rfl⟩ := hs
  cases casManifest_cases hc with
  | replayed _ => exact Agrees.unchanged ht hso rfl (ht.bound member)
  | held _ hr' _ _ _ => exact absurd hr' hr
  | repaired hr' _ _ _ _ => exact absurd hr' hr
  | advanced _ hrev _ _ htra _ hi =>
    have hn : request.expectedRevision + 1 ≠ 0 := Nat.succ_ne_zero _
    apply Agrees.advanced ht hso
    · change next.manifestRevision = (cluster.members member).manifestRevision + 1
      rw [hi.manifestRevision_eq,hrev]
    · exact keepsSealed_of_transition htra (ho hi.unrecorded) rfl
        hi.streamSegments_eq
    · exact hi.bound hn

theorem repairStep_agrees (h : Agrees naming cluster)
    (hs : clusterStep naming cluster (.repair member manifest) = some cluster') :
    Agrees naming cluster' := by
  obtain ⟨g,ht,hso⟩ := h
  simp only [clusterStep,Option.ite_none_right_eq_some,Option.map_eq_some_iff,
    Except.toOption_eq_some] at hs
  obtain ⟨hp,⟨answer,next⟩,hc,rfl⟩ := hs
  cases casManifest_cases hc with
  | replayed _ => exact Agrees.unchanged ht hso rfl (ht.bound member)
  | held _ _ _ _ _ => exact Agrees.unchanged ht hso rfl (ht.bound member)
  | advanced hr _ _ _ _ _ _ => cases hr
  | repaired _ hz hl ho hi =>
    apply Agrees.repaired ht hso hp hl
    · rintro ⟨hse,hsa⟩
      have hrev : (cluster.members member).manifestRevision = manifest.revision :=
        congrArg ReplicaManifest.revision hsa
      have hn : (cluster.members member).manifestRevision ≠ 0 := hrev ▸ hz
      have hd := (ht.bound member hse hn).digest
      apply ho hrev
      rw [hsa] at hd
      rw [show (adoptionRequest manifest).streamSegments = manifest.streamSegments from rfl,
        ← hd,← hsa]
      exact (if_neg hn).symm
    · exact hi.manifestRevision_eq

theorem adoptStep_agrees (h : Agrees naming cluster)
    (hs : clusterStep naming cluster (.adopt member manifest force) = some cluster') :
    Agrees naming cluster' := by
  obtain ⟨g,ht,hso⟩ := h
  simp only [clusterStep,Option.ite_none_right_eq_some,Option.map_eq_some_iff,
    Except.toOption_eq_some] at hs
  obtain ⟨hp,next,ha,rfl⟩ := hs
  have hado := adoptManifest_adopts ha
  by_cases hsa : (g member).settled = true ∧
      manifestFromState naming (cluster.members member) = manifest
  · obtain ⟨hse,rfl⟩ := hsa
    have hn : (cluster.members member).manifestRevision ≠ 0 := by
      intro hz
      apply naming.manifestDigest_ne_empty (cluster.members member).streamSegments
      exact hado.digest.symm.trans (if_pos hz)
    obtain ⟨hr,hb⟩ := hado.of_fits (ht.bound member hse hn)
    exact Agrees.unchanged ht hso hr fun _ => hb
  · exact Agrees.repaired ht hso hp hado.later hsa hado.revision_eq

theorem clusterStep_agrees (h : Agrees naming cluster) (ho : RepeatsRanges naming cluster act)
    (hs : clusterStep naming cluster act = some cluster') : Agrees naming cluster' := by
  cases act with
  | cas member request => exact casStep_agrees h ho hs
  | repair member manifest => exact repairStep_agrees h hs
  | adopt member manifest force => exact adoptStep_agrees h hs

/-- As long as each accepted CAS repeats the sealed ranges of its member, two members agree on one
manifest for each revision, and each keeps the sealed ranges of the one before. -/
theorem quorum_manifests_agree
    (h : Reachable (ReadableCluster naming) (clusterStep naming) (RepeatsRanges naming) cluster) :
    Agreement cluster :=
  (h.invariant (fun _ => ReadableCluster.agrees) fun _ _ _ => clusterStep_agrees).agreement

def openedCluster : ManifestCluster ℕ where
  members _ := threeMembers
  held _ := [manifestFromState numbered threeMembers]

theorem openedCluster_readable : ReadableCluster numbered openedCluster :=
  fun _ => ⟨rfl,rfl⟩

def cutoverRequest : ManifestCasRequest ℕ :=
  routeRequest 1 [rangeOfThree 1 (some 5), rangeOfThree 6 none] (some 5)

def repeatRequest (placementEpoch : ℕ) : ManifestCasRequest ℕ :=
  routeRequest 2 [{ rangeOfThree 1 (some 5) with placementEpoch }, rangeOfThree 6 none] none

def publishedManifest (request : ManifestCasRequest ℕ) : ReplicaManifest ℕ :=
  nextManifest numbered threeMembers (request.expectedRevision + 1) request.operationId
    request.streamSegments

def publishActs (placementEpoch : ℕ) : List (ManifestAct ℕ) :=
  [routeRequest 0 [rangeOfThree 1 none] none, cutoverRequest, repeatRequest placementEpoch].flatMap
    fun request => [.cas 0 request, .cas 1 request]

/-- The third member has another manifest of the first revision, and is repaired to the third. -/
theorem lagging_member_agrees :
    ∃ cluster, Reachable (ReadableCluster numbered) (clusterStep numbered)
        (RepeatsRanges numbered) cluster ∧
      (cluster.members 2).manifestRevision = 3 ∧ Agreement cluster := by
  exact Reachable.exists_of_runs openedCluster_readable
    (.cas 2 (routeRequest 0 [{ rangeOfThree 1 none with placementEpoch := 7 }] none) ::
      publishActs 1 ++ [.repair 2 (publishedManifest (repeatRequest 1))]) rfl
    fun hr => ⟨rfl,quorum_manifests_agree hr⟩

/-- Two members accept another epoch for a range that they have sealed. -/
theorem sealed_range_changes :
    ¬∀ cluster, Reachable (ReadableCluster numbered) (clusterStep numbered) anyStep cluster →
      Agreement cluster := by
  intro ha
  have hr := ha _ (.of_start openedCluster_readable (publishActs 2) rfl)
  have hk : KeepsSealed (publishedManifest cutoverRequest)
      (publishedManifest (repeatRequest 2)) := by
    apply hr.appendOnly
    · exact ⟨0,1,by decide,.tail _ (.head _),.tail _ (.head _)⟩
    · exact ⟨0,1,by decide,.head _,.head _⟩
    · decide
    · rintro between - ⟨hl,hh⟩
      have hl : 2 < between.revision := hl
      have hh : between.revision < 3 := hh
      omega
  obtain ⟨ranges,hra,hm⟩ := hk 5 _ rfl (rangeOfThree 1 (some 5)) (.head _) (by decide)
  cases hra
  revert hm
  decide

end Runs

end Walleye.Control
