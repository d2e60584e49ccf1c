import Mathlib.Order.Defs.LinearOrder
import Walleye.Bitr.HotTail
import Walleye.Bitr.Transfer

namespace Walleye.Bitr

open Walleye.Base

variable {σ β : Type} [LinearOrder σ]

/-- A cohort under the maintenance fence. `owned` are the records routed to it, `boundary` those
that the replacement's own manifest proves to open a range, and `heads` how far each stream is
archived. -/
structure FencedCohort (σ β : Type) [LinearOrder σ] where
  sources : Fin 3 → DiskState σ β
  fence : MaintenanceFence
  owned : EncryptedRecord σ β → Bool
  boundary : EncryptedRecord σ β → Bool
  heads : σ → Nat
  fenced : ∀ m, (sources m).maintenance = some fence
  slot : ∀ m, ∀ r ∈ (sources m).records, ∀ q ∈ (sources m).records, r.SameSlot q → r = q
  watermark : ∀ m, ∀ r ∈ (sources m).records, r.committedLsn < r.lsn
  nonzero : ∀ m, ∀ p ∈ (sources m).trimmed, 0 < p.archivedLsn
  archived : ∀ m, ∀ p ∈ (sources m).trimmed, p.archivedLsn ≤ heads p.stream

namespace FencedCohort

section Evidence

variable (c : FencedCohort σ β)

def snapshots : Fin 3 → Option (NodeSnapshot σ β) := fun m => some (c.sources m).snapshot

def owns : Fin 3 → EncryptedRecord σ β → Bool := fun _ r => c.owned r

def prefixes : List (TrimmedPrefix σ) :=
  [0, 1, 2].flatMap fun m => (c.sources m).trimmed

/-- A stream's checkpoint for the replacement: the highest watermark and the highest epoch. -/
def checkpoint (stream : σ) : TrimmedPrefix σ :=
  ⟨stream, floorOf c.prefixes stream,
    ((c.prefixes.filter (·.stream = stream)).map (·.writerEpoch)).foldl max 0⟩

def checkpoints : List (TrimmedPrefix σ) :=
  ((c.prefixes.map (·.stream)).dedup.insertionSort (· ≤ ·)).map c.checkpoint

def Acknowledged (r : EncryptedRecord σ β) : Prop :=
  c.owned r = true ∧ TwoOf fun m => r ∈ (c.sources m).records ∧ r ∈ (c.sources m).committed

def Certified (r : EncryptedRecord σ β) : Prop :=
  c.owned r = true ∧ (TwoOf fun m => r ∈ (c.sources m).records) ∧
    ∃ m, r ∈ (c.sources m).records ∧ r ∈ (c.sources m).committed

end Evidence

variable {c : FencedCohort σ β} {r q : EncryptedRecord σ β} {m : Fin 3} {stream : σ}

theorem shows_iff :
    Shows c.owns c.snapshots r m ↔ r ∈ (c.sources m).records ∧ c.owned r = true := by
  simp [Shows,snapshots,owns,DiskState.snapshot]

theorem marks_iff : Marks c.owns c.snapshots r m ↔
    (r ∈ (c.sources m).records ∧ c.owned r = true) ∧ r ∈ (c.sources m).committed := by
  simp [Marks,snapshots,owns,DiskState.snapshot]

theorem mem_evidence_iff : r ∈ evidence c.owns c.snapshots ↔
    c.owned r = true ∧ ∃ m, r ∈ (c.sources m).records := by
  simp only [mem_evidence,shows_iff]
  exact ⟨fun ⟨m,hm,ho⟩ => ⟨ho,m,hm⟩,fun ⟨ho,m,hm⟩ => ⟨m,hm,ho⟩⟩

theorem Certified.unique (hr : c.Certified r) (hq : c.Certified q) (hs : r.SameSlot q) : r = q := by
  obtain ⟨m,hrm,hqm⟩ := hr.2.1.meet hq.2.1
  exact c.slot m r hrm q hqm hs

theorem Acknowledged.certified (h : c.Acknowledged r) : c.Certified r := by
  refine ⟨h.1,h.2.mono fun m hm => hm.1,?_⟩
  obtain ⟨m,_,_,hm,_⟩ := h.2
  exact ⟨m,hm⟩

section Checkpoints

variable {p : TrimmedPrefix σ}

def takeCheckpoints (c : FencedCohort σ β) (node : DiskState σ β) :
    Except ReplicaError (DiskState σ β) :=
  if c.checkpoints.any fun p => decide (c.heads p.stream < p.archivedLsn) then
    .error (.nodeStorage "archive head trails the trimmed prefix")
  else if c.checkpoints.isEmpty then .ok node
  else (node.compactArchivedBatch c.checkpoints).mapError fun _ => .lsnConflict

end Checkpoints

variable [DecidableEq β]

def streams (c : FencedCohort σ β) : List σ :=
  ((evidence c.owns c.snapshots).map (·.stream)).dedup.insertionSort (· ≤ ·)

def copied (c : FencedCohort σ β) : List (EncryptedRecord σ β) :=
  c.streams.flatMap fun stream =>
    (sortByLsn (collectCandidates c.owns c.snapshots stream)).filter c.owned

/-- The replacement when the transfer has gone through: the hot records first, the checkpoints
after them. -/
def replaceMember (c : FencedCohort σ β) (replacement : DiskState σ β) :
    Except ReplicaError (DiskState σ β) :=
  (copyAll c.boundary c.fence replacement.snapshot c.copied replacement).bind c.takeCheckpoints

def fresh (c : FencedCohort σ β) : DiskState σ β :=
  { DiskState.empty with maintenance := some c.fence }

def Replaced (c : FencedCohort σ β) : Prop :=
  ∃ node, c.replaceMember c.fresh = .ok node ∧
    (∀ r, c.Acknowledged r → (c.checkpoint r.stream).archivedLsn < r.lsn →
      r ∈ node.records ∧ r ∈ node.committed) ∧
    ∀ m stream, (c.sources m).highestEpoch stream ≤ node.highestEpoch stream

theorem eligible_iff (hr : r ∈ (c.sources m).records) (ho : c.owned r = true) :
    Eligible c.owns c.snapshots r ↔ c.Certified r := by
  have ha : ∀ m, Answers c.owns c.snapshots r m := fun m => ⟨rfl,ho⟩
  constructor
  · intro h
    refine ⟨ho,(h.twoOf ha).mono fun m hm => (shows_iff.mp hm).1,?_⟩
    have hp : 0 < countOf (Marks c.owns c.snapshots r) := by
      rcases h.2 with hq | ⟨hp,_⟩
      · exact Nat.lt_of_lt_of_le (by decide) hq
      · exact hp
    obtain ⟨m,hm⟩ := countOf_pos.mp hp
    obtain ⟨⟨hre,_⟩,hc⟩ := marks_iff.mp hm
    exact ⟨m,hre,hc⟩
  · rintro ⟨_,ht,m',hre,hc⟩
    have hs : ackQuorum ≤ countOf (Shows c.owns c.snapshots r) :=
      two_le_countOf.mpr (ht.mono fun m hm => shows_iff.mpr ⟨hm,ho⟩)
    refine ⟨c.watermark m r hr,.inr ⟨countOf_pos.mpr ⟨m',marks_iff.mpr ⟨⟨hre,ho⟩,hc⟩⟩,?_⟩⟩
    rw [countOf_all ha]
    unfold ackQuorum at hs ⊢
    omega

theorem mem_candidates :
    r ∈ collectCandidates c.owns c.snapshots stream ↔ c.Certified r ∧ r.stream = stream := by
  rw [mem_collectCandidates,mem_evidence_iff]
  constructor
  · rintro ⟨⟨ho,m,hm⟩,hs,he,_⟩
    exact ⟨(eligible_iff hm ho).mp he,hs⟩
  · rintro ⟨hc,hs⟩
    obtain ⟨m,hm,_⟩ := hc.2.2
    refine ⟨⟨hc.1,m,hm⟩,hs,(eligible_iff hm hc.1).mpr hc,fun q hq hqs hql he => ?_⟩
    obtain ⟨hqo,m',hqm⟩ := mem_evidence_iff.mp hq
    exact ((eligible_iff hqm hqo).mp he).unique hc ⟨hqs.trans hs.symm,hql⟩

variable (c)

end FencedCohort

end Walleye.Bitr
