import Mathlib.Data.List.Dedup
import Mathlib.Data.List.Sort
import Walleye.Base.Sums
import Walleye.Bitr.Log
import Walleye.Bitr.FanOut

namespace Walleye.Bitr

open Walleye.Base

variable {ι σ β : Type}

/-- A retained member of a cohort, and whether it answers a snapshot request. -/
structure RebalanceMember (ι σ β : Type) where
  id : ι
  active : Bool
  disk : DiskState σ β
  answers : Bool

structure RebalanceCohort (ι σ β : Type) where
  id : Nat
  joining : Bool
  members : List (RebalanceMember ι σ β)

structure RebalanceReport where
  committedRecords : Nat
  alreadyDurable : Nat
  repaired : Nat
  failed : Nat
  unsafeRecordsSkipped : Nat
  quorumProven : Bool
deriving DecidableEq, Repr

def RebalanceReport.complete (report : RebalanceReport) : Bool :=
  report.failed = 0 && report.unsafeRecordsSkipped = 0 &&
    report.committedRecords ≤ report.repaired + report.alreadyDurable

/-- The manifest and the calls of one pass: the owner of a slot, the cohort of its range, the
records that open one, the maintenance fence, and whether the calls that append and mark a record
get through. -/
structure RebalancePass (ι σ β : Type) where
  owns : ι → σ → Nat → Bool
  segment : σ → Nat → Option Nat
  boundary : EncryptedRecord σ β → Bool
  token : Option MaintenanceFence
  appends : ι → EncryptedRecord σ β → Bool
  marks : ι → EncryptedRecord σ β → Bool

def DiskState.Holds (s : DiskState σ β) (r : EncryptedRecord σ β) : Prop :=
  r ∈ s.records ∧ r ∈ s.committed

def Gains (before after : List (EncryptedRecord σ β)) (r : EncryptedRecord σ β) : Prop :=
  (∀ q ∈ before, q ∈ after) ∧ ∀ q ∈ after, q ∈ before ∨ q = r

theorem Gains.refl (records : List (EncryptedRecord σ β)) (r : EncryptedRecord σ β) :
    Gains records records r :=
  ⟨fun _ => id,fun _ => .inl⟩

theorem Gains.snoc (records : List (EncryptedRecord σ β)) (r : EncryptedRecord σ β) :
    Gains records (records ++ [r]) r :=
  ⟨fun _ => List.mem_append_left _,fun _ hq =>
    (List.mem_append.mp hq).imp_right List.mem_singleton.mp⟩

theorem Gains.trans (h : Gains xs ys r) (h' : Gains ys zs r) : Gains xs zs r :=
  ⟨fun q hq => h'.1 q (h.1 q hq),fun q hq => (h'.2 q hq).elim (h.2 q) .inr⟩

structure Sent (s s' : DiskState σ β) (r : EncryptedRecord σ β) : Prop where
  records : Gains s.records s'.records r
  committed : Gains s.committed s'.committed r
  trimmed : s'.trimmed = s.trimmed

theorem Sent.refl (s : DiskState σ β) (r : EncryptedRecord σ β) : Sent s s r :=
  ⟨.refl _ _,.refl _ _,rfl⟩

theorem Sent.holds (h : Sent s s' r) :
    (s.Holds q → s'.Holds q) ∧ (q ≠ r → s'.Holds q → s.Holds q) :=
  ⟨fun hq => ⟨h.records.1 q hq.1,h.committed.1 q hq.2⟩,fun hn hq =>
    ⟨(h.records.2 q hq.1).resolve_right hn,(h.committed.2 q hq.2).resolve_right hn⟩⟩

variable [LinearOrder σ] [DecidableEq β]

section Evidence

variable (pass : RebalancePass ι σ β) (members : List (RebalanceMember ι σ β))
  (r : EncryptedRecord σ β)

def RebalancePass.ownsRecord (member : RebalanceMember ι σ β) : Bool :=
  pass.owns member.id r.stream r.lsn

def RebalancePass.shown : List (EncryptedRecord σ β) :=
  (members.filter (·.answers)).flatMap fun member =>
    member.disk.records.filter (pass.ownsRecord · member)

def RebalancePass.answeringOwners : Nat :=
  members.countP fun member => member.answers && pass.ownsRecord r member

def RebalancePass.dataNodes : Nat :=
  members.countP fun member =>
    member.answers && pass.ownsRecord r member && decide (r ∈ member.disk.records)

def RebalancePass.committedNodes : Nat :=
  members.countP fun member => member.answers && pass.ownsRecord r member &&
    decide (r ∈ member.disk.records ∧ r ∈ member.disk.committed)

/-- Markers of a quorum, or one marker while no read quorum of the owners that answered confirms
the record absent. -/
def RebalancePass.Evident : Prop :=
  r.committedLsn < r.lsn ∧
    (ackQuorum ≤ pass.committedNodes members r ∨ 0 < pass.committedNodes members r ∧
      pass.answeringOwners members r - pass.dataNodes members r < ackQuorum)

instance : DecidablePred (pass.Evident members) := fun _ => inferInstanceAs (Decidable (_ ∧ _))

def RebalancePass.slots : List (σ × Nat) :=
  ((pass.shown members).map fun r => (r.stream, r.lsn)).dedup.insertionSort fun slot other =>
    slot.1 < other.1 ∨ slot.1 = other.1 ∧ slot.2 ≤ other.2

def RebalancePass.eligible (slot : σ × Nat) : List (EncryptedRecord σ β) :=
  (pass.shown members).dedup.filter fun r =>
    decide ((r.stream, r.lsn) = slot ∧ pass.Evident members r)

def RebalancePass.candidates : List (EncryptedRecord σ β) :=
  (pass.slots members).flatMap fun slot =>
    if (pass.eligible members slot).length = 1 then pass.eligible members slot else []

/-- Slots with conflicting values, or with none that has evidence enough. -/
def RebalancePass.unsafeSkipped : Nat :=
  (pass.slots members).countP fun slot => (pass.eligible members slot).length ≠ 1

end Evidence

section Copy

structure Copying (σ β : Type) where
  disk : DiskState σ β
  already : Nat
  repaired : Nat
  failed : Nat

variable (pass : RebalancePass ι σ β) (member : RebalanceMember ι σ β)

/-- Append and mark a record on a target: whether both went through, and its disk. -/
def RebalancePass.repair (disk : DiskState σ β) (r : EncryptedRecord σ β) :
    Bool × DiskState σ β :=
  if !pass.appends member.id r then (false, disk)
  else
    match pass.token with
    | none =>
      match disk.appendMany pass.boundary none true [r] with
      | .error _ => (false, disk)
      | .ok disk => (true, disk)
    | some fence =>
      match disk.append pass.boundary (some fence) r with
      | .error _ => (false, disk)
      | .ok disk =>
        if !pass.marks member.id r then (false, disk)
        else
          match disk.commit (some fence) r with
          | .error _ => (false, disk)
          | .ok disk => (true, disk)

def RebalancePass.copy (copying : Copying σ β) (r : EncryptedRecord σ β) : Copying σ β :=
  if member.answers ∧ r ∈ member.disk.records then
    { copying with already := copying.already + 1 }
  else
    let (done, disk) := pass.repair member copying.disk r
    if done then { copying with disk, repaired := copying.repaired + 1 }
    else { copying with disk, failed := copying.failed + 1 }

def RebalancePass.copyAll (records : List (EncryptedRecord σ β)) : Copying σ β :=
  records.foldl (pass.copy member) ⟨member.disk, 0, 0, 0⟩

end Copy

section Pass

variable [DecidableEq ι] (pass : RebalancePass ι σ β) (target : Option ι)
  (cohort : RebalanceCohort ι σ β)

def targets : List (RebalanceMember ι σ β) :=
  if cohort.joining then []
  else cohort.members.filter fun member => member.active && target.all (· = member.id)

def RebalancePass.records : List (EncryptedRecord σ β) :=
  (pass.candidates cohort.members).filter fun r =>
    (pass.segment r.stream r.lsn).all (· = cohort.id)

/-- The pass over one cohort. Each target has a disk of its own, so the records are sent target by
target here; a candidate always has a source. -/
def RebalancePass.rebalanceCohort : RebalanceReport :=
  if targets target cohort = [] then ⟨0, 0, 0, 0, 0, true⟩
  else
    let counted := fun count =>
      total (fun member => count (pass.copyAll member (pass.records cohort))) (targets target cohort)
    { committedRecords := (pass.records cohort).length
      alreadyDurable := counted Copying.already
      repaired := counted Copying.repaired
      failed := counted Copying.failed
      unsafeRecordsSkipped := pass.unsafeSkipped cohort.members
      quorumProven := cohort.members.all (·.answers) }

def RebalancePass.rebalanceUnfenced (cohorts : List (RebalanceCohort ι σ β)) :
    Except ReplicaError RebalanceReport :=
  if target.isSome ∧ ∀ cohort ∈ cohorts, targets target cohort = [] then
    .error (.nodeStorage "rebalance target is not an active member")
  else
    let counted := fun count =>
      total (fun cohort => count (pass.rebalanceCohort target cohort)) cohorts
    .ok
      { committedRecords := counted (·.committedRecords)
        alreadyDurable := counted (·.alreadyDurable)
        repaired := counted (·.repaired)
        failed := counted (·.failed)
        unsafeRecordsSkipped := counted (·.unsafeRecordsSkipped)
        quorumProven := cohorts.all fun cohort => (pass.rebalanceCohort target cohort).quorumProven }

end Pass

def RebalancePass.Acknowledged (pass : RebalancePass ι σ β) (cohort : RebalanceCohort ι σ β)
    (r : EncryptedRecord σ β) : Prop :=
  (pass.segment r.stream r.lsn).all (· = cohort.id) = true ∧
    ackQuorum ≤ cohort.members.countP fun member =>
      pass.ownsRecord r member && decide (r ∈ member.disk.records ∧ r ∈ member.disk.committed)

section Copied

variable {r : EncryptedRecord σ β}

theorem Sent.of_append (h : s.append boundary token r = .ok s') : Sent s s' r ∧ r ∈ s'.records := by
  simp only [DiskState.append,guard_ok] at h
  obtain ⟨-,-,-,-,h⟩ := h
  split at h
  · rename_i existing he
    simp only [guard_ok,not_not,Except.ok.injEq] at h
    obtain ⟨rfl,rfl⟩ := h
    exact ⟨.refl s existing,(recordAt_eq_some he).1⟩
  · simp only [guard_ok,Except.ok.injEq] at h
    obtain ⟨-,rfl⟩ := h
    exact ⟨⟨.snoc _ _,.refl _ _,rfl⟩,by simp⟩

theorem le_floorOf {p : TrimmedPrefix σ}
    (h : prefixOf trimmed stream = some p) : p.archivedLsn ≤ floorOf trimmed stream := by
  have hp := List.find?_some h
  refine (le_foldl_max _ 0).2 _ (List.mem_map.mpr ⟨p,?_,rfl⟩)
  exact List.mem_filter.mpr ⟨List.mem_of_find?_eq_some h,hp⟩

theorem Sent.of_commit (h : s.commit token r = .ok s') :
    Sent s s' r ∧ (floorOf s.trimmed r.stream < r.lsn → r ∈ s'.committed) := by
  simp only [DiskState.commit,guard_ok] at h
  obtain ⟨-,-,h⟩ := h
  split at h
  · rename_i ha
    cases h
    obtain ⟨p,hp,hl⟩ := (Option.any_eq_true _ _).mp ha
    have := le_floorOf hp
    simp only [decide_eq_true_eq] at hl
    exact ⟨.refl s r,fun hlt => by omega⟩
  · simp only [guard_ok] at h
    obtain ⟨-,h⟩ := h
    split at h
    · rename_i marked hm
      simp only [guard_ok,not_not,Except.ok.injEq] at h
      obtain ⟨rfl,rfl⟩ := h
      exact ⟨.refl s marked,fun _ => (recordAt_eq_some hm).1⟩
    · cases h
      exact ⟨⟨.refl _ _,.snoc _ _,rfl⟩,fun _ => by simp⟩

theorem Sent.of_appendMany (h : s.appendMany boundary token true [r] = .ok s') :
    Sent s s' r ∧ s'.Holds r := by
  obtain ⟨-,fresh,ha⟩ := DiskState.appendMany_spec h
  have hm := ha.marked
  refine ⟨⟨⟨?_,?_⟩,⟨hm.1,?_⟩,ha.trimmed⟩,?_,hm.2.1 r (by simp)⟩
  · rw [ha.records]
    exact fun q hq => List.mem_append_left _ hq
  · rw [ha.records]
    intro q hq
    exact (List.mem_append.mp hq).imp_right fun hf =>
      List.mem_singleton.mp (ha.sub q hf)
  · exact fun q hq => (hm.2.2 q hq).imp_right List.mem_singleton.mp
  · rw [ha.records]
    exact List.mem_append.mpr (ha.covered r (by simp))

variable (pass : RebalancePass ι σ β) (member : RebalanceMember ι σ β)

theorem RebalancePass.repair_sent (s : DiskState σ β) (r : EncryptedRecord σ β) :
    Sent s (pass.repair member s r).2 r ∧ ((pass.repair member s r).1 = true →
      floorOf s.trimmed r.stream < r.lsn → (pass.repair member s r).2.Holds r) := by
  unfold RebalancePass.repair
  split
  · exact ⟨.refl s r,nofun⟩
  split
  · split
    · exact ⟨.refl s r,nofun⟩
    · rename_i hd
      have hs := Sent.of_appendMany hd
      exact ⟨hs.1,fun _ _ => hs.2⟩
  · split
    · exact ⟨.refl s r,nofun⟩
    rename_i appended ha
    have hs := Sent.of_append ha
    split
    · exact ⟨hs.1,nofun⟩
    split
    · exact ⟨hs.1,nofun⟩
    · rename_i hc
      have hm := Sent.of_commit hc
      refine ⟨⟨hs.1.records.trans hm.1.records,hs.1.committed.trans
        hm.1.committed,hm.1.trimmed.trans hs.1.trimmed⟩,fun _ hl => ?_⟩
      exact ⟨hm.1.records.1 r hs.2,hm.2 (hs.1.trimmed ▸ hl)⟩

theorem RebalancePass.copy_spec (c : Copying σ β) (r : EncryptedRecord σ β) :
    Sent c.disk (pass.copy member c r).disk r ∧ c.failed ≤ (pass.copy member c r).failed ∧
    (member.answers ∧ r ∈ member.disk.records → (pass.copy member c r).disk = c.disk) ∧
    (¬(member.answers ∧ r ∈ member.disk.records) →
      (pass.copy member c r).failed = c.failed → floorOf c.disk.trimmed r.stream < r.lsn →
        (pass.copy member c r).disk.Holds r) := by
  obtain ⟨hs,hd⟩ := pass.repair_sent member c.disk r
  unfold RebalancePass.copy
  split
  · rename_i hb
    exact ⟨.refl _ _,Nat.le_refl _,fun _ => rfl,fun hn => absurd hb hn⟩
  · rename_i hb
    simp only
    split
    · exact ⟨hs,Nat.le_refl _,fun hn => absurd hn hb,fun _ _ => hd ‹_›⟩
    · exact ⟨hs,Nat.le_succ _,fun hn => absurd hn hb,
        fun _ hf => absurd hf (Nat.succ_ne_self _)⟩

/-- The disk of a target that was sent records: it keeps what it held, takes nothing else, and when
no call failed holds all it was sent above its checkpoint. A target that answered with a record is
not sent it. -/
theorem RebalancePass.copyAll_spec (records : List (EncryptedRecord σ β)) (c : Copying σ β) :
    (∀ r, c.disk.Holds r → (records.foldl (pass.copy member) c).disk.Holds r) ∧
    (∀ r, (r ∈ records → member.answers ∧ r ∈ member.disk.records) →
      (records.foldl (pass.copy member) c).disk.Holds r → c.disk.Holds r) ∧
    c.failed ≤ (records.foldl (pass.copy member) c).failed ∧
    ((records.foldl (pass.copy member) c).failed = c.failed → ∀ r ∈ records,
      ¬(member.answers ∧ r ∈ member.disk.records) → floorOf c.disk.trimmed r.stream < r.lsn →
        (records.foldl (pass.copy member) c).disk.Holds r) := by
  induction records generalizing c with
  | nil => exact ⟨fun _ => id,fun _ _ => id,Nat.le_refl _,fun _ => nofun⟩
  | cons first rest ih =>
    obtain ⟨hs,hl,hb,hh⟩ := pass.copy_spec member c first
    obtain ⟨hk,hn,hre,ha⟩ := ih (pass.copy member c first)
    rw [List.foldl_cons]
    refine ⟨fun r hr => hk r (hs.holds.1 hr),fun r hr haf => ?_,
      Nat.le_trans hl hre,fun hf r hr hno hlt => ?_⟩
    · have hc := hn r (fun hm => hr (List.mem_cons_of_mem _ hm)) haf
      by_cases he : r = first
      · subst he
        rwa [hb (hr List.mem_cons_self)] at hc
      · exact hs.holds.2 he hc
    · have hfi : (pass.copy member c first).failed = c.failed := by omega
      cases List.mem_cons.mp hr with
      | inl he =>
        subst he
        exact hk r (hh hno hfi hlt)
      | inr hm => exact ha (by omega) r hm hno (hs.trimmed ▸ hlt)

end Copied

section Complete

variable {pass : RebalancePass ι σ β} {r : EncryptedRecord σ β}

theorem RebalancePass.Evident.mem_shown (h : pass.Evident members r) : r ∈ pass.shown members := by
  have hp : 0 < pass.committedNodes members r := by
    cases h.2 with
    | inl hq => exact Nat.lt_of_lt_of_le (by decide) hq
    | inr ho => exact ho.1
  obtain ⟨member,hm,hma⟩ := List.countP_pos_iff.mp hp
  simp only [Bool.and_eq_true,decide_eq_true_eq] at hma
  exact List.mem_flatMap.mpr ⟨member,List.mem_filter.mpr ⟨hm,hma.1.1⟩,
    List.mem_filter.mpr ⟨hma.2.1,hma.1.2⟩⟩

theorem RebalancePass.mem_eligible : r ∈ pass.eligible members slot ↔
    (r.stream,r.lsn) = slot ∧ pass.Evident members r := by
  simp only [eligible,List.mem_filter,List.mem_dedup,decide_eq_true_eq]
  exact and_iff_right_of_imp fun h => h.2.mem_shown

/-- When no slot is skipped, the candidates are the records with evidence enough. -/
theorem RebalancePass.mem_candidates (hs : pass.unsafeSkipped members = 0) :
    r ∈ pass.candidates members ↔ pass.Evident members r := by
  simp only [unsafeSkipped,List.countP_eq_zero,decide_eq_true_eq,not_not] at hs
  rw [candidates,List.mem_flatMap]
  constructor
  · intro h
    obtain ⟨slot,hsl,hr⟩ := h
    rw [if_pos (hs slot hsl)] at hr
    exact (mem_eligible.mp hr).2
  · intro h
    have hsl : (r.stream,r.lsn) ∈ pass.slots members :=
      (List.mem_insertionSort _).mpr
        (List.mem_dedup.mpr (List.mem_map.mpr ⟨r,h.mem_shown,rfl⟩))
    refine ⟨_,hsl,?_⟩
    rw [if_pos (hs _ hsl)]
    exact mem_eligible.mpr ⟨rfl,h⟩

variable [DecidableEq ι] {target : Option ι} {cohorts : List (RebalanceCohort ι σ β)}

theorem RebalancePass.complete_cohort (h : pass.rebalanceUnfenced target cohorts = .ok report)
    (hcom : report.complete = true) (hc : cohort ∈ cohorts)
    (hm : member ∈ targets target cohort) :
    (pass.copyAll member (pass.records cohort)).failed = 0 ∧
      pass.unsafeSkipped cohort.members = 0 := by
  simp only [rebalanceUnfenced,guard_ok,Except.ok.injEq] at h
  obtain ⟨-,rfl⟩ := h
  simp only [RebalanceReport.complete,Bool.and_eq_true,decide_eq_true_eq,total_eq_zero]
    at hcom
  have hf := hcom.1.1 cohort hc
  have hu := hcom.1.2 cohort hc
  rw [rebalanceCohort,if_neg (List.ne_nil_of_mem hm)] at hf hu
  exact ⟨total_eq_zero.mp hf member hm,hu⟩

variable (pass target cohorts) in
def RebalancePass.Covers : Prop :=
  ∀ cohort ∈ cohorts, ∀ member ∈ targets target cohort, ∀ r, pass.Acknowledged cohort r →
    floorOf member.disk.trimmed r.stream < r.lsn →
      (pass.copyAll member (pass.records cohort)).disk.Holds r

variable (pass target cohorts) in
def RebalancePass.Certifies : Prop :=
  ∀ cohort ∈ cohorts, ∀ member ∈ targets target cohort, ∀ r, pass.Acknowledged cohort r →
    floorOf member.disk.trimmed r.stream < r.lsn →
      member.disk.Holds r ∨ ¬(member.answers ∧ r ∈ member.disk.records) ∧
        pass.Evident cohort.members r

/-- A complete pass covers its targets exactly when what they lack is evident. -/
theorem complete_rebalance_covers_iff (h : pass.rebalanceUnfenced target cohorts = .ok report)
    (hcomplete : report.complete = true) :
    pass.Covers target cohorts ↔ pass.Certifies target cohorts := by
  refine forall₄_congr fun cohort hc member hm =>
    forall_congr' fun r => forall₂_congr fun ha hl => ?_
  obtain ⟨hf,hs⟩ := pass.complete_cohort h hcomplete hc hm
  obtain ⟨hk,hn,-,hal⟩ :=
    pass.copyAll_spec member (pass.records cohort) ⟨member.disk,0,0,0⟩
  have hr : r ∈ pass.records cohort ↔ pass.Evident cohort.members r := by
    rw [RebalancePass.records,List.mem_filter,RebalancePass.mem_candidates hs]
    exact and_iff_left ha.1
  constructor
  · intro haf
    by_contra hno
    simp only [not_or,not_and] at hno
    refine hno.1 (hn r (fun hse => ?_) haf)
    by_contra hb
    exact hno.2 (fun han hh => hb ⟨han,hh⟩) (hr.mp hse)
  · intro hbe
    cases hbe with
    | inl hh => exact hk r hh
    | inr he => exact hal hf r (hr.mpr he.2) he.1 hl

end Complete

section Examples

def plainPass : RebalancePass Nat Nat Nat :=
  ⟨fun _ _ _ => true, fun _ _ => none, fun _ => true, none, fun _ _ => true, fun _ _ => true⟩

def firstRecord : EncryptedRecord Nat Nat := ⟨7, 1, 1, 0, 5⟩

def plainMember (id : Nat) (records committed : List (EncryptedRecord Nat Nat)) (answers : Bool) :
    RebalanceMember Nat Nat Nat :=
  ⟨id, true, ⟨fun _ => 0, records, committed, [], none⟩, answers⟩

def twoHolders (answers : Bool) (third : List (EncryptedRecord Nat Nat)) :
    List (RebalanceCohort Nat Nat Nat) :=
  [⟨0, false, [plainMember 0 [firstRecord] [firstRecord] answers,
    plainMember 1 [firstRecord] [firstRecord] answers, plainMember 2 third [] true]⟩]

/-- A third member is brought up. -/
theorem complete_rebalance_covers_of_two_holders : plainPass.Covers none (twoHolders true []) := by
  have hr : plainPass.rebalanceUnfenced none (twoHolders true []) =
      .ok ⟨1,2,1,0,0,true⟩ := rfl
  rw [complete_rebalance_covers_iff hr rfl]
  intro cohort hc member hm r ha _
  cases List.mem_singleton.mp hc
  have hf : r = firstRecord := by
    obtain ⟨holder,hhol,hh⟩ :=
      List.countP_pos_iff.mp (Nat.lt_of_lt_of_le (by decide) ha.2)
    simp only [Bool.and_eq_true,decide_eq_true_eq] at hh
    have hal : ∀ holder ∈ [plainMember 0 [firstRecord] [firstRecord] true,
        plainMember 1 [firstRecord] [firstRecord] true,plainMember 2 [] [] true],
        ∀ r ∈ holder.disk.records, r = firstRecord := by decide
    exact hal holder hhol r hh.2.1
  subst hf
  have hmem : member ∈ [plainMember 0 [firstRecord] [firstRecord] true,
    plainMember 1 [firstRecord] [firstRecord] true,plainMember 2 [] [] true] := hm
  simp only [List.mem_cons,List.not_mem_nil,or_false] at hmem
  obtain rfl | rfl | rfl := hmem
  · exact .inl ⟨by decide,by decide⟩
  · exact .inl ⟨by decide,by decide⟩
  · exact .inr ⟨by decide,by decide⟩

/-- Members that show the second record first: the third member is sent them by their LSNs. -/
example : plainPass.rebalanceUnfenced none
    [⟨0, false, [plainMember 0 [⟨7, 1, 2, 1, 5⟩, firstRecord] [⟨7, 1, 2, 1, 5⟩, firstRecord] true,
      plainMember 1 [⟨7, 1, 2, 1, 5⟩, firstRecord] [⟨7, 1, 2, 1, 5⟩, firstRecord] true,
      plainMember 2 [] [] true]⟩] = .ok ⟨2, 4, 2, 0, 0, true⟩ := rfl

/-- The two members that have acknowledged a record are silent, or the third has it unmarked. -/
theorem complete_rebalance_misses_a_record :
    (∃ report, plainPass.rebalanceUnfenced none (twoHolders false []) = .ok report ∧
      report.complete = true ∧ ¬plainPass.Covers none (twoHolders false [])) ∧
    ∃ report, plainPass.rebalanceUnfenced none (twoHolders true [firstRecord]) = .ok report ∧
      report.complete = true ∧ ¬plainPass.Covers none (twoHolders true [firstRecord]) := by
  refine ⟨⟨_,rfl,rfl,fun hc => ?_⟩,⟨_,rfl,rfl,fun hc => ?_⟩⟩
  · have hh := hc _ List.mem_cons_self (plainMember 2 [] [] true) (by simp [targets,plainMember])
      firstRecord ⟨rfl,by decide⟩ (by decide)
    exact absurd hh.1 (by decide)
  · have hh := hc _ List.mem_cons_self (plainMember 2 [firstRecord] [] true)
      (by simp [targets,plainMember]) firstRecord ⟨rfl,by decide⟩ (by decide)
    exact absurd hh.2 (by decide)

end Examples

end Walleye.Bitr
