import Walleye.Bitr.LogFile

namespace Walleye.Bitr

open Walleye.Base

variable {σ β : Type}

variable {batch : List (EncryptedRecord σ β)}

theorem NodeFile.overBudget_eq_none
     (hl : s.file.length ≤ cap)
    (h : NodeFile.overBudget codec (some cap) s (.append boundary token r) (.extend entries) = none) :
    s.file.length + (frames codec.encode 10 entries).length ≤ cap := by
  cases entries with
  | nil => simpa using hl
  | cons e rest =>
    simp only [NodeFile.overBudget,Option.bind_some] at h
    split at h
    · cases h
    · omega

variable [DecidableEq σ]

/-- The lines of a batch that a node's log does not have yet: the records at free positions and,
with `commit`, the markers of records that are not marked. -/
def NodeMaps.missing (m : NodeMaps σ β) (commit : Bool) (batch : List (EncryptedRecord σ β)) :
    List (LogEntry σ β) :=
  (batch.filter fun r => (recordAt m.records r.stream r.lsn).isNone).map .record ++
    (if commit then batch.filter fun r => (recordAt m.committed r.stream r.lsn).isNone
      else []).map .commit

def FileStep.appends : FileStep σ β → Bool
  | .call (.append _ _ _) => true
  | .call (.appendMany _ _ _ _) => true
  | _ => false

variable [DecidableEq β]

theorem DiskState.checkNew_eq {s : DiskState σ β} (h : s.checkNew boundary batch fresh = .ok out) :
    out = fresh ++ batch.filter fun r => (recordAt s.records r.stream r.lsn).isNone := by
  induction batch generalizing fresh with
  | nil =>
    cases h
    simp
  | cons r rest ih =>
    simp only [DiskState.checkNew,guard_ok] at h
    obtain ⟨_,_,h⟩ := h
    cases ha : recordAt s.records r.stream r.lsn with
    | some existing =>
      simp only [ha,guard_ok] at h
      rw [ih h.2,List.filter_cons_of_neg (by simp [ha])]
    | none =>
      simp only [ha,guard_ok] at h
      rw [ih h.2,List.filter_cons_of_pos (by simp [ha])]
      simp

theorem DiskState.checkCommits_eq {s : DiskState σ β}
    (ha : ∀ r ∈ batch, ∀ p, prefixOf s.trimmed r.stream = some p → p.archivedLsn < r.lsn)
    (h : s.checkCommits fresh batch commits = .ok out) :
    out = commits ++ batch.filter fun r => (recordAt s.committed r.stream r.lsn).isNone := by
  induction batch generalizing commits with
  | nil =>
    cases h
    simp
  | cons r rest ih =>
    have hr := fun q hq => ha q (List.mem_cons_of_mem r hq)
    have hf : ¬((prefixOf s.trimmed r.stream).any fun p => decide (r.lsn ≤ p.archivedLsn)) = true := by
      intro han
      obtain ⟨p,hp,hl⟩ := (Option.any_eq_true _ _).mp han
      have := ha r List.mem_cons_self p hp
      simp only [decide_eq_true_eq] at hl
      omega
    rw [DiskState.checkCommits,if_neg hf] at h
    cases hat : recordAt s.committed r.stream r.lsn with
    | some marked =>
      simp only [hat,guard_ok] at h
      rw [ih hr h.2,List.filter_cons_of_neg (by simp [hat])]
    | none =>
      simp only [hat,guard_ok] at h
      rw [ih hr h.2,List.filter_cons_of_pos (by simp [hat])]
      simp

theorem NodeMaps.appendMany_writes {m m' : NodeMaps σ β}
    {commit : Bool}
    (h : m.appendMany fence boundary token commit batch = .ok (m',w)) :
    w = .extend (m.missing commit batch) := by
  simp only [NodeMaps.appendMany,Except.bind_eq_ok,guard_ok] at h
  obtain ⟨_,_,_,fresh,hn,commits,hc,h⟩ := h
  cases h
  have hf := DiskState.checkNew_eq hn
  have ha := (DiskState.checkNew_spec hn).1.above
  have hm : commits = if commit then
      batch.filter fun r => (recordAt m.committed r.stream r.lsn).isNone else [] := by
    cases commit with
    | false =>
      cases hc
      rfl
    | true => exact DiskState.checkCommits_eq ha hc
  rw [NodeMaps.missing,hm,hf]
  rfl

namespace NodeFile

variable (codec : LineCodec (LogEntry σ β)) (cap : Nat)

def fits (s : NodeFile σ β) : FileStep σ β → Bool
  | .call (.appendMany _ _ commit batch) => s.node.toOption.all fun m =>
      decide (s.file.length + (frames codec.encode 10 (m.missing commit batch)).length ≤ cap)
  | _ => true

def accepted (s : NodeFile σ β) : FileStep σ β → Bool
  | .call c => (attempt codec (some cap) s c).isOk
  | _ => false

variable {codec cap}

theorem attempt_within
    (h : attempt codec (some cap) s c = .ok (m',w)) : overBudget codec (some cap) s c w = none := by
  obtain ⟨m,_,h⟩ := Except.bind_eq_ok.mp h
  obtain ⟨⟨m₁,w₁⟩,_,h⟩ := Except.bind_eq_ok.mp h
  simp only at h
  split at h
  · cases h
  · cases h
    assumption

/-- A step that appends stays within the budget. -/
theorem length_step (hl : s.file.length ≤ cap) {a : FileStep σ β} (ha : a.appends = true)
    (hf : s.fits codec cap a = true) (hs : step codec (some cap) s a = some s') :
    s'.file.length ≤ cap := by
  match a with
  | .call (.append boundary token r) =>
    simp only [step] at hs
    split at hs
    · cases hs
      exact hl
    · rename_i m' entries hat
      cases hs
      simpa using overBudget_eq_none hl (attempt_within hat)
    · rename_i m' entries hat
      obtain ⟨m,_,hc⟩ := attempt_eq_ok hat
      obtain ⟨_,_,hc⟩ := Except.bind_eq_ok.mp hc
      split at hc <;> cases hc
  | .call (.appendMany boundary token commit batch) =>
    simp only [step] at hs
    split at hs
    · cases hs
      exact hl
    · rename_i m' entries hat
      obtain ⟨m,hm,hc⟩ := attempt_eq_ok hat
      have hw := NodeMaps.appendMany_writes hc
      injection hw with he
      subst he
      cases hs
      simpa [fits,hm,Except.toOption] using hf
    · rename_i m' entries hat
      obtain ⟨m,_,hc⟩ := attempt_eq_ok hat
      cases NodeMaps.appendMany_writes hc
  | .call (.commit token r) => cases ha
  | .call (.supersede stream fromLsn writerEpoch) => cases ha
  | .call (.compactArchivedBatch prefixes) => cases ha
  | .fence marker => cases ha
  | .crash c kept => cases ha

/-- From a log within the budget, in every sequence of accepted appends whose batches all find
room for their lines, the log stays within the budget. -/
theorem log_stays_within_budget
    (h : Reachable (fun s => s.file.length ≤ cap) (step codec (some cap))
      (fun s a => a.appends = true ∧ s.accepted codec cap a = true ∧ s.fits codec cap a = true) s) :
    s.file.length ≤ cap := by
  apply h.invariant
  · exact fun _ hl => hl
  · intro t a t' hl ha hs
    exact length_step hl ha.1 ha.2.2 hs

/-- A single append and a batch that adds a record and two markers fill a log of 80 bytes. -/
theorem log_stays_within_budget_of_a_batch : ∃ s : NodeFile Nat Nat,
    Reachable (fun s => s.file.length ≤ 80) (step entryCodec (some 80))
      (fun s a => a.appends = true ∧ s.accepted entryCodec 80 a = true ∧
        s.fits entryCodec 80 a = true) s ∧
    s.lines.length = 4 ∧ s.file.length ≤ 80 := by
  have hs : Reachable (fun s => s.file.length ≤ 80) (step entryCodec (some 80))
      (fun (s : NodeFile Nat Nat) a => a.appends = true ∧ s.accepted entryCodec 80 a = true ∧
        s.fits entryCodec 80 a = true) NodeFile.new := .start (by decide)
  have hr := hs.of_runs
    [.call (.append (fun _ => false) none ⟨0,1,1,0,7⟩),
      .call (.appendMany (fun _ => false) none true [⟨0,1,1,0,7⟩,⟨0,1,2,1,8⟩])] rfl
  exact ⟨_,hr,by decide,log_stays_within_budget hr⟩

/-- A batch of one record is accepted by an empty node whose log may have a single byte. -/
theorem batch_exceeds_the_budget : ¬ ∀ s : NodeFile Nat Nat,
    Reachable (fun s => s.file.length ≤ 1) (step entryCodec (some 1))
      (fun s a => a.appends = true ∧ s.accepted entryCodec 1 a = true) s → s.file.length ≤ 1 := by
  intro ha
  have hs : Reachable (fun s => s.file.length ≤ 1) (step entryCodec (some 1))
      (fun (s : NodeFile Nat Nat) a => a.appends = true ∧ s.accepted entryCodec 1 a = true)
      NodeFile.new := .start (by decide)
  have hr := hs.of_runs
    [.call (.appendMany (fun _ => false) none false [⟨0,1,1,0,7⟩])] rfl
  exact absurd (ha _ hr) (by decide)

end NodeFile

end Walleye.Bitr
