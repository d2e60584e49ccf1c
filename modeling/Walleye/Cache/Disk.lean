import Walleye.Cache.Resources

namespace Walleye.Cache

open Walleye.Base Walleye.Base.BTreeMap

variable (a : Allocation)

/-- The cache file, the usages beside it and the spill space share the disk. -/
def Disk.Within (d : Disk) : Prop := d.capacity + d.elsewhere + d.spillAllowed a ≤ a.diskBytes

def Resizes (bytes : Nat) (answer : Except String Nat) : Prop :=
  ∀ actual, answer = .ok actual → actual ≤ max (asked a bytes) a.diskFloor

def Disk.Reported (d : Disk) : DiskStep → Prop
  | .setDiskUsage name bytes answer =>
    (d.report name bytes).elsewhere ≤ a.diskBytes - a.diskFloor ∧
      Resizes a ((d.report name bytes).cacheDiskTarget a) answer
  | .beforeCreate answer => Resizes a 0 answer
  | .dropSpill answer => Resizes a (d.cacheDiskTarget a) answer

/-- Nothing is reported while a spill file is live, nor is one created beside a usage, and the cache
takes the capacity that a report leaves it. -/
def Disk.Apart (d : Disk) : DiskStep → Prop
  | .setDiskUsage _ bytes answer => if 0 < d.spillFiles then bytes = 0 else answer.isOk = true
  | .beforeCreate _ => d.elsewhere = 0
  | .dropSpill _ => True

structure Disk.Kept (d : Disk) : Prop where
  budget : d.capacity + d.elsewhere ≤ a.diskBytes
  spilling : 0 < d.spillFiles → d.elsewhere = 0 ∧ d.capacity ≤ a.diskFloor

variable {a} {d d' : Disk} {bytes : Nat} {answer : Except String Nat}

theorem Disk.Kept.start : (Disk.new a).Kept a where
  budget := by
    show a.cacheDiskCeiling + 0 ≤ a.diskBytes
    exact a.disk_contains
  spilling h := absurd h (Nat.lt_irrefl 0)

theorem Disk.Kept.within (h : d.Kept a) : d.Within a := by
  unfold Disk.Within Disk.spillAllowed maxTempDirectorySize
  have hb := h.budget
  split
  · omega
  · obtain ⟨he,hc⟩ := h.spilling (by omega)
    have hf := a.disk_floor_lt
    omega

theorem Disk.cacheDiskTarget_le (h : d.elsewhere ≤ a.diskBytes - a.diskFloor) :
    max (asked a (d.cacheDiskTarget a)) a.diskFloor + d.elsewhere ≤ a.diskBytes := by
  have hf := a.disk_floor_lt
  have hc := a.disk_contains
  unfold asked Disk.cacheDiskTarget
  omega

theorem Disk.elsewhere_report_zero (h : d.elsewhere = 0) : (d.report name 0).elsewhere = 0 := by
  unfold Disk.elsewhere at h ⊢
  rw [List.sum_eq_zero_iff] at h ⊢
  intro v hv
  obtain ⟨k,hk⟩ := BTreeMap.mem_valuesOf.mp hv
  simp only [Disk.report,if_true,Std.ExtTreeMap.getElem?_erase] at hk
  split at hk
  · cases hk
  · exact h v (BTreeMap.mem_valuesOf.mpr ⟨k,hk⟩)

/-- A usage report keeps the disk within its budget. -/
theorem Disk.Kept.setDiskUsage (h : d.Kept a)
    (hs : (d.report name bytes).elsewhere ≤ a.diskBytes - a.diskFloor)
    (hr : Resizes a ((d.report name bytes).cacheDiskTarget a) answer)
    (ha : if 0 < d.spillFiles then bytes = 0 else answer.isOk = true) :
    (d.setDiskUsage name bytes answer).1.Kept a := by
  unfold Disk.setDiskUsage
  dsimp only
  split
  · rename_i hl
    have hl : 0 < d.spillFiles := hl
    rw [if_pos hl] at ha
    subst ha
    obtain ⟨hz,hc⟩ := h.spilling hl
    have haf : (d.report name 0).elsewhere = 0 := elsewhere_report_zero hz
    refine ⟨?_,fun _ => ⟨haf,hc⟩⟩
    have hb := h.budget
    show d.capacity + (d.report name 0).elsewhere ≤ a.diskBytes
    omega
  · rename_i hn
    have hn : ¬ 0 < d.spillFiles := hn
    rw [if_neg hn] at ha
    cases answer with
    | error e => cases ha
    | ok actual =>
      have hac := hr actual rfl
      have ht := cacheDiskTarget_le hs
      refine ⟨?_,fun hl => absurd hl hn⟩
      show actual + (d.report name bytes).elsewhere ≤ a.diskBytes
      omega

/-- A spill file is created on space that the cache gave up. -/
theorem Disk.Kept.beforeCreate (h : d.Kept a) (hr : Resizes a 0 answer)
    (ha : d.elsewhere = 0) : (d.beforeCreate a answer).1.Kept a := by
  have hb := h.budget
  have hf := a.disk_floor_lt
  unfold Disk.beforeCreate
  split
  · rename_i hn
    split
    · exact h
    · rename_i actual
      have hac : actual ≤ a.diskFloor := by
        have := hr actual rfl
        unfold asked at this
        omega
      rw [if_neg (by omega)]
      refine ⟨?_,fun _ => ⟨ha,hac⟩⟩
      show actual + d.elsewhere ≤ a.diskBytes
      omega
  · refine ⟨hb,fun _ => h.spilling (by omega)⟩

/-- The space of the last spill file goes back to the cache. -/
theorem Disk.Kept.dropSpill (h : d.Kept a) (hl : 0 < d.spillFiles)
    (hr : Resizes a (d.cacheDiskTarget a) answer) : (d.dropSpill answer).Kept a := by
  obtain ⟨hz,hc⟩ := h.spilling hl
  have hb := h.budget
  unfold Disk.dropSpill
  dsimp only
  split
  · rename_i hla
    have hn : ¬ 0 < d.spillFiles - 1 := by
      have : d.spillFiles - 1 = 0 := hla
      omega
    cases answer with
    | error e => exact ⟨hb,fun hp => absurd hp hn⟩
    | ok actual =>
      have ha := hr actual rfl
      have ht := cacheDiskTarget_le (d := d) (a := a) (by omega)
      refine ⟨?_,fun hp => absurd hp hn⟩
      show actual + d.elsewhere ≤ a.diskBytes
      omega
  · exact ⟨hb,fun _ => ⟨hz,hc⟩⟩

theorem Disk.Kept.step (h : d.Kept a) {x : DiskStep} (hr : d.Reported a x)
    (ha : d.Apart x) (hs : d.step a x = some d') : d'.Kept a := by
  cases x with
  | setDiskUsage name bytes answer =>
    cases hs
    exact h.setDiskUsage hr.1 hr.2 ha
  | beforeCreate answer =>
    cases hs
    exact h.beforeCreate hr ha
  | dropSpill answer =>
    simp only [Disk.step] at hs
    split at hs
    · rename_i hl
      cases hs
      exact h.dropSpill hl hr
    · cases hs

/-- In every run in which no usage is reported beside a live spill file, the cache file, the usages
and the spill space share the disk. -/
theorem Disk.shares_disk
    (h : Reachable (· = Disk.new a) (Disk.step a) (fun d x => d.Reported a x ∧ d.Apart x) d) :
    d.Within a := by
  have hk : d.Kept a :=
    h.invariant (P := fun d => d.Kept a) (fun d hd => hd ▸ .start)
      fun _ _ _ hd ho hs => hd.step ho.1 ho.2 hs
  exact hk.within

instance (bytes : Nat) (answer : Except String Nat) : Decidable (Resizes a bytes answer) :=
  match answer with
  | .ok actual => decidable_of_iff (actual ≤ max (asked a bytes) a.diskFloor)
      ⟨fun h x hx => by cases hx; exact h, fun h => h actual rfl⟩
  | .error _ => .isTrue fun _ h => by cases h

instance (d : Disk) : DecidablePred (d.Reported a) := fun x => by
  unfold Disk.Reported
  split <;> infer_instance

instance (d : Disk) : DecidablePred d.Apart := fun x => by
  unfold Disk.Apart
  split <;> infer_instance

/-- A log grows beside the cache and is archived; then a query spills. -/
theorem Disk.shares_disk_of_log_and_spill : ∃ d : Disk,
    Reachable (· = .new .small) (Disk.step .small)
      (fun d x => d.Reported .small x ∧ d.Apart x) d ∧
    (d.capacity, d.elsewhere, d.spillFiles) = (10, 0, 2) ∧ d.Within .small := by
  have hs : (runs (Disk.step .small) (fun d x => d.Reported .small x ∧ d.Apart x) (.new .small)
      [.setDiskUsage "bitr" 30 (.ok 70),.setDiskUsage "bitr" 0 (.ok 90),.beforeCreate (.ok 10),
        .beforeCreate (.ok 10)]).map (fun d => (d.capacity,d.elsewhere,d.spillFiles)) =
      some (10,0,2) := by
    decide +kernel
  obtain ⟨d,hd,he⟩ := Option.map_eq_some_iff.mp hs
  have hst : Reachable (· = Disk.new .small) (Disk.step .small)
      (fun d x => d.Reported .small x ∧ d.Apart x) (.new .small) := .start rfl
  have hr := hst.of_runs _ hd
  exact ⟨d,hr,he,Disk.shares_disk hr⟩

/-- A query spills beside a log of 30 bytes: the disk manager may hand out all of the disk but the
cache's floor. -/
theorem Disk.spill_overruns_log : ¬ ∀ d : Disk,
    Reachable (· = .new .small) (Disk.step .small) (fun d x => d.Reported .small x) d →
    d.Within .small := by
  intro ha
  have hs : (runs (Disk.step .small) (fun d x => d.Reported .small x) (.new .small)
      [.setDiskUsage "bitr" 30 (.ok 70),.beforeCreate (.ok 10)]).map
        (fun d => d.capacity + d.elsewhere + d.spillAllowed .small) = some 130 := by
    decide +kernel
  obtain ⟨d,hd,he⟩ := Option.map_eq_some_iff.mp hs
  have hst : Reachable (· = Disk.new .small) (Disk.step .small)
      (fun d x => d.Reported .small x) (.new .small) := .start rfl
  have hw := ha d (hst.of_runs _ hd)
  unfold Disk.Within at hw
  rw [he] at hw
  exact absurd hw (by decide)

end Walleye.Cache
