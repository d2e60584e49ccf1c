import Walleye.Admission.Maintenance

namespace Walleye.Admission

open Walleye.Base Walleye.Bitr

variable {ι ν : Type} {blank : ι → Bool}

/-! What the fence functions can do to a closed gateway and to a fenced member. -/

theorem activeMarkers_eq_nil (h : activeMarkers blank statuses = .ok []) :
    ∀ status ∈ statuses, status.maintenance = false := by
  induction statuses with
  | nil => simp
  | cons status rest ih =>
    unfold activeMarkers at h
    split at h
    · split at h
      · cases h
      · split at h
        · cases h
        · cases hr : activeMarkers blank rest with
          | error e => simp [hr,Except.map] at h
          | ok markers => simp [hr,Except.map] at h
    · rename_i ho
      simpa [ho] using ih h

theorem LocalMaintenanceState.setUnknown_ne_open (current : LocalMaintenanceState ι) :
    current.setUnknown ≠ .open := by
  cases current <;> simp [LocalMaintenanceState.setUnknown]

section Fences

variable [DecidableEq ι]

theorem observeDurableFence_open (h : observeDurableFence blank statuses = .ok observation)
    (ha : observation.active = none) (hc : observation.complete = true) :
    ∀ status ∈ statuses, status.maintenance = false := by
  unfold observeDurableFence at h
  cases hm : activeMarkers blank statuses with
  | error e => simp [hm,Except.map] at h
  | ok markers =>
    rw [hm] at h
    cases markers with
    | nil => exact activeMarkers_eq_nil hm
    | cons pair rest =>
      simp only [Except.map,Except.ok.injEq] at h
      subst h
      split at ha
      · cases ha
      · rename_i hd
        simp [hd] at hc

theorem applyDurableObservation_ne_open
     (he : 0 < expected)
    (hf : ∀ status ∈ statuses, status.maintenance = true) (hc : current ≠ .open) :
    (applyDurableObservation blank current statuses expected).2 ≠ .open := by
  unfold applyDurableObservation
  cases ho : observeDurableFence blank statuses with
  | error e => exact current.setUnknown_ne_open
  | ok observation =>
    cases ha : observation.active with
    | some pair =>
      cases ht : issueMaintenanceToken blank pair.owner pair.generation with
      | error e => simpa [ha,ht] using hc
      | ok token => simp [ha,ht]
    | none =>
      by_cases hl : statuses.length = expected
      · by_cases hco : observation.complete = true
        · obtain ⟨status,hs⟩ := List.exists_mem_of_length_pos (by omega : 0 < statuses.length)
          have hcl := observeDurableFence_open ho ha hco status hs
          rw [hf status hs] at hcl
          cases hcl
        · simp [ha,hl,hco]
      · simpa [ha,hl] using hc

theorem DurableMaintenanceState.fence_active {s s' : DurableMaintenanceState ι}
    (h : s.fence token = .ok s') : s'.active = some token := by
  unfold DurableMaintenanceState.fence at h
  split at h
  · rename_i active ha
    split at h
    · rename_i he
      cases h
      rw [ha,he]
    · cases h
  · split at h
    · cases h
    · cases h
      rfl

theorem DurableMaintenanceState.releaseFence_clears {s s' : DurableMaintenanceState ι}
    (h : s.releaseFence token = .ok s') (ha : s.active.isSome = true) :
    s'.active = none := by
  unfold DurableMaintenanceState.releaseFence at h
  split at h
  · split at h
    · cases h
      rfl
    · cases h
  · rename_i hn
    simp [hn] at ha

end Fences

/-! What a call is, as far as the drain is concerned. -/

/-- The call stands between `transition.lock()` and the drop of the guard. -/
def Task.holds : Task ι → Bool
  | .append .locked | .append .reconciled => true
  | .read .locked | .read .reconciled => true
  | .begin _ _ .locked | .begin _ _ .reconciled => true
  | .begin _ _ (.fencing _) | .begin _ _ (.fenced _ _) => true
  | .endMaintenance _ .locked | .endMaintenance _ .releasing => true
  | .endMaintenance _ (.released _) => true
  | .operation _ .locked => true
  | _ => false

def Task.counted : Task ι → Bool
  | .append .inFlight | .read .inFlight => true
  | _ => false

def Task.passed : Task ι → Bool
  | .append .admitted | .append .inFlight | .append .completed => true
  | _ => false

def Task.granted : Task ι → Bool
  | .begin _ _ (.draining (.ok _)) | .begin _ _ (.returned (.ok _)) => true
  | _ => false

def Task.drains : Task ι → Bool
  | .begin _ _ (.draining _) => true
  | _ => false

def Task.installs : Task ι → Bool
  | .begin _ _ (.fenced _ allFenced) => allFenced
  | _ => false

/-- Every member has answered the release; the gateway is next. -/
def Task.opens : Task ι → Bool
  | .endMaintenance _ (.released all) => all
  | _ => false

theorem Task.installs_holds {t : Task ι} (h : t.installs = true) : t.holds = true := by
  unfold Task.installs at h
  split at h
  · rfl
  · cases h

theorem Task.opens_holds {t : Task ι} (h : t.opens = true) : t.holds = true := by
  unfold Task.opens at h
  split at h
  · rfl
  · cases h

theorem Task.opens_of_granted {t : Task ι} (h : t.granted = true) : t.opens = false := by
  unfold Task.granted at h
  split at h
  · rfl
  · rfl
  · cases h

/-- Between the two points lies nothing that the drain looks at, the counter apart. -/
def Task.quiet (t t' : Task ι) : Bool :=
  !t.passed && !t'.passed && t.granted == t'.granted && !t'.installs && !t'.opens

theorem Task.quiet_passed {t t' : Task ι} (h : t.quiet t' = true) :
    t.passed = false ∧ t'.passed = false := by
  simp only [quiet,Bool.and_eq_true,Bool.not_eq_true'] at h
  exact ⟨h.1.1.1.1,h.1.1.1.2⟩

theorem Task.quiet_granted {t t' : Task ι} (h : t.quiet t' = true) : t'.granted = t.granted := by
  simp only [quiet,Bool.and_eq_true,beq_iff_eq] at h
  exact h.1.1.2.symm

theorem Task.quiet_idle {t t' : Task ι} (h : t.quiet t' = true) :
    t'.installs = false ∧ t'.opens = false := by
  simp only [quiet,Bool.and_eq_true,Bool.not_eq_true'] at h
  exact ⟨h.1.2,h.2⟩

namespace Gateway

def Frame (s s₀ : Gateway ι ν) : Prop :=
  s₀.tasks = s.tasks ∧ s₀.transition = s.transition ∧ s₀.events = s.events ∧ s₀.nodes = s.nodes

theorem Frame.rfl : Frame s s := ⟨Eq.refl _,Eq.refl _,Eq.refl _,Eq.refl _⟩

variable (config : GatewayConfig ι ν)

def AllFenced (nodes : ν → DurableMaintenanceState ι) : Prop :=
  ∀ n ∈ config.members, (nodes n).active.isSome = true

/-- The bookkeeping of a step that takes call `i` from `t` to `t'`. -/
structure Advance (s s' : Gateway ι ν) (i : Nat) (t t' : Task ι) : Prop where
  task : s.tasks[i]? = some t
  tasks : s'.tasks = s.tasks.set i t'
  locks : t'.holds = true →
    (t.holds = true ∧ s'.transition = s.transition) ∨
      (s.transition = none ∧ s'.transition = some i)
  unlocks : t'.holds = false →
    (t.holds = false ∧ s'.transition = s.transition) ∨ (t.holds = true ∧ s'.transition = none)
  requests : s'.activeRequests = s.activeRequests + t'.counted.toNat - t.counted.toNat

inductive Effect (s s' : Gateway ι ν) (i : Nat) (t t' : Task ι) : Prop
  /-- The members and the history stay, and a closed gateway opens only where some member is. -/
  | quiet (events : s'.events = s.events) (nodes : s'.nodes = s.nodes)
      (closed : AllFenced config s.nodes → s.fence ≠ .open → s'.fence ≠ .open)
      (passed : t'.passed = t.passed) (granted : t'.granted = t.granted)
      (installs : t'.installs = false) (opens : t'.opens = false)
      (uncounted : t' ≠ .append .admitted) (completed : t' ≠ .append .completed)
  | grant (events : s'.events = .admitted i :: s.events) (nodes : s'.nodes = s.nodes)
      (fence : s'.fence = s.fence) (isOpen : s.fence = .open) (point : RequestPoint)
      (before : t = .append point) (after : t' = .append .admitted)
  | enter (events : s'.events = .entered i :: s.events) (nodes : s'.nodes = s.nodes)
      (fence : s'.fence = s.fence) (before : t = .append .admitted) (after : t' = .append .inFlight)
  | complete (events : s'.events = .completed i :: s.events) (nodes : s'.nodes = s.nodes)
      (fence : s'.fence = s.fence) (before : t = .append .inFlight)
      (after : t' = .append .completed)
  | fencing (anonymous : Bool) (owner : ι) (token : Marker ι) (allFenced : Bool)
      (events : s'.events = s.events) (fence : s'.fence = s.fence)
      (keeps : AllFenced config s.nodes → AllFenced config s'.nodes)
      (sets : allFenced = true → AllFenced config s'.nodes)
      (before : t = .begin anonymous owner (.fencing token))
      (after : t' = .begin anonymous owner (.fenced token allFenced))
  | install (anonymous : Bool) (owner : ι) (token : Marker ι) (allFenced : Bool)
      (events : s'.events = .fenced i :: s.events) (nodes : s'.nodes = s.nodes)
      (fence : s'.fence ≠ .open) (before : t = .begin anonymous owner (.fenced token allFenced))
      (after : t' = .begin anonymous owner
        (.draining (if allFenced = true then .ok token else .error .quorumUnavailable)))
  | drain (anonymous : Bool) (owner : ι) (token : Marker ι)
      (events : s'.events = .returned i :: s.events) (nodes : s'.nodes = s.nodes)
      (fence : s'.fence = s.fence) (idle : s.activeRequests = 0)
      (before : t = .begin anonymous owner (.draining (.ok token)))
      (after : t' = .begin anonymous owner (.returned (.ok token)))
  | release (token : Marker ι) (all : Bool) (events : s'.events = .released :: s.events)
      (fence : s'.fence = s.fence) (before : t = .endMaintenance token .releasing)
      (after : t' = .endMaintenance token (.released all))
  /-- A release that took no marker away. -/
  | miss (token : Marker ι) (all : Bool) (events : s'.events = s.events)
      (fence : s'.fence = s.fence)
      (keeps : AllFenced config s.nodes → AllFenced config s'.nodes)
      (unfenced : all = true → ¬ AllFenced config s.nodes)
      (before : t = .endMaintenance token .releasing)
      (after : t' = .endMaintenance token (.released all))
  | opens (token : Marker ι) (events : s'.events = s.events) (nodes : s'.nodes = s.nodes)
      (before : t = .endMaintenance token (.released true))
      (after : t' = .endMaintenance token (.returned (.ok ())))

variable {config}
variable {s s₀ s' : Gateway ι ν} {i : Nat} {t t' : Task ι}

def Moves (config : GatewayConfig ι ν) (s s' : Gateway ι ν) (i : Nat) (t : Task ι) : Prop :=
  ∃ t', Advance s s' i t t' ∧ Effect config s s' i t t'

theorem Effect.of_quiet (hq : t.quiet t' = true) (he : s'.events = s.events)
    (hn : s'.nodes = s.nodes)
    (hc : AllFenced config s.nodes → s.fence ≠ .open → s'.fence ≠ .open) :
    Effect config s s' i t t' := by
  obtain ⟨hp,hp'⟩ := Task.quiet_passed hq
  obtain ⟨hi,ho⟩ := Task.quiet_idle hq
  refine .quiet he hn hc (hp'.trans hp.symm) (Task.quiet_granted hq)
    hi ho ?_ ?_
  · rintro rfl
    cases hp'
  · rintro rfl
    cases hp'

theorem moves_leave (hta : s.tasks[i]? = some t) (t' : Task ι) (hf : Frame s s₀)
    (hr : s₀.activeRequests = s.activeRequests + t'.counted.toNat - t.counted.toNat)
    (hc : AllFenced config s.nodes → s.fence ≠ .open → s₀.fence ≠ .open)
    (ht : t.holds = true) (ht' : t'.holds = false) (hq : t.quiet t' = true) :
    Moves config s (s₀.leave i t') i t := by
  obtain ⟨htas,-,he,hn⟩ := hf
  refine ⟨t',⟨hta,?_,by simp [ht'],fun _ => .inr ⟨ht,rfl⟩,hr⟩,
    .of_quiet hq he hn hc⟩
  simp [leave,htas]

theorem moves_goto (hta : s.tasks[i]? = some t) (t' : Task ι) (hf : Frame s s₀)
    (hr : s₀.activeRequests = s.activeRequests + t'.counted.toNat - t.counted.toNat)
    (hc : AllFenced config s.nodes → s.fence ≠ .open → s₀.fence ≠ .open)
    (ht : t'.holds = t.holds) (hq : t.quiet t' = true) :
    Moves config s (s₀.goto i t') i t := by
  obtain ⟨htas,hl,he,hn⟩ := hf
  refine ⟨t',⟨hta,?_,fun h => .inl ⟨ht ▸ h,hl⟩,fun h => .inl ⟨ht ▸ h,hl⟩,hr⟩,
    .of_quiet hq he hn hc⟩
  simp [goto,htas]

theorem lockTransition_eq_some (h : s.lockTransition i t' = some s') :
    s.transition = none ∧
      s' = { s with transition := some i, tasks := s.tasks.set i t' } := by
  unfold lockTransition at h
  split at h
  · rename_i hf
    cases h
    exact ⟨hf,rfl⟩
  · cases h

theorem moves_lock (ht : s.tasks[i]? = some t) (h : s.lockTransition i t' = some s')
    (ht' : t'.holds = true) (hc : t.counted = t'.counted) (hq : t.quiet t' = true) :
    Moves config s s' i t := by
  obtain ⟨hf,rfl⟩ := lockTransition_eq_some h
  refine ⟨t',⟨ht,rfl,fun _ => .inr ⟨hf,rfl⟩,by simp [ht'],?_⟩,
    .of_quiet hq rfl rfl fun _ hcl => hcl⟩
  simp [hc]

theorem members_pos (config : GatewayConfig ι ν) : 0 < config.members.length :=
  Nat.lt_of_lt_of_le (by decide : 0 < ackQuorum) config.members_quorum

theorem fetchDurableStatuses_fenced (h : AllFenced config s.nodes) :
    ∀ status ∈ s.fetchDurableStatuses config reply, status.maintenance = true := by
  intro status hs
  obtain ⟨n,hn,rfl⟩ := List.mem_map.mp hs
  exact h n (List.mem_of_mem_filter hn)

variable [DecidableEq ι]

theorem reconcileDurableFence_ne_open (config : GatewayConfig ι ν) (s : Gateway ι ν)
    (reply : Reply ν) (hf : AllFenced config s.nodes)
    (hc : s.fence ≠ .open) : (s.reconcileDurableFence config reply).2 ≠ .open :=
  applyDurableObservation_ne_open (members_pos config) (fetchDurableStatuses_fenced hf) hc

theorem broadcast_fence_keeps (token : Marker ι) (h : AllFenced config s.nodes) :
    AllFenced config (s.broadcast reply (·.fence token)) := by
  intro n hn
  unfold broadcast
  split
  · cases hs : (s.nodes n).fence token with
    | error e => simpa [hs,Except.toOption] using h n hn
    | ok node => simp [hs,Except.toOption,DurableMaintenanceState.fence_active hs]
  · exact h n hn

theorem broadcast_fence_sets (token : Marker ι)
    (h : s.allAnswered config reply (·.fence token) = true) :
    AllFenced config (s.broadcast reply (·.fence token)) := by
  intro n hn
  have hn' := List.all_eq_true.mp h n hn
  simp only [Bool.and_eq_true] at hn'
  obtain ⟨⟨hd,-⟩,hser⟩ := hn'
  cases hs : (s.nodes n).fence token with
  | error e => simp [hs,Except.toOption] at hser
  | ok node =>
    simp [broadcast,hd,hs,Except.toOption,
      DurableMaintenanceState.fence_active hs]

theorem broadcast_release_keeps (h : s.clears config reply token = false)
    (hf : AllFenced config s.nodes) :
    AllFenced config (s.broadcast reply (·.releaseFence token)) := by
  intro n hn
  have hn' := List.any_eq_false.mp h n hn
  simpa [hf n hn,Option.isSome_iff_ne_none] using hn'

theorem clears_of_allAnswered (h : s.allAnswered config reply (·.releaseFence token) = true)
    (hf : AllFenced config s.nodes) : s.clears config reply token = true := by
  obtain ⟨n,hn⟩ := List.exists_mem_of_length_pos (members_pos config)
  have hn' := List.all_eq_true.mp h n hn
  simp only [Bool.and_eq_true] at hn'
  obtain ⟨⟨hd,-⟩,hser⟩ := hn'
  apply List.any_eq_true.mpr
  refine ⟨n,hn,?_⟩
  cases hs : (s.nodes n).releaseFence token with
  | error e => simp [hs,Except.toOption] at hser
  | ok node =>
    have hno := DurableMaintenanceState.releaseFence_clears hs (hf n hn)
    simp [broadcast,hd,hs,Except.toOption,hno,hf n hn]

theorem checkFence_moves {transition : Option Nat} (ht : s.tasks[i]? = some (.append p))
    (hl : ((Task.append p : Task ι).holds = false ∧ transition = s.transition) ∨
      ((Task.append p : Task ι).holds = true ∧ transition = none))
    (hc : (Task.append p : Task ι).counted = false)
    (hp : (Task.append p : Task ι).passed = false) :
    Moves config s (s.checkFence i transition) i (.append p) := by
  unfold checkFence
  split
  · rename_i ho
    refine ⟨.append .admitted,⟨ht,rfl,by simp [Task.holds],fun _ => hl,?_⟩,
      .grant rfl rfl rfl ho p rfl rfl⟩
    rw [hc]
    rfl
  · refine ⟨.append .refused,⟨ht,rfl,by simp [Task.holds],fun _ => hl,?_⟩,
      .quiet rfl rfl (fun _ h => h) (hp ▸ rfl) rfl rfl rfl (by simp) (by simp)⟩
    rw [hc]
    rfl

theorem stepAppend_moves (ht : s.tasks[i]? = some (.append p))
    (h : s.stepAppend config i reply p = some s') : Moves config s s' i (.append p) := by
  cases p with
  | calling =>
    simp only [stepAppend] at h
    split at h
    · cases h
      exact checkFence_moves ht (.inl ⟨rfl,rfl⟩) rfl rfl
    · exact moves_lock ht h rfl rfl rfl
  | locked =>
    simp only [stepAppend] at h
    have hc := reconcileDurableFence_ne_open config s reply
    split at h <;> rename_i hr <;> rw [hr] at hc <;> cases h
    · exact moves_leave ht _ .rfl rfl hc rfl rfl rfl
    · exact moves_goto ht _ .rfl rfl hc rfl rfl
  | reconciled =>
    cases h
    exact checkFence_moves ht (.inr ⟨rfl,rfl⟩) rfl rfl
  | admitted =>
    cases h
    exact ⟨.append .inFlight,⟨ht,rfl,by simp [Task.holds],fun _ => .inl ⟨rfl,rfl⟩,rfl⟩,
      .enter rfl rfl rfl rfl rfl⟩
  | inFlight =>
    cases h
    exact ⟨.append .completed,⟨ht,rfl,by simp [Task.holds],fun _ => .inl ⟨rfl,rfl⟩,rfl⟩,
      .complete rfl rfl rfl rfl rfl⟩
  | completed => cases h
  | refused => cases h

theorem stepRead_moves (ht : s.tasks[i]? = some (.read p))
    (h : s.stepRead config i reply p = some s') : Moves config s s' i (.read p) := by
  cases p with
  | calling => exact moves_lock ht h rfl rfl rfl
  | locked =>
    simp only [stepRead] at h
    have hc := reconcileDurableFence_ne_open config s reply
    split at h <;> rename_i hr <;> rw [hr] at hc <;> cases h
    · exact moves_leave ht _ .rfl rfl hc rfl rfl rfl
    · exact moves_goto ht _ .rfl rfl hc rfl rfl
  | reconciled =>
    simp only [stepRead] at h
    split at h <;> cases h
    · exact moves_leave ht _ .rfl rfl (fun _ hc => hc) rfl rfl rfl
    · exact moves_leave ht _ .rfl rfl (fun _ hc => hc) rfl rfl rfl
  | inFlight =>
    cases h
    exact moves_goto ht _ .rfl rfl (fun _ hc => hc) rfl rfl
  | admitted => cases h
  | completed => cases h
  | refused => cases h

theorem acquire_moves (ht : s.tasks[i]? = some (.begin anonymous owner .reconciled)) :
    Moves config s (s.acquire config i reply anonymous owner) i
      (.begin anonymous owner .reconciled) := by
  have hu : AllFenced config s.nodes → s.fence ≠ .open → s.fence.setUnknown ≠ .open :=
    fun _ _ => s.fence.setUnknown_ne_open
  have hr := reconcileDurableFence_ne_open config s reply
  have hc : AllFenced config s.nodes → s.fence ≠ .open → s.fence ≠ .open := fun _ h => h
  simp only [acquire]
  split
  · exact moves_leave ht _ .rfl rfl hu rfl rfl rfl
  · split
    · exact moves_leave ht _ .rfl rfl hu rfl rfl rfl
    · split
      · rename_i pair _
        split <;> rename_i ha <;> rw [reconcileDurableFence,ha] at hr
        · exact moves_leave ht _ .rfl rfl hr rfl rfl rfl
        · split
          · exact moves_leave ht _ .rfl rfl hr rfl rfl rfl
          · split
            · exact moves_leave ht _ .rfl rfl hr rfl rfl rfl
            · exact moves_goto ht _ .rfl rfl hr rfl rfl
      · split
        · exact moves_leave ht _ .rfl rfl hu rfl rfl rfl
        · split
          · exact moves_leave ht _ .rfl rfl hc rfl rfl rfl
          · split
            · exact moves_leave ht _ .rfl rfl hc rfl rfl rfl
            · exact moves_goto ht _ .rfl rfl hc rfl rfl

/-- Each point of a maintenance begin makes one of the listed moves. -/
theorem stepBegin_moves {p : BeginPoint ι} (ht : s.tasks[i]? = some (.begin anonymous owner p))
    (h : s.stepBegin config i reply anonymous owner p = some s') :
    Moves config s s' i (.begin anonymous owner p) := by
  cases p with
  | calling => exact moves_lock ht h rfl rfl rfl
  | locked =>
    simp only [stepBegin] at h
    have hc := reconcileDurableFence_ne_open config s reply
    split at h <;> rename_i hr <;> rw [hr] at hc
    · cases h
      exact moves_leave ht _ .rfl rfl hc rfl rfl rfl
    · split at h <;> cases h
      · exact moves_goto ht _ .rfl rfl hc rfl rfl
      · exact moves_leave ht _ .rfl rfl hc rfl rfl rfl
  | reconciled =>
    cases h
    exact acquire_moves ht
  | fencing token =>
    cases h
    exact ⟨_,⟨ht,rfl,fun _ => .inl ⟨rfl,rfl⟩,by simp [Task.holds],rfl⟩,.fencing anonymous owner token _ rfl rfl
      (broadcast_fence_keeps token) (broadcast_fence_sets token) rfl rfl⟩
  | fenced token allFenced =>
    cases h
    exact ⟨_,⟨ht,rfl,by simp [Task.holds],fun _ => .inr ⟨rfl,rfl⟩,rfl⟩,
      .install anonymous owner token allFenced rfl rfl (by simp) rfl rfl⟩
  | draining result =>
    simp only [stepBegin] at h
    split at h
    · cases h
    · rename_i hi
      cases h
      cases result with
      | error e =>
        exact ⟨_,⟨ht,rfl,by simp [Task.holds],fun _ => .inl ⟨rfl,rfl⟩,rfl⟩,
          .of_quiet rfl rfl rfl fun _ hc => hc⟩
      | ok token =>
        exact ⟨_,⟨ht,rfl,by simp [Task.holds],fun _ => .inl ⟨rfl,rfl⟩,rfl⟩,
          .drain anonymous owner token rfl rfl rfl (by simpa using hi) rfl rfl⟩
  | returned result => cases h

/-- Each point of a maintenance end makes one of the listed moves. -/
theorem stepEnd_moves {p : EndPoint} (ht : s.tasks[i]? = some (.endMaintenance token p))
    (h : s.stepEnd config i reply token p = some s') :
    Moves config s s' i (.endMaintenance token p) := by
  cases p with
  | calling => exact moves_lock ht h rfl rfl rfl
  | locked =>
    simp only [stepEnd] at h
    have hc := reconcileDurableFence_ne_open config s reply
    split at h <;> rename_i hr <;> rw [hr] at hc
    · cases h
      exact moves_leave ht _ .rfl rfl hc rfl rfl rfl
    · split at h
      · cases h
        exact moves_leave ht _ .rfl rfl hc rfl rfl rfl
      · split at h <;> cases h
        · exact moves_leave ht _ .rfl rfl hc rfl rfl rfl
        · exact moves_goto ht _ .rfl rfl hc rfl rfl
  | releasing =>
    cases h
    refine ⟨_,⟨ht,rfl,fun _ => .inl ⟨rfl,rfl⟩,by simp [Task.holds],rfl⟩,?_⟩
    cases hcle : s.clears config reply token with
    | true => exact .release token _ rfl rfl rfl rfl
    | false =>
      refine .miss token _ rfl rfl (broadcast_release_keeps hcle) ?_ rfl rfl
      intro ha hf
      rw [clears_of_allAnswered ha hf] at hcle
      cases hcle
  | released all =>
    simp only [stepEnd] at h
    split at h
    · rename_i ha
      cases h
      subst ha
      exact ⟨_,⟨ht,rfl,by simp [Task.holds],fun _ => .inr ⟨rfl,rfl⟩,rfl⟩,
        .opens token rfl rfl rfl rfl⟩
    · cases h
      exact moves_leave ht _ .rfl rfl (fun _ hc => hc) rfl rfl rfl
  | returned result => cases h

theorem stepOperation_moves {p : OperationPoint} (ht : s.tasks[i]? = some (.operation token p))
    (h : s.stepOperation config i reply token p = some s') :
    Moves config s s' i (.operation token p) := by
  cases p with
  | calling => exact moves_lock ht h rfl rfl rfl
  | locked =>
    simp only [stepOperation] at h
    have hc := reconcileDurableFence_ne_open config s reply
    split at h <;> rename_i hr <;> rw [hr] at hc
    · cases h
      exact moves_leave ht _ .rfl rfl hc rfl rfl rfl
    · split at h <;> cases h
      · exact moves_leave ht _ .rfl rfl hc rfl rfl rfl
      · exact moves_leave ht _ .rfl rfl hc rfl rfl rfl
  | running =>
    cases h
    exact moves_goto ht _ .rfl rfl (fun _ hc => hc) rfl rfl
  | completed => cases h
  | refused error => cases h

theorem step_cases (h : step config s a = some s') :
    (∃ task, a = .call task ∧ starts config task = true ∧
      s' = { s with tasks := s.tasks ++ [task] }) ∨
    ∃ i reply t, a = .resume i reply ∧ Moves config s s' i t := by
  cases a with
  | call task =>
    simp only [step] at h
    split at h
    · rename_i hsta
      cases h
      exact .inl ⟨task,rfl,hsta,rfl⟩
    · cases h
  | resume i reply =>
    obtain ⟨t,ht,hs⟩ := Option.bind_eq_some_iff.mp h
    refine .inr ⟨i,reply,t,rfl,?_⟩
    cases t with
    | append p => exact stepAppend_moves ht hs
    | read p => exact stepRead_moves ht hs
    | begin anonymous owner p => exact stepBegin_moves ht hs
    | endMaintenance token p => exact stepEnd_moves ht hs
    | operation token p => exact stepOperation_moves ht hs

end Gateway

end Walleye.Admission
