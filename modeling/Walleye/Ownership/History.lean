import Walleye.Alarms.Alarm
import Walleye.Base.Maps
import Walleye.Ownership.Exclusion
import Walleye.Ownership.Linear

namespace Walleye.Ownership

open Walleye.Base Walleye.Base.BTreeMap
open Walleye.Alarms (Alarm Firing Schedule begin)

variable {τ α ν : Type}

section Cluster

variable [Inhabited α] {s s' : Audited τ α} {cluster : Cluster τ α} {t : τ} {p i : Nat}

def Audited.Chained (s : Audited τ α) : Prop :=
  ∀ t, (s.cluster.records t).Chained (s.ledgers t)

theorem Audited.Chained.start : (Audited.empty : Audited τ α).Chained := fun _ => .start

theorem Audited.Chained.authoritativeLocked (h : s.Chained) (p : Nat) :
    Audited.Chained ⟨s.cluster.authoritativeLocked c p,s.ledgers⟩ := by
  intro t
  unfold Cluster.authoritativeLocked
  dsimp only
  split
  · exact (h t).dropHeld p
  · exact h t

theorem Audited.Chained.of_records (h : s.Chained) (hc : cluster.records = s.cluster.records) :
    Audited.Chained ⟨cluster,s.ledgers⟩ := by
  intro t
  rw [hc]
  exact h t

variable [DecidableEq τ]

theorem Audited.Chained.note (h : s.Chained)
    (hc : cluster.records = Function.update s.cluster.records t r) (hr : r.Chained l) :
    (s.note cluster t l).Chained := by
  intro t'
  show (cluster.records t').Chained (Function.update s.ledgers t l t')
  rw [hc]
  by_cases ht : t' = t
  · subst ht
    rw [Function.update_self,Function.update_self]
    exact hr
  · rw [Function.update_of_ne ht,Function.update_of_ne ht]
    exact h t'

theorem Audited.Chained.keep (h : s.Chained)
    (hc : cluster.records = Function.update s.cluster.records t r)
    (hr : r.Chained (s.ledgers t)) : Audited.Chained ⟨cluster,s.ledgers⟩ := by
  have hn := h.note hc hr
  unfold Audited.note at hn
  rwa [Function.update_eq_self] at hn

theorem Claim.Read.write {k : Claim α} (hr : k.Read r l p)
    (h : r.Chained l) (hi : r.puts i = none) :
    (r.write p i k.put).Chained (l.make i (.claim k.me)) := by
  refine h.write hi rfl (Nat.succ_pos _) (Nat.succ_le_succ hr.seq) ?_ hr.process
  intro hs
  have hp : k.prior = l.version r.newest := hr.prior (Nat.succ.inj hs)
  rw [← hp]
  rfl

/-- A claim extends the version that it read. -/
theorem Audited.Chained.writeClaim (h : s.Chained)
    (hs : s.cluster.writeClaim c p t i = some cluster) :
    (s.follow cluster (.writeClaim p t i)).Chained := by
  unfold Cluster.writeClaim at hs
  split at hs
  · rename_i k ho
    split at hs
    · cases hs
    · rename_i hi
      have hi : (s.cluster.records t).puts i = none := not_not.mp hi
      have h₁ := h.authoritativeLocked (c := c) p
      have hr : k.Read ((s.cluster.authoritativeLocked c p).records t) (s.ledgers t) p := by
        refine (h₁ t).goes p (.judged k) ?_
        unfold Cluster.authoritativeLocked
        dsimp only
        split
        · simpa [Records.dropHeld,Records.setHolder] using ho
        · exact ho
      have hi₁ : ((s.cluster.authoritativeLocked c p).records t).puts i = none := by
        unfold Cluster.authoritativeLocked
        dsimp only
        split
        · exact hi
        · exact hi
      dsimp only at hs
      split at hs
      · obtain rfl := Option.some.inj hs
        have hp : (Function.update (s.cluster.authoritativeLocked c p).records t
            (((s.cluster.authoritativeLocked c p).records t).write p i k.put) t).puts i =
              some k.put := by
          rw [Function.update_self]
          exact Function.update_self ..
        simp only [Audited.follow,Cluster.setRecords,hp]
        exact h₁.note rfl (hr.write (h₁ t) hi₁)
      · obtain rfl := Option.some.inj hs
        have hp : (Function.update (s.cluster.authoritativeLocked c p).records t
            (((s.cluster.authoritativeLocked c p).records t).setOp p none) t).puts i = none := by
          rw [Function.update_self]
          exact hi₁
        simp only [Audited.follow,Cluster.setRecords,hp]
        exact h₁.keep rfl ((h₁ t).setOp (by simp))
  · cases hs

/-- A change extends the version that its owner holds. -/
theorem Audited.Chained.update (h : s.Chained) (hs : s.cluster.update c p t i put = some cluster)
    (hse : ∀ y me x, put y me = some x → x.seq = y.seq + 1 ∧ x.created = none ∧ x.me = me)
    (hc : ∀ y x record, ((s.cluster.records t).holders p).held = some y →
      put y (s.cluster.leases.node p) = some x → record.epoch = y.epoch →
      record.alarms = y.alarms → change.apply (some record) = some x.record) :
    (s.note cluster t ((s.ledgers t).make i change)).Chained := by
  unfold Cluster.update at hs
  split at hs
  · rename_i hg
    obtain ⟨y,hy,hs⟩ := Option.bind_eq_some_iff.mp hs
    obtain ⟨x,hx,hs⟩ := Option.bind_eq_some_iff.mp hs
    cases hs
    obtain ⟨hxs,hcr,hm⟩ := hse y _ x hx
    have hco := (h t).held p y hy
    refine h.note rfl ((h t).write hg.2.1 hcr (by omega) ?_ ?_ ?_)
    · rw [hxs]
      exact Nat.succ_le_succ hco.seq
    · intro he
      obtain ⟨record,hv,hep,ha⟩ := hco.copy (by omega)
      rw [hv]
      exact hc y x record hy hx hep ha
    · rw [hm]
      rfl
  · cases hs

theorem Audited.Chained.setEpoch (h : s.Chained)
    (hs : s.cluster.setEpoch c p t i epoch = some cluster) :
    (s.follow cluster (.setEpoch p t i epoch)).Chained := by
  refine h.update hs ?_ ?_
  · intro y me x hx
    split at hx
    · cases hx
    · cases hx
      exact ⟨rfl,rfl,rfl⟩
  · intro y x record hy hx he ha
    split at hx
    · cases hx
    · cases hx
      simp [Change.apply,Held.update,ha]

theorem Audited.Chained.updateAlarms (h : s.Chained)
    (hy : ((s.cluster.records t).holders p).held = some y) (hc : change y.alarms = some alarms)
    (hs : s.cluster.updateAlarms c p t i alarms = some cluster) :
    (s.note cluster t
      ((s.ledgers t).make i (.updateAlarms (s.cluster.leases.node p) change))).Chained := by
  refine h.update hs ?_ ?_
  · intro z me x hx
    cases hx
    exact ⟨rfl,rfl,rfl⟩
  · intro z x record hz hx he ha
    cases hx
    cases hy.symm.trans hz
    simp [Change.apply,Held.update,ha,hc,he]

/-- A release extends the version that its owner held. -/
theorem Audited.Chained.release (h : s.Chained)
    (hs : s.cluster.release p t i nextSeq = some cluster) :
    (s.follow cluster (.release p t i nextSeq)).Chained := by
  unfold Cluster.release at hs
  split at hs
  · rename_i hg
    obtain ⟨y,hy,hs⟩ := Option.bind_eq_some_iff.mp hs
    cases hs
    have hc := (h t).held p y hy
    refine h.note rfl (((h t).dropHeld p).write hg.2 rfl (Nat.succ_pos _)
      (Nat.succ_le_succ hc.seq) ?_ rfl)
    intro he
    obtain ⟨record,hv,hep,ha⟩ := hc.copy (Nat.succ.inj he)
    have hb : (s.ledgers t).version ((s.cluster.records t).dropHeld p).newest = some record :=
      hv
    rw [hb]
    simp [Change.apply,Held.release,hep,ha]
  · cases hs

/-- Weighing a lease writes nothing. -/
theorem Audited.Chained.weighs (h : s.Chained)
    (hs : s.cluster.getLease p t = some cluster ∨ s.cluster.noteLease p t = some cluster ∨
      s.cluster.weigh c p t = some cluster) : Audited.Chained ⟨cluster,s.ledgers⟩ := by
  rcases hs with hs | hs | hs
  · unfold Cluster.getLease at hs
    split at hs
    · rename_i k owner before ho
      have hr := (h t).goes p _ ho
      split at hs
      · cases hs
        exact h.keep rfl ((h t).setOp fun x hx => by cases hx; exact hr)
      · cases hs
        exact h.keep rfl ((h t).setOp fun x hx => by cases hx; exact hr)
    · cases hs
  · unfold Cluster.noteLease at hs
    split at hs
    · rename_i k owner before version ho
      have hr := (h t).goes p _ ho
      cases hs
      exact h.keep rfl ((h t).setOp fun x hx => by cases hx; exact hr)
    · cases hs
  · unfold Cluster.weigh at hs
    split at hs
    · rename_i k owner before version ho
      have hr := (h t).goes p _ ho
      split at hs
      · cases hs
        exact h.keep rfl ((h t).setOp fun x hx => by cases hx; exact hr)
      · cases hs
        refine h.keep rfl ((h t).setOp ?_)
        intro x hx
        split at hx
        · cases hx
          exact hr
        · cases hx
    · cases hs

/-- Every step of the cluster keeps the records chained. -/
theorem Audited.Chained.own (h : s.Chained) (hs : s.step c (.own a) = some s') : s'.Chained := by
  have hre : ∀ {o : Option Leases} {cluster : Cluster τ α},
      o.map (fun l => { s.cluster with leases := l }) = some cluster →
        cluster.records = s.cluster.records := by
    intro o cluster ho
    obtain ⟨l,-,rfl⟩ := Option.map_eq_some_iff.mp ho
    rfl
  cases a with
  | updateAlarms p t i alarms => cases hs
  | tick | drain | retire | dropDelete | sample =>
    cases hs
    exact h.of_records rfl
  | authority p =>
    cases hs
    exact h.authoritativeLocked p
  | renew p i issued =>
    obtain ⟨cluster,hst,rfl⟩ := Option.map_eq_some_iff.mp hs
    obtain ⟨l,-,rfl⟩ := Option.map_eq_some_iff.mp hst
    exact h.authoritativeLocked (c := c) p
  | landRenewal | answerRenewal | failRenewal | landDelete =>
    obtain ⟨cluster,hst,rfl⟩ := Option.map_eq_some_iff.mp hs
    exact h.of_records (hre hst)
  | listLeases p =>
    obtain ⟨cluster,hst,rfl⟩ := Option.map_eq_some_iff.mp hs
    refine h.of_records ?_
    simp only [Cluster.step,Cluster.listLeases] at hst
    split at hst
    · cases hst
      rfl
    · cases hst
  | noteLeases p =>
    obtain ⟨cluster,hst,rfl⟩ := Option.map_eq_some_iff.mp hs
    obtain ⟨o,-,rfl⟩ := Option.map_eq_some_iff.mp hst
    exact h.of_records rfl
  | expire p n =>
    obtain ⟨cluster,hst,rfl⟩ := Option.map_eq_some_iff.mp hs
    refine h.of_records ?_
    simp only [Cluster.step,Cluster.expire] at hst
    split at hst
    · split at hst
      · cases hst
        rfl
      · cases hst
    · cases hst
  | claim p t =>
    obtain ⟨cluster,hst,rfl⟩ := Option.map_eq_some_iff.mp hs
    simp only [Cluster.step,Cluster.claim] at hst
    split at hst
    · cases hst
      exact h.keep rfl ((h t).setOp fun x hx => by cases hx; trivial)
    · cases hst
  | listVersions p t =>
    obtain ⟨cluster,hst,rfl⟩ := Option.map_eq_some_iff.mp hs
    obtain ⟨r,hr,rfl⟩ := Option.map_eq_some_iff.mp hst
    exact h.keep rfl ((h t).listVersions hr)
  | readVersion p t =>
    obtain ⟨cluster,hst,rfl⟩ := Option.map_eq_some_iff.mp hs
    obtain ⟨r,hr,rfl⟩ := Option.map_eq_some_iff.mp hst
    have hm : (s.cluster.leases.node p).process = p := rfl
    exact h.keep rfl ((h t).readVersion hm hr)
  | judge p t =>
    obtain ⟨cluster,hst,rfl⟩ := Option.map_eq_some_iff.mp hs
    obtain ⟨r,hr,rfl⟩ := Option.map_eq_some_iff.mp hst
    exact h.keep rfl ((h t).judge hr)
  | getLease p t =>
    obtain ⟨cluster,hst,rfl⟩ := Option.map_eq_some_iff.mp hs
    exact h.weighs (c := c) (.inl hst)
  | noteLease p t =>
    obtain ⟨cluster,hst,rfl⟩ := Option.map_eq_some_iff.mp hs
    exact h.weighs (c := c) (.inr (.inl hst))
  | weigh p t =>
    obtain ⟨cluster,hst,rfl⟩ := Option.map_eq_some_iff.mp hs
    exact h.weighs (.inr (.inr hst))
  | writeClaim p t i =>
    obtain ⟨cluster,hst,rfl⟩ := Option.map_eq_some_iff.mp hs
    exact h.writeClaim hst
  | setEpoch p t i epoch =>
    obtain ⟨cluster,hst,rfl⟩ := Option.map_eq_some_iff.mp hs
    exact h.setEpoch hst
  | release p t i nextSeq =>
    obtain ⟨cluster,hst,rfl⟩ := Option.map_eq_some_iff.mp hs
    exact h.release hst
  | landVersion t i =>
    obtain ⟨cluster,hst,rfl⟩ := Option.map_eq_some_iff.mp hs
    obtain ⟨r,hr,rfl⟩ := Option.map_eq_some_iff.mp hst
    refine h.note rfl ?_
    simp only [Cluster.setRecords,Function.update_self]
    exact (h t).landVersion hr
  | answerVersion p t =>
    obtain ⟨cluster,hst,rfl⟩ := Option.map_eq_some_iff.mp hs
    obtain ⟨r,hr,rfl⟩ := Option.map_eq_some_iff.mp hst
    exact h.keep rfl ((h t).answerVersion hr)
  | listWritten p t =>
    obtain ⟨cluster,hst,rfl⟩ := Option.map_eq_some_iff.mp hs
    obtain ⟨r,hr,rfl⟩ := Option.map_eq_some_iff.mp hst
    refine h.note rfl ?_
    simp only [Cluster.setRecords,Function.update_self]
    exact (h t).listWritten hr
  | finish p t =>
    obtain ⟨cluster,hst,rfl⟩ := Option.map_eq_some_iff.mp hs
    obtain ⟨r,hr,rfl⟩ := Option.map_eq_some_iff.mp hst
    exact h.keep rfl ((h t).finish hr)
  | fail p t =>
    cases hs
    exact h.keep rfl ((h t).setOp (by simp))
  | collect t v =>
    obtain ⟨cluster,hst,rfl⟩ := Option.map_eq_some_iff.mp hs
    obtain ⟨r,hr,rfl⟩ := Option.map_eq_some_iff.mp hst
    exact h.keep rfl ((h t).collect hr)

theorem Audited.Chained.step (h : s.Chained) (hs : s.step c a = some s') : s'.Chained := by
  cases a with
  | own a => exact h.own hs
  | updateAlarms p t i change =>
    obtain ⟨y,hy,hs⟩ := Option.bind_eq_some_iff.mp hs
    obtain ⟨alarms,hc,hs⟩ := Option.bind_eq_some_iff.mp hs
    obtain ⟨cluster,hst,rfl⟩ := Option.map_eq_some_iff.mp hs
    exact h.updateAlarms hy hc hst

end Cluster

section Extends

structure Ledger.Extends (l' l : Ledger α) : Prop where
  stored : l.stored <+: l'.stored
  applied : l.applied <+: l'.applied

theorem Ledger.Extends.refl (l : Ledger α) : l.Extends l := ⟨List.prefix_rfl,List.prefix_rfl⟩

theorem Ledger.make_extends (l : Ledger α) (i : Nat) (change : Change α) :
    (l.make i change).Extends l := ⟨List.prefix_rfl,List.prefix_rfl⟩

theorem Ledger.land_extends (l : Ledger α) (r r' : Records α) (i : Nat) :
    (l.land r r' i).Extends l := by
  unfold Ledger.land
  split
  · exact ⟨List.prefix_append ..,List.prefix_rfl⟩
  · exact .refl l

theorem Ledger.confirm_extends (l : Ledger α) (r : Records α) (p : Nat) :
    (l.confirm r p).Extends l := by
  unfold Ledger.confirm
  split
  · exact ⟨List.prefix_rfl,List.prefix_append ..⟩
  · exact .refl l

variable [DecidableEq τ] {s s' : Audited τ α} {cluster : Cluster τ α} {t : τ}

theorem Audited.note_extends (h : l.Extends (s.ledgers t)) (t' : τ) :
    ((s.note cluster t l).ledgers t').Extends (s.ledgers t') := by
  show (Function.update s.ledgers t l t').Extends (s.ledgers t')
  by_cases ht : t' = t
  · subst ht
    rw [Function.update_self]
    exact h
  · rw [Function.update_of_ne ht]
    exact .refl _

theorem Audited.follow_extends (s : Audited τ α) (cluster : Cluster τ α) (a : OwnershipStep τ α)
    (t : τ) : ((s.follow cluster a).ledgers t).Extends (s.ledgers t) := by
  unfold Audited.follow
  split
  · split
    · exact note_extends (Ledger.make_extends ..) t
    · exact .refl _
  · exact note_extends (Ledger.make_extends ..) t
  · exact note_extends (Ledger.make_extends ..) t
  · exact note_extends (Ledger.land_extends ..) t
  · exact note_extends (Ledger.confirm_extends ..) t
  · exact .refl _

theorem Audited.step_extends [Inhabited α] (h : s.step c a = some s') (t : τ) :
    (s'.ledgers t).Extends (s.ledgers t) := by
  unfold Audited.step at h
  split at h
  · cases h
  · obtain ⟨cluster,-,rfl⟩ := Option.map_eq_some_iff.mp h
    exact s.follow_extends cluster _ t
  · obtain ⟨held,-,h⟩ := Option.bind_eq_some_iff.mp h
    obtain ⟨alarms,-,h⟩ := Option.bind_eq_some_iff.mp h
    obtain ⟨cluster,-,rfl⟩ := Option.map_eq_some_iff.mp h
    exact note_extends (Ledger.make_extends ..) t

end Extends

section Fold

def Change.onEpoch : Change α → Nat → Nat
  | .setEpoch _ epoch, _ => epoch
  | _, epoch => epoch

def Change.onAlarms : Change α → α → Option α
  | .updateAlarms _ change, alarms => change alarms
  | _, alarms => some alarms

variable [Inhabited α] {l : Ledger α} {r : Records α}

theorem Change.apply_eq {change : Change α} (h : change.apply below = some record) :
    change.onEpoch (below.elim 0 (·.epoch)) = record.epoch ∧
      change.onAlarms (below.elim default (·.alarms)) = some record.alarms := by
  cases change with
  | claim me =>
    cases h
    exact ⟨rfl,rfl⟩
  | setEpoch me epoch | release nextSeq =>
    obtain ⟨x,rfl,rfl⟩ := Option.map_eq_some_iff.mp h
    exact ⟨rfl,rfl⟩
  | updateAlarms me change =>
    obtain ⟨x,rfl,h⟩ := Option.bind_eq_some_iff.mp h
    obtain ⟨alarms,ha,rfl⟩ := Option.map_eq_some_iff.mp h
    exact ⟨rfl,ha⟩

structure Ledger.Folds (l : Ledger α) (k : Nat) : Prop where
  epoch : (l.stored.take k).foldl (fun epoch w => w.change.onEpoch epoch) 0 =
    (l.version k).elim 0 (·.epoch)
  alarms : (l.stored.take k).foldlM (fun alarms w => w.change.onAlarms alarms) default =
    some ((l.version k).elim default (·.alarms))

theorem Records.Chained.folds (h : r.Chained l) : ∀ k, k ≤ l.stored.length → l.Folds k := by
  intro k
  induction k with
  | zero =>
    intro _
    exact ⟨rfl,rfl⟩
  | succ k ih =>
    intro hk
    obtain ⟨he,ha⟩ := ih (Nat.le_of_succ_le hk)
    obtain ⟨w,hw⟩ : ∃ w, l.stored[k]? = some w := ⟨_,List.getElem?_eq_getElem hk⟩
    have hv : l.version (k + 1) = some w.record := by simp [Ledger.version,hw]
    obtain ⟨hwe,hwa⟩ := Change.apply_eq (h.linked k w hw).2
    constructor
    · rw [List.take_add_one,hw,List.foldl_append,he,hv]
      exact hwe
    · rw [List.take_add_one,hw,List.foldlM_append,ha,hv]
      simp [hwa]

/-- The writes that counted are one history: each was made of the version below its own, and the
later ones are made of it. -/
structure Ledger.Serial (l : Ledger α) : Prop where
  increasing : (l.applied.map (·.seq)).Pairwise (· < ·)
  stored : ∀ w ∈ l.applied, 0 < w.seq ∧ l.stored[w.seq - 1]? = some w
  computed : ∀ w ∈ l.applied, w.change.apply (l.version (w.seq - 1)) = some w.record
  folds : ∀ k, k ≤ l.stored.length → l.Folds k

theorem Records.Chained.serial (h : r.Chained l) : l.Serial where
  increasing := h.increasing
  stored w hw := ⟨(h.applied w hw).1,(h.applied w hw).2.1⟩
  computed w hw := (h.linked _ w (h.applied w hw).2.1).2
  folds := h.folds

end Fold

section Firing

variable [LinearOrder ν] (parse : String → Option Schedule)

def beginFiring (name : ν) (nowMs : Nat) (alarms : BTreeMap ν Alarm) :
    Option (BTreeMap ν Alarm × Firing) :=
  alarms[name]?.bind fun alarm =>
    (begin parse alarm nowMs).map fun begun => (alarms.insert name begun.1, begun.2)

def Written.Begins (w : Written (BTreeMap ν Alarm)) (l : Ledger (BTreeMap ν Alarm)) (name : ν)
    (firing : Firing) : Prop :=
  ∃ me nowMs below,
    w.change = .updateAlarms me (fun alarms => (beginFiring parse name nowMs alarms).map (·.1)) ∧
    l.version (w.seq - 1) = some below ∧
    (beginFiring parse name nowMs below.alarms).map (·.2) = some firing

/-- From the version `k` to the version `k'` the alarm stands: nobody sets it again, removes it or
settles its firing, which counts its attempts anew, and the count does not wrap. -/
def Ledger.Stands (l : Ledger (BTreeMap ν Alarm)) (name : ν) (k k' : Nat) : Prop :=
  ∀ j, k ≤ j → j < k' → ∀ below above alarm, l.version j = some below →
    l.version (j + 1) = some above → below.alarms[name]? = some alarm →
    ∃ alarm' : Alarm, above.alarms[name]? = some alarm' ∧ alarm'.id = alarm.id ∧
      alarm.attempt ≤ alarm'.attempt

variable {parse}

theorem begin_eq_some (h : begin parse alarm nowMs = some begun) :
    begun.2.id = alarm.id ∧ begun.2.attempt = (alarm.attempt + 1) % 2 ^ 32 ∧
      begun.1.id = begun.2.id ∧ begun.1.attempt = begun.2.attempt := by
  unfold begin at h
  split at h
  · cases h
  · obtain ⟨⟨scheduledMs,coversFromMs,missed⟩,_,rfl⟩ := Option.map_eq_some_iff.mp h
    exact ⟨rfl,rfl,rfl,rfl⟩

theorem beginFiring_eq_some {alarms alarms' : BTreeMap ν Alarm}
    (h : beginFiring parse name nowMs alarms = some (alarms',firing)) :
    ∃ alarm alarm' : Alarm, alarms[name]? = some alarm ∧ alarms'[name]? = some alarm' ∧
      firing.id = alarm.id ∧ firing.attempt = (alarm.attempt + 1) % 2 ^ 32 ∧
      alarm'.id = firing.id ∧ alarm'.attempt = firing.attempt := by
  obtain ⟨alarm,ha,h⟩ := Option.bind_eq_some_iff.mp h
  obtain ⟨begun,hb,h⟩ := Option.map_eq_some_iff.mp h
  cases h
  obtain ⟨hi,hat,hi',ha'⟩ := begin_eq_some hb
  exact ⟨alarm,begun.1,ha,Std.ExtTreeMap.getElem?_insert_self,hi,hat,hi',ha'⟩

variable {l : Ledger (BTreeMap ν Alarm)} {r : Records (BTreeMap ν Alarm)}

theorem Ledger.Stands.attempt_le (hlen : k + n ≤ l.stored.length) (hs : l.Stands name k (k + n))
    (hk : l.version k = some below) (ha : below.alarms[name]? = some alarm) :
    ∃ above alarm', l.version (k + n) = some above ∧
      above.alarms[name]? = some alarm' ∧ alarm'.id = alarm.id ∧ alarm.attempt ≤ alarm'.attempt := by
  induction n with
  | zero => exact ⟨below,alarm,hk,ha,rfl,Nat.le_refl _⟩
  | succ n ih =>
    obtain ⟨mid,alarm',hm,ha',hi,hl⟩ :=
      ih (by omega) fun j hj hlt => hs j hj (by omega)
    obtain ⟨above,hab⟩ : ∃ above, l.version (k + n + 1) = some above :=
      Option.ne_none_iff_exists'.mp (Ledger.version_isSome (Nat.succ_ne_zero _) hlen)
    obtain ⟨alarm'',ha'',hi',hl'⟩ :=
      hs (k + n) (by omega) (by omega) mid above alarm' hm hab ha'
    exact ⟨above,alarm'',hab,ha'',hi'.trans hi,Nat.le_trans hl hl'⟩

/-- A begin that counts raises the attempt of the version below it. -/
theorem Records.Chained.begins (h : r.Chained l) (hw : w ∈ l.applied)
    (hb : w.Begins parse l name firing) : ∃ below alarm alarm',
      l.version (w.seq - 1) = some below ∧ below.alarms[name]? = some alarm ∧
      l.version w.seq = some w.record ∧ w.record.alarms[name]? = some alarm' ∧
      firing.attempt = (alarm.attempt + 1) % 2 ^ 32 ∧ alarm'.attempt = firing.attempt := by
  obtain ⟨hp,hst,-⟩ := h.applied w hw
  obtain ⟨me,nowMs,below,hc,hb,hf⟩ := hb
  obtain ⟨⟨alarms,begun⟩,hbeg,rfl⟩ := Option.map_eq_some_iff.mp hf
  have hr : w.record.alarms = alarms := by
    have hl := (h.linked _ w hst).2
    rw [hc,hb] at hl
    obtain ⟨x,hx,hl⟩ := Option.map_eq_some_iff.mp hl
    dsimp only at hx
    rw [hbeg] at hx
    cases hx
    rw [← hl]
  have hv : l.version w.seq = some w.record := by
    obtain ⟨k,hk⟩ : ∃ k, w.seq = k + 1 := ⟨w.seq - 1,by omega⟩
    rw [hk] at hst ⊢
    simpa [Ledger.version] using congrArg (Option.map (·.record)) hst
  obtain ⟨alarm,alarm',ha,ha',-,hat,-,hat'⟩ := beginFiring_eq_some hbeg
  exact ⟨below,alarm,alarm',hb,ha,hv,hr ▸ ha',hat,hat'⟩

theorem Records.Chained.begun_once (h : r.Chained l) (hw : w ∈ l.applied) (hw' : w' ∈ l.applied)
    (hb : w.Begins parse l name firing) (hb' : w'.Begins parse l name firing')
    (hl : w.seq ≤ w'.seq) (hs : l.Stands name w.seq w'.seq)
    (hsa : firing.attempt = firing'.attempt) : w = w' := by
  obtain ⟨-,hst,-⟩ := h.applied w hw
  obtain ⟨-,hst',-⟩ := h.applied w' hw'
  rcases Nat.eq_or_lt_of_le hl with he | hlt
  · rw [he,hst'] at hst
    exact (Option.some.inj hst).symm
  · exfalso
    obtain ⟨-,-,begun,-,-,hv,ha,-,hat⟩ := h.begins hw hb
    obtain ⟨below,alarm,begun',hv',ha',hr',hab',hn,hat'⟩ := h.begins hw' hb'
    have hlen : w'.seq - 1 < l.stored.length := (List.getElem?_eq_some_iff.mp hst').1
    obtain ⟨n,hk⟩ : ∃ n, w'.seq = w.seq + n + 1 := ⟨w'.seq - w.seq - 1,by omega⟩
    rw [hk] at hs hr'
    rw [hk,Nat.add_sub_cancel] at hv' hlen
    have hs' : l.Stands name w.seq (w.seq + n) := fun j hj hlt => hs j hj (by omega)
    obtain ⟨above,last,hab,hla,-,hle⟩ := hs'.attempt_le (by omega) hv ha
    cases hv'.symm.trans hab
    cases ha'.symm.trans hla
    obtain ⟨after,haf,-,hup⟩ := hs _ (by omega) (Nat.lt_succ_self _) _ _ _ hv' hr' ha'
    cases hab'.symm.trans haf
    omega

variable [DecidableEq τ]

/-- In every run of claims, `set_epoch`, `update_alarms` and `release`, the writes that counted are
one history that ends in the newest version, which holds every change of theirs, and two of them
begin one firing only if they are the same write. -/
theorem record_history_is_serial
    (h : Reachable (· = (Audited.empty : Audited τ (BTreeMap ν Alarm))) (Audited.step c) anyStep s)
    (t : τ) :
    (s.cluster.records t).newest = (s.ledgers t).stored.length ∧
    (s.cluster.records t).versions (s.cluster.records t).newest =
      (s.ledgers t).version (s.cluster.records t).newest ∧
    (∀ a s', s.step c a = some s' → (s'.ledgers t).Extends (s.ledgers t)) ∧
    (s.ledgers t).Serial ∧
    ∀ (parse : String → Option Schedule) (name : ν) (w w' : Written (BTreeMap ν Alarm))
      (firing firing' : Firing), w ∈ (s.ledgers t).applied → w' ∈ (s.ledgers t).applied →
      w.Begins parse (s.ledgers t) name firing → w'.Begins parse (s.ledgers t) name firing' →
      w.seq ≤ w'.seq → (s.ledgers t).Stands name w.seq w'.seq →
      firing.attempt = firing'.attempt → w = w' := by
  have hc : s.Chained :=
    h.invariant (P := fun s => s.Chained) (fun s hs => hs ▸ .start) fun _ _ _ hs _ hst => hs.step hst
  refine ⟨(hc t).newest.symm,(hc t).top,fun a s' ha => Audited.step_extends ha t,
    (hc t).serial,?_⟩
  intro parse name w w' firing firing' hw hw' hb hb' hl hst hsa
  exact (hc t).begun_once hw hw' hb hb' hl hst hsa

end Firing

section Runs

/-- An owner changes the alarms of its record, and hears that the write counts. -/
def alarmRun (p : Nat) (t : τ) (i : Nat) (change : α → Option α) : List (AuditedStep τ α) :=
  [.updateAlarms p t i change, .own (.landVersion t i), .own (.answerVersion p t),
    .own (.listWritten p t), .own (.finish p t)]

/-- A process claims a key, sets an alarm and begins its firing; another takes the key over a
verdict later, and begins the next attempt. -/
theorem firing_is_retried_by_next_owner : ∃ s : Audited Unit (BTreeMap Nat Alarm),
    Reachable (· = .empty) (Audited.step .default) anyStep s ∧
    (s.ledgers ()).applied.map (fun w => (w.process, w.seq)) =
      [(0, 1), (0, 2), (0, 3), (1, 4), (1, 5)] ∧
    (s.ledgers ()).Serial := by
  have hso : (runs (Audited.step .default) anyStep
      (Audited.empty : Audited Unit (BTreeMap Nat Alarm))
      ((renewRun 0 0 0 ++ claimRun 0 () 0 []).map .own ++
        alarmRun 0 () 1 (fun alarms => some (alarms.insert 7 (Alarm.once 10 1))) ++
        alarmRun 0 () 2 (fun alarms =>
          (beginFiring (fun _ => none) 7 10 alarms).map (·.1)) ++
        (sampleRun 1 ++ [OwnershipStep.tick 12000] ++ renewRun 1 1 12000 ++ claimRun 1 () 3
          [.judge 1 (),.getLease 1 (),.noteLease 1 (),.weigh 1 ()]).map .own ++
        alarmRun 1 () 4 (fun alarms =>
          (beginFiring (fun _ => none) 7 12000 alarms).map (·.1)))).map (fun s =>
            (s.ledgers ()).applied.map fun w => (w.process,w.seq)) =
      some [(0,1),(0,2),(0,3),(1,4),(1,5)] := by
    decide +kernel
  obtain ⟨s,hs,ha⟩ := Option.map_eq_some_iff.mp hso
  have hst : Reachable (· = (Audited.empty : Audited Unit (BTreeMap Nat Alarm)))
      (Audited.step .default) anyStep .empty := .start rfl
  have hr := hst.of_runs _ hs
  exact ⟨s,hr,ha,(record_history_is_serial hr ()).2.2.2.1⟩

end Runs

end Walleye.Ownership
