import Walleye.Ownership.Records

namespace Walleye.Ownership

open Walleye.Base

variable {τ α : Type} {c : LeaseConfig}

/-- What a sample's listing showed was the last to land then, and what it found expired had not
changed for a verdict. -/
def Leases.Samples (c : LeaseConfig) (s : Leases) : Sampling → Prop
  | .begun before => before ≤ s.now
  | .listed before listedAt present => before ≤ listedAt ∧ listedAt ≤ s.now ∧
      ∀ n i, present n = some i → ∃ t l, s.Landed i n t l ∧ l ≤ listedAt ∧
        ∀ j t' l', s.Landed j n t' l' → l' < listedAt → l' ≤ l
  | .expiring before listedAt expired => before ≤ listedAt ∧ listedAt ≤ s.now ∧
      ∀ n, expired n = true → ∃ i t l, s.Landed i n t l ∧ l + c.verdict ≤ before ∧
        ∀ j t' l', s.Landed j n t' l' → l' < listedAt → l' ≤ l

structure Observer.Sound (c : LeaseConfig) (s : Leases) (o : Observer) : Prop where
  seen : ∀ n w, o.seen n = some w → ∃ t l, s.Landed w.version n t l ∧ l ≤ w.firstSeen
  sampling : ∀ x, o.sampling = some x → s.Samples c x

structure Cluster.Sound (c : LeaseConfig) (s : Cluster τ α) : Prop where
  leases : s.leases.Sound c
  observers : ∀ p, (s.observers p).Sound c s.leases
  records : ∀ t, (s.records t).Sound c s.leases

theorem Cluster.Sound.start : (Cluster.empty : Cluster τ α).Sound c where
  leases := .start c
  observers _ :=
    { seen := by intro _ _ h; cases h
      sampling := by intro _ h; cases h }
  records _ := .start _

theorem Leases.Landed.unique {s : Leases} (h : s.Landed i n t l) (h' : s.Landed i m t' l') : l = l' := by
  obtain ⟨r,hr,_,_,hl⟩ := h
  obtain ⟨r',hr',_,_,hl'⟩ := h'
  have hrr := Option.some.inj (hr.symm.trans hr')
  subst hrr
  exact Option.some.inj (hl.symm.trans hl')

section Verdicts

variable {s : Leases}

theorem Leases.Sound.over_of_gone (h : s.Sound c) (he : s.Entered n)
    (hg : s.leases n = none) : s.Over c n := by
  rcases he with hlt | hr | ⟨hn,a,ha⟩
  · exact .inl hlt
  · exact .inr (.inl hr)
  · obtain ⟨i,l,hl,_⟩ := h.anchored n.process a ha
    rw [hn] at hl
    exact h.gone i n a l hl hg

theorem Leases.Sound.over_of_shown (h : s.Sound c) (he : s.Entered n)
    (hs : s.leases n = some i) (hb : before ≤ s.now) :
    ∃ t l, s.Landed i n t l ∧ (l + c.verdict ≤ before → s.Over c n) := by
  obtain ⟨t,l,hl,hal⟩ := h.latest n i hs
  refine ⟨t,l,hl,fun hle => ?_⟩
  rcases he with hlt | hr | ⟨hn,a,ha⟩
  · exact .inl hlt
  · exact .inr (.inl hr)
  · obtain ⟨j,la,hla,_⟩ := h.anchored n.process a ha
    rw [hn] at hla
    exact h.over_of_unchanged hn ha ⟨la,hla,hal j a la hla⟩ (fun j t' l' hj _ => hal j t' l' hj)
      (Nat.le_refl _) (Nat.le_trans hle hb)

theorem Leases.Sound.over_of_replaced (h : s.Sound c) (hl : s.Landed i n t l)
    (hn : s.node n.process ≠ n) : s.Over c n := by
  obtain ⟨r,hr,rfl,_⟩ := hl
  refine .inl (Nat.lt_of_le_of_ne (h.bounds i r hr).1 fun he => hn ?_)
  simp [Leases.node,← he]

theorem Leases.Sound.over_of_expired (h : s.Sound c)
    (he : s.Expirable c n before) (hb : before ≤ listedAt) (hno : listedAt ≤ s.now)
    (hl : s.Landed i n t l) (hle : l + c.verdict ≤ before)
    (hlas : ∀ j t' l', s.Landed j n t' l' → l' < listedAt → l' ≤ l) : s.Over c n := by
  by_cases hn : s.node n.process = n
  · rcases he with hne | hr | ⟨a,ha,hs⟩
    · exact absurd hn hne
    · exact .inr (.inl hr)
    · obtain ⟨j,la,hla,hl'⟩ := h.anchored n.process a ha
      rw [hn] at hla
      exact h.over_of_unchanged hn ha ⟨la,hla,hlas j a la hla (by omega)⟩ hlas hno
        (Nat.le_trans hle hb)
  · exact h.over_of_replaced hl hn

end Verdicts

section Observers

variable {s s' : Leases} {o : Observer}

/-- A sample stays true as the leases move on. -/
theorem Leases.Samples.evolves (h : s.Samples c x) (e : s.Evolves c s') : s'.Samples c x := by
  cases x with
  | begun b => exact Nat.le_trans h e.now
  | listed b d present =>
    obtain ⟨hb,hd,hp⟩ := h
    refine ⟨hb,Nat.le_trans hd e.now,fun n i hi => ?_⟩
    obtain ⟨t,l,hl,hld,ha⟩ := hp n i hi
    refine ⟨t,l,e.forth _ _ _ _ hl,hld,fun j t' l' hj hlt => ?_⟩
    rcases e.back j n t' l' hj with ho | hne
    · exact ha j t' l' ho hlt
    · omega
  | expiring b d expired =>
    obtain ⟨hb,hd,hp⟩ := h
    refine ⟨hb,Nat.le_trans hd e.now,fun n hn => ?_⟩
    obtain ⟨i,t,l,hl,hle,ha⟩ := hp n hn
    refine ⟨i,t,l,e.forth _ _ _ _ hl,hle,fun j t' l' hj hlt => ?_⟩
    rcases e.back j n t' l' hj with ho | hne
    · exact ha j t' l' ho hlt
    · omega

theorem Observer.Sound.evolves (h : o.Sound c s) (e : s.Evolves c s') : o.Sound c s' where
  seen n w hw := by
    obtain ⟨t,l,hl,hle⟩ := h.seen n w hw
    exact ⟨t,l,e.forth _ _ _ _ hl,hle⟩
  sampling x hx := (h.sampling x hx).evolves e

theorem Seen.expired_iff {w : Seen} :
    w.expired c before = true ↔ w.firstSeen + c.verdict ≤ before := by
  have := c.verdict_pos
  simp only [Seen.expired,decide_eq_true_eq]
  omega

theorem Observer.note_cases (h : o.note listedAt present n = some w) :
    present n = some w.version ∧ (o.seen n = some w ∨ w.firstSeen = listedAt) := by
  unfold Observer.note at h
  split at h
  · cases h
  · rename_i v hv
    split at h
    · rename_i x hx
      split at h
      · rename_i he
        cases h
        exact ⟨he ▸ hv,.inl hx⟩
      · cases h
        exact ⟨hv,.inr rfl⟩
    · cases h
      exact ⟨hv,.inr rfl⟩

/-- Noting a listing dates no lease before it was seen. -/
theorem Observer.Sound.noteLeases {o' : Observer} (h : o.Sound c s)
    (hs : o.noteLeases c mine = some o') : o'.Sound c s := by
  unfold Observer.noteLeases at hs
  split at hs
  · rename_i before listedAt present hsa
    obtain ⟨hb,hd,hp⟩ := h.sampling _ hsa
    cases hs
    refine ⟨?_,?_⟩
    · intro n w hw
      obtain ⟨hpr,hc⟩ := Observer.note_cases hw
      rcases hc with ho | hne
      · exact h.seen n w ho
      · obtain ⟨t,l,hl,hle,_⟩ := hp n w.version hpr
        exact ⟨t,l,hl,hne ▸ hle⟩
    · intro x hx
      cases hx
      refine ⟨hb,hd,fun n hn => ?_⟩
      simp only [Bool.and_eq_true,Option.any_eq_true] at hn
      obtain ⟨_,w,hw,he⟩ := hn
      obtain ⟨hpr,hc⟩ := Observer.note_cases hw
      obtain ⟨t,l,hl,_,ha⟩ := hp n w.version hpr
      have hag := Seen.expired_iff.mp he
      have hpo := c.verdict_pos
      rcases hc with ho | hne
      · obtain ⟨t',l',hl',hle'⟩ := h.seen n w ho
        have heq := hl.unique hl'
        exact ⟨w.version,t,l,hl,by omega,ha⟩
      · omega
  · cases hs

theorem Observer.Sound.noteLease (h : o.Sound c s) (hl : s.Landed version n t l) (hle : l ≤ s.now) :
    (o.noteLease n version s.now).Sound c s := by
  have hs : ({ o with seen := Function.update o.seen n (some ⟨version,s.now⟩) } :
      Observer).Sound c s := by
    refine ⟨fun m w hw => ?_,h.sampling⟩
    obtain ⟨rfl,rfl⟩ | ⟨_,hw⟩ := update_eq_some.mp hw
    · exact ⟨t,l,hl,hle⟩
    · exact h.seen m w hw
  unfold Observer.noteLease
  split
  · split
    · exact h
    · exact hs
  · exact hs

theorem Observer.Sound.forget (h : o.Sound c s) (n : Node) :
    ({ o with seen := Function.update o.seen n none } : Observer).Sound c s := by
  refine ⟨fun m w hw => ?_,h.sampling⟩
  by_cases hm : m = n
  · subst hm
    simp at hw
  · simp only [Function.update_of_ne hm] at hw
    exact h.seen m w hw

end Observers

section Steps

variable {s s' : Cluster τ α} {p : Nat} {t : τ}

theorem Cluster.Sound.setObserver (h : s.Sound c) (ho : o.Sound c s.leases) :
    (s.setObserver p o).Sound c :=
  ⟨h.leases,(Function.forall_update_iff _ fun _ (o : Observer) => o.Sound c s.leases).mpr
    ⟨ho,fun q _ => h.observers q⟩,h.records⟩

theorem Cluster.Sound.setRecords [DecidableEq τ] (h : s.Sound c)
    (hr : r.Sound c s.leases) : (s.setRecords t r).Sound c :=
  ⟨h.leases,h.observers,(Function.forall_update_iff _ fun _ (r : Records α) => r.Sound c s.leases).mpr
    ⟨hr,fun u _ => h.records u⟩⟩

variable {l : Leases} {i : Nat}

theorem Cluster.Sound.steps (h : s.Sound c) (m : s.leases.Steps c l)
    (hn : ∀ p, l.node p = s.leases.node p) : ({ s with leases := l } : Cluster τ α).Sound c where
  leases := h.leases.steps m
  observers p := (h.observers p).evolves m.evolves
  records t := (h.records t).evolves m.evolves fun p _ => hn p

/-- A process that is not authoritative drops its tables. -/
theorem Cluster.Sound.authoritativeLocked (h : s.Sound c) (p : Nat) :
    (s.authoritativeLocked c p).Sound c := by
  have m := h.leases.authoritativeLocked p
  have e := m.evolves
  refine ⟨h.leases.steps m,fun q => (h.observers q).evolves e,fun t => ?_⟩
  unfold Cluster.authoritativeLocked
  by_cases hl : s.leases.lapsed c p = true
  · simp only [hl,if_true]
    refine ((h.records t).dropHeld p).evolves e fun q hq => ?_
    have hn : q ≠ p := by
      rintro rfl
      simp [Records.dropHeld,Records.setHolder] at hq
    refine Leases.node_of_incarnation ?_
    simp [Leases.authoritativeLocked,hl,Leases.standDown,Leases.setSession,
      Function.update_of_ne hn]
  · simp only [hl,Bool.false_eq_true,if_false]
    refine (h.records t).evolves e fun q _ => ?_
    simp [Leases.authoritativeLocked,hl]

theorem Cluster.Sound.renew (h : s.Sound c) (hs : s.renew c p i issued = some s') : s'.Sound c := by
  unfold Cluster.renew at hs
  obtain ⟨l,hl,rfl⟩ := Option.map_eq_some_iff.mp hs
  have h' := h.authoritativeLocked p
  obtain ⟨hi,his,rfl⟩ := Leases.renew_spec hl
  exact h'.steps (h'.leases.publish hi his)
    (Leases.node_setSession { (s.leases.authoritativeLocked c p).sessions p with abandoned := [] } rfl)

theorem Cluster.Sound.sample (h : s.Sound c) (p : Nat) : (s.sample p).Sound c := by
  refine h.setObserver ⟨(h.observers p).seen,fun x hx => ?_⟩
  cases hx
  exact Nat.le_refl _

theorem Cluster.Sound.listLeases (h : s.Sound c) (hs : s.listLeases p = some s') : s'.Sound c := by
  unfold Cluster.listLeases at hs
  split at hs
  · rename_i before hsa
    cases hs
    refine h.setObserver ⟨(h.observers p).seen,fun x hx => ?_⟩
    cases hx
    refine ⟨(h.observers p).sampling _ hsa,Nat.le_refl _,fun n i hi => ?_⟩
    obtain ⟨t,l,hl,ha⟩ := h.leases.latest n i hi
    exact ⟨t,l,hl,(h.leases.landed _ _ _ _ hl).2,fun j t' l' hj _ => ha j t' l' hj⟩
  · cases hs

theorem Cluster.Sound.noteLeases (h : s.Sound c)
    (hs : (s.observers p).noteLeases c (s.leases.node p) = some o) :
    (s.setObserver p o).Sound c :=
  h.setObserver ((h.observers p).noteLeases hs)

theorem Cluster.Sound.expire (h : s.Sound c) (hs : s.expire p n = some s')
    (ho : ∀ before listedAt expired, (s.observers p).sampling =
      some (.expiring before listedAt expired) → s.leases.Expirable c n before) : s'.Sound c := by
  unfold Cluster.expire at hs
  split at hs
  · rename_i before listedAt expired hsa
    split at hs
    · rename_i hn
      cases hs
      obtain ⟨hb,hd,ha⟩ := (h.observers p).sampling _ hsa
      obtain ⟨i,t,l,hl,hle,hla⟩ := ha n hn
      have hov := h.leases.over_of_expired (ho _ _ _ hsa) hb hd hl hle hla
      exact h.steps (h.leases.delete hov) fun _ => rfl
    · cases hs
  · cases hs

theorem Cluster.authoritativeLocked_op (s : Cluster τ α) (p : Nat) (t : τ) :
    (((s.authoritativeLocked c p).records t).holders p).op = ((s.records t).holders p).op := by
  unfold Cluster.authoritativeLocked
  dsimp only
  split
  · simp [Records.dropHeld,Records.setHolder]
  · rfl

theorem Cluster.authoritativeLocked_puts (s : Cluster τ α) (p : Nat) (t : τ) :
    ((s.authoritativeLocked c p).records t).puts = (s.records t).puts := by
  unfold Cluster.authoritativeLocked
  dsimp only
  split <;> rfl

theorem Cluster.Sound.of_leases {x : Option Leases} (h : s.Sound c)
    (hs : x.map (fun l => ({ s with leases := l } : Cluster τ α)) = some s')
    (hx : ∀ l, x = some l → s.leases.Steps c l ∧ ∀ p, l.node p = s.leases.node p) :
    s'.Sound c := by
  obtain ⟨l,hl,rfl⟩ := Option.map_eq_some_iff.mp hs
  exact h.steps (hx l hl).1 (hx l hl).2

variable [DecidableEq τ]

theorem Cluster.Sound.claim (h : s.Sound c) (hs : s.claim c p t = some s') : s'.Sound c := by
  unfold Cluster.claim at hs
  split at hs
  · cases hs
    exact h.setRecords ((h.records t).setOp fun x hx => by cases hx; trivial)
  · cases hs

theorem Cluster.Sound.getLease (h : s.Sound c) (hs : s.getLease p t = some s') : s'.Sound c := by
  unfold Cluster.getLease at hs
  split at hs
  · rename_i k owner before ho
    obtain ⟨hr,how,he,hb⟩ := (h.records t).stands p _ ho
    split at hs
    · rename_i version hv
      cases hs
      refine h.setRecords ((h.records t).setOp fun x hx => ?_)
      cases hx
      exact ⟨hr,how,h.leases.over_of_shown he hv hb⟩
    · rename_i hg
      cases hs
      refine (h.setObserver ((h.observers p).forget owner)).setRecords
        ((h.records t).setOp fun x hx => ?_)
      cases hx
      refine ⟨hr,fun n hn => .inr ?_⟩
      have hno : owner = n := Option.some.inj (how.symm.trans hn)
      exact hno ▸ h.leases.over_of_gone he hg
  · cases hs

theorem Cluster.Sound.noteLease (h : s.Sound c) (hs : s.noteLease p t = some s') : s'.Sound c := by
  unfold Cluster.noteLease at hs
  split at hs
  · rename_i k owner before version ho
    obtain ⟨hr,how,i,l,hl,hov⟩ := (h.records t).stands p _ ho
    cases hs
    refine (h.setObserver ((h.observers p).noteLease hl (h.leases.landed _ _ _ _ hl).2)).setRecords
      ((h.records t).setOp fun x hx => ?_)
    cases hx
    exact ⟨hr,how,i,l,hl,hov⟩
  · cases hs

/-- A lapsed or missing lease means that its session is over. -/
theorem Cluster.Sound.weigh (h : s.Sound c) (hs : s.weigh c p t = some s')
    (ho : s.Unmoved p t) : s'.Sound c := by
  unfold Cluster.weigh at hs
  unfold Cluster.Unmoved at ho
  split at hs
  · rename_i k owner before version hop
    obtain ⟨hr,how,i,l,hl,hov⟩ := (h.records t).stands p _ hop
    simp only [hop] at ho
    obtain ⟨w,hw,hwv⟩ := ho
    rw [Option.mem_def] at hw
    simp only [hw] at hs
    cases hs
    refine h.setRecords ((h.records t).setOp fun x hx => ?_)
    split at hx
    · rename_i he
      cases hx
      refine ⟨hr,fun n hn => .inr ?_⟩
      obtain ⟨i',l',hl',hle'⟩ := (h.observers p).seen owner w hw
      have heq := hl.unique (hwv ▸ hl')
      have ha := Seen.expired_iff.mp he
      have hno : owner = n := Option.some.inj (how.symm.trans hn)
      exact hno ▸ hov (by omega)
    · cases hx
  · cases hs

theorem Leases.entered_of_authoritative (hi : n.incarnation ≤ (l.sessions n.process).incarnation)
    (hau : l.authoritative c n.process = true) : l.Entered n := by
  obtain ⟨_,a,ha,_⟩ := Leases.authoritative_iff.mp hau
  rcases Nat.lt_or_eq_of_le hi with hl | he
  · exact .inl hl
  · exact .inr (.inr ⟨by simp [Leases.node,← he],a,ha⟩)

/-- A claim is written over a session that is over. -/
theorem Cluster.Sound.writeClaim [Inhabited α] (h : s.Sound c)
    (hs : s.writeClaim c p t i = some s') : s'.Sound c := by
  unfold Cluster.writeClaim at hs
  split at hs
  · rename_i k ho
    split at hs
    · cases hs
    · rename_i hf
      rw [ne_eq,not_not] at hf
      have h' := h.authoritativeLocked p
      rw [← s.authoritativeLocked_op (c := c)] at ho
      rw [← s.authoritativeLocked_puts (c := c) p] at hf
      obtain ⟨hr,hse⟩ := (h'.records t).stands p _ ho
      dsimp only at hs
      split at hs
      · rename_i ha
        cases hs
        refine h'.setRecords ((h'.records t).write hf ⟨Nat.succ_pos _,?_,?_,?_⟩ rfl
          hr.process (fun _ => rfl) ?_ hr.unreleased (.inl (by simp [Claim.put])))
        · exact Nat.succ_le_succ hr.seq
        · intro hseq n hn
          have hm : k.me = n := Option.some.inj hn
          rw [hr.owner (Nat.succ.inj hseq),← hm]
          exact hse
        · intro _ hn
          cases hn
        · intro n hn
          have hm : k.me = n := Option.some.inj hn
          subst hm
          refine Leases.entered_of_authoritative (c := c) ?_ ?_
          · rw [hr.process]
            exact hr.incarnation
          · rw [hr.process]
            exact ha.1
      · cases hs
        exact h'.setRecords ((h'.records t).setOp fun x hx => by cases hx)
  · cases hs

/-- An owner writes over its own version. -/
theorem Cluster.Sound.update (h : s.Sound c) (hs : s.update c p t i put = some s')
    (hpu : ∀ held me x, put held me = some x → ∃ epoch alarms, x = held.update me epoch alarms) :
    s'.Sound c := by
  unfold Cluster.update at hs
  split at hs
  · rename_i hg
    obtain ⟨held,hhe,hs⟩ := Option.bind_eq_some_iff.mp hs
    obtain ⟨x,hx,hs⟩ := Option.bind_eq_some_iff.mp hs
    cases hs
    obtain ⟨epoch,alarms,rfl⟩ := hpu _ _ _ hx
    have hh := (h.records t).held p held hhe
    refine h.setRecords ((h.records t).write hg.2.1 ⟨Nat.succ_pos _,?_,?_,?_⟩ rfl rfl
      (fun _ => rfl) ?_ ?_ (.inl (by simp [Held.update])))
    · exact Nat.succ_le_succ hh.seq
    · intro hse n hn m hm
      rw [hh.own (Nat.succ.inj hse)] at hm
      exact .inl (Option.some.inj (hm.symm.trans hn))
    · intro _ hn
      cases hn
    · intro n hn
      have hme : s.leases.node p = n := Option.some.inj hn
      subst hme
      exact Leases.entered_of_authoritative (Nat.le_refl _) hg.2.2
    · intro j y hj hc hp hn
      exact Nat.le_succ_of_le (hh.unreleased j y hj hc hp hn)
  · cases hs

theorem Cluster.Sound.setEpoch (h : s.Sound c)
    (hs : s.setEpoch c p t i epoch = some s') : s'.Sound c := by
  refine h.update hs fun held me x hx => ?_
  split at hx
  · cases hx
  · exact ⟨_,_,(Option.some.inj hx).symm⟩

theorem Cluster.Sound.updateAlarms (h : s.Sound c)
    (hs : s.updateAlarms c p t i alarms = some s') : s'.Sound c :=
  h.update hs fun _ _ _ hx => ⟨_,_,(Option.some.inj hx).symm⟩

/-- A release gives the table up before its write goes out. -/
theorem Cluster.Sound.release (h : s.Sound c) (hs : s.release p t i nextSeq = some s') : s'.Sound c := by
  unfold Cluster.release at hs
  split at hs
  · rename_i hg
    obtain ⟨held,hhe,hs⟩ := Option.bind_eq_some_iff.mp hs
    cases hs
    have hh := (h.records t).held p held hhe
    refine h.setRecords (((h.records t).dropHeld p).write hg.2 ⟨Nat.succ_pos _,?_,?_,?_⟩
      rfl rfl (fun hk => absurd rfl hk) ?_ ?_ (.inr ?_))
    · exact Nat.succ_le_succ hh.seq
    · intro _ n hn
      cases hn
    · exact fun hse _ => hh.own (Nat.succ.inj hse)
    · intro n hn
      cases hn
    · intro j y hj hc hp hn
      exact Nat.le_succ_of_le (hh.unreleased j y hj hc hp hn)
    · simp [Records.dropHeld,Records.setHolder]
  · cases hs

theorem Cluster.Sound.of_records {x : Option (Records α)} (h : s.Sound c)
    (hs : x.map (s.setRecords t) = some s') (hx : ∀ r, x = some r → r.Sound c s.leases) :
    s'.Sound c := by
  obtain ⟨r,hr,rfl⟩ := Option.map_eq_some_iff.mp hs
  exact h.setRecords (hx r hr)

variable [Inhabited α]

/-- Every timely step keeps the cluster sound. -/
theorem Cluster.Sound.step {a : OwnershipStep τ α} (h : s.Sound c) (hok : s.Timely c a)
    (hs : s.step c a = some s') : s'.Sound c := by
  cases a with
  | tick d =>
    cases hs
    exact h.steps (h.leases.tick d) fun _ => rfl
  | authority p =>
    cases hs
    exact h.authoritativeLocked p
  | renew p i issued => exact h.renew hs
  | landRenewal i => exact h.of_leases hs fun l hl => h.leases.landRenewal hl
  | answerRenewal i =>
    exact h.of_leases hs fun l hl => h.leases.answerRenewal hl fun r l hr hl hn => hok r hr hn l hl
  | failRenewal i => exact h.of_leases hs fun l hl => h.leases.failRenewal hl
  | drain p =>
    cases hs
    exact h.steps (h.leases.drain p)
      (Leases.node_setSession { s.leases.sessions p with draining := true } rfl)
  | retire p =>
    cases hs
    exact h.steps (h.leases.retire p) (Leases.node_setSession { s.leases.sessions p with
      retired := true, anchor := none, dead := s.leases.node p :: (s.leases.sessions p).dead } rfl)
  | landDelete n => exact h.of_leases hs fun l hl => h.leases.landDelete hl
  | dropDelete n =>
    cases hs
    exact h.steps (h.leases.dropDelete n) fun _ => rfl
  | sample p =>
    cases hs
    exact h.sample p
  | listLeases p => exact h.listLeases hs
  | noteLeases p =>
    obtain ⟨o,ho,rfl⟩ := Option.map_eq_some_iff.mp hs
    exact h.noteLeases ho
  | expire p n =>
    refine h.expire hs fun before listedAt expired hsa => ?_
    simpa only [Cluster.Timely,Cluster.MayExpire,hsa] using hok
  | claim p t => exact h.claim hs
  | listVersions p t =>
    exact h.of_records hs fun r hr => (h.records t).listVersions hr
  | readVersion p t =>
    exact h.of_records hs fun r hr => (h.records t).readVersion hr
  | judge p t =>
    exact h.of_records hs fun r hr => (h.records t).judge h.leases hr
  | getLease p t => exact h.getLease hs
  | noteLease p t => exact h.noteLease hs
  | weigh p t => exact h.weigh hs hok
  | writeClaim p t i => exact h.writeClaim hs
  | setEpoch p t i epoch => exact h.setEpoch hs
  | updateAlarms p t i alarms => exact h.updateAlarms hs
  | release p t i nextSeq => exact h.release hs
  | landVersion t i =>
    exact h.of_records hs fun r hr => (h.records t).landVersion hr
  | answerVersion p t =>
    exact h.of_records hs fun r hr => (h.records t).answerVersion hr
  | listWritten p t =>
    exact h.of_records hs fun r hr => (h.records t).listWritten hr
  | finish p t =>
    exact h.of_records hs fun r hr => (h.records t).finish hr
  | fail p t =>
    cases hs
    exact h.setRecords ((h.records t).setOp fun x hx => by cases hx)
  | collect t v =>
    exact h.of_records hs fun r hr => (h.records t).collect hr

omit [DecidableEq τ] [Inhabited α] in
theorem Cluster.Sound.owner_of_holds (h : s.Sound c) (hp : (s.holds c p t).isSome) :
    (s.records t).owner = some (s.leases.node p) := by
  unfold Cluster.holds at hp
  split at hp
  · rename_i ha
    obtain ⟨held,hh⟩ := Option.isSome_iff_exists.mp (by simpa using hp)
    rcases ((h.records t).held p held hh).owner with ho | how
    · rw [ho.not_authoritative] at ha
      cases ha
    · exact how
  · cases hp

omit [DecidableEq τ] [Inhabited α] in
theorem Cluster.Sound.exclusive (h : s.Sound c) : s.Exclusive c := by
  intro t p q hp hq
  have hpq := (h.owner_of_holds hp).symm.trans (h.owner_of_holds hq)
  exact congrArg Node.process (Option.some.inj hpq)

/-- In every run in which the verdicts on leases are timely, no two processes hold one
table at any instant. -/
theorem tables_are_exclusive
    (h : Reachable (· = (Cluster.empty : Cluster τ α)) (Cluster.step c) (Cluster.Timely c) s) :
    s.Exclusive c := by
  have hso : s.Sound c :=
    h.invariant (P := fun s => s.Sound c) (fun s hs => hs ▸ .start)
      fun _ _ _ hs ho hst => hs.step ho hst
  exact hso.exclusive

end Steps

section Runs

def renewRun (p i now : Nat) : List (OwnershipStep τ α) :=
  [.renew p i now, .landRenewal i, .answerRenewal i]

def sampleRun (p : Nat) : List (OwnershipStep τ α) := [.sample p, .listLeases p, .noteLeases p]

/-- A claim that goes through, with what it takes to judge the owner it reads. -/
def claimRun (p : Nat) (t : τ) (i : Nat) (judgement : List (OwnershipStep τ α)) :
    List (OwnershipStep τ α) :=
  [.claim p t, .listVersions p t, .readVersion p t] ++ judgement ++
    [.writeClaim p t i, .landVersion t i, .answerVersion p t, .listWritten p t, .finish p t]

/-- A process claims a table and stops renewing; another sees its lease unchanged for a
verdict, and takes the table over. -/
theorem tables_are_exclusive_over_a_takeover : ∃ s : Cluster Unit Unit,
    Reachable (· = .empty) (Cluster.step .default) (Cluster.Timely .default) s ∧
    (s.holds .default 1 ()).isSome ∧ ((s.records ()).holders 0).held.isSome ∧
    s.Exclusive .default := by
  exact Reachable.exists_of_runs rfl
    (renewRun 0 0 0 ++ claimRun 0 () 0 [] ++ sampleRun 1 ++
    [.tick 12000] ++ renewRun 1 1 12000 ++ claimRun 1 () 1
      [.judge 1 (),.getLease 1 (),.noteLease 1 (),.weigh 1 ()]) rfl
    fun hr => ⟨by decide,by decide,tables_are_exclusive hr⟩

/-- A session's first renewal lands late; a peer sees that version for a verdict and sends its
delete. The session's next renewal counts and it claims a table; then the delete lands, the peer
finds the lease gone and claims it too. -/
theorem two_processes_hold_a_table : ¬ ∀ s : Cluster Unit Unit,
    Reachable (· = .empty) (Cluster.step .default) anyStep s → s.Exclusive .default := by
  intro ha
  have hr := ha _ (.of_start rfl
    ([.renew 0 0 0,.tick 2001,.failRenewal 0,.landRenewal 0] ++
    sampleRun 1 ++ [.tick 12000] ++ sampleRun 1 ++ [.expire 1 ⟨0,0⟩] ++
    renewRun 0 1 14001 ++ claimRun 0 () 0 [] ++ [.landDelete ⟨0,0⟩] ++ renewRun 1 2 14001 ++
    claimRun 1 () 1 [.judge 1 (),.getLease 1 ()]) rfl)
  exact absurd (hr () 0 1 (by decide) (by decide)) (by decide)

end Runs

end Walleye.Ownership
