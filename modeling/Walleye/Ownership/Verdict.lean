import Walleye.Base.Updates
import Walleye.Ownership.Lease

namespace Walleye.Ownership

open Walleye.Base

variable (c : LeaseConfig)

def Leases.Landed (s : Leases) (i : Nat) (n : Node) (t l : Nat) : Prop :=
  ∃ r, s.renewals i = some r ∧ r.node = n ∧ r.issued = t ∧ r.landed = some l

/-- The session will never be authoritative again: stood down, retired, or its lease ran out a
verdict before `d` and no renewal that landed by then carries it further. -/
def Leases.Over (s : Leases) (n : Node) : Prop :=
  n.incarnation < (s.sessions n.process).incarnation ∨ (s.sessions n.process).retired = true ∨
    s.node n.process = n ∧ ∃ a d, (s.sessions n.process).anchor = some a ∧ d ≤ s.now ∧
      a + c.verdict ≤ d ∧
      ∀ i t l, s.Landed i n t l → l < d → l ≤ t + c.skew → t + c.verdict ≤ d

def Leases.Entered (s : Leases) (n : Node) : Prop :=
  n.incarnation < (s.sessions n.process).incarnation ∨ (s.sessions n.process).retired = true ∨
    s.node n.process = n ∧ ∃ a, (s.sessions n.process).anchor = some a

/-- What holds of the leases of a bucket as long as the condition is kept. -/
structure Leases.Sound (s : Leases) : Prop where
  bounds : ∀ i r, s.renewals i = some r →
    r.node.incarnation ≤ (s.sessions r.node.process).incarnation ∧ r.issued ≤ s.now
  landed : ∀ i n t l, s.Landed i n t l → t ≤ l ∧ l ≤ s.now
  latest : ∀ n i, s.leases n = some i →
    ∃ t l, s.Landed i n t l ∧ ∀ j t' l', s.Landed j n t' l' → l' ≤ l
  anchored : ∀ p a, (s.sessions p).anchor = some a →
    ∃ i l, s.Landed i (s.node p) a l ∧ l ≤ a + c.skew
  deletes : ∀ n ∈ s.deletes, s.Over c n
  abandoned : ∀ p, ∀ n ∈ (s.sessions p).abandoned,
    n.process = p ∧ n.incarnation < (s.sessions p).incarnation
  dead : ∀ p, ∀ n ∈ (s.sessions p).dead, s.Over c n
  gone : ∀ i n t l, s.Landed i n t l → s.leases n = none → s.Over c n

theorem Leases.Sound.start : Leases.empty.Sound c where
  bounds _ _ h := by cases h
  landed := by rintro _ _ _ _ ⟨_,h,_⟩; cases h
  latest _ _ h := by cases h
  anchored _ _ h := by cases h
  deletes _ h := by cases h
  abandoned _ _ h := by cases h
  dead _ _ h := by cases h
  gone := by rintro _ _ _ _ ⟨_,h,_⟩; cases h

variable {c}

variable {s s' : Leases} {n : Node} {p i issued : Nat} {r : Renewal}

theorem Leases.authoritative_iff : s.authoritative c p = true ↔
    (s.sessions p).retired = false ∧ ∃ a, (s.sessions p).anchor = some a ∧ s.now - a < c.ttl := by
  simp [Leases.authoritative,Option.any_eq_true]

theorem Leases.Over.not_authoritative (h : s.Over c (s.node p)) : s.authoritative c p = false := by
  refine Bool.eq_false_iff.mpr fun hau => ?_
  obtain ⟨hr,a,ha,hl⟩ := Leases.authoritative_iff.mp hau
  rcases h with h | h | ⟨_,b,d,hb,hd,hbd,_⟩
  · exact absurd h (Nat.lt_irrefl _)
  · simp [Leases.node,hr] at h
  · have hab : a = b := Option.some.inj (ha.symm.trans hb)
    unfold LeaseConfig.verdict at hbd
    omega

/-- A lease that showed one version for a verdict belongs to a session that is over, if that session
counted a renewal landed no later. -/
theorem Leases.Sound.over_of_unchanged (h : s.Sound c)
    (hn : s.node n.process = n) (ha : (s.sessions n.process).anchor = some a)
    (hc : ∃ t, s.Landed i n a t ∧ t ≤ l) (hla : ∀ j t' l', s.Landed j n t' l' → l' < d → l' ≤ l)
    (hd : d ≤ s.now) (hl : l + c.verdict ≤ d) : s.Over c n := by
  obtain ⟨t,hlan,ht⟩ := hc
  have hat := (h.landed _ _ _ _ hlan).1
  refine .inr (.inr ⟨hn,a,d,ha,hd,by omega,?_⟩)
  intro j t' l' hj hlt _
  have h1 := hla j t' l' hj hlt
  have h2 := (h.landed _ _ _ _ hj).1
  omega

/-- How the leases move on: time does not go back, landings keep their time and new
ones are not in the past, and a session that is over stays so. -/
structure Leases.Evolves (c : LeaseConfig) (s s' : Leases) : Prop where
  now : s.now ≤ s'.now
  back : ∀ i n t l, s'.Landed i n t l → s.Landed i n t l ∨ s.now ≤ l
  forth : ∀ i n t l, s.Landed i n t l → s'.Landed i n t l
  incarnation : ∀ p, (s.sessions p).incarnation ≤ (s'.sessions p).incarnation
  ended : ∀ n, s.Over c n → s'.Over c n
  entered : ∀ n, s.Entered n → s'.Entered n

theorem Leases.Evolves.refl (s : Leases) : s.Evolves c s :=
  ⟨Nat.le_refl _,fun _ _ _ _ => .inl,fun _ _ _ _ h => h,fun _ => Nat.le_refl _,fun _ h => h,
    fun _ h => h⟩

/-- What a step may make of the session of a process: the same, one that counts a renewal which
landed and went out in time, the next one, or a retired one. -/
structure Leases.Goes (c : LeaseConfig) (s : Leases) (p : Nat) (b : Session) : Prop where
  incarnation : (s.sessions p).incarnation ≤ b.incarnation
  retired : (s.sessions p).retired = true → b.retired = true
  anchor : ((s.sessions p).incarnation < b.incarnation ∨ b.retired = true) ∧ b.anchor = none ∨
    b.incarnation = (s.sessions p).incarnation ∧ (b.anchor = (s.sessions p).anchor ∨
      ∃ i t l, b.anchor = some t ∧ s.Landed i (s.node p) t l ∧ l ≤ t + c.skew ∧
        ∀ a, (s.sessions p).anchor = some a → t - a < c.ttl)
  abandoned : ∀ n ∈ b.abandoned, n.process = p ∧ n.incarnation < b.incarnation
  dead : ∀ n ∈ b.dead, s.Over c n ∨
    n.process = p ∧ (n.incarnation < b.incarnation ∨ b.retired = true)

structure Leases.Steps (c : LeaseConfig) (s s' : Leases) : Prop where
  now : s.now ≤ s'.now
  back : ∀ i n t l, s'.Landed i n t l → s.Landed i n t l ∨ s.now ≤ l ∧ t ≤ l ∧ l ≤ s'.now
  forth : ∀ i n t l, s.Landed i n t l → s'.Landed i n t l
  bounds : ∀ i r, s'.renewals i = some r →
    r.node.incarnation ≤ (s.sessions r.node.process).incarnation ∧ r.issued ≤ s.now
  leases : ∀ n, s'.leases n = s.leases n ∧ (∀ i t l, s'.Landed i n t l → s.Landed i n t l) ∨
    (∃ i t, s'.leases n = some i ∧ s'.Landed i n t s'.now) ∨ s'.leases n = none ∧ s.Over c n
  sessions : ∀ p, s.Goes c p (s'.sessions p)
  deletes : ∀ n ∈ s'.deletes, s.Over c n ∨ s'.Over c n

theorem Leases.node_of_incarnation
    (h : (s'.sessions p).incarnation = (s.sessions p).incarnation) : s'.node p = s.node p := by
  simp [Leases.node,h]

/-- A session that is over stays so when a renewal is counted: what landed before the verdict
carries it no further, what landed later went out too late. -/
theorem Leases.Goes.ended (g : s.Goes c n.process (s'.sessions n.process)) (hno : s.now ≤ s'.now)
    (hb : ∀ i n t l, s'.Landed i n t l → s.Landed i n t l ∨ s.now ≤ l) (ho : s.Over c n) :
    s'.Over c n := by
  rcases ho with hlt | hr | ⟨hn,a,d,ha,hd,had,hal⟩
  · exact .inl (Nat.lt_of_lt_of_le hlt g.incarnation)
  · exact .inr (.inl (g.retired hr))
  · have hi : (s.sessions n.process).incarnation = n.incarnation := congrArg Node.incarnation hn
    rcases g.anchor with ⟨hl | hr,-⟩ | ⟨he,hanc⟩
    · exact .inl (hi ▸ hl)
    · exact .inr (.inl hr)
    · have hx : ∃ t, (s'.sessions n.process).anchor = some t ∧ t + c.verdict ≤ d := by
        rcases hanc with hs | ⟨i,t,l,ht,hl,hsk,htl⟩
        · exact ⟨a,hs.trans ha,had⟩
        · refine ⟨t,ht,?_⟩
          by_cases hld : l < d
          · exact hal i t l (hn ▸ hl) hld hsk
          · have := htl a ha
            unfold LeaseConfig.verdict at had
            omega
      obtain ⟨t,ht,htd⟩ := hx
      refine .inr (.inr ⟨(Leases.node_of_incarnation he).trans hn,t,d,ht,Nat.le_trans hd hno,htd,?_⟩)
      intro i t l hl hlt hsk
      rcases hb i n t l hl with hol | hne
      · exact hal i t l hol hlt hsk
      · omega

theorem Leases.Goes.entered (g : s.Goes c n.process (s'.sessions n.process)) (he : s.Entered n) :
    s'.Entered n := by
  rcases he with hlt | hr | ⟨hn,a,ha⟩
  · exact .inl (Nat.lt_of_lt_of_le hlt g.incarnation)
  · exact .inr (.inl (g.retired hr))
  · rcases g.anchor with ⟨hl | hr,-⟩ | ⟨he,hanc⟩
    · exact .inl ((congrArg Node.incarnation hn : _ = n.incarnation) ▸ hl)
    · exact .inr (.inl hr)
    · refine .inr (.inr ⟨(Leases.node_of_incarnation he).trans hn,?_⟩)
      rcases hanc with hs | ⟨_,t,_,ht,_⟩
      · exact ⟨a,hs.trans ha⟩
      · exact ⟨t,ht⟩

theorem Leases.Steps.evolves (m : s.Steps c s') : s.Evolves c s' := by
  have hb : ∀ i n t l, s'.Landed i n t l → s.Landed i n t l ∨ s.now ≤ l :=
    fun i n t l h => (m.back i n t l h).imp_right And.left
  exact ⟨m.now,hb,m.forth,fun p => (m.sessions p).incarnation,
    fun n => (m.sessions n.process).ended m.now hb,fun n => (m.sessions n.process).entered⟩

/-- Every step keeps the leases sound. -/
theorem Leases.Sound.steps (h : s.Sound c) (m : s.Steps c s') : s'.Sound c := by
  have e := m.evolves
  have hla : ∀ i n t l, s'.Landed i n t l → t ≤ l ∧ l ≤ s'.now := by
    intro i n t l hl
    rcases m.back i n t l hl with hl | ⟨-,hl⟩
    · obtain ⟨h1,h2⟩ := h.landed i n t l hl
      exact ⟨h1,Nat.le_trans h2 m.now⟩
    · exact hl
  refine ⟨fun i r hr => ?_,hla,fun n i hi => ?_,fun p a ha => ?_,fun n hn => ?_,
    fun p => (m.sessions p).abandoned,fun p n hn => ?_,fun i n t l hl hn => ?_⟩
  · obtain ⟨h1,h2⟩ := m.bounds i r hr
    exact ⟨Nat.le_trans h1 (e.incarnation _),Nat.le_trans h2 m.now⟩
  · rcases m.leases n with ⟨hk,hb⟩ | ⟨j,t,hj,hl⟩ | ⟨hn,-⟩
    · obtain ⟨t,l,hl,hal⟩ := h.latest n i (hk ▸ hi)
      exact ⟨t,l,m.forth i n t l hl,fun j t' l' hj => hal j t' l' (hb j t' l' hj)⟩
    · cases hj.symm.trans hi
      exact ⟨t,s'.now,hl,fun k t' l' hk => (hla k n t' l' hk).2⟩
    · rw [hn] at hi
      cases hi
  · rcases (m.sessions p).anchor with ⟨-,hn⟩ | ⟨he,hs | ⟨i,t,l,ht,hl,hsk,-⟩⟩
    · rw [hn] at ha
      cases ha
    · obtain ⟨i,l,hl,hle⟩ := h.anchored p a (hs ▸ ha)
      exact ⟨i,l,m.forth _ _ _ _ (Leases.node_of_incarnation he ▸ hl),hle⟩
    · cases ht.symm.trans ha
      exact ⟨i,l,m.forth _ _ _ _ (Leases.node_of_incarnation he ▸ hl),hsk⟩
  · exact (m.deletes n hn).elim (e.ended n) id
  · rcases (m.sessions p).dead n hn with ho | ⟨rfl,hl | hr⟩
    · exact e.ended n ho
    · exact .inl hl
    · exact .inr (.inl hr)
  · rcases m.leases n with ⟨hk,hb⟩ | ⟨j,-,hj,-⟩ | ⟨-,ho⟩
    · exact e.ended n (h.gone i n t l (hb i t l hl) (hk ▸ hn))
    · rw [hj] at hn
      cases hn
    · exact e.ended n ho

/-! What each operation does. -/

theorem Leases.Steps.of_landed (hn : s.now ≤ s'.now)
    (hla : ∀ i n t l, s'.Landed i n t l ↔ s.Landed i n t l)
    (hb : ∀ i r, s'.renewals i = some r →
      r.node.incarnation ≤ (s.sessions r.node.process).incarnation ∧ r.issued ≤ s.now)
    (hl : s'.leases = s.leases) (hs : ∀ p, s.Goes c p (s'.sessions p))
    (hd : ∀ n ∈ s'.deletes, s.Over c n ∨ s'.Over c n) : s.Steps c s' where
  now := hn
  back i n t l h := .inl ((hla i n t l).mp h)
  forth i n t l h := (hla i n t l).mpr h
  bounds := hb
  leases n := .inl ⟨congrFun hl n,fun i t l h => (hla i n t l).mp h⟩
  sessions := hs
  deletes := hd

namespace Leases.Sound

theorem goes (h : s.Sound c) (p : Nat) : s.Goes c p (s.sessions p) :=
  ⟨Nat.le_refl _,id,.inr ⟨rfl,.inl rfl⟩,h.abandoned p,fun n hn => .inl (h.dead p n hn)⟩

theorem setSession (h : s.Sound c) (g : s.Goes c p b) (q : Nat) :
    s.Goes c q ((s.setSession p b).sessions q) :=
  (Function.forall_update_iff _ fun q b => s.Goes c q b).mpr ⟨g,fun q _ => h.goes q⟩ q

theorem bounds_update (h : s.Sound c)
    (hr : r.node.incarnation ≤ (s.sessions r.node.process).incarnation ∧ r.issued ≤ s.now)
    (j : Nat) (r' : Renewal) (hj : Function.update s.renewals i (some r) j = some r') :
    r'.node.incarnation ≤ (s.sessions r'.node.process).incarnation ∧ r'.issued ≤ s.now := by
  obtain ⟨-,rfl⟩ | ⟨-,hj⟩ := update_eq_some.mp hj
  · exact hr
  · exact h.bounds j r' hj

theorem tick (h : s.Sound c) (d : Nat) : s.Steps c (s.tick d) :=
  .of_landed (Nat.le_add_right _ _) (fun _ _ _ _ => .rfl) h.bounds rfl h.goes
    fun n hn => .inl (h.deletes n hn)

theorem dropDelete (h : s.Sound c) (n : Node) : s.Steps c (s.dropDelete n) :=
  .of_landed (Nat.le_refl _) (fun _ _ _ _ => .rfl) h.bounds rfl h.goes
    fun m hm => .inl (h.deletes m (List.mem_of_mem_erase hm))

theorem delete (h : s.Sound c) (hn : s.Over c n) : s.Steps c (s.delete n) := by
  refine .of_landed (Nat.le_refl _) (fun _ _ _ _ => .rfl) h.bounds rfl h.goes fun m hm => .inl ?_
  rcases List.mem_cons.mp hm with rfl | hm
  · exact hn
  · exact h.deletes m hm

theorem drain (h : s.Sound c) (p : Nat) : s.Steps c (s.drain p) := by
  have g := h.goes p
  exact .of_landed (Nat.le_refl _) (fun _ _ _ _ => .rfl) h.bounds rfl
    (h.setSession ⟨g.1,g.2,g.3,g.4,g.5⟩) fun n hn => .inl (h.deletes n hn)

theorem standDown (h : s.Sound c) (p : Nat) : s.Steps c (s.standDown p) := by
  refine .of_landed (Nat.le_refl _) (fun _ _ _ _ => .rfl) h.bounds rfl
    (h.setSession ⟨Nat.le_succ _,id,.inl ⟨.inl (Nat.lt_succ_self _),rfl⟩,?_,?_⟩)
    fun n hn => .inl (h.deletes n hn)
  · intro n hn
    rcases List.mem_cons.mp hn with rfl | hn
    · exact ⟨rfl,Nat.lt_succ_self _⟩
    · obtain ⟨hp,hl⟩ := h.abandoned p n hn
      exact ⟨hp,Nat.lt_succ_of_lt hl⟩
  · intro n hn
    rcases List.mem_cons.mp hn with rfl | hn
    · exact .inr ⟨rfl,.inl (Nat.lt_succ_self _)⟩
    · exact .inl (h.dead p n hn)

theorem retire (h : s.Sound c) (p : Nat) : s.Steps c (s.retire p) := by
  refine .of_landed (Nat.le_refl _) (fun _ _ _ _ => .rfl) h.bounds rfl
    (h.setSession ⟨Nat.le_refl _,fun _ => rfl,.inl ⟨.inr rfl,rfl⟩,h.abandoned p,?_⟩) ?_
  · intro n hn
    rcases List.mem_cons.mp hn with rfl | hn
    · exact .inr ⟨rfl,.inr rfl⟩
    · exact .inl (h.dead p n hn)
  · intro n hn
    rcases List.mem_cons.mp hn with rfl | hn
    · exact .inr (.inr (.inl (by simp [Leases.node,Leases.retire,Leases.setSession])))
    · exact .inl (h.deletes n hn)

theorem authoritativeLocked (h : s.Sound c) (p : Nat) : s.Steps c (s.authoritativeLocked c p) := by
  unfold Leases.authoritativeLocked
  split
  · exact h.standDown p
  · exact .of_landed (Nat.le_refl _) (fun _ _ _ _ => .rfl) h.bounds rfl h.goes
      fun n hn => .inl (h.deletes n hn)

theorem landDelete (h : s.Sound c) (hs : s.landDelete n = some s') :
    s.Steps c s' ∧ ∀ p, s'.node p = s.node p := by
  unfold Leases.landDelete at hs
  split at hs
  · rename_i hme
    cases hs
    refine ⟨⟨Nat.le_refl _,fun _ _ _ _ => .inl,fun _ _ _ _ h => h,h.bounds,fun m => ?_,h.goes,
      fun m hm => .inl (h.deletes m (List.mem_of_mem_erase hm))⟩,fun _ => rfl⟩
    by_cases hm : m = n
    · subst hm
      exact .inr (.inr ⟨Function.update_self ..,h.deletes m hme⟩)
    · exact .inl ⟨Function.update_of_ne hm ..,fun _ _ _ h => h⟩
  · cases hs

end Leases.Sound

theorem Leases.landed_update (hr : s'.renewals = Function.update s.renewals i (some r))
    (hi : ∀ n t l, s.Landed i n t l ↔ r.node = n ∧ r.issued = t ∧ r.landed = some l)
    (j : Nat) (n : Node) (t l : Nat) : s'.Landed j n t l ↔ s.Landed j n t l := by
  by_cases hj : j = i
  · subst hj
    rw [hi]
    simp [Leases.Landed,hr]
  · simp [Leases.Landed,hr,Function.update_of_ne hj]

theorem Leases.landed_of_found (hr : s.renewals i = some r) (n : Node) (t l : Nat) :
    s.Landed i n t l ↔ r.node = n ∧ r.issued = t ∧ r.landed = some l := by
  simp [Leases.Landed,hr]

theorem Leases.Sound.failRenewal (h : s.Sound c) (hs : s.failRenewal i = some s') :
    s.Steps c s' ∧ ∀ p, s'.node p = s.node p := by
  unfold Leases.failRenewal at hs
  split at hs
  · rename_i r hr
    cases hs
    exact ⟨.of_landed (Nat.le_refl _)
      (Leases.landed_update rfl (Leases.landed_of_found (r := r) hr))
      (h.bounds_update (h.bounds i r hr)) rfl h.goes fun n hn => .inl (h.deletes n hn),fun _ => rfl⟩
  · cases hs

theorem Leases.Sound.publish (h : s.Sound c)
    (hi : s.renewals i = none) (his : issued ≤ s.now) : s.Steps c (s.publish p i issued) := by
  have g := h.goes p
  refine .of_landed (Nat.le_refl _) (Leases.landed_update rfl fun n t l => ?_)
    (h.bounds_update ⟨Nat.le_refl _,his⟩) rfl
    (h.setSession ⟨g.1,g.2,g.3,by simp,g.5⟩) fun n hn => .inl ?_
  · simp [Leases.Landed,hi]
  · rcases List.mem_append.mp hn with hn | hn
    · obtain ⟨hp,hl⟩ := h.abandoned p n hn
      exact .inl (hp ▸ hl)
    · exact h.deletes n hn

theorem Leases.node_setSession (b : Session)
    (hb : b.incarnation = (s.sessions p).incarnation) (q : Nat) :
    (s.setSession p b).node q = s.node q :=
  Leases.node_of_incarnation ((Function.forall_update_iff _ fun q (b : Session) =>
    b.incarnation = (s.sessions q).incarnation).mpr ⟨hb,fun _ _ => rfl⟩ q)

theorem Leases.renew_spec (hs : s.renew c p i issued = some s') :
    (s.authoritativeLocked c p).renewals i = none ∧ issued ≤ (s.authoritativeLocked c p).now ∧
      s' = (s.authoritativeLocked c p).publish p i issued := by
  unfold Leases.renew at hs
  split at hs
  · rename_i hg
    cases hs
    unfold Leases.authoritativeLocked
    split <;> exact ⟨hg.1,hg.2.1,rfl⟩
  · cases hs

theorem Leases.landRenewal_spec (hs : s.landRenewal i = some s') :
    ∃ r, s.renewals i = some r ∧ r.landed = none ∧
      s' = { s with
        leases := Function.update s.leases r.node (some i)
        renewals := Function.update s.renewals i (some { r with landed := some s.now }) } := by
  unfold Leases.landRenewal at hs
  split at hs
  · rename_i r hr
    split at hs
    · rename_i hn
      cases hs
      exact ⟨r,hr,hn,rfl⟩
    · cases hs
  · cases hs

theorem Leases.landed_of_landing (hr : s.renewals i = some r) (hn : r.landed = none)
    (hre : s'.renewals = Function.update s.renewals i (some { r with landed := some s.now }))
    (j : Nat) (n : Node) (t l : Nat) : s'.Landed j n t l ↔
      s.Landed j n t l ∨ j = i ∧ r.node = n ∧ r.issued = t ∧ s.now = l := by
  by_cases hj : j = i
  · subst hj
    simp [Leases.Landed,hre,hr,hn]
  · simp [Leases.Landed,hre,hj]

/-- A renewal that lands starts no new session. -/
theorem Leases.Sound.landRenewal (h : s.Sound c) (hs : s.landRenewal i = some s') :
    s.Steps c s' ∧ ∀ p, s'.node p = s.node p := by
  obtain ⟨r,hr,hno,rfl⟩ := Leases.landRenewal_spec hs
  have hb := h.bounds i r hr
  refine ⟨⟨Nat.le_refl _,fun j n t l hl => ?_,fun j n t l hl => ?_,
    h.bounds_update (r := { r with landed := some s.now }) hb,fun n => ?_,h.goes,
    fun n hn => .inl (h.deletes n hn)⟩,fun _ => rfl⟩
  · rcases (Leases.landed_of_landing hr hno rfl j n t l).mp hl with ho | ⟨-,-,rfl,rfl⟩
    · exact .inl ho
    · exact .inr ⟨Nat.le_refl _,hb.2,Nat.le_refl _⟩
  · exact (Leases.landed_of_landing hr hno rfl j n t l).mpr (.inl hl)
  · by_cases hn : n = r.node
    · subst hn
      exact .inr (.inl ⟨i,r.issued,Function.update_self ..,
        (Leases.landed_of_landing hr hno rfl _ _ _ _).mpr (.inr ⟨rfl,rfl,rfl,rfl⟩)⟩)
    · refine .inl ⟨Function.update_of_ne hn ..,fun j t l hl => ?_⟩
      rcases (Leases.landed_of_landing hr hno rfl j n t l).mp hl with ho | ⟨-,hrn,-⟩
      · exact ho
      · exact absurd hrn.symm hn

theorem Leases.answerRenewal_spec (hs : s.answerRenewal c i = some s') :
    ∃ r l, s.renewals i = some r ∧ r.landed = some l ∧
      s' = { s.setSession r.node.process
          { s.sessions r.node.process with anchor := s.counted c r } with
        renewals := Function.update s.renewals i (some { r with waiting := false }) } := by
  unfold Leases.answerRenewal at hs
  split at hs
  · rename_i r hr
    split at hs
    · rename_i hg
      obtain ⟨l,hl⟩ := Option.isSome_iff_exists.mp hg.2
      cases hs
      exact ⟨r,l,hr,hl,rfl⟩
    · cases hs
  · cases hs

/-- A renewal leaves the anchor alone, or becomes it: then it is of the current session,
and went out within a lease of the anchor it replaces. -/
theorem Leases.counted_cases (s : Leases) (r : Renewal) :
    s.counted c r = (s.sessions r.node.process).anchor ∨
    s.counted c r = some r.issued ∧ s.node r.node.process = r.node ∧
      ∀ a, (s.sessions r.node.process).anchor = some a → r.issued - a < c.ttl := by
  simp only [Leases.counted]
  split
  · rename_i hg
    refine .inr ⟨rfl,hg.1,fun a ha => ?_⟩
    have hal := hg.2.2
    rw [ha] at hal
    simpa using hal
  · exact .inl rfl

theorem Leases.Sound.answerRenewal (h : s.Sound c) (hs : s.answerRenewal c i = some s')
    (hsk : ∀ r l, s.renewals i = some r → r.landed = some l → s.node r.node.process = r.node →
      l ≤ r.issued + c.skew) : s.Steps c s' ∧ ∀ p, s'.node p = s.node p := by
  obtain ⟨r,l,hr,hl,rfl⟩ := Leases.answerRenewal_spec hs
  have g := h.goes r.node.process
  refine ⟨.of_landed (Nat.le_refl _) (Leases.landed_update rfl (Leases.landed_of_found (r := r) hr))
    (h.bounds_update (h.bounds i r hr)) rfl
    (h.setSession ⟨g.1,g.2,.inr ⟨rfl,?_⟩,g.4,g.5⟩) fun n hn => .inl (h.deletes n hn),fun q =>
      Leases.node_setSession { s.sessions r.node.process with anchor := s.counted c r } rfl q⟩
  rcases s.counted_cases (c := c) r with hsa | ⟨hc,hcu,ht⟩
  · exact .inl hsa
  · exact .inr ⟨i,r.issued,l,hc,⟨r,hr,hcu.symm,rfl,hl⟩,hsk r l hr hl hcu,ht⟩

end Walleye.Ownership
