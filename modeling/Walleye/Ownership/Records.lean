import Walleye.Base.Updates
import Walleye.Ownership.Table
import Walleye.Ownership.Verdict

namespace Walleye.Ownership

open Walleye.Base

variable {α : Type} {c : LeaseConfig}

def Records.owner (r : Records α) : Option Node := (r.versions r.newest).bind (·.node)

def Claim.owner (k : Claim α) : Option Node := k.prior.bind (·.node)

def Records.Unreleased (r : Records α) (p k : Nat) : Prop :=
  ∀ i put, r.puts i = some put → put.created = none → put.me.process = p →
    put.record.node = none → put.seq ≤ k

def Leases.Settled (c : LeaseConfig) (s : Leases) (owner : Option Node) (me : Node) : Prop :=
  ∀ n, owner = some n → n = me ∨ s.Over c n

/-- What a write in flight may rely on: if its version is the next one, then the newest
names a session it may write over, and for a release its own. -/
structure Records.InFlight (c : LeaseConfig) (s : Leases) (r : Records α) (put : VersionPut α) :
    Prop where
  pos : 0 < put.seq
  seq : put.seq ≤ r.newest + 1
  claim : put.seq = r.newest + 1 → ∀ n, put.record.node = some n → s.Settled c r.owner n
  release : put.seq = r.newest + 1 → put.record.node = none → r.owner = some put.me

structure Records.Reads (s : Leases) (r : Records α) (p : Nat) (k : Claim α) : Prop where
  seq : k.seq ≤ r.newest
  owner : k.seq = r.newest → r.owner = k.owner
  process : k.me.process = p
  incarnation : k.me.incarnation ≤ (s.sessions p).incarnation
  unreleased : r.Unreleased p (k.seq + 1)

structure Records.Wrote (r : Records α) (p i : Nat) (put : VersionPut α) : Prop where
  found : r.puts i = some put
  process : put.me.process = p
  unreleased : r.Unreleased p put.seq
  node : put.kind ≠ .release → put.record.node = some put.me
  created : put.created = some true → put.seq ≤ r.newest ∧
    (put.seq = r.newest → r.owner = put.record.node)

/-- What the call that holds a table's writing lock relies on, stage by stage. -/
def Records.Stands (c : LeaseConfig) (s : Leases) (r : Records α) (p : Nat) : Op α → Prop
  | .listing => True
  | .reading seq => seq ≤ r.newest ∧ r.Unreleased p (seq + 1)
  | .judging k owner => r.Reads s p k ∧ k.owner = some owner ∧ s.Entered owner
  | .probing k owner before =>
    r.Reads s p k ∧ k.owner = some owner ∧ s.Entered owner ∧ before ≤ s.now
  | .got k owner before version | .weighing k owner before version =>
    r.Reads s p k ∧ k.owner = some owner ∧ ∃ t l, s.Landed version owner t l ∧
      (l + c.verdict ≤ before → s.Over c owner)
  | .judged k => r.Reads s p k ∧ s.Settled c k.owner k.me
  | .writing i => ∃ put, r.Wrote p i put
  | .created i => ∃ put, r.Wrote p i put ∧ put.created = some true
  | .confirmed i => ∃ put, r.Wrote p i put ∧ put.created = some true ∧
      (s.Over c put.me ∨ put.kind = .release ∨ r.owner = some put.me)

structure Records.Holds (c : LeaseConfig) (s : Leases) (r : Records α) (p : Nat) (h : Held α) :
    Prop where
  seq : h.seq ≤ r.newest
  own : h.seq = r.newest → r.owner = some (s.node p)
  owner : s.Over c (s.node p) ∨ r.owner = some (s.node p)
  unreleased : r.Unreleased p h.seq

/-- The versions in the bucket: none above the newest, which is kept, and each names a session
that has entered. -/
structure Records.Versioned (s : Leases) (r : Records α) : Prop where
  zero : r.versions 0 = none
  above : ∀ k, r.newest < k → r.versions k = none
  top : r.newest ≠ 0 → r.versions r.newest ≠ none
  entered : ∀ k record n, r.versions k = some record → record.node = some n → s.Entered n

structure Records.Sound (c : LeaseConfig) (s : Leases) (r : Records α) : Prop
    extends Records.Versioned s r where
  written : ∀ i put n, r.puts i = some put → put.record.node = some n → s.Entered n
  inFlight : ∀ i put, r.puts i = some put → put.created = none → r.InFlight c s put
  held : ∀ p h, (r.holders p).held = some h → r.Holds c s p h
  stands : ∀ p op, (r.holders p).op = some op → r.Stands c s p op

theorem Records.Sound.start (s : Leases) : (Records.empty : Records α).Sound c s where
  zero := rfl
  above _ _ := rfl
  top h := absurd rfl h
  entered _ _ _ h := by cases h
  written _ _ _ h := by cases h
  inFlight _ _ h := by cases h
  held _ _ h := by cases h
  stands _ _ h := by cases h

section Moves

variable {s s' : Leases} {r r' : Records α} {p : Nat} {put : VersionPut α}

/-- How the leases and a table's record move on for process `p`: the newest version stays, or is
written over in a way its owner is done with, and a write in flight may be answered. -/
structure Records.Moves (c : LeaseConfig) (s s' : Leases) (r r' : Records α) (p : Nat) : Prop where
  leases : s.Evolves c s'
  newest : r.newest ≤ r'.newest
  same : r'.newest = r.newest → r'.owner = r.owner
  owner : ∀ n k, r.owner = some n → r.Unreleased n.process k → k ≤ r.newest →
    s.Over c n ∨ r'.owner = some n
  unreleased : ∀ k, r.Unreleased p k → r'.Unreleased p k
  puts : ∀ j put, r.puts j = some put → put.created ≠ none → r'.puts j = some put
  landed : ∀ j put, r.puts j = some put → put.created = none →
    ∃ b, r'.puts j = some { put with created := b } ∧ (b = some true → put.seq ≤ r'.newest ∧
      (put.seq = r'.newest → r'.owner = put.record.node))

theorem Records.Moves.of_same (e : s.Evolves c s') (hn : r'.newest = r.newest)
    (ho : r'.owner = r.owner) (hp : ∀ i put, r.puts i = some put → r'.puts i = some put)
    (hu : ∀ k, r.Unreleased p k → r'.Unreleased p k) : r.Moves c s s' r' p where
  leases := e
  newest := Nat.le_of_eq hn.symm
  same _ := ho
  owner _ _ hr _ _ := .inr (ho.trans hr)
  unreleased := hu
  puts j put hj _ := hp j put hj
  landed j put hj hc := ⟨none,by rw [hp j put hj,← hc],nofun⟩

theorem Records.Moves.owner_eq (m : r.Moves c s s' r' p) (hl : k ≤ r.newest)
    (ho : k = r.newest → r.owner = o) (hk : k = r'.newest) : r'.owner = o := by
  have hs : r'.newest = r.newest := Nat.le_antisymm (hk ▸ hl) m.newest
  exact (m.same hs).trans (ho (hk.trans hs))

theorem Leases.Settled.evolves (h : s.Settled c o me) (e : s.Evolves c s') : s'.Settled c o me :=
  fun n hn => (h n hn).imp_right (e.ended n)

theorem Records.InFlight.moves (h : r.InFlight c s put) (m : r.Moves c s s' r' p) :
    r'.InFlight c s' put := by
  have hs : put.seq = r'.newest + 1 → r'.newest = r.newest := by
    intro hse
    have := h.seq
    have := m.newest
    omega
  refine ⟨h.pos,Nat.le_trans h.seq (Nat.succ_le_succ m.newest),?_,?_⟩
  · intro hse n hn
    rw [m.same (hs hse)]
    exact (h.claim (hs hse ▸ hse) n hn).evolves m.leases
  · intro hse
    rw [m.same (hs hse)]
    exact h.release (hs hse ▸ hse)

theorem Records.Reads.moves (h : r.Reads s p k) (m : r.Moves c s s' r' p) : r'.Reads s' p k :=
  ⟨Nat.le_trans h.seq m.newest,m.owner_eq h.seq h.owner,h.process,
    Nat.le_trans h.incarnation (m.leases.incarnation p),m.unreleased _ h.unreleased⟩

theorem Records.Wrote.moves (h : r.Wrote p i put)
    (m : r.Moves c s s' r' p) : ∃ b, r'.Wrote p i { put with created := b } ∧
      (put.created ≠ none → b = put.created) := by
  have hu := m.unreleased _ h.unreleased
  by_cases hc : put.created = none
  · obtain ⟨b,hb,hl⟩ := m.landed i put h.found hc
    exact ⟨b,⟨hb,h.process,hu,h.node,hl⟩,fun hn => absurd hc hn⟩
  · refine ⟨put.created,⟨m.puts i put h.found hc,h.process,hu,h.node,fun ht => ?_⟩,fun _ => rfl⟩
    obtain ⟨hl,he⟩ := h.created ht
    exact ⟨Nat.le_trans hl m.newest,m.owner_eq hl he⟩

/-- What a call stands on survives the moves of the others. -/
theorem Records.Stands.moves (h : r.Stands c s p op) (m : r.Moves c s s' r' p) :
    r'.Stands c s' p op := by
  have e := m.leases
  cases op with
  | listing => trivial
  | reading seq => exact ⟨Nat.le_trans h.1 m.newest,m.unreleased _ h.2⟩
  | judging k o => exact ⟨h.1.moves m,h.2.1,e.entered o h.2.2⟩
  | probing k o b => exact ⟨h.1.moves m,h.2.1,e.entered o h.2.2.1,Nat.le_trans h.2.2.2 e.now⟩
  | got k o b v =>
    obtain ⟨hr,ho,t,l,hl,hov⟩ := h
    exact ⟨hr.moves m,ho,t,l,e.forth _ _ _ _ hl,fun hle => e.ended o (hov hle)⟩
  | weighing k o b v =>
    obtain ⟨hr,ho,t,l,hl,hov⟩ := h
    exact ⟨hr.moves m,ho,t,l,e.forth _ _ _ _ hl,fun hle => e.ended o (hov hle)⟩
  | judged k => exact ⟨h.1.moves m,h.2.evolves e⟩
  | writing i =>
    obtain ⟨put,hw⟩ := h
    obtain ⟨b,hb,_⟩ := hw.moves m
    exact ⟨_,hb⟩
  | created i =>
    obtain ⟨put,hw,hc⟩ := h
    obtain ⟨b,hb,hs⟩ := hw.moves m
    exact ⟨_,hb,(hs (by simp [hc])).trans hc⟩
  | confirmed i =>
    obtain ⟨put,hw,hc,ho⟩ := h
    obtain ⟨b,hb,hs⟩ := hw.moves m
    refine ⟨_,hb,(hs (by simp [hc])).trans hc,?_⟩
    rcases ho with ho | ho | ho
    · exact .inl (e.ended _ ho)
    · exact .inr (.inl ho)
    · exact (m.owner put.me put.seq ho (hw.process ▸ hw.unreleased) (hw.created hc).1).imp
        (e.ended _) .inr

theorem Records.Holds.moves (hh : r.Holds c s p h) (m : r.Moves c s s' r' p)
    (hn : s'.node p = s.node p) : r'.Holds c s' p h := by
  refine ⟨Nat.le_trans hh.seq m.newest,?_,?_,m.unreleased _ hh.unreleased⟩
  · rw [hn]
    exact m.owner_eq hh.seq hh.own
  · rw [hn]
    rcases hh.owner with ho | ho
    · exact .inl (m.leases.ended _ ho)
    · exact (m.owner (s.node p) h.seq ho hh.unreleased hh.seq).imp_left (m.leases.ended _)

/-- The records stay sound if each process keeps what it relies on. -/
theorem Records.Sound.moves (h : r.Sound c s) (m : ∀ q, r.Moves c s s' r' q)
    (hv : r'.Versioned s') (hp : ∀ j x, r'.puts j = some x →
      (∃ b, r.puts j = some { x with created := b } ∧ (x.created = none → b = none)) ∨
        r'.InFlight c s' x ∧ ∀ n, x.record.node = some n → s'.Entered n)
    (hh : ∀ q y, (r'.holders q).held = some y →
      (r.holders q).held = some y ∧ s'.node q = s.node q ∨ r'.Holds c s' q y)
    (ho : ∀ q op, (r'.holders q).op = some op →
      (r.holders q).op = some op ∨ r'.Stands c s' q op) : r'.Sound c s' where
  toVersioned := hv
  written j x n hj hn := by
    obtain ⟨b,hb,_⟩ | ⟨_,he⟩ := hp j x hj
    · exact (m 0).leases.entered n (h.written j _ n hb hn)
    · exact he n hn
  inFlight j x hj hc := by
    obtain ⟨b,hb,hno⟩ | ⟨hf,_⟩ := hp j x hj
    · have hx : ({ x with created := b } : VersionPut α) = x := by rw [hno hc,← hc]
      rw [hx] at hb
      exact (h.inFlight j x hb hc).moves (m 0)
    · exact hf
  held q y hy := by
    obtain ⟨hy,hn⟩ | hy := hh q y hy
    · exact (h.held q y hy).moves (m q) hn
    · exact hy
  stands q op hq := by
    obtain hq | hq := ho q op hq
    · exact (h.stands q op hq).moves (m q)
    · exact hq

theorem Records.Sound.evolves (h : r.Sound c s) (e : s.Evolves c s')
    (hno : ∀ p, (r.holders p).held ≠ none → s'.node p = s.node p) : r.Sound c s' :=
  h.moves (fun _ => .of_same e rfl rfl (fun _ _ h => h) fun _ h => h)
    ⟨h.zero,h.above,h.top,fun k record n hk hn => e.entered n (h.entered k record n hk hn)⟩
    (fun _ x hj => .inl ⟨x.created,hj,id⟩) (fun q _ hy => .inl ⟨hy,hno q (by simp [hy])⟩)
    fun _ _ hq => .inl hq

theorem Records.setHolder_moves (r : Records α) (p : Nat) (x : Holder α) (q : Nat) :
    r.Moves c s s (r.setHolder p x) q :=
  .of_same (.refl s) rfl rfl (fun _ _ h => h) fun _ h => h

/-- A process may hold a table, or stand at a point, that is justified. -/
theorem Records.Sound.setHolder (h : r.Sound c s) (hh : ∀ y, x.held = some y → r.Holds c s p y)
    (ho : ∀ op, x.op = some op → r.Stands c s p op) : (r.setHolder p x).Sound c s := by
  refine h.moves (r.setHolder_moves p x) ⟨h.zero,h.above,h.top,h.entered⟩
    (fun _ x hj => .inl ⟨x.created,hj,id⟩) ?_ ?_
  · intro q y hy
    by_cases hq : q = p
    · subst hq
      simp only [Records.setHolder,Function.update_self] at hy
      exact .inr ((hh y hy).moves (r.setHolder_moves q x q) rfl)
    · simp only [Records.setHolder,Function.update_of_ne hq] at hy
      exact .inl ⟨hy,rfl⟩
  · intro q op hop
    by_cases hq : q = p
    · subst hq
      simp only [Records.setHolder,Function.update_self] at hop
      exact .inr ((ho op hop).moves (r.setHolder_moves q x q))
    · simp only [Records.setHolder,Function.update_of_ne hq] at hop
      exact .inl hop

theorem Records.Sound.setOp (h : r.Sound c s)
    (ho : ∀ x, op = some x → r.Stands c s p x) : (r.setOp p op).Sound c s :=
  h.setHolder (fun y hy => h.held p y hy) ho

theorem Records.Sound.dropHeld (h : r.Sound c s) (p : Nat) : (r.dropHeld p).Sound c s :=
  h.setHolder (by simp) fun op ho => h.stands p op ho

end Moves

section Steps

variable {s : Leases} {r r' : Records α}

theorem Records.Sound.listVersions (h : r.Sound c s) (hs : r.listVersions p = some r') :
    r'.Sound c s := by
  unfold Records.listVersions at hs
  split at hs
  · cases hs
    refine h.setOp fun x hx => ?_
    cases hx
    exact ⟨Nat.le_refl _,fun i put hi hc _ _ => (h.inFlight i put hi hc).seq⟩
  · cases hs

theorem Records.owner_of_version
    (hv : r.versions seq = some record) (hs : seq = r.newest) : r.owner = record.node := by
  subst hs
  simp [Records.owner,hv]

/-- A read takes the newest version. -/
theorem Records.Sound.readVersion (h : r.Sound c s) (hs : r.readVersion p (s.node p) = some r') :
    r'.Sound c s := by
  unfold Records.readVersion at hs
  split at hs
  · rename_i seq ho
    obtain ⟨hl,hu⟩ := h.stands p _ ho
    split at hs
    · rename_i hz
      cases hs
      refine h.setOp fun x hx => ?_
      cases hx
      refine ⟨⟨Nat.zero_le _,fun h0 => ?_,rfl,Nat.le_refl _,hz ▸ hu⟩,fun n hn => by cases hn⟩
      have h0' : r.newest = 0 := h0.symm
      simp [Records.owner,Claim.owner,h0',h.zero]
    · split at hs
      · cases hs
        exact h.setOp fun x hx => by cases hx; trivial
      · rename_i record hv
        have hr : r.Reads s p ⟨seq,some record,s.node p⟩ :=
          ⟨hl,Records.owner_of_version hv,rfl,Nat.le_refl _,hu⟩
        split at hs
        · rename_i hno
          cases hs
          refine h.setOp fun x hx => ?_
          cases hx
          exact ⟨hr,fun n hn => by simp [Claim.owner,hno] at hn⟩
        · rename_i owner how
          split at hs
          · rename_i hm
            cases hs
            refine h.setOp fun x hx => ?_
            cases hx
            refine ⟨hr,fun n hn => .inl ?_⟩
            simp only [Claim.owner,Option.bind_some,how,Option.some.injEq] at hn
            exact hn.symm.trans hm
          · cases hs
            refine h.setOp fun x hx => ?_
            cases hx
            exact ⟨hr,how,h.entered seq record owner hv how⟩
  · cases hs

theorem Records.Sound.judge (h : r.Sound c s) (hl : s.Sound c)
    (hs : r.judge p (s.sessions p).dead s.now = some r') : r'.Sound c s := by
  unfold Records.judge at hs
  split at hs
  · rename_i k owner ho
    obtain ⟨hr,how,he⟩ := h.stands p _ ho
    cases hs
    refine h.setOp fun x hx => ?_
    cases hx
    split
    · rename_i hd
      refine ⟨hr,fun n hn => .inr ?_⟩
      have hno : owner = n := Option.some.inj (how.symm.trans hn)
      exact hl.dead p n (hno ▸ hd)
    · exact ⟨hr,how,he,Nat.le_refl _⟩
  · cases hs

theorem Records.Sound.lose (h : r.Sound c s) (p : Nat) (kind : WriteKind) :
    (r.lose p kind).Sound c s := by
  have ho : (r.setOp p none).Sound c s := h.setOp fun x hx => by cases hx
  unfold Records.lose
  split
  · exact ho.dropHeld p
  · exact ho

theorem Records.Sound.answerVersion (h : r.Sound c s) (hs : r.answerVersion p = some r') :
    r'.Sound c s := by
  unfold Records.answerVersion at hs
  split at hs
  · rename_i i ho
    obtain ⟨put,hw⟩ := h.stands p _ ho
    simp only [hw.found] at hs
    split at hs
    · rename_i hc
      cases hs
      refine h.setOp fun x hx => ?_
      cases hx
      exact ⟨put,hw,hc⟩
    · cases hs
      exact h.lose p _
    · cases hs
  · cases hs

/-- The listing after a put confirms only what is newest. -/
theorem Records.Sound.listWritten (h : r.Sound c s) (hs : r.listWritten p = some r') :
    r'.Sound c s := by
  unfold Records.listWritten at hs
  split at hs
  · rename_i i ho
    obtain ⟨put,hw,hc⟩ := h.stands p _ ho
    simp only [hw.found] at hs
    cases hs
    split
    · rename_i hn
      refine h.setOp fun x hx => ?_
      cases hx
      refine ⟨put,hw,hc,.inr ?_⟩
      by_cases hk : put.kind = .release
      · exact .inl hk
      · exact .inr (((hw.created hc).2 hn.symm).trans (hw.node hk))
    · exact h.lose p _
  · cases hs

/-- A finished call holds what it wrote. -/
theorem Records.Sound.finish (h : r.Sound c s) (hs : r.finish p (s.node p) = some r') :
    r'.Sound c s := by
  unfold Records.finish at hs
  split at hs
  · rename_i i ho
    obtain ⟨put,hw,hc,how⟩ := h.stands p _ ho
    simp only [hw.found] at hs
    have hn : (r.setOp p none).Sound c s := h.setOp fun x hx => by cases hx
    have hh : put.kind ≠ .release → s.node p = put.me →
        r.Holds c s p ⟨put.seq,put.record.epoch,put.record.alarms⟩ := by
      intro hk hm
      obtain ⟨hl,he⟩ := hw.created hc
      rw [hw.node hk,← hm] at he
      rw [← hm] at how
      refine ⟨hl,he,how.imp_right fun hor => ?_,hw.unreleased⟩
      exact hor.resolve_left hk
    split at hs
    · rename_i handed hk
      cases hs
      split
      · rename_i hm
        refine h.setHolder (fun y hy => ?_) (by simp)
        cases hy
        exact hh (by simp [hk]) hm
      · exact hn
    · rename_i hk
      cases hs
      split
      · rename_i hm
        refine h.setHolder (fun y hy => ?_) (by simp)
        cases hy
        exact hh (by simp [hk]) hm
      · exact hn.dropHeld p
    · cases hs
      exact hn
  · cases hs

variable {i : Nat} {put : VersionPut α} {b : Bool}

theorem Records.unreleased_write (hp : r'.puts = Function.update r.puts i (some put))
    (hq : put.created = none → put.me.process = q → put.record.node = none → put.seq ≤ k)
    (hk : r.Unreleased q k) : r'.Unreleased q k := by
  intro j x hj hc hx hn
  rw [hp] at hj
  obtain ⟨rfl,rfl⟩ | ⟨_,hj⟩ := update_eq_some.mp hj
  · exact hq hc hx hn
  · exact hk j x hj hc hx hn

theorem Records.write_moves (hi : r.puts i = none)
    (hq : put.me.process ≠ q ∨ put.record.node ≠ none) :
    r.Moves c s s (r.write p i put) q := by
  refine .of_same (.refl s) rfl rfl ?_ fun k => Records.unreleased_write rfl ?_
  · intro j x hj
    refine update_eq_some.mpr (.inr ⟨?_,hj⟩)
    rintro rfl
    cases hi.symm.trans hj
  · intro _ hp hn
    exact absurd hn (hq.resolve_left (absurd hp))

/-- A put may go out when it would be justified to land next. -/
theorem Records.Sound.write (h : r.Sound c s)
    (hi : r.puts i = none) (hf : r.InFlight c s put) (hne : put.created = none)
    (hp : put.me.process = p) (hno : put.kind ≠ .release → put.record.node = some put.me)
    (he : ∀ n, put.record.node = some n → s.Entered n) (hu : r.Unreleased p put.seq)
    (hh : put.record.node ≠ none ∨ (r.holders p).held = none) :
    (r.write p i put).Sound c s where
  toVersioned := ⟨h.zero,h.above,h.top,h.entered⟩
  written j x n hj hn := by
    obtain ⟨rfl,rfl⟩ | ⟨_,hj⟩ := update_eq_some.mp hj
    · exact he n hn
    · exact h.written j x n hj hn
  inFlight j x hj hc := by
    obtain ⟨rfl,rfl⟩ | ⟨_,hj⟩ := update_eq_some.mp hj
    · exact ⟨hf.pos,hf.seq,hf.claim,hf.release⟩
    · have hx := h.inFlight j x hj hc
      exact ⟨hx.pos,hx.seq,hx.claim,hx.release⟩
  held q y hy := by
    have hr : (r.holders q).held = some y := Records.setOp_held.symm.trans hy
    refine (h.held q y hr).moves (Records.write_moves hi ?_) rfl
    by_cases hq : q = p
    · subst hq
      exact .inr (hh.resolve_right (by simp [hr]))
    · exact .inl fun e => hq (e.symm.trans hp)
  stands q op ho := by
    by_cases hq : q = p
    · subst hq
      cases Records.setOp_op.symm.trans ho
      exact ⟨put,Function.update_self ..,hp,
        Records.unreleased_write rfl (fun _ _ _ => Nat.le_refl _) hu,hno,by simp [hne]⟩
    · exact (h.stands q op ((Records.setOp_other hq).symm.trans ho)).moves
        (Records.write_moves hi (.inl fun e => hq (e.symm.trans hp)))

/-- What landing write `i` does to the writes: it is answered, and no other changes. -/
structure Records.Answers (r r' : Records α) (i : Nat) (put : VersionPut α) (b : Bool) : Prop where
  found : r.puts i = some put
  inFlight : put.created = none
  puts : r'.puts = Function.update r.puts i (some { put with created := some b })
  holders : r'.holders = r.holders

/-- An answered put keeps what the other processes rely on. -/
theorem Records.Answers.moves (h : r.Answers r' i put b) (hn : r.newest ≤ r'.newest)
    (hs : r'.newest = r.newest → r'.owner = r.owner)
    (ho : ∀ n k, r.owner = some n → r.Unreleased n.process k → k ≤ r.newest →
      s.Over c n ∨ r'.owner = some n)
    (hl : b = true → put.seq ≤ r'.newest ∧ (put.seq = r'.newest → r'.owner = put.record.node))
    (q : Nat) : r.Moves c s s r' q where
  leases := .refl s
  newest := hn
  same := hs
  owner := ho
  unreleased k := Records.unreleased_write h.puts nofun
  puts j x hj hc := by
    rw [h.puts]
    refine update_eq_some.mpr (.inr ⟨?_,hj⟩)
    rintro rfl
    exact hc (Option.some.inj (h.found.symm.trans hj) ▸ h.inFlight)
  landed j x hj hc := by
    rw [h.puts]
    by_cases hji : j = i
    · subst hji
      cases h.found.symm.trans hj
      exact ⟨some b,by simp,fun hb => hl (Option.some.inj hb)⟩
    · refine ⟨none,?_,nofun⟩
      rw [Function.update_of_ne hji,hj,← hc]

theorem Records.Sound.answers (h : r.Sound c s) (ha : r.Answers r' i put b)
    (m : ∀ q, r.Moves c s s r' q) (hv : r'.Versioned s) : r'.Sound c s := by
  refine h.moves m hv ?_ (fun q y hy => .inl ⟨ha.holders ▸ hy,rfl⟩) fun q op hq => .inl (ha.holders ▸ hq)
  intro j x hj
  rw [ha.puts] at hj
  obtain ⟨rfl,rfl⟩ | ⟨_,hj⟩ := update_eq_some.mp hj
  · exact .inl ⟨put.created,ha.found,by simp⟩
  · exact .inl ⟨x.created,hj,id⟩

/-- The write of a new version fills a gap below the newest, or becomes the newest: then
it writes over a record whose owner is done with it. -/
theorem Records.Answers.moves_created (ha : r.Answers r' i put true) (h : r.Sound c s)
    (hf : r.versions put.seq = none)
    (hv : r'.versions = Function.update r.versions put.seq (some put.record))
    (hnew : r'.newest = max r.newest put.seq) (q : Nat) : r.Moves c s s r' q := by
  have hfl := h.inFlight i put ha.found ha.inFlight
  have hne : put.seq ≠ r.newest := by
    intro he
    have := hfl.pos
    exact h.top (by omega) (he ▸ hf)
  have hl := hfl.seq
  have hnex : put.seq = r'.newest → r'.owner = put.record.node := by
    intro he
    simp [Records.owner,hv,← he]
  have hs : r'.newest = r.newest → r'.owner = r.owner := by
    intro he
    have : r.newest ≠ put.seq := hne.symm
    simp [Records.owner,hv,he,Function.update_of_ne this]
  refine ha.moves (by omega) hs ?_ (fun _ => ⟨by omega,hnex⟩) q
  intro n k hn hu hk
  by_cases hlt : put.seq < r.newest
  · exact .inr ((hs (by omega)).trans hn)
  · have hse : put.seq = r.newest + 1 := by omega
    have ho := hnex (by omega)
    cases hno : put.record.node with
    | some m =>
      rcases hfl.claim hse m hno n hn with he | hov
      · exact .inr (ho.trans (hno.trans (congrArg some he.symm)))
      · exact .inl hov
    | none =>
      have hm : n = put.me := Option.some.inj (hn.symm.trans (hfl.release hse hno))
      have := hu i put ha.found ha.inFlight (congrArg Node.process hm.symm) hno
      omega

/-- A put that creates its version writes over its own session or one that is over. -/
theorem Records.Sound.created (h : r.Sound c s)
    (ha : r.Answers r' i put true) (hf : r.versions put.seq = none)
    (hv : r'.versions = Function.update r.versions put.seq (some put.record))
    (hne : r'.newest = max r.newest put.seq) : r'.Sound c s := by
  have hp := (h.inFlight i put ha.found ha.inFlight).pos
  have ho : ∀ k, k ≠ put.seq → r'.versions k = r.versions k := by
    intro k hk
    rw [hv,Function.update_of_ne hk]
  refine h.answers ha (ha.moves_created h hf hv hne) ⟨?_,?_,?_,?_⟩
  · exact (ho 0 (by omega)).trans h.zero
  · intro k hk
    exact (ho k (by omega)).trans (h.above k (by omega))
  · intro _
    by_cases hs : r'.newest = put.seq
    · simp [hs,hv]
    · have he : r'.newest = r.newest := by omega
      rw [ho _ hs,he]
      exact h.top (by omega)
  · intro k record n hk hn
    rw [hv] at hk
    obtain ⟨rfl,rfl⟩ | ⟨_,hk⟩ := update_eq_some.mp hk
    · exact h.written i put n ha.found hn
    · exact h.entered k record n hk hn

theorem Records.Sound.landVersion (h : r.Sound c s) (hs : r.landVersion i = some r') :
    r'.Sound c s := by
  unfold Records.landVersion at hs
  split at hs
  · rename_i put hp
    split at hs
    · cases hs
    · rename_i hc
      rw [ne_eq,not_not] at hc
      split at hs
      · rename_i hf
        cases hs
        exact h.created ⟨hp,hc,rfl,rfl⟩ hf rfl rfl
      · cases hs
        exact h.answers ⟨hp,hc,rfl,rfl⟩ (Records.Answers.moves ⟨hp,hc,rfl,rfl⟩ (Nat.le_refl _)
          (fun _ => rfl) (fun _ _ hn _ _ => .inr hn) nofun) ⟨h.zero,h.above,h.top,h.entered⟩
  · cases hs

/-- Versions below the newest two can go. -/
theorem Records.Sound.collect (h : r.Sound c s) (hs : r.collect v = some r') : r'.Sound c s := by
  unfold Records.collect at hs
  split at hs
  · rename_i hl
    cases hs
    have ho : ∀ k, k ≠ v → Function.update r.versions v none k = r.versions k :=
      fun k hk => Function.update_of_ne hk _ _
    have hle : ∀ k, r.versions k = none → Function.update r.versions v none k = none := by
      intro k hk
      by_cases hkv : k = v
      · simp [hkv]
      · rw [ho k hkv,hk]
    refine h.moves (fun q => .of_same (.refl s) rfl ?_ (fun _ _ hj => hj) fun _ hk => hk)
      ⟨hle 0 h.zero,fun k hk => hle k (h.above k hk),?_,?_⟩ (fun _ x hj => .inl ⟨x.created,hj,id⟩)
      (fun _ _ hy => .inl ⟨hy,rfl⟩) fun _ _ hq => .inl hq
    · simp [Records.owner,ho r.newest (by omega)]
    · intro hne
      exact fun hno => h.top hne ((ho r.newest (by omega)).symm.trans hno)
    · intro k record n hk hn
      by_cases hkv : k = v
      · simp [hkv] at hk
      · exact h.entered k record n ((ho k hkv).symm.trans hk) hn
  · cases hs

end Steps

end Walleye.Ownership
