import Walleye.Base.Updates
import Walleye.Ownership.Ledger

namespace Walleye.Ownership

open Walleye.Base

variable {τ α : Type}

section Ledger

variable {l : Ledger α} {k : Nat}

theorem Ledger.version_append (w : Written α) (hk : k ≤ l.stored.length) :
    Ledger.version { l with stored := l.stored ++ [w] } k = l.version k := by
  cases k with
  | zero => rfl
  | succ k =>
    have hl : k < l.stored.length := hk
    simp only [Ledger.version,List.getElem?_append_left hl]

theorem Ledger.version_last (w : Written α) :
    Ledger.version { l with stored := l.stored ++ [w] } (l.stored.length + 1) = some w.record := by
  simp [Ledger.version]

theorem Ledger.version_isSome (hk : k ≠ 0) (hl : k ≤ l.stored.length) : l.version k ≠ none := by
  cases k with
  | zero => exact absurd rfl hk
  | succ k => simp [Ledger.version,List.getElem?_eq_getElem (show k < l.stored.length by omega)]

end Ledger

def VersionPut.toWritten (put : VersionPut α) (i : Nat) (change : Change α) : Written α :=
  ⟨i, put.me.process, put.seq, change, put.record⟩

structure Claim.Read (k : Claim α) (r : Records α) (l : Ledger α) (p : Nat) : Prop where
  seq : k.seq ≤ r.newest
  prior : k.seq = r.newest → k.prior = l.version r.newest
  process : k.me.process = p

structure Records.Waits (r : Records α) (l : Ledger α) (p i : Nat) (put : VersionPut α) : Prop where
  found : r.puts i = some put
  process : put.me.process = p
  unapplied : ∀ w ∈ l.applied, w.put ≠ i

def Records.Goes (r : Records α) (l : Ledger α) (p : Nat) : Op α → Prop
  | .listing => True
  | .reading seq => seq ≤ r.newest
  | .judging k _ | .probing k _ _ | .got k _ _ _ | .weighing k _ _ _ | .judged k => k.Read r l p
  | .writing i => ∃ put, r.Waits l p i put
  | .created i => ∃ put, r.Waits l p i put ∧ put.created = some true
  | .confirmed i => ∃ put, r.puts i = some put ∧ put.created = some true

structure VersionPut.Meant [Inhabited α] (put : VersionPut α) (r : Records α) (l : Ledger α)
    (i : Nat) (change : Change α) : Prop where
  made : l.made i = some change
  pos : 0 < put.seq
  next : put.created = none → put.seq ≤ r.newest + 1 ∧
    (put.seq = r.newest + 1 → change.apply (l.version r.newest) = some put.record)
  landed : put.created = some true → put.seq ≤ r.newest ∧
    (put.seq = r.newest → l.stored[put.seq - 1]? = some (put.toWritten i change))

structure Held.Copies (h : Held α) (r : Records α) (l : Ledger α) : Prop where
  seq : h.seq ≤ r.newest
  copy : h.seq = r.newest → ∃ record, l.version r.newest = some record ∧
    record.epoch = h.epoch ∧ record.alarms = h.alarms

/-- The versions of a table's record are one chain, and every call works on the end of it that it
saw. -/
structure Records.Chained [Inhabited α] (r : Records α) (l : Ledger α) : Prop where
  newest : l.stored.length = r.newest
  above : ∀ k, r.newest < k → r.versions k = none
  top : r.versions r.newest = l.version r.newest
  linked : ∀ k w, l.stored[k]? = some w →
    w.seq = k + 1 ∧ w.change.apply (l.version k) = some w.record
  puts : ∀ i put, r.puts i = some put → ∃ change, put.Meant r l i change
  held : ∀ p h, (r.holders p).held = some h → h.Copies r l
  goes : ∀ p op, (r.holders p).op = some op → r.Goes l p op
  applied : ∀ w ∈ l.applied, 0 < w.seq ∧ l.stored[w.seq - 1]? = some w ∧ r.puts w.put ≠ none
  increasing : (l.applied.map (·.seq)).Pairwise (· < ·)

section Passes

variable {r r' : Records α} {l l' : Ledger α} {p i : Nat} {put : VersionPut α} {b : Bool}

/-- What a step leaves process `p` to go by: the newest version stays or is written over, and the
put that its call waits for is still its own. -/
structure Records.Passes (r r' : Records α) (l l' : Ledger α) (p : Nat) : Prop where
  newest : r.newest ≤ r'.newest
  same : r'.newest = r.newest → l'.version r'.newest = l.version r.newest
  puts : ∀ j x, r.puts j = some x → x.created ≠ none → r'.puts j = some x
  waits : ∀ j x, r.Waits l p j x → ∃ x', r'.Waits l' p j x' ∧ (x.created ≠ none → x' = x)

theorem Records.Passes.of_puts (hn : r'.newest = r.newest)
    (hv : l'.version r'.newest = l.version r.newest)
    (hp : ∀ j x, r.puts j = some x → r'.puts j = some x)
    (hw : ∀ j x, r.Waits l p j x → ∀ w ∈ l'.applied, w.put ≠ j) : r.Passes r' l l' p where
  newest := Nat.le_of_eq hn.symm
  same _ := hv
  puts j x hj _ := hp j x hj
  waits j x hx := ⟨x,⟨hp j x hx.found,hx.process,hw j x hx⟩,fun _ => rfl⟩

theorem Records.Passes.version_eq (m : r.Passes r' l l' p) (hk : k ≤ r.newest) (he : k = r'.newest) :
    k = r.newest ∧ l'.version r'.newest = l.version r.newest := by
  have hs : r'.newest = r.newest := Nat.le_antisymm (he ▸ hk) m.newest
  exact ⟨he.trans hs,m.same hs⟩

/-- A call keeps what it goes by while the newest version is only written over. -/
theorem Records.Passes.goes (m : r.Passes r' l l' p) (h : r.Goes l p op) : r'.Goes l' p op := by
  have hr : ∀ k : Claim α, k.Read r l p → k.Read r' l' p := by
    intro k hk
    refine ⟨Nat.le_trans hk.seq m.newest,?_,hk.process⟩
    intro he
    obtain ⟨hs,hv⟩ := m.version_eq hk.seq he
    exact (hk.prior hs).trans hv.symm
  cases op with
  | listing => trivial
  | reading seq => exact Nat.le_trans h m.newest
  | judging k _ | probing k _ _ | got k _ _ _ | weighing k _ _ _ | judged k => exact hr k h
  | writing j =>
    obtain ⟨x,hx⟩ := h
    obtain ⟨x',hx',-⟩ := m.waits j x hx
    exact ⟨x',hx'⟩
  | created j =>
    obtain ⟨x,hx,hc⟩ := h
    obtain ⟨x',hx',hsa⟩ := m.waits j x hx
    exact ⟨x',hx',hsa (by simp [hc]) ▸ hc⟩
  | confirmed j =>
    obtain ⟨x,hx,hc⟩ := h
    exact ⟨x,m.puts j x hx (by simp [hc]),hc⟩

theorem Records.Passes.copies (m : r.Passes r' l l' p) {y : Held α} (h : y.Copies r l) :
    y.Copies r' l' := by
  refine ⟨Nat.le_trans h.seq m.newest,?_⟩
  intro he
  obtain ⟨hs,hv⟩ := m.version_eq h.seq he
  exact hv ▸ h.copy hs

/-- A put is answered. The newest version stays, or the put is stored as the next one. -/
structure Records.Lands (r r' : Records α) (l l' : Ledger α) (i : Nat) (put : VersionPut α)
    (b : Bool) : Prop where
  found : r.puts i = some put
  inFlight : put.created = none
  puts : r'.puts = Function.update r.puts i (some { put with created := some b })
  holders : r'.holders = r.holders
  made : l'.made = l.made
  applied : l'.applied = l.applied
  newest : r.newest ≤ r'.newest
  same : r'.newest = r.newest → l'.version r'.newest = l.version r.newest

/-- A put that lands leaves every call what it goes by. -/
theorem Records.Lands.passes (m : r.Lands r' l l' i put b) (p : Nat) : r.Passes r' l l' p := by
  have hp : ∀ j x, r.puts j = some x → j ≠ i → r'.puts j = some x := by
    intro j x hj hji
    rw [m.puts]
    exact update_eq_some.mpr (.inr ⟨hji,hj⟩)
  refine ⟨m.newest,m.same,?_,?_⟩
  · intro j x hj hx
    refine hp j x hj ?_
    rintro rfl
    cases m.found.symm.trans hj
    exact hx m.inFlight
  · intro j x hx
    by_cases hj : j = i
    · subst hj
      cases m.found.symm.trans hx.found
      refine ⟨{ put with created := some b },⟨?_,hx.process,m.applied ▸ hx.unapplied⟩,?_⟩
      · rw [m.puts,Function.update_self]
      · exact fun hn => absurd m.inFlight hn
    · exact ⟨x,⟨hp j x hx.found hj,hx.process,m.applied ▸ hx.unapplied⟩,fun _ => rfl⟩

end Passes

section Steps

variable [Inhabited α] {r r' : Records α}

theorem Records.Chained.start : (Records.empty : Records α).Chained .empty where
  newest := rfl
  above _ _ := rfl
  top := rfl
  linked _ _ h := by cases h
  puts _ _ h := by cases h
  held _ _ h := by cases h
  goes _ _ h := by cases h
  applied _ h := by cases h
  increasing := .nil

theorem Records.Chained.relocate (h : r.Chained l) (hnew : r'.newest = r.newest)
    (hp : r'.puts = r.puts) (ht : r'.versions r.newest = r.versions r.newest)
    (ha : ∀ k, r.newest < k → r'.versions k = none)
    (hh : ∀ p y, (r'.holders p).held = some y → y.Copies r l)
    (hgoe : ∀ p op, (r'.holders p).op = some op → r.Goes l p op) : r'.Chained l := by
  have m : ∀ p, r.Passes r' l l p := fun p =>
    .of_puts hnew (by rw [hnew]) (fun _ _ hj => hp ▸ hj) fun _ _ hx => hx.unapplied
  refine ⟨hnew ▸ h.newest,hnew ▸ ha,by rw [hnew,ht,h.top],h.linked,?_,
    fun p y hy => (m p).copies (hh p y hy),fun p op ho => (m p).goes (hgoe p op ho),
    hp ▸ h.applied,h.increasing⟩
  intro i put hi
  rw [hp] at hi
  obtain ⟨change,hm,hpo,hn,hl⟩ := h.puts i put hi
  rw [← hnew] at hn hl
  exact ⟨change,hm,hpo,hn,hl⟩

/-- A process may hold a copy of a version, and go by one. -/
theorem Records.Chained.setHolder (h : r.Chained l)
    (hh : ∀ y, x.held = some y → y.Copies r l) (ho : ∀ op, x.op = some op → r.Goes l p op) :
    (r.setHolder p x).Chained l := by
  refine h.relocate rfl rfl rfl h.above ?_ ?_
  · intro q y hy
    by_cases hq : q = p
    · subst hq
      simp only [Records.setHolder,Function.update_self] at hy
      exact hh y hy
    · simp only [Records.setHolder,Function.update_of_ne hq] at hy
      exact h.held q y hy
  · intro q op hq'
    by_cases hq : q = p
    · subst hq
      simp only [Records.setHolder,Function.update_self] at hq'
      exact ho op hq'
    · simp only [Records.setHolder,Function.update_of_ne hq] at hq'
      exact h.goes q op hq'

theorem Records.Chained.setOp (h : r.Chained l)
    (ho : ∀ x, op = some x → r.Goes l p x) : (r.setOp p op).Chained l :=
  h.setHolder (fun y hy => h.held p y hy) ho

theorem Records.Chained.dropHeld (h : r.Chained l) (p : Nat) : (r.dropHeld p).Chained l :=
  h.setHolder (by simp) fun op ho => h.goes p op ho

theorem Records.Chained.lose (h : r.Chained l) (p : Nat) (kind : WriteKind) :
    (r.lose p kind).Chained l := by
  have ho : (r.setOp p none).Chained l := h.setOp (by simp)
  unfold Records.lose
  split
  · exact ho.dropHeld p
  · exact ho

theorem Records.Chained.listVersions (h : r.Chained l) (hs : r.listVersions p = some r') :
    r'.Chained l := by
  unfold Records.listVersions at hs
  split at hs
  · cases hs
    refine h.setOp ?_
    intro x hx
    cases hx
    exact Nat.le_refl _
  · cases hs

theorem Records.Chained.read (h : r.Chained l)
    (hl : seq ≤ r.newest) (hv : r.versions seq = some record) (hm : me.process = p) :
    (⟨seq,some record,me⟩ : Claim α).Read r l p := by
  refine ⟨hl,?_,hm⟩
  intro he
  have he : seq = r.newest := he
  subst he
  exact hv.symm.trans h.top

/-- A read copies the newest version. -/
theorem Records.Chained.readVersion (h : r.Chained l) (hm : me.process = p)
    (hs : r.readVersion p me = some r') : r'.Chained l := by
  unfold Records.readVersion at hs
  split at hs
  · rename_i seq ho
    have hl : seq ≤ r.newest := h.goes p _ ho
    split at hs
    · rename_i hz
      cases hs
      refine h.setOp ?_
      intro x hx
      cases hx
      refine ⟨Nat.zero_le _,?_,hm⟩
      intro he
      have he : 0 = r.newest := he
      rw [← he]
      rfl
    · split at hs
      · cases hs
        exact h.setOp fun x hx => by cases hx; trivial
      · rename_i record hv
        have hr := h.read hl hv hm
        split at hs
        · cases hs
          exact h.setOp fun x hx => by cases hx; exact hr
        · split at hs
          · cases hs
            exact h.setOp fun x hx => by cases hx; exact hr
          · cases hs
            exact h.setOp fun x hx => by cases hx; exact hr
  · cases hs

theorem Records.Chained.judge (h : r.Chained l) (hs : r.judge p dead now = some r') : r'.Chained l := by
  unfold Records.judge at hs
  split at hs
  · rename_i k owner ho
    have hr := h.goes p _ ho
    cases hs
    refine h.setOp ?_
    intro x hx
    cases hx
    split
    · exact hr
    · exact hr
  · cases hs

theorem Records.Chained.answerVersion (h : r.Chained l) (hs : r.answerVersion p = some r') :
    r'.Chained l := by
  unfold Records.answerVersion at hs
  split at hs
  · rename_i i ho
    obtain ⟨put,hw⟩ := h.goes p _ ho
    simp only [hw.found] at hs
    split at hs
    · rename_i hc
      cases hs
      exact h.setOp fun x hx => by cases hx; exact ⟨put,hw,hc⟩
    · cases hs
      exact h.lose p _
    · cases hs
  · cases hs

/-- A finished call holds the version that it wrote. -/
theorem Records.Chained.finish (h : r.Chained l) (hs : r.finish p me = some r') : r'.Chained l := by
  unfold Records.finish at hs
  split at hs
  · rename_i i ho
    obtain ⟨put,hp,hc⟩ := h.goes p _ ho
    simp only [hp] at hs
    have hn : (r.setOp p none).Chained l := h.setOp (by simp)
    have hco : (⟨put.seq,put.record.epoch,put.record.alarms⟩ : Held α).Copies r l := by
      obtain ⟨change,hm⟩ := h.puts i put hp
      obtain ⟨hl,hst⟩ := hm.landed hc
      refine ⟨hl,?_⟩
      intro he
      have he : put.seq = r.newest := he
      refine ⟨put.record,?_,rfl,rfl⟩
      have hpo := hm.pos
      rw [← he,show put.seq = put.seq - 1 + 1 by omega,Ledger.version,hst he]
      rfl
    split at hs
    · cases hs
      split
      · exact h.setHolder (fun y hy => by cases hy; exact hco) (by simp)
      · exact hn
    · cases hs
      split
      · exact h.setHolder (fun y hy => by cases hy; exact hco) (by simp)
      · exact hn.dropHeld p
    · cases hs
      exact hn
  · cases hs

theorem Records.Chained.collect (h : r.Chained l) (hs : r.collect v = some r') : r'.Chained l := by
  unfold Records.collect at hs
  split at hs
  · rename_i hl
    cases hs
    have hn : r.newest ≠ v := by omega
    refine h.relocate rfl rfl (Function.update_of_ne hn _ _) ?_ h.held h.goes
    intro k hk
    have hkv : k ≠ v := by omega
    exact (Function.update_of_ne hkv _ _).trans (h.above k hk)
  · cases hs

section Land

theorem Records.Lands.meant (m : r.Lands r' l l' i put b) {x : VersionPut α}
    (hs : ∀ (k : Nat) w, l.stored[k]? = some w → l'.stored[k]? = some w)
    (h : x.Meant r l j change) : x.Meant r' l' j change := by
  have hl := m.newest
  refine ⟨m.made ▸ h.made,h.pos,?_,?_⟩
  · intro hx
    obtain ⟨hse,hn⟩ := h.next hx
    refine ⟨by omega,?_⟩
    intro he
    have hsa : r'.newest = r.newest := by omega
    rw [m.same hsa]
    exact hn (by omega)
  · intro hx
    obtain ⟨hse,hla⟩ := h.landed hx
    refine ⟨by omega,?_⟩
    intro he
    exact hs _ _ (hla (by omega))

/-- A put that lands keeps the chain if what it stored is linked. -/
theorem Records.Chained.lands (h : r.Chained l) (m : r.Lands r' l l' i put b)
    (hn : l'.stored.length = r'.newest) (ha : ∀ k, r'.newest < k → r'.versions k = none)
    (ht : r'.versions r'.newest = l'.version r'.newest)
    (hl : ∀ (k : Nat) w, l'.stored[k]? = some w →
      w.seq = k + 1 ∧ w.change.apply (l'.version k) = some w.record)
    (hs : ∀ (k : Nat) w, l.stored[k]? = some w → l'.stored[k]? = some w)
    (hp : ∀ change, put.Meant r l i change →
      b = true → put.seq ≤ r'.newest ∧
        (put.seq = r'.newest → l'.stored[put.seq - 1]? = some (put.toWritten i change))) :
    r'.Chained l' where
  newest := hn
  above := ha
  top := ht
  linked := hl
  puts j x hj := by
    rw [m.puts] at hj
    obtain ⟨rfl,rfl⟩ | ⟨_,hj⟩ := update_eq_some.mp hj
    · obtain ⟨change,hm⟩ := h.puts j put m.found
      refine ⟨change,m.made ▸ hm.made,hm.pos,by simp,?_⟩
      intro hb
      exact hp change hm (Option.some.inj hb)
    · obtain ⟨change,hm⟩ := h.puts j x hj
      exact ⟨change,m.meant hs hm⟩
  held p y hy := (m.passes p).copies (h.held p y (m.holders ▸ hy))
  goes p op ho := (m.passes p).goes (h.goes p op (m.holders ▸ ho))
  applied w hw := by
    rw [m.applied] at hw
    obtain ⟨hpo,hw,hp⟩ := h.applied w hw
    refine ⟨hpo,hs _ _ hw,?_⟩
    rw [m.puts]
    by_cases hwi : w.put = i
    · simp [hwi]
    · rwa [Function.update_of_ne hwi]
  increasing := m.applied ▸ h.increasing

/-- A put for the next number extends the chain. -/
theorem Records.Chained.stores (h : r.Chained l) (hp : r.puts i = some put)
    (hc : put.created = none) (hm : put.Meant r l i change) (hn : put.seq = r.newest + 1)
    (hv : r'.versions = Function.update r.versions put.seq (some put.record))
    (hnew : r'.newest = put.seq)
    (hput : r'.puts = Function.update r.puts i (some { put with created := some true }))
    (hh : r'.holders = r.holders) :
    r'.Chained { l with stored := l.stored ++ [put.toWritten i change] } := by
  have hl := h.newest
  refine h.lands ⟨hp,hc,hput,hh,rfl,rfl,by omega,by omega⟩ ?_ ?_ ?_ ?_ ?_ ?_
  · simp only [List.length_append,List.length_singleton]
    omega
  · intro k hk
    rw [hv,Function.update_of_ne (by omega)]
    exact h.above k (by omega)
  · rw [hnew,hv,Function.update_self,hn,← hl,Ledger.version_last]
    rfl
  · intro k w hw
    by_cases hla : k < l.stored.length
    · rw [List.getElem?_append_left hla] at hw
      rw [Ledger.version_append _ (Nat.le_of_lt hla)]
      exact h.linked k w hw
    · obtain ⟨hk,-⟩ := List.getElem?_eq_some_iff.mp hw
      simp only [List.length_append,List.length_singleton] at hk
      obtain rfl : k = l.stored.length := by omega
      rw [List.getElem?_concat_length] at hw
      cases hw
      rw [Ledger.version_append _ (Nat.le_refl _),hl]
      exact ⟨hn,(hm.next hc).2 hn⟩
  · intro k w hw
    obtain ⟨hk,-⟩ := List.getElem?_eq_some_iff.mp hw
    exact (List.getElem?_append_left hk).trans hw
  · intro change' hm' _
    cases hm.made.symm.trans hm'.made
    refine ⟨Nat.le_of_eq hnew.symm,fun _ => ?_⟩
    rw [show put.seq - 1 = l.stored.length by omega,List.getElem?_concat_length]

theorem Records.Chained.fills (h : r.Chained l) (hp : r.puts i = some put)
    (hc : put.created = none) (hbe : b = true → put.seq < r.newest)
    (hn : r'.newest = r.newest) (ht : r'.versions r.newest = r.versions r.newest)
    (ha : ∀ k, r.newest < k → r'.versions k = none)
    (hput : r'.puts = Function.update r.puts i (some { put with created := some b }))
    (hh : r'.holders = r.holders) : r'.Chained l := by
  refine h.lands ⟨hp,hc,hput,hh,rfl,rfl,Nat.le_of_eq hn.symm,?_⟩
    (hn ▸ h.newest) (hn ▸ ha) ?_ h.linked (fun _ _ hw => hw) ?_
  · intro he
    rw [he]
  · rw [hn,ht,h.top]
  · intro _ _ hb
    have := hbe hb
    omega

end Land

/-- A put is created or refused; only one for the next number extends the chain. -/
theorem Records.Chained.landVersion (h : r.Chained l) (hs : r.landVersion i = some r') :
    r'.Chained (l.land r r' i) := by
  unfold Records.landVersion at hs
  split at hs
  · rename_i put hp
    split at hs
    · cases hs
    rename_i hc
    rw [ne_eq,not_not] at hc
    obtain ⟨change,hm⟩ := h.puts i put hp
    obtain ⟨hl,-⟩ := hm.next hc
    split at hs
    · rename_i hf
      obtain rfl := Option.some.inj hs
      have hn : put.seq ≠ r.newest := by
        intro he
        have hpo := hm.pos
        rw [he,h.top] at hf
        exact Ledger.version_isSome (by omega) (Nat.le_of_eq h.newest.symm) hf
      by_cases hnew : put.seq = r.newest + 1
      · have hma : max r.newest put.seq = put.seq := by omega
        have hw : l.written r i = some (put.toWritten i change) := by
          simp [Ledger.written,hp,hm.made,VersionPut.toWritten]
        rw [Ledger.land,if_pos (by omega : r.newest < max r.newest put.seq),hw]
        exact h.stores hp hc hm hnew rfl hma rfl rfl
      · have hma : max r.newest put.seq = r.newest := by omega
        rw [Ledger.land,if_neg (by omega : ¬r.newest < max r.newest put.seq)]
        refine h.fills hp hc (fun _ => by omega) hma (Function.update_of_ne hn.symm _ _)
          ?_ rfl rfl
        intro k hk
        exact (Function.update_of_ne (by omega) _ _).trans (h.above k hk)
    · obtain rfl := Option.some.inj hs
      rw [Ledger.land,if_neg (Nat.lt_irrefl r.newest)]
      exact h.fills hp hc (by simp) rfl rfl h.above rfl rfl
  · cases hs

/-- A put on its way is meant for the version after the one it was computed from. -/
theorem Records.Chained.write (h : r.Chained l)
    (hi : r.puts i = none) (hc : put.created = none) (hpo : 0 < put.seq)
    (hs : put.seq ≤ r.newest + 1)
    (hnex : put.seq = r.newest + 1 → change.apply (l.version r.newest) = some put.record)
    (hp : put.me.process = p) : (r.write p i put).Chained (l.make i change) := by
  have hput : ∀ j x, r.puts j = some x → (r.write p i put).puts j = some x := by
    intro j x hj
    refine update_eq_some.mpr (.inr ⟨?_,hj⟩)
    rintro rfl
    cases hi.symm.trans hj
  have m : ∀ q, r.Passes (r.write p i put) l (l.make i change) q := fun q =>
    .of_puts rfl rfl hput fun _ _ hx => hx.unapplied
  refine ⟨h.newest,h.above,h.top,h.linked,?_,?_,?_,?_,h.increasing⟩
  · intro j x hj
    obtain ⟨rfl,rfl⟩ | ⟨hji,hj⟩ := update_eq_some.mp hj
    · exact ⟨change,Function.update_self ..,hpo,fun _ => ⟨hs,hnex⟩,by simp [hc]⟩
    · obtain ⟨change',hm⟩ := h.puts j x hj
      exact ⟨change',(Function.update_of_ne hji _ _).trans hm.made,hm.pos,hm.next,
        hm.landed⟩
  · intro q y hy
    exact (m q).copies (h.held q y (Records.setOp_held.symm.trans hy))
  · intro q op ho
    by_cases hq : q = p
    · subst hq
      cases Records.setOp_op.symm.trans ho
      refine ⟨put,Function.update_self ..,hp,?_⟩
      rintro w hw rfl
      exact (h.applied w hw).2.2 hi
    · exact (m q).goes (h.goes q op ((Records.setOp_other hq).symm.trans ho))
  · intro w hw
    obtain ⟨hpo,hst,hpu⟩ := h.applied w hw
    refine ⟨hpo,hst,?_⟩
    obtain ⟨x,hx⟩ := Option.ne_none_iff_exists'.mp hpu
    rw [hput w.put x hx]
    simp

/-- A put that its listing confirms counts. -/
theorem Records.Chained.confirmed
    (h : r.Chained l) (hwa : r.Waits l p i put) (hc : put.created = some true)
    (hp : 0 < put.seq) (hnew : put.seq = r.newest)
    (hs : l.stored[put.seq - 1]? = some (put.toWritten i change)) :
    (r.setOp p (some (.confirmed i))).Chained
      { l with applied := l.applied ++ [put.toWritten i change] } := by
  have hse : (r.setOp p (some (.confirmed i))).Chained l :=
    h.setOp fun x hx => by cases hx; exact ⟨put,hwa.found,hc⟩
  have ho : ∀ q j x, q ≠ p → r.Waits l q j x →
      ∀ w ∈ l.applied ++ [put.toWritten i change], w.put ≠ j := by
    rintro q j x hq hx w hw rfl
    rcases List.mem_append.mp hw with hw | hw
    · exact hx.unapplied w hw rfl
    · cases List.mem_singleton.mp hw
      cases hwa.found.symm.trans hx.found
      exact hq (hx.process.symm.trans hwa.process)
  have hbe : ∀ w ∈ l.applied, w.seq < put.seq := by
    intro w hw
    obtain ⟨hwp,hws,-⟩ := h.applied w hw
    have hl : w.seq - 1 < l.stored.length := (List.getElem?_eq_some_iff.mp hws).1
    rw [h.newest,← hnew] at hl
    have hn : w.seq ≠ put.seq := by
      intro he
      rw [he,hs] at hws
      cases hws
      exact hwa.unapplied _ hw rfl
    omega
  refine ⟨hse.newest,hse.above,hse.top,hse.linked,?_,?_,?_,?_,?_⟩
  · intro j x hj
    obtain ⟨change',hm,hxp,hnex,hla⟩ := hse.puts j x hj
    exact ⟨change',hm,hxp,hnex,hla⟩
  · intro q y hy
    exact ⟨(hse.held q y hy).seq,(hse.held q y hy).copy⟩
  · intro q op hop
    by_cases hq : q = p
    · subst hq
      cases Records.setOp_op.symm.trans hop
      exact ⟨put,hwa.found,hc⟩
    · have m : r.Passes (r.setOp p (some (.confirmed i))) l
          { l with applied := l.applied ++ [put.toWritten i change] } q :=
        .of_puts rfl rfl (fun _ _ hj => hj) fun j x hx => ho q j x hq hx
      exact m.goes (h.goes q op ((Records.setOp_other hq).symm.trans hop))
  · intro w hw
    rcases List.mem_append.mp hw with hw | hw
    · exact hse.applied w hw
    · cases List.mem_singleton.mp hw
      refine ⟨hp,hs,?_⟩
      show r.puts i ≠ none
      simp [hwa.found]
  · rw [List.map_append,List.pairwise_append]
    refine ⟨h.increasing,by simp,?_⟩
    intro a ha b hb
    obtain ⟨w,hw,rfl⟩ := List.mem_map.mp ha
    cases List.mem_singleton.mp hb
    exact hbe w hw

/-- The listing after a put confirms only what is newest. -/
theorem Records.Chained.listWritten (h : r.Chained l) (hs : r.listWritten p = some r') :
    r'.Chained (l.confirm r' p) := by
  unfold Records.listWritten at hs
  split at hs
  · rename_i i ho
    obtain ⟨put,hw,hc⟩ := h.goes p _ ho
    simp only [hw.found] at hs
    obtain ⟨change,hm⟩ := h.puts i put hw.found
    obtain ⟨-,hst⟩ := hm.landed hc
    obtain rfl := Option.some.inj hs
    by_cases hn : r.newest = put.seq
    · rw [if_pos hn]
      have hco : l.confirm (r.setOp p (some (.confirmed i))) p =
          { l with applied := l.applied ++ [put.toWritten i change] } := by
        have hwr : l.written (r.setOp p (some (.confirmed i))) i =
            some (put.toWritten i change) := by
          simp [Ledger.written,Records.setOp,Records.setHolder,hw.found,hm.made,
            VersionPut.toWritten]
        unfold Ledger.confirm
        simp only [Records.setOp,Records.setHolder,Function.update_self] at hwr ⊢
        rw [hwr]
        rfl
      rw [hco]
      exact h.confirmed hw hc hm.pos hn.symm (hst hn.symm)
    · rw [if_neg hn]
      have hl : l.confirm (r.lose p put.kind) p = l := by
        unfold Ledger.confirm Records.lose
        cases put.kind <;>
          simp [Records.dropHeld,Records.setOp,Records.setHolder]
      rw [hl]
      exact h.lose p _
  · cases hs

end Steps

end Walleye.Ownership
