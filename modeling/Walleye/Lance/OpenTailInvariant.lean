import Walleye.Base.Updates
import Walleye.Lance.OpenTail

namespace Walleye.Lance

open Walleye.Base

variable {ν ρ : Type}

/-- The writer is past its fence: its log holds its sentinel, if it needed one. -/
def Writer.PastFence (w : Writer ν ρ) : Prop :=
  w.phase = .fenced ∨ w.phase = .opened ∨ w.phase = .closed

structure Shared.Live (s : Shared ν ρ) (w : Writer ν ρ) : Prop where
  checked : w.phase = .checked → ∀ r ∈ w.before, r ∈ s.acknowledged
  epoch : w.phase ≠ .checked → w.epoch ≤ s.epoch ∧ s.claims[s.epoch - w.epoch]? = some w.log
  opening : w.phase = .claimed ∨ w.phase = .fenced → ∀ r ∈ w.before, r ∈ w.base ∨
    ∃ e ∈ s.logs w.log, r ∈ e.rows ∧ w.replayFrom < e.position ∧
      ∀ q, w.replayFrom < q → q ≤ e.position → ∃ x ∈ s.logs w.log, x.position = q
  current : w.phase = .claimed ∨ w.phase = .fenced → w.epoch = s.epoch →
    w.replayFrom = s.replayAfter
  cursor : w.PastFence → s.SameLog w → (∀ x ∈ s.logs w.log, x.epoch ≤ w.epoch) →
    s.replayAfter < w.next
  filled : w.PastFence → ∀ q, s.replayAfter < q → q < w.next →
    ∃ x ∈ s.logs w.log, x.position = q
  sentinel : w.PastFence → 2 ≤ w.epoch → ∃ x ∈ s.logs w.log, x.epoch = w.epoch
  own : w.PastFence → ∀ x ∈ s.logs w.log, x.epoch ≤ w.epoch → x.position < w.next
  memtable : w.phase = .opened → Sorted w.memtable ∧
    ∀ e ∈ w.memtable, e ∈ s.logs w.log ∧ e.epoch ≤ w.epoch ∧
      (w.epoch = s.epoch → s.replayAfter < e.position)
  covered : w.phase = .opened → w.epoch = s.epoch → ∀ e ∈ s.logs w.log,
    s.replayAfter < e.position → e.rows ≠ [] → e ∈ w.memtable

/-- An acknowledged row is in a flushed generation, or in the log the note names
and the last claimant uses, past the manifest's replay cursor. -/
structure Shared.Safe (s : Shared ν ρ) : Prop where
  sorted : ∀ log, Sorted (s.logs log)
  dense : ∀ log, Dense (s.logs log) s.replayAfter
  stored : ∀ r ∈ s.acknowledged, r ∈ s.flushed ∨ ∃ log, s.note = some log ∧
    s.claims.head? = some log ∧ ∃ e ∈ s.logs log, r ∈ e.rows ∧ s.replayAfter < e.position
  unique : ∀ i j v w, s.writers i = some v → s.writers j = some w → v.phase ≠ .checked →
    w.phase ≠ .checked → v.epoch = w.epoch → i = j
  live : ∀ i w, s.writers i = some w → s.Live w
  visible : s.Visible

theorem Shared.Safe.start : (Shared.empty (ν := ν) (ρ := ρ)).Safe where
  sorted _ := List.Pairwise.nil
  dense _ _ he := by cases he
  stored _ hr := by cases hr
  unique _ _ _ _ hv := by cases hv
  live _ _ hw := by cases hw
  visible _ ho := by cases ho

variable {s s' : Shared ν ρ}

theorem Shared.Live.epoch_pos (h : s.Live w) (hp : w.phase ≠ .checked) : 1 ≤ w.epoch := by
  obtain ⟨hl,hi⟩ := h.epoch hp
  have hlt := (List.getElem?_eq_some_iff.mp hi).1
  unfold Shared.epoch at *
  omega

theorem Shared.Live.head (h : s.Live w)
    (hp : w.phase ≠ .checked) (hs : s.SameLog w) : s.claims.head? = some w.log := by
  obtain ⟨hl,hi⟩ := h.epoch hp
  by_cases he : w.epoch = s.epoch
  · rw [he,Nat.sub_self] at hi
    rw [List.head?_eq_getElem?]
    exact hi
  · cases hc : s.claims with
    | nil => simp [hc] at hi
    | cons log rest =>
      have hpo : s.epoch - w.epoch = (s.epoch - w.epoch - 1) + 1 := by omega
      have hm : log ∈ s.claims.take (s.epoch - w.epoch) := by
        rw [hpo,hc,List.take_succ_cons]
        exact List.mem_cons_self
      rw [hs log hm]
      rfl

/-- A writer past its fence has claimed. -/
theorem Writer.PastFence.claimed {w : Writer ν ρ} (h : w.PastFence) : w.phase ≠ .checked := by
  rcases h with h | h | h <;> simp [h]

/-- What the other writers may do around a writer: claim, add entries to its log, none of them of
its epoch or before once it is past its fence, and move the replay cursor if its log has an entry
of a later epoch. -/
theorem Shared.Live.moves {v : Writer ν ρ} (h : s.Live v) (hc : ∃ new, s'.claims = new ++ s.claims)
    (hac : ∀ r ∈ s.acknowledged, r ∈ s'.acknowledged)
    (hg : ∀ x ∈ s.logs v.log, x ∈ s'.logs v.log)
    (hb : v.PastFence → ∀ x ∈ s'.logs v.log, x.epoch ≤ v.epoch ∨ v.epoch = s.epoch →
      x ∈ s.logs v.log)
    (ha : s'.replayAfter = s.replayAfter ∨ s.replayAfter ≤ s'.replayAfter ∧
      (v.phase ≠ .checked → v.epoch ≠ s.epoch) ∧
      (v.PastFence → s.SameLog v → ∃ x ∈ s.logs v.log, ¬ x.epoch ≤ v.epoch)) : s'.Live v := by
  obtain ⟨new,hc⟩ := hc
  have hep : s'.epoch = new.length + s.epoch := by simp [Shared.epoch,hc]
  have hle : s.replayAfter ≤ s'.replayAfter := by
    rcases ha with ha | ha
    · exact Nat.le_of_eq ha.symm
    · exact ha.1
  have hcu : v.phase ≠ .checked → v.epoch = s'.epoch →
      v.epoch = s.epoch ∧ s'.replayAfter = s.replayAfter := by
    intro hp he
    have := (h.epoch hp).1
    have he : v.epoch = s.epoch := by omega
    exact ⟨he,ha.resolve_right fun ha => ha.2.1 hp he⟩
  have hi : ∀ {e}, e ≤ s.epoch → s'.epoch - e = new.length + (s.epoch - e) := by omega
  refine ⟨fun hp r hr => hac r (h.checked hp r hr),fun hp => ?_,fun hp r hr => ?_,fun hp he => ?_,
    fun hp hsa hal => ?_,fun hp q hq hlt => ?_,fun hp h2 => ?_,fun hp x hx hxe => ?_,
    fun hp => ?_,fun hp he x hx hlt hn => ?_⟩
  · obtain ⟨hl,hlog⟩ := h.epoch hp
    refine ⟨by omega,?_⟩
    rw [hi hl,hc,List.getElem?_append_right (Nat.le_add_right _ _),Nat.add_sub_cancel_left]
    exact hlog
  · refine (h.opening hp r hr).imp_right ?_
    rintro ⟨x,hx,hro,hlt,hd⟩
    refine ⟨x,hg x hx,hro,hlt,fun q hq hle => ?_⟩
    obtain ⟨y,hy,hyq⟩ := hd q hq hle
    exact ⟨y,hg y hy,hyq⟩
  · obtain ⟨he,hra⟩ := hcu (by rcases hp with hp | hp <;> simp [hp]) he
    exact (h.current hp he).trans hra.symm
  · have hs : s.SameLog v := by
      intro l hl
      refine hsa l ?_
      rw [hi (h.epoch hp.claimed).1,hc,List.take_length_add_append]
      exact List.mem_append_right _ hl
    rcases ha with ha | ⟨-,-,ha⟩
    · rw [ha]
      exact h.cursor hp hs fun x hx => hal x (hg x hx)
    · obtain ⟨x,hx,hxe⟩ := ha hp hs
      exact absurd (hal x (hg x hx)) hxe
  · obtain ⟨x,hx,hxq⟩ := h.filled hp q (Nat.lt_of_le_of_lt hle hq) hlt
    exact ⟨x,hg x hx,hxq⟩
  · obtain ⟨x,hx,hxe⟩ := h.sentinel hp h2
    exact ⟨x,hg x hx,hxe⟩
  · exact h.own hp x (hb hp x hx (.inl hxe)) hxe
  · refine ⟨(h.memtable hp).1,fun x hx => ?_⟩
    obtain ⟨hm,hxe,hlt⟩ := (h.memtable hp).2 x hx
    refine ⟨hg x hm,hxe,fun he => ?_⟩
    obtain ⟨he,hra⟩ := hcu (by simp [hp]) he
    rw [hra]
    exact hlt he
  · obtain ⟨he,hra⟩ := hcu (by simp [hp]) he
    exact h.covered hp he x (hb (.inr (.inl hp)) x hx (.inr he)) (hra ▸ hlt) hn

theorem Shared.Live.of_same (h : s.Live w) (hc : s'.claims = s.claims) (hl : s'.logs = s.logs)
    (ha : s'.replayAfter = s.replayAfter)
    (hac : ∀ r ∈ s.acknowledged, r ∈ s'.acknowledged) : s'.Live w :=
  h.moves ⟨[],hc⟩ hac (fun _ => hl ▸ id) (fun _ _ hx _ => hl ▸ hx) (.inl ha)

theorem Shared.Safe.check [DecidableEq ν] (h : s.Safe)
    (hs : s.check i log bitr = some s') : s'.Safe := by
  unfold Shared.check at hs
  split at hs <;> cases hs
  refine ⟨h.sorted,h.dense,h.stored,fun j k v w hv hw hp hpw he => ?_,fun j w hw => ?_,h.visible⟩
  · obtain ⟨-,rfl⟩ | ⟨-,hv⟩ := update_eq_some.mp hv
    · exact absurd rfl hp
    · obtain ⟨-,rfl⟩ | ⟨-,hw⟩ := update_eq_some.mp hw
      · exact absurd rfl hpw
      · exact h.unique j k v w hv hw hp hpw he
  · obtain ⟨-,rfl⟩ | ⟨-,hw⟩ := update_eq_some.mp hw
    · constructor <;> simp [Writer.PastFence]
    · exact (h.live j w hw).of_same rfl rfl rfl fun _ hr => hr

/-- A writer may move on as long as acknowledged rows stay in reach of the next replay. -/
theorem Shared.Safe.setWriter (h : s.Safe)
    (hwr : s'.writers = Function.update s.writers i (some w'))
    (ho : ∃ w, s.writers i = some w ∧ w.phase ≠ .checked ∧ w.epoch = w'.epoch)
    (hs : ∀ log, Sorted (s'.logs log)) (hd : ∀ log, Dense (s'.logs log) s'.replayAfter)
    (hst : ∀ r ∈ s'.acknowledged, r ∈ s'.flushed ∨ ∃ log, s'.note = some log ∧
      s'.claims.head? = some log ∧ ∃ e ∈ s'.logs log, r ∈ e.rows ∧ s'.replayAfter < e.position)
    (hl : s'.Live w') (hot : ∀ j w, j ≠ i → s.writers j = some w → s'.Live w)
    (hvi : s'.Visible) : s'.Safe := by
  obtain ⟨w₀,hw₀,hp₀,he₀⟩ := ho
  have hb : ∀ j v, s'.writers j = some v → v.phase ≠ .checked →
      ∃ u, s.writers j = some u ∧ u.phase ≠ .checked ∧ u.epoch = v.epoch := by
    intro j v hv hp
    rw [hwr] at hv
    obtain ⟨rfl,rfl⟩ | ⟨-,hv⟩ := update_eq_some.mp hv
    · exact ⟨w₀,hw₀,hp₀,he₀⟩
    · exact ⟨v,hv,hp,rfl⟩
  refine ⟨hs,hd,hst,fun j k v w hv hw hpv hpw he => ?_,fun j w hw => ?_,hvi⟩
  · obtain ⟨v₀,hv₀,hpv₀,hev⟩ := hb j v hv hpv
    obtain ⟨u₀,hu₀,hpu₀,heu⟩ := hb k w hw hpw
    exact h.unique j k v₀ u₀ hv₀ hu₀ hpv₀ hpu₀ (by rw [hev,heu,he])
  · rw [hwr] at hw
    obtain ⟨-,rfl⟩ | ⟨hj,hw⟩ := update_eq_some.mp hw
    · exact hl
    · exact hot j w hj hw

theorem Shared.Safe.dropWriter (h : s.Safe) (hwr : s'.writers = Function.update s.writers i none)
    (hre : s' = { s with writers := s'.writers }) : s'.Safe := by
  have hb : ∀ j v, s'.writers j = some v → s.writers j = some v := by
    intro j v hv
    rw [hwr] at hv
    by_cases hj : j = i
    · subst hj
      simp at hv
    · rwa [Function.update_of_ne hj] at hv
  rw [hre]
  refine ⟨h.sorted,h.dense,h.stored,fun j k v w hv hw => h.unique j k v w (hb j v hv) (hb k w hw),
    fun j w hw => ?_,h.visible⟩
  exact (h.live j w (hb j w hw)).of_same rfl rfl rfl fun _ hr => hr

/-- A claim that the note allows is made with the log of the acknowledged rows. -/
theorem Shared.Safe.claim (h : s.Safe)
    (ho : s.Settled (.claim i)) (hs : s.claim i = some s') : s'.Safe := by
  unfold Shared.claim at hs
  split at hs
  · split at hs <;> cases hs
    rename_i w hw hph
    have hno := ho w hw
    have hfo : ∀ r ∈ s.acknowledged, r ∈ s.flushed ∨ s.note = some w.log ∧
        ∃ e ∈ s.logs w.log, r ∈ e.rows ∧ s.replayAfter < e.position := by
      intro r hr
      refine (h.stored r hr).imp_right ?_
      rintro ⟨log,hn,-,he⟩
      rcases hno with hnon | hso
      · rw [hnon] at hn
        cases hn
      · cases hn.symm.trans hso
        exact ⟨hn,he⟩
    have hne : ∀ {j v}, Function.update s.writers i
        (if w.minted.getD (s.epoch + 1) = s.epoch + 1 then some (s.claimant w) else none) j =
          some v → j = i ∧ v = s.claimant w ∨ s.writers j = some v := by
      intro j v hv
      split at hv
      · obtain ⟨rfl,rfl⟩ | ⟨-,hv⟩ := update_eq_some.mp hv
        · exact .inl ⟨rfl,rfl⟩
        · exact .inr hv
      · by_cases hj : j = i
        · subst hj
          simp at hv
        · exact .inr (by simpa [hj] using hv)
    refine ⟨h.sorted,h.dense,fun r hr => ?_,fun j k v u hv hu hpv hpu he => ?_,fun j v hv => ?_,
      h.visible⟩
    · exact (hfo r hr).imp_right fun ⟨hn,he⟩ => ⟨w.log,hn,rfl,he⟩
    · obtain ⟨hj,rfl⟩ | hv := hne hv <;> obtain ⟨hk,rfl⟩ | hu := hne hu
      · exact hj.trans hk.symm
      · have := ((h.live k u hu).epoch hpu).1
        simp only [Shared.claimant] at he
        omega
      · have := ((h.live j v hv).epoch hpv).1
        simp only [Shared.claimant] at he
        omega
      · exact h.unique j k v u hv hu hpv hpu he
    · obtain ⟨rfl,rfl⟩ | hv := hne hv
      · refine ⟨fun hp => (by cases hp),fun _ => ⟨?_,?_⟩,fun _ r hr => ?_,
          fun _ _ => rfl,?_,?_,?_,?_,fun hp => (by cases hp),fun hp => (by cases hp)⟩
        · simp [Shared.epoch,Shared.claimant]
        · simp [Shared.epoch,Shared.claimant]
        · refine (hfo r ((h.live j w hw).checked hph r hr)).imp_right ?_
          rintro ⟨-,e,he,hro,hlt⟩
          exact ⟨e,he,hro,hlt,fun q hq hqe => h.dense w.log e he q hq hqe⟩
        all_goals
          rintro (hp | hp | hp) <;> cases hp
      · exact (h.live j v hv).moves ⟨[w.log],rfl⟩ (fun _ hr => hr) (fun _ hx => hx)
          (fun _ _ hx _ => hx) (.inl rfl)
  · cases hs

end Walleye.Lance
