import Walleye.Lance.OpenTailInvariant

namespace Walleye.Lance

open Walleye.Base

variable {ν ρ : Type}

variable {s s' : Shared ν ρ} {i : Nat}

theorem Sorted.append (hs : Sorted log) (ha : Accepts log e) : Sorted (log ++ [e]) := by
  refine List.pairwise_append.mpr ⟨hs,List.pairwise_singleton _ _,?_⟩
  intro x hx y hy
  rw [List.mem_singleton] at hy
  subst hy
  exact (ha x hx).1

theorem Dense.append {log : List (Entry ρ)} (hd : Dense log p)
    (he : ∀ q, p < q → q < e.position → ∃ x ∈ log, x.position = q) : Dense (log ++ [e]) p := by
  intro x hx q hq hl
  have ho : (∃ y ∈ log, y.position = q) → ∃ y ∈ log ++ [e], y.position = q :=
    fun ⟨y,hy,hyq⟩ => ⟨y,List.mem_append_left _ hy,hyq⟩
  rcases List.mem_append.mp hx with hx | hx
  · exact ho (hd x hx q hq hl)
  · rw [List.mem_singleton] at hx
    subst hx
    rcases Nat.lt_or_eq_of_le hl with hlt | heq
    · exact ho (he q hq hlt)
    · exact ⟨x,by simp,heq.symm⟩

theorem Shared.mem_appendLog [DecidableEq ν] (s : Shared ν ρ) (log l : ν) (e x : Entry ρ) :
    x ∈ (s.appendLog log e).logs l ↔ x ∈ s.logs l ∨ l = log ∧ x = e := by
  by_cases hl : l = log
  · subst hl
    simp
  · simp [Shared.appendLog,hl]

/-- An entry another writer adds takes nothing from a writer, unless the writer
is past its fence in the same log and no older than the entry. -/
theorem Shared.Live.appendLog [DecidableEq ν] (h : s.Live v) (hc : s'.claims = s.claims)
    (ha : s'.replayAfter = s.replayAfter) (hlog : s'.logs = (s.appendLog log e).logs)
    (hac : ∀ r ∈ s.acknowledged, r ∈ s'.acknowledged) (he : e.epoch ≤ s.epoch)
    (hnew : v.log = log → v.PastFence → ¬ e.epoch ≤ v.epoch) : s'.Live v := by
  refine h.moves ⟨[],hc⟩ hac (fun x hx => ?_) (fun hp x hx hle => ?_) (.inl ha)
  · rw [hlog,Shared.mem_appendLog]
    exact .inl hx
  · rw [hlog,Shared.mem_appendLog] at hx
    obtain hx | ⟨hl,rfl⟩ := hx
    · exact hx
    · refine absurd ?_ (hnew hl hp)
      omega

theorem Shared.Safe.fenced_out (h : s.Safe)
    (hw : s.writers i = some w) (hv : s.writers j = some v) (hi : j ≠ i)
    (hpw : w.phase ≠ .checked) (hpv : v.PastFence) (ha : Accepts (s.logs v.log) e)
    (he : e.epoch = w.epoch) : ¬ e.epoch ≤ v.epoch := by
  intro hl
  have hn : v.epoch ≠ w.epoch := fun heq => hi (h.unique j i v w hv hw hpv.claimed hpw heq)
  have hpo := (h.live i w hw).epoch_pos hpw
  obtain ⟨x,hx,hxe⟩ := (h.live j v hv).sentinel hpv (by omega)
  have := (ha x hx).2
  omega

theorem Shared.Safe.discovered (h : s.Safe) (log : ν) :
    ∀ q, s.replayAfter < q → q < s.nextPosition log → ∃ x ∈ s.logs log, x.position = q := by
  intro q hq hl
  unfold Shared.nextPosition at hl
  have hle : q ≤ lastPosition (s.logs log) := by omega
  have hn : s.logs log ≠ [] := by
    intro hni
    rw [hni] at hle
    simp only [lastPosition,List.getLast?_nil,Option.map_none,Option.getD_none] at hle
    omega
  obtain ⟨e,he,heq⟩ := lastPosition_mem hn
  exact h.dense log e he q hq (by omega)

theorem Shared.Safe.lt_nextPosition (h : s.Safe) (hx : x ∈ s.logs log) :
    x.position < s.nextPosition log := by
  have := le_lastPosition (h.sorted log) hx
  unfold Shared.nextPosition
  omega

theorem Shared.Safe.stored_appendLog [DecidableEq ν] (h : s.Safe) (log : ν)
    (e : Entry ρ) : ∀ r ∈ s.acknowledged, r ∈ s.flushed ∨ ∃ l, s.note = some l ∧
      s.claims.head? = some l ∧ ∃ x ∈ (s.appendLog log e).logs l,
        r ∈ x.rows ∧ s.replayAfter < x.position := by
  intro r hr
  refine (h.stored r hr).imp_right ?_
  rintro ⟨l,hn,hh,x,hx,hre⟩
  exact ⟨l,hn,hh,x,(s.mem_appendLog log l e x).mpr (.inl hx),hre⟩

theorem Shared.Safe.sorted_appendLog [DecidableEq ν] (h : s.Safe)
    (ha : Accepts (s.logs log) e) : ∀ l, Sorted ((s.appendLog log e).logs l) :=
  (Function.forall_update_iff _ fun _ l => Sorted l).mpr
    ⟨(h.sorted log).append ha,fun l _ => h.sorted l⟩

theorem Shared.Safe.dense_appendLog [DecidableEq ν] (h : s.Safe)
    (hf : ∀ q, s.replayAfter < q → q < e.position → ∃ x ∈ s.logs log, x.position = q) :
    ∀ l, Dense ((s.appendLog log e).logs l) s.replayAfter :=
  (Function.forall_update_iff _ fun _ l => Dense l s.replayAfter).mpr
    ⟨(h.dense log).append hf,fun l _ => h.dense l⟩

/-- A fence entry goes past all that is acknowledged. -/
theorem Shared.Safe.fence [DecidableEq ν] (h : s.Safe) (hs : s.fence i = some s') : s'.Safe := by
  unfold Shared.fence at hs
  cases hw : s.writers i with
  | none => simp [hw] at hs
  | some w =>
    simp only [hw] at hs
    split at hs
    · rename_i hph
      have hli := h.live i w hw
      have hpw : w.phase ≠ .checked := by simp [hph]
      have ha : s.replayAfter < s.nextPosition w.log := by
        unfold Shared.nextPosition
        omega
      split at hs
      · rename_i hf
        cases hs
        refine h.setWriter rfl ⟨w,hw,hpw,rfl⟩ h.sorted h.dense h.stored ?_
          (fun j v _ hv => (h.live j v hv).of_same rfl rfl rfl (fun _ hr => hr)) h.visible
        refine ⟨fun hp => (by cases hp),fun _ => hli.epoch hpw,
          fun _ => hli.opening (.inl hph),fun _ => hli.current (.inl hph),
          fun _ _ _ => ha,fun _ => h.discovered w.log,?_,
          fun _ x hx _ => h.lt_nextPosition hx,fun hp => (by cases hp),fun hp => (by cases hp)⟩
        intro _ h2
        simp only [Writer.fenced] at h2
        omega
      · split at hs
        · rename_i hac
          cases hs
          refine h.setWriter rfl ⟨w,hw,hpw,rfl⟩ (h.sorted_appendLog hac)
            (h.dense_appendLog (h.discovered w.log)) (h.stored_appendLog _ _) ?_ ?_ h.visible
          · refine ⟨fun hp => (by cases hp),fun _ => hli.epoch hpw,?_,
              fun _ => hli.current (.inl hph),fun _ _ _ => Nat.lt_succ_of_lt ha,
              ?_,?_,?_,fun hp => (by cases hp),fun hp => (by cases hp)⟩
            all_goals simp only [Writer.fenced,Shared.appendLog_self]
            · intro _ r hr
              refine (hli.opening (.inl hph) r hr).imp_right ?_
              rintro ⟨x,hx,hro,hlt,hd⟩
              refine ⟨x,List.mem_append_left _ hx,hro,hlt,fun q hq hle => ?_⟩
              obtain ⟨y,hy,hyq⟩ := hd q hq hle
              exact ⟨y,List.mem_append_left _ hy,hyq⟩
            · intro _ q hq hlt
              rcases Nat.lt_or_eq_of_le (Nat.le_of_lt_succ hlt) with hlt | rfl
              · obtain ⟨x,hx,hxq⟩ := h.discovered w.log q hq hlt
                exact ⟨x,List.mem_append_left _ hx,hxq⟩
              · exact ⟨_,List.mem_append_right _ List.mem_cons_self,rfl⟩
            · intro _ _
              exact ⟨_,List.mem_append_right _ List.mem_cons_self,rfl⟩
            · intro _ x hx _
              rcases List.mem_append.mp hx with hx | hx
              · exact Nat.lt_succ_of_lt (h.lt_nextPosition hx)
              · rw [List.mem_singleton] at hx
                subst hx
                exact Nat.lt_succ_self _
          · intro j v hj hv
            refine (h.live j v hv).appendLog (e := s.sentinel w) rfl rfl rfl (fun _ hr => hr)
              (hli.epoch hpw).1 ?_
            intro hl hp
            rw [← hl] at hac
            exact h.fenced_out hw hv hj hpw hp hac rfl
        · cases hs
    · cases hs

/-- A replay sees every acknowledged row that is not flushed. -/
theorem Shared.Safe.replay (h : s.Safe) (hs : s.replay i = some s') : s'.Safe := by
  unfold Shared.replay at hs
  cases hw : s.writers i with
  | none => simp [hw] at hs
  | some w =>
    simp only [hw] at hs
    split at hs
    · rename_i hph
      have hl := h.live i w hw
      have hpw : w.phase ≠ .checked := by simp [hph]
      have hpa : w.PastFence := .inl hph
      split at hs
      · rename_i hep
        cases hs
        refine h.setWriter rfl ⟨w,hw,hpw,rfl⟩ h.sorted h.dense h.stored ?_
          (fun j v _ hv => (h.live j v hv).of_same rfl rfl rfl (fun _ hr => hr)) ?_
        · refine ⟨fun hp => (by cases hp),fun _ => hl.epoch hpw,
            fun hp => (by rcases hp with hp | hp <;> cases hp),
            fun hp => (by rcases hp with hp | hp <;> cases hp),fun _ => hl.cursor hpa,
            fun _ => hl.filled hpa,fun _ => hl.sentinel hpa,
            fun _ => hl.own hpa,?_,?_⟩
          · intro _
            refine ⟨?_,fun e he => ?_⟩
            · have hru : Sorted (replayRun (w.replayFrom + 1) (s.logs w.log)) := by
                exact (h.sorted w.log).sublist (replayRun_sublist _ _)
              exact hru.sublist List.filter_sublist
            · have he := List.mem_of_mem_filter he
              obtain ⟨hm,hle⟩ := mem_replayRun he
              refine ⟨hm,hep e he,fun heq => ?_⟩
              have := hl.current (.inr hph) heq
              dsimp only
              omega
          · intro _ heq e he hlt hn
            have hf := hl.current (.inr hph) heq
            refine List.mem_filter.mpr ⟨?_,by simpa using hn⟩
            dsimp only at hlt
            refine replayRun_reaches (h.sorted w.log) he (by omega) fun q hq hle => ?_
            exact h.dense w.log e he q (by omega) hle
        · intro o ho
          rcases List.mem_cons.mp ho with rfl | ho
          · intro r hr
            rcases hl.opening (.inr hph) r hr with hb | ⟨e,he,hro,hlt,hd⟩
            · exact List.mem_append_left _ hb
            · refine List.mem_append_right _ (List.mem_flatMap.mpr ⟨e,?_,hro⟩)
              exact replayRun_reaches (h.sorted w.log) he hlt fun q hq hle => hd q (by omega) hle
          · exact h.visible o ho
      · cases hs
        exact h.dropWriter rfl rfl
    · cases hs

theorem Shared.Live.setNoted (h : s.Live w) (noted : Bool) : s.Live { w with noted } :=
  ⟨h.checked,h.epoch,h.opening,h.current,h.cursor,h.filled,h.sentinel,h.own,h.memtable,
    h.covered⟩

/-- A note names the same log, or one is left when all that is acknowledged is flushed. -/
theorem Shared.Safe.leaveNote (h : s.Safe)
    (ho : s.Settled (.note i)) (hs : s.leaveNote i = some s') : s'.Safe := by
  unfold Shared.leaveNote at hs
  split at hs
  · split at hs <;> cases hs
    rename_i w hw hph
    have hl := h.live i w hw
    refine h.setWriter rfl ⟨w,hw,(by rcases hph with hp | hp <;> simp [hp]),rfl⟩
      h.sorted h.dense ?_ ?_
      (fun j v _ hv => (h.live j v hv).of_same rfl rfl rfl (fun _ hr => hr)) h.visible
    · intro r hr
      rcases ho w hw with hsa | hd
      · refine (h.stored r hr).imp_right ?_
        rintro ⟨log,hn,hre⟩
        exact ⟨log,hsa ▸ hn,hre⟩
      · exact .inl (hd r hr)
    · exact (hl.setNoted true).of_same rfl rfl rfl (fun _ hr => hr)
  · cases hs

/-- An acknowledged put is in the log that the next open replays. -/
theorem Shared.Safe.put [DecidableEq ν]
    (h : s.Safe) (ho : s.Settled (.put i rows)) (hs : s.put i rows = some s') : s'.Safe := by
  unfold Shared.put at hs
  split at hs
  · dsimp only at hs
    split at hs <;> cases hs
    rename_i w hw hg
    obtain ⟨hph,-,-,ha⟩ := hg
    obtain ⟨hn,hsa⟩ := ho w hw
    have hli := h.live i w hw
    have hpw : w.phase ≠ .checked := by simp [hph]
    have hpa : w.PastFence := .inr (.inl hph)
    have haf : s.replayAfter < w.next :=
      hli.cursor hpa hsa fun x hx => (ha x hx).2
    refine h.setWriter rfl ⟨w,hw,hpw,rfl⟩ (h.sorted_appendLog ha)
      (h.dense_appendLog (hli.filled hpa)) ?_ ?_ ?_ h.visible
    · intro r hr
      rcases List.mem_append.mp hr with hr | hr
      · exact h.stored_appendLog _ _ r hr
      · exact .inr ⟨w.log,hn,hli.head hpw hsa,
          { position := w.next, epoch := w.epoch, rows },by simp,hr,haf⟩
    · refine ⟨fun hp => absurd hp hpw,fun _ => hli.epoch hpw,
        fun hp => (by rcases hp with hp | hp <;> simp [hph] at hp),
        fun hp => (by rcases hp with hp | hp <;> simp [hph] at hp),
        fun _ _ _ => Nat.lt_succ_of_lt haf,?_,?_,?_,?_,?_⟩
      all_goals simp only [Shared.appendLog_self]
      · intro _ q hq hlt
        rcases Nat.lt_or_eq_of_le (Nat.le_of_lt_succ hlt) with hlt | rfl
        · obtain ⟨x,hx,hxq⟩ := hli.filled hpa q hq hlt
          exact ⟨x,List.mem_append_left _ hx,hxq⟩
        · exact ⟨_,List.mem_append_right _ List.mem_cons_self,rfl⟩
      · intro _ h2
        obtain ⟨x,hx,hxe⟩ := hli.sentinel hpa h2
        exact ⟨x,List.mem_append_left _ hx,hxe⟩
      · intro _ x hx hle
        rcases List.mem_append.mp hx with hx | hx
        · exact Nat.lt_succ_of_lt (hli.own hpa x hx hle)
        · rw [List.mem_singleton] at hx
          subst hx
          exact Nat.lt_succ_self _
      · intro _
        obtain ⟨hso,hm⟩ := hli.memtable hph
        refine ⟨hso.append fun x hx => ha x (hm x hx).1,fun x hx => ?_⟩
        rcases List.mem_append.mp hx with hx | hx
        · exact ⟨List.mem_append_left _ (hm x hx).1,(hm x hx).2⟩
        · refine ⟨List.mem_append_right _ hx,?_⟩
          rw [List.mem_singleton] at hx
          subst hx
          exact ⟨Nat.le_refl _,fun _ => haf⟩
      · intro _ he x hx hlt hne
        rcases List.mem_append.mp hx with hx | hx
        · exact List.mem_append_left _ (hli.covered hph he x hx hlt hne)
        · exact List.mem_append_right _ hx
    · intro j v hj hv
      refine (h.live j v hv).appendLog rfl rfl rfl (fun _ hr => List.mem_append_left _ hr)
        (hli.epoch hpw).1 ?_
      intro hl hp
      rw [← hl] at ha
      exact h.fenced_out hw hv hj hpw hp ha rfl
  · cases hs

theorem Sorted.lt_of_mem_drop (hs : Sorted log)
    (hn : log.take n ≠ []) (he : e ∈ log.drop n) : lastPosition (log.take n) < e.position := by
  obtain ⟨x,hx,hl⟩ := lastPosition_mem hn
  rw [← hl]
  unfold Sorted at hs
  rw [← List.take_append_drop n log] at hs
  exact (List.pairwise_append.mp hs).2.2 x hx e he

/-- A flush moves the replay position past entries whose rows it has stored. -/
theorem Shared.Safe.flush (h : s.Safe) (hs : s.flush i entries = some s') : s'.Safe := by
  unfold Shared.flush at hs
  split at hs
  · split at hs <;> cases hs
    rename_i w hw hg
    obtain ⟨hph,hc,hne⟩ := hg
    have hl := h.live i w hw
    have hpw : w.phase ≠ .checked := by simp [hph]
    have hpa : w.PastFence := .inr (.inl hph)
    obtain ⟨hso,hm⟩ := hl.memtable hph
    obtain ⟨x,hx,hla⟩ := lastPosition_mem hne
    have hxm : x ∈ w.memtable := List.mem_of_mem_take hx
    have ha : s.replayAfter < lastPosition (w.memtable.take entries) := by
      rw [← hla]
      exact (hm x hxm).2.2 hc
    have hhe : s.claims.head? = some w.log := by
      refine hl.head hpw ?_
      intro log hlo
      simp [hc] at hlo
    have hsp : ∀ e ∈ s.logs w.log, s.replayAfter < e.position → e.rows ≠ [] →
        e ∈ w.memtable.take entries ∨ e ∈ w.memtable.drop entries := by
      intro e he hlt hrow
      have hi := hl.covered hph hc e he hlt hrow
      rw [← List.take_append_drop entries w.memtable] at hi
      exact List.mem_append.mp hi
    refine h.setWriter rfl ⟨w,hw,hpw,rfl⟩ h.sorted ?_ ?_ ?_ ?_ h.visible
    · intro log e he q hq hle
      exact h.dense log e he q (Nat.lt_trans ha hq) hle
    · intro r hr
      rcases h.stored r hr with hf | ⟨log,hn,hh,e,he,hro,hlt⟩
      · exact .inl (List.mem_append_left _ hf)
      · have hlo : log = w.log := Option.some.inj (hh.symm.trans hhe)
        subst hlo
        rcases hsp e he hlt (List.ne_nil_of_mem hro) with hi | hi
        · exact .inl (List.mem_append_right _ (List.mem_flatMap.mpr ⟨e,hi,hro⟩))
        · exact .inr ⟨w.log,hn,hh,e,he,hro,hso.lt_of_mem_drop hne hi⟩
    · refine ⟨fun hp => absurd hp hpw,fun _ => hl.epoch hpw,
        fun hp => (by rcases hp with hp | hp <;> simp [hph] at hp),
        fun hp => (by rcases hp with hp | hp <;> simp [hph] at hp),?_,
        fun _ q hq hlt => hl.filled hpa q (Nat.lt_trans ha hq) hlt,
        fun _ => hl.sentinel hpa,fun _ => hl.own hpa,?_,?_⟩
      · intro _ _ _
        dsimp only
        rw [← hla]
        exact hl.own hpa x (hm x hxm).1 (hm x hxm).2.1
      · intro _
        refine ⟨hso.sublist (List.drop_sublist _ _),fun e he => ?_⟩
        obtain ⟨hi,hle,-⟩ := hm e (List.mem_of_mem_drop he)
        exact ⟨hi,hle,fun _ => hso.lt_of_mem_drop hne he⟩
      · intro _ _ e he hlt hrow
        dsimp only at hlt
        rcases hsp e he (Nat.lt_trans ha hlt) hrow with hi | hi
        · have := le_lastPosition (hso.sublist (List.take_sublist entries _)) hi
          omega
        · exact hi
    · intro j v hj hv
      have ho : v.phase ≠ .checked → v.epoch ≠ s.epoch := by
        intro hp heq
        exact hj (h.unique j i v w hv hw hp hpw (heq.trans hc.symm))
      refine (h.live j v hv).moves ⟨[],rfl⟩ (fun _ hr => hr) (fun _ hx => hx) (fun _ _ hx _ => hx)
        (.inr ⟨Nat.le_of_lt ha,ho,fun hp hsa => ?_⟩)
      have hcv := hp.claimed
      have hlo : v.log = w.log :=
        Option.some.inj (((h.live j v hv).head hcv hsa).symm.trans hhe)
      have hpo := (h.live j v hv).epoch_pos hcv
      have hle := ((h.live j v hv).epoch hcv).1
      have hn' := ho hcv
      obtain ⟨y,hy,hye⟩ := hl.sentinel hpa (by omega)
      exact ⟨y,hlo ▸ hy,by omega⟩
  · cases hs

/-- The note goes only when all that is acknowledged is flushed. -/
theorem Shared.Safe.landDelete (h : s.Safe)
    (ho : s.Settled (.landDelete answered)) (hs : s.landDelete answered = some s') :
    s'.Safe := by
  unfold Shared.landDelete at hs
  split at hs
  · cases hs
    have hb : ∀ j v, (if answered = some j then
        (s.writers j).map (fun w => { w with noted := false }) else s.writers j) = some v →
        ∃ u noted, s.writers j = some u ∧ v = { u with noted } := by
      intro j v hv
      split at hv
      · obtain ⟨u,hu,rfl⟩ := Option.map_eq_some_iff.mp hv
        exact ⟨u,false,hu,rfl⟩
      · exact ⟨v,v.noted,hv,rfl⟩
    refine ⟨h.sorted,h.dense,fun r hr => .inl (ho r hr),?_,?_,h.visible⟩
    · intro j k v w hv hw hp hpw he
      obtain ⟨v₀,_,hv₀,rfl⟩ := hb j v hv
      obtain ⟨w₀,_,hw₀,rfl⟩ := hb k w hw
      exact h.unique j k v₀ w₀ hv₀ hw₀ hp hpw he
    · intro j v hv
      obtain ⟨u,noted,hu,rfl⟩ := hb j v hv
      exact ((h.live j u hu).setNoted noted).of_same rfl rfl rfl (fun _ hr => hr)
  · cases hs

theorem Shared.Safe.clear (h : s.Safe) (hs : s.clear i = some s') : s'.Safe := by
  unfold Shared.clear at hs
  split at hs
  · split at hs <;> cases hs
    exact ⟨h.sorted,h.dense,h.stored,h.unique,
      fun j v hv => (h.live j v hv).of_same rfl rfl rfl (fun _ hr => hr),h.visible⟩
  · cases hs

/-- A writer that dies takes nothing acknowledged with it. -/
theorem Shared.Safe.close (h : s.Safe) (i : Nat) : (s.close i).Safe := by
  by_cases ho : ∃ w, s.writers i = some w ∧ w.phase = .opened
  · obtain ⟨w,hw,hph⟩ := ho
    have hl := h.live i w hw
    have hpa : w.PastFence := .inr (.inl hph)
    have hpw : w.phase ≠ .checked := by simp [hph]
    have hwr : (s.close i).writers =
        Function.update s.writers i (some { w with phase := .closed }) := by
      simp [Shared.close,hw,Option.filter,hph]
    refine h.setWriter hwr
      ⟨w,hw,hpw,rfl⟩ h.sorted h.dense h.stored ?_
      (fun j v _ hv => (h.live j v hv).of_same rfl rfl rfl (fun _ hr => hr)) h.visible
    exact ⟨fun hp => (by cases hp),fun _ => hl.epoch hpw,
      fun hp => (by rcases hp with hp | hp <;> cases hp),
      fun hp => (by rcases hp with hp | hp <;> cases hp),fun _ => hl.cursor hpa,
      fun _ => hl.filled hpa,fun _ => hl.sentinel hpa,fun _ => hl.own hpa,
      fun hp => (by cases hp),fun hp => (by cases hp)⟩
  · refine h.dropWriter (i := i) ?_ rfl
    have hn : ((s.writers i).filter fun w => w.phase = .opened) = none := by
      rw [Option.filter_eq_none_iff]
      intro w hw hp
      exact ho ⟨w,hw,by simpa using hp⟩
    simp [Shared.close,hn]

theorem Shared.Safe.step [DecidableEq ν] (h : s.Safe)
    (ho : s.Settled a) (hs : s.step a = some s') : s'.Safe := by
  cases a with
  | check i log bitr => exact h.check hs
  | claim i => exact h.claim ho hs
  | fence i => exact h.fence hs
  | replay i => exact h.replay hs
  | note i => exact h.leaveNote ho hs
  | put i rows => exact h.put ho hs
  | flush i entries => exact h.flush hs
  | clear i => exact h.clear hs
  | landDelete answered => exact h.landDelete ho hs
  | close i =>
    cases hs
    exact h.close i

end Walleye.Lance
