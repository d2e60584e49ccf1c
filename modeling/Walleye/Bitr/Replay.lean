import Walleye.Bitr.NodeLog
import Walleye.Bitr.Member

namespace Walleye.Bitr

open Walleye.Base

variable {σ β : Type} [DecidableEq σ]

/-! ### Lookups -/

theorem recordAt_append (xs ys : List (EncryptedRecord σ β)) (stream : σ) (lsn : Nat) :
    recordAt (xs ++ ys) stream lsn = (recordAt xs stream lsn).or (recordAt ys stream lsn) := by
  simp [recordAt,List.find?_append]

theorem recordAt_filter
    (h : ∀ r : EncryptedRecord σ β, r.stream = stream → r.lsn = lsn → keep r = b)
    (xs : List (EncryptedRecord σ β)) :
    recordAt (xs.filter keep) stream lsn = if b then recordAt xs stream lsn else none := by
  induction xs with
  | nil => simp [recordAt]
  | cons r rest ih =>
    by_cases hr : r.stream = stream ∧ r.lsn = lsn
    · cases b <;> simp_all [recordAt]
    · by_cases hk : keep r <;> simp_all [recordAt]

theorem recordAt_insertRecord (xs : List (EncryptedRecord σ β)) (r : EncryptedRecord σ β)
    (stream : σ) (lsn : Nat) : recordAt (insertRecord xs r) stream lsn =
      if r.stream = stream ∧ r.lsn = lsn then some r else recordAt xs stream lsn := by
  rw [insertRecord,recordAt_append]
  by_cases hr : r.stream = stream ∧ r.lsn = lsn
  · rw [recordAt_filter (b := false)]
    · simp [recordAt,hr]
    · intro q hs hl
      simp [hr,hs,hl]
  · rw [recordAt_filter (b := true)]
    · simp [recordAt,hr]
    · intro q hs hl
      simp only [hs,hl,decide_eq_true_eq]
      exact fun h => hr ⟨h.1.symm,h.2.symm⟩

variable {r : EncryptedRecord σ β} {a b m m' : NodeMaps σ β}

theorem insertRecord_of_none
    (h : recordAt xs r.stream r.lsn = none) : insertRecord xs r = xs ++ [r] := by
  rw [insertRecord,List.filter_eq_self.mpr]
  intro q hq
  exact decide_eq_true (recordAt_eq_none.mp h q hq)

theorem recordAt_of_mem
    (h : xs.Pairwise fun a b => ¬(a.stream = b.stream ∧ a.lsn = b.lsn)) (hr : r ∈ xs) : recordAt xs r.stream r.lsn = some r := by
  induction h with
  | nil => cases hr
  | cons hx _ ih =>
    rcases List.mem_cons.mp hr with rfl | hr
    · simp [recordAt]
    · have hn := hx r hr
      simpa [recordAt,hn] using ih hr

/-! ### Highest epochs -/

theorem max?_raise {xs ys : List Nat} (h : ∀ x, x ∈ ys ↔ x = e ∨ x ∈ xs) :
    some (xs.max?.elim e (max · e)) = ys.max? := by
  symm
  rw [List.max?_eq_some_iff]
  cases hm : xs.max? with
  | none =>
    have hn : xs = [] := List.max?_eq_none_iff.mp hm
    subst hn
    simp only [List.not_mem_nil,or_false] at h
    exact ⟨(h e).mpr rfl,fun b hb => Nat.le_of_eq ((h b).mp hb)⟩
  | some a =>
    obtain ⟨ha,hl⟩ := List.max?_eq_some_iff.mp hm
    simp only [Option.elim]
    constructor
    · rcases Nat.le_total a e with hae | hae
      · exact (h _).mpr (.inl (Nat.max_eq_right hae))
      · exact (h _).mpr (.inr (by rwa [Nat.max_eq_left hae]))
    · intro b hb
      rcases (h b).mp hb with rfl | hb
      · exact Nat.le_max_right _ _
      · exact Nat.le_trans (hl b hb) (Nat.le_max_left _ _)

theorem max?_congr {xs ys : List Nat} (h : ∀ x, x ∈ xs ↔ x ∈ ys) : xs.max? = ys.max? := by
  cases hm : ys.max? with
  | none =>
    have hn : ys = [] := List.max?_eq_none_iff.mp hm
    subst hn
    exact List.max?_eq_none_iff.mpr (List.eq_nil_iff_forall_not_mem.mpr fun x hx =>
      List.not_mem_nil ((h x).mp hx))
  | some a =>
    obtain ⟨ha,hl⟩ := List.max?_eq_some_iff.mp hm
    exact List.max?_eq_some_iff.mpr ⟨(h a).mpr ha,fun b hb => hl b ((h b).mp hb)⟩

theorem raiseTo_apply (h : σ → Option Nat) (stream other : σ) (epoch : Nat) :
    raiseTo h stream epoch other =
      if other = stream then some ((h stream).elim epoch (max · epoch)) else h other := by
  simp [raiseTo,Function.update_apply]

theorem mem_seenEpochs
    {stream : σ} : x ∈ seenEpochs records trimmed stream ↔
      (∃ r ∈ records, r.stream = stream ∧ r.writerEpoch = x) ∨
        ∃ p, prefixOf trimmed stream = some p ∧ p.writerEpoch = x := by
  simp [seenEpochs,and_assoc]

/-! ### Well-formed maps -/

structure NodeMaps.Wf (m : NodeMaps σ β) : Prop where
  keyed : m.records.Pairwise fun a b => ¬(a.stream = b.stream ∧ a.lsn = b.lsn)
  marked : ∀ stream lsn r, recordAt m.committed stream lsn = some r →
    recordAt m.records stream lsn = some r
  fences : (m.trimmed.map (·.stream)).Nodup
  positive : ∀ p ∈ m.trimmed, p.archivedLsn ≠ 0
  above : ∀ r ∈ m.records, ∀ p, prefixOf m.trimmed r.stream = some p → p.archivedLsn < r.lsn
  epochs : ∀ stream, m.highestEpoch stream = (seenEpochs m.records m.trimmed stream).max?

/-- The same maps. Records and fences are compared with their order; a marker map is
compared by what each key reads. -/
structure NodeMaps.Agrees (a b : NodeMaps σ β) : Prop where
  highestEpoch : a.highestEpoch = b.highestEpoch
  records : a.records = b.records
  committed : ∀ stream lsn, recordAt a.committed stream lsn = recordAt b.committed stream lsn
  trimmed : a.trimmed = b.trimmed

theorem NodeMaps.Agrees.refl (m : NodeMaps σ β) : m.Agrees m := ⟨rfl,rfl,fun _ _ => rfl,rfl⟩

theorem NodeMaps.Agrees.symm (h : a.Agrees b) : b.Agrees a :=
  ⟨h.highestEpoch.symm,h.records.symm,fun stream lsn => (h.committed stream lsn).symm,
    h.trimmed.symm⟩

theorem NodeMaps.Wf.of_agrees (ha : a.Wf) (h : a.Agrees b) : b.Wf where
  keyed := h.records ▸ ha.keyed
  marked stream lsn r hr := by
    rw [← h.records]
    exact ha.marked stream lsn r ((h.committed stream lsn).trans hr)
  fences := h.trimmed ▸ ha.fences
  positive := h.trimmed ▸ ha.positive
  above := by
    rw [← h.records,← h.trimmed]
    exact ha.above
  epochs := by
    rw [← h.records,← h.trimmed,← h.highestEpoch]
    exact ha.epochs

theorem NodeMaps.Wf.agrees (ha : a.Wf) (hb : b.Wf)
    (hr : a.records = b.records) (ht : a.trimmed = b.trimmed)
    (hc : ∀ stream lsn, recordAt a.committed stream lsn = recordAt b.committed stream lsn) :
    a.Agrees b := by
  refine ⟨?_,hr,hc,ht⟩
  funext stream
  rw [ha.epochs,hb.epochs,hr,ht]

theorem NodeMaps.Wf.empty : (NodeMaps.empty : NodeMaps σ β).Wf := by
  constructor <;> simp [NodeMaps.empty,recordAt,seenEpochs,prefixOf]

/-- The maps after a withdrawal are well formed. -/
theorem NodeMaps.Wf.withdrawSuffix (h : m.Wf) (stream : σ) (fromLsn : Nat) :
    (m.withdrawSuffix stream fromLsn).Wf where
  keyed := h.keyed.sublist List.filter_sublist
  marked s lsn r hr := by
    have hk : ∀ q : EncryptedRecord σ β, q.stream = s → q.lsn = lsn →
        decide (q.stream ≠ stream ∨ q.lsn < fromLsn) = decide (s ≠ stream ∨ lsn < fromLsn) := by
      intro q hs hl
      rw [hs,hl]
    simp only [NodeMaps.withdrawSuffix,recordAt_filter hk] at hr ⊢
    split at hr
    · rename_i hb
      rw [if_pos hb]
      exact h.marked s lsn r hr
    · cases hr
  fences := h.fences
  positive := h.positive
  above r hr := h.above r (List.mem_of_mem_filter hr)
  epochs s := by
    simp only [NodeMaps.withdrawSuffix,Function.update_apply]
    split
    · subst s
      rfl
    · rename_i hn
      rw [h.epochs s]
      apply max?_congr
      intro x
      simp only [mem_seenEpochs,List.mem_filter,decide_eq_true_eq]
      constructor
      · rintro (⟨r,hr,hs,hx⟩ | hp)
        · exact .inl ⟨r,⟨hr,.inl (hs ▸ hn)⟩,hs,hx⟩
        · exact .inr hp
      · rintro (⟨r,hr,hs,hx⟩ | hp)
        · exact .inl ⟨r,hr.1,hs,hx⟩
        · exact .inr hp

/-- The maps with one new record are well formed. -/
theorem NodeMaps.Wf.record (h : m.Wf) (hnew : recordAt m.records r.stream r.lsn = none)
    (hab : ∀ p, prefixOf m.trimmed r.stream = some p → p.archivedLsn < r.lsn) :
    NodeMaps.Wf { m with
      highestEpoch := raiseTo m.highestEpoch r.stream r.writerEpoch
      records := m.records ++ [r] } where
  keyed := by
    refine List.pairwise_append.mpr ⟨h.keyed,List.pairwise_singleton _ _,?_⟩
    intro a ha b hb
    rw [List.mem_singleton] at hb
    subst hb
    exact recordAt_eq_none.mp hnew a ha
  marked stream lsn q hq := by
    rw [recordAt_append,h.marked stream lsn q hq]
    rfl
  fences := h.fences
  positive := h.positive
  above q hq := by
    rcases List.mem_append.mp hq with hq | hq
    · exact h.above q hq
    · rw [List.mem_singleton] at hq
      subst hq
      exact hab
  epochs stream := by
    simp only [raiseTo_apply]
    split
    · subst stream
      rw [h.epochs r.stream]
      apply max?_raise
      intro x
      simp only [mem_seenEpochs,List.mem_append,List.mem_singleton]
      constructor
      · rintro (⟨q,hq | rfl,hs,hx⟩ | hp)
        · exact .inr (.inl ⟨q,hq,hs,hx⟩)
        · exact .inl hx.symm
        · exact .inr (.inr hp)
      · rintro (rfl | ⟨q,hq,hs,hx⟩ | hp)
        · exact .inl ⟨r,.inr rfl,rfl,rfl⟩
        · exact .inl ⟨q,.inl hq,hs,hx⟩
        · exact .inr hp
    · rename_i hn
      rw [h.epochs stream]
      apply max?_congr
      intro x
      simp only [mem_seenEpochs,List.mem_append,List.mem_singleton]
      constructor
      · rintro (⟨q,hq,hs,hx⟩ | hp)
        · exact .inl ⟨q,.inl hq,hs,hx⟩
        · exact .inr hp
      · rintro (⟨q,hq | rfl,hs,hx⟩ | hp)
        · exact .inl ⟨q,hq,hs,hx⟩
        · exact absurd hs.symm hn
        · exact .inr hp

theorem NodeMaps.Wf.mark (h : m.Wf) (hr : recordAt m.records r.stream r.lsn = some r) :
    NodeMaps.Wf { m with committed := insertRecord m.committed r } where
  keyed := h.keyed
  marked stream lsn q hq := by
    rw [recordAt_insertRecord] at hq
    split at hq
    · rename_i hk
      cases hq
      rw [← hk.1,← hk.2]
      exact hr
    · exact h.marked stream lsn q hq
  fences := h.fences
  positive := h.positive
  above := h.above
  epochs := h.epochs

theorem NodeMaps.Wf.raise_held (h : m.Wf)
    (hr : r ∈ m.records) : raiseTo m.highestEpoch r.stream r.writerEpoch = m.highestEpoch := by
  funext stream
  rw [raiseTo_apply]
  split
  · subst stream
    rw [h.epochs r.stream]
    apply max?_raise
    intro x
    constructor
    · exact .inr
    · rintro (rfl | hx)
      · exact mem_seenEpochs.mpr (.inl ⟨r,hr,rfl,rfl⟩)
      · exact hx
  · rfl

variable [DecidableEq β]

/-! ### Replay -/

/-- A line that is not a fence. Fences stand at the head of a log only. -/
def LogEntry.isTrim : LogEntry σ β → Bool
  | .trim _ => true
  | _ => false

theorem NodeMaps.replayAll_append (m : NodeMaps σ β) (xs ys : List (LogEntry σ β)) :
    m.replayAll (xs ++ ys) = (m.replayAll xs).bind fun m => m.replayAll ys := by
  induction xs generalizing m with
  | nil => rfl
  | cons e rest ih =>
    simp only [List.cons_append,NodeMaps.replayAll]
    cases m.replay e with
    | error why => rfl
    | ok m' => exact ih m'

/-- Maps that agree replay a line alike. -/
theorem NodeMaps.Agrees.replay (h : a.Agrees b)
    (ha : a.replay e = .ok a') : ∃ b', b.replay e = .ok b' ∧ a'.Agrees b' := by
  obtain ⟨he,hre,hc,ht⟩ := h
  cases e with
  | record r =>
    simp only [NodeMaps.replay,NodeMaps.indexRecord,guard_ok] at ha ⊢
    rw [← he,← hre,← ht]
    obtain ⟨hb,ha⟩ := ha
    cases hat : recordAt a.records r.stream r.lsn with
    | some existing =>
      simp only [hat,guard_ok] at ha ⊢
      obtain ⟨hex,ha⟩ := ha
      cases ha
      exact ⟨_,⟨hb,hex,rfl⟩,rfl,rfl,hc,rfl⟩
    | none =>
      simp only [hat] at ha ⊢
      cases ha
      exact ⟨_,⟨hb,rfl⟩,rfl,rfl,hc,rfl⟩
  | commit r =>
    simp only [NodeMaps.replay] at ha ⊢
    rw [← hre]
    split at ha
    · rename_i hr
      cases ha
      rw [if_pos hr]
      refine ⟨_,rfl,he,rfl,fun stream lsn => ?_,ht⟩
      simp only [recordAt_insertRecord,hc]
    · rename_i hr
      cases ha
      rw [if_neg hr]
      exact ⟨_,rfl,he,hre,hc,ht⟩
  | supersede stream fromLsn epoch =>
    cases ha
    refine ⟨_,rfl,?_,?_,fun s lsn => ?_,ht⟩
    · simp only [NodeMaps.withdrawSuffix,he,hre,ht]
    · simp only [NodeMaps.withdrawSuffix,hre]
    · have hk : ∀ q : EncryptedRecord σ β, q.stream = s → q.lsn = lsn →
          decide (q.stream ≠ stream ∨ q.lsn < fromLsn) = decide (s ≠ stream ∨ lsn < fromLsn) := by
        intro q hs hl
        rw [hs,hl]
      simp only [NodeMaps.withdrawSuffix,recordAt_filter hk,hc]
  | trim p =>
    simp only [NodeMaps.replay,guard_ok] at ha ⊢
    rw [← ht]
    obtain ⟨hba,ha⟩ := ha
    cases ha
    exact ⟨_,⟨hba,rfl⟩,by rw [he],hre,hc,rfl⟩

theorem NodeMaps.Agrees.replayAll (h : a.Agrees b) (ha : a.replayAll entries = .ok a') :
    ∃ b', b.replayAll entries = .ok b' ∧ a'.Agrees b' := by
  induction entries generalizing a b with
  | nil =>
    cases ha
    exact ⟨b,rfl,h⟩
  | cons e rest ih =>
    obtain ⟨m,hm,hr⟩ := Except.bind_eq_ok.mp ha
    obtain ⟨n,hn,hmn⟩ := h.replay hm
    obtain ⟨b',hb',ha'⟩ := ih hmn hr
    exact ⟨b',Except.bind_eq_ok.mpr ⟨n,hn,hb'⟩,ha'⟩

/-- Replaying a line keeps the maps well formed. -/
theorem NodeMaps.Wf.replay (h : m.Wf) (he : e.isTrim = false) (hm : m.replay e = .ok m') : m'.Wf := by
  cases e with
  | record r =>
    simp only [NodeMaps.replay,NodeMaps.indexRecord,guard_ok] at hm
    obtain ⟨hb,hm⟩ := hm
    cases ha : recordAt m.records r.stream r.lsn with
    | some existing =>
      simp only [ha,guard_ok,ne_eq,not_not] at hm
      obtain ⟨rfl,hm⟩ := hm
      rw [h.raise_held (recordAt_eq_some ha).1] at hm
      cases hm
      exact h
    | none =>
      simp only [ha] at hm
      cases hm
      apply h.record ha
      intro p hp
      simpa [hp] using hb
  | commit r =>
    simp only [NodeMaps.replay] at hm
    split at hm
    · rename_i hr
      cases hm
      exact h.mark hr
    · cases hm
      exact h
  | supersede stream fromLsn epoch =>
    cases hm
    exact h.withdrawSuffix stream fromLsn
  | trim p => cases he

theorem NodeMaps.Wf.replayAll (h : m.Wf)
    (he : ∀ e ∈ entries, e.isTrim = false) (hm : m.replayAll entries = .ok m') : m'.Wf := by
  induction entries generalizing m with
  | nil =>
    cases hm
    exact h
  | cons e rest ih =>
    obtain ⟨n,hn,hr⟩ := Except.bind_eq_ok.mp hm
    exact ih (h.replay (he e List.mem_cons_self) hn) (fun e he' => he e (List.mem_cons_of_mem _ he'))
      hr

theorem NodeMaps.replayAll_prefix
    (hp : xs <+: ys) (h : m.replayAll ys = .ok m') : ∃ n, m.replayAll xs = .ok n := by
  obtain ⟨rest,rfl⟩ := hp
  rw [NodeMaps.replayAll_append] at h
  obtain ⟨n,hn,_⟩ := Except.bind_eq_ok.mp h
  exact ⟨n,hn⟩

theorem NodeMaps.replay_record (hn : recordAt m.records r.stream r.lsn = none)
    (ha : ∀ p, prefixOf m.trimmed r.stream = some p → p.archivedLsn < r.lsn) :
    m.replay (.record r) = .ok { m with
      highestEpoch := raiseTo m.highestEpoch r.stream r.writerEpoch
      records := m.records ++ [r] } := by
  have hb : ((prefixOf m.trimmed r.stream).any fun p => decide (r.lsn ≤ p.archivedLsn)) = false := by
    cases hp : prefixOf m.trimmed r.stream with
    | none => rfl
    | some p => simpa using ha p hp
  simp [NodeMaps.replay,NodeMaps.indexRecord,hb,hn]

theorem NodeMaps.replayAll_records
    (hk : fresh.Pairwise fun a b => ¬(a.stream = b.stream ∧ a.lsn = b.lsn))
    (hnew : ∀ r ∈ fresh, recordAt m.records r.stream r.lsn = none)
    (ha : ∀ r ∈ fresh, ∀ p, prefixOf m.trimmed r.stream = some p → p.archivedLsn < r.lsn) :
    m.replayAll (fresh.map .record) = .ok { m with
      highestEpoch := fresh.foldl (fun h r => raiseTo h r.stream r.writerEpoch) m.highestEpoch
      records := m.records ++ fresh } := by
  induction fresh generalizing m with
  | nil => simp [NodeMaps.replayAll]
  | cons r rest ih =>
    obtain ⟨hr,hre⟩ := List.pairwise_cons.mp hk
    obtain ⟨hnewr,hnewre⟩ := List.forall_mem_cons.mp hnew
    obtain ⟨har,hare⟩ := List.forall_mem_cons.mp ha
    simp only [List.map_cons,NodeMaps.replayAll,NodeMaps.replay_record hnewr har,Except.bind]
    refine (ih hre ?_ ?_).trans ?_
    · intro q hq
      have hn : ¬(r.stream = q.stream ∧ r.lsn = q.lsn) := hr q hq
      rw [recordAt_append,hnewre q hq]
      simp [recordAt,hn]
    · exact hare
    · simp

theorem NodeMaps.replay_commit (hh : recordAt m.records r.stream r.lsn = some r)
    (hn : recordAt m.committed r.stream r.lsn = none) :
    m.replay (.commit r) = .ok { m with committed := m.committed ++ [r] } := by
  simp [NodeMaps.replay,hh,insertRecord_of_none hn]

theorem NodeMaps.replayAll_commits
    (hk : commits.Pairwise fun a b => ¬(a.stream = b.stream ∧ a.lsn = b.lsn))
    (hh : ∀ r ∈ commits, recordAt m.records r.stream r.lsn = some r)
    (hnew : ∀ r ∈ commits, recordAt m.committed r.stream r.lsn = none) :
    m.replayAll (commits.map .commit) = .ok { m with committed := m.committed ++ commits } := by
  induction commits generalizing m with
  | nil => simp [NodeMaps.replayAll]
  | cons r rest ih =>
    obtain ⟨hr,hre⟩ := List.pairwise_cons.mp hk
    obtain ⟨hhel,hheld⟩ := List.forall_mem_cons.mp hh
    obtain ⟨hnewr,hnewre⟩ := List.forall_mem_cons.mp hnew
    simp only [List.map_cons,NodeMaps.replayAll,NodeMaps.replay_commit hhel hnewr,Except.bind]
    refine (ih hre ?_ ?_).trans ?_
    · exact hheld
    · intro q hq
      have hn : ¬(r.stream = q.stream ∧ r.lsn = q.lsn) := hr q hq
      rw [recordAt_append,hnewre q hq]
      simp [recordAt,hn]
    · simp

end Walleye.Bitr
