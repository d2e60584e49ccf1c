import Walleye.Bitr.Log
import Walleye.Base.Quorum

namespace Walleye.Bitr

open Walleye.Base

variable {σ β : Type} [DecidableEq σ]

/-- The manifest's proof that a record opens the range the cohort holds of its stream. -/
def opens (start : σ → Nat) (r : EncryptedRecord σ β) : Bool :=
  decide (r.lsn = start r.stream ∧ r.committedLsn = start r.stream - 1)

/-- A node and the records it accepted and did not withdraw. Compaction moves the trim
fence and leaves this log alone. -/
structure Tracks (start : σ → Nat) (s : DiskState σ β) (log : List (EncryptedRecord σ β)) :
    Prop where
  hot : ∀ r, r ∈ s.records ↔ r ∈ log ∧ floorOf s.trimmed r.stream < r.lsn
  marked : ∀ r, r ∈ s.committed ↔ r ∈ s.records
  slot : ∀ r ∈ log, ∀ q ∈ log, r.SameSlot q → r = q
  epoch : ∀ r ∈ log, r.writerEpoch ≤ s.highestEpoch r.stream
  trimEpoch : ∀ stream p, prefixOf s.trimmed stream = some p → ∀ r ∈ log, r.stream = stream →
    r.lsn ≤ p.archivedLsn → r.writerEpoch ≤ p.writerEpoch
  ordered : ∀ r ∈ log, ∀ q ∈ log, r.stream = q.stream → r.lsn < q.lsn →
    r.writerEpoch ≤ q.writerEpoch
  dense : ∀ r ∈ log, ∀ n, floorOf s.trimmed r.stream < n → start r.stream ≤ n → n < r.lsn →
    ∃ q ∈ log, q.stream = r.stream ∧ q.lsn = n
  above : ∀ r ∈ log, 0 < r.lsn ∧ start r.stream ≤ r.lsn
  keyed : (s.trimmed.map (·.stream)).Nodup

theorem Tracks.empty (start : σ → Nat) : Tracks start (DiskState.empty : DiskState σ β) [] := by
  constructor <;> simp [DiskState.empty,floorOf,prefixOf]

variable {s s' : DiskState σ β} {log batch fresh : List (EncryptedRecord σ β)}

theorem Tracks.not_newer (h : Tracks start s log) (hr : r ∈ log)
    (hc : c ∈ log) (hs : c.stream = r.stream) (hl : c.lsn ≤ r.lsn) :
    c.writerEpoch ≤ r.writerEpoch := by
  rcases Nat.lt_or_eq_of_le hl with hlt | he
  · exact h.ordered c hc r hr hs hlt
  · rw [h.slot c hc r hr ⟨hs,he⟩]

theorem floorOf_lt (hk : (trimmed.map (·.stream)).Nodup)
    {stream : σ} (hpo : 0 < lsn)
    (ha : ∀ p, prefixOf trimmed stream = some p → p.archivedLsn < lsn) :
    floorOf trimmed stream < lsn := by
  rw [floorOf_eq hk]
  cases hp : prefixOf trimmed stream with
  | none => exact hpo
  | some p => exact ha p hp

/-- A batch a member takes extends its log. -/
theorem Tracks.append (h : Tracks start s log) (ha : s.Appends (opens start) s' batch fresh)
    (hra : ∀ r ∈ batch, start r.stream ≤ r.lsn) : Tracks start s' (log ++ batch) := by
  have hflo : ∀ r ∈ batch, floorOf s.trimmed r.stream < r.lsn := fun r hr =>
    floorOf_lt h.keyed (ha.valid.positive r hr) (ha.above r hr)
  have hf : ∀ r ∈ log, ∀ q ∈ fresh, r.SameSlot q → False := by
    intro r hr q hq hs
    have hl := hflo q (ha.sub q hq)
    have hh : r ∈ s.records := (h.hot r).mpr ⟨hr,by rw [hs.1,hs.2]; exact hl⟩
    exact recordAt_eq_none.mp (ha.absent q hq) r hh hs
  have hba : ∀ r ∈ batch, r ∈ log ∨ r ∈ fresh := fun r hr =>
    (ha.covered r hr).imp_left fun hm => ((h.hot r).mp hm).1
  have hme : ∀ r, r ∈ log ++ batch ↔ r ∈ log ∨ r ∈ fresh := by
    intro r
    rw [List.mem_append]
    exact ⟨fun hr => hr.elim .inl (hba r),Or.imp_right (ha.sub r)⟩
  have he : ∀ r ∈ log, ∀ q ∈ fresh, r.stream = q.stream → r.writerEpoch ≤ q.writerEpoch := by
    intro r hr q hq heq
    calc r.writerEpoch ≤ s.highestEpoch r.stream := h.epoch r hr
      _ = s.highestEpoch q.stream := by rw [heq]
      _ ≤ q.writerEpoch := ha.epoch q (ha.sub q hq)
  refine ⟨?_,?_,?_,?_,?_,?_,?_,?_,?_⟩
  · intro r
    rw [ha.records,ha.trimmed,List.mem_append,hme,h.hot]
    constructor
    · rintro (⟨hr,hl⟩ | hr)
      · exact ⟨.inl hr,hl⟩
      · exact ⟨.inr hr,hflo r (ha.sub r hr)⟩
    · rintro ⟨hr | hr,hl⟩
      · exact .inl ⟨hr,hl⟩
      · exact .inr hr
  · intro r
    rw [ha.records,List.mem_append]
    constructor
    · intro hr
      rcases ha.marked.2.2 r hr with hr | hr
      · exact .inl ((h.marked r).mp hr)
      · exact ha.covered r hr
    · rintro (hr | hr)
      · exact ha.marked.1 r ((h.marked r).mpr hr)
      · exact ha.marked.2.1 r (ha.sub r hr)
  · intro r hr q hq hs
    rcases (hme r).mp hr with hr | hr <;> rcases (hme q).mp hq with hq | hq
    · exact h.slot r hr q hq hs
    · exact (hf r hr q hq hs).elim
    · exact (hf q hq r hr ⟨hs.1.symm,hs.2.symm⟩).elim
    · exact ha.valid.lsn r (ha.sub r hr) q (ha.sub q hq) hs.2
  · intro r hr
    rw [ha.raised]
    obtain ⟨ho,hn⟩ := s.le_raiseEpoch fresh r.stream
    rcases (hme r).mp hr with hr | hr
    · exact Nat.le_trans (h.epoch r hr) ho
    · exact hn r hr rfl
  · intro stream p hp r hr heq hle
    rw [ha.trimmed] at hp
    rcases (hme r).mp hr with hr | hr
    · exact h.trimEpoch stream p hp r hr heq hle
    · exact absurd hle (Nat.not_le_of_lt (ha.above r (ha.sub r hr) p (heq ▸ hp)))
  · intro r hr q hq heq hl
    rcases (hme r).mp hr with hr | hr <;> rcases (hme q).mp hq with hq | hq
    · exact h.ordered r hr q hq heq hl
    · exact he r hr q hq heq
    · have hr' := ha.sub r hr
      obtain ⟨x,hx,hxs,hxl⟩ := h.dense q hq r.lsn (heq ▸ hflo r hr') (heq ▸ hra r hr') hl
      exact (hf x hx r hr ⟨hxs.trans heq.symm,hxl⟩).elim
    · exact Nat.le_of_eq (ha.valid.epoch r (ha.sub r hr) q (ha.sub q hq))
  · rw [ha.trimmed]
    have hd : ∀ k, ∀ r ∈ log ++ batch, r.lsn ≤ k → ∀ n, floorOf s.trimmed r.stream < n →
        start r.stream ≤ n → n < r.lsn → ∃ q ∈ log ++ batch, q.stream = r.stream ∧ q.lsn = n := by
      intro k
      induction k with
      | zero =>
        intro r _ hk n _ _ hl
        omega
      | succ k ih =>
        intro r hr hk n hfl hst hl
        rcases (hme r).mp hr with hr | hr
        · obtain ⟨q,hq,heq⟩ := h.dense r hr n hfl hst hl
          exact ⟨q,List.mem_append_left _ hq,heq⟩
        · rcases ha.linked r hr with h1 | ⟨q,hq,hqs,hql⟩ | ⟨p,hp,hpl⟩ | hb
          · omega
          · have hq' : q ∈ log ++ batch :=
              (hme q).mpr (hq.imp_left fun hm => ((h.hot q).mp hm).1)
            by_cases heq : n = q.lsn
            · exact ⟨q,hq',hqs,heq.symm⟩
            · obtain ⟨x,hx,hxs,hxl⟩ := ih q hq' (by omega) n (by rw [hqs]; exact hfl)
                (by rw [hqs]; exact hst) (by omega)
              exact ⟨x,hx,hxs.trans hqs,hxl⟩
          · rw [floorOf_eq h.keyed,hp] at hfl
            simp only [Option.elim_some] at hfl
            omega
          · have hb' : r.lsn = start r.stream := (of_decide_eq_true hb).1
            omega
    exact fun r hr => hd r.lsn r hr (Nat.le_refl _)
  · intro r hr
    rcases List.mem_append.mp hr with hr | hr
    · exact h.above r hr
    · exact ⟨ha.valid.positive r hr,hra r hr⟩
  · rw [ha.trimmed]
    exact h.keyed

def withdrawn (stream : σ) (lsn : Nat) (log : List (EncryptedRecord σ β)) :
    List (EncryptedRecord σ β) :=
  log.filter fun r => decide (r.stream ≠ stream ∨ r.lsn < lsn)

theorem mem_withdrawn :
    r ∈ withdrawn stream lsn log ↔ r ∈ log ∧ (r.stream ≠ stream ∨ r.lsn < lsn) := by
  simp [withdrawn,List.mem_filter]

/-- A withdrawal takes the same suffix from the member and from its log. -/
theorem Tracks.withdraw (h : Tracks start s log) (stream : σ) (lsn : Nat) :
    Tracks start (s.withdrawSuffix stream lsn) (withdrawn stream lsn log) := by
  have hs : ∀ r ∈ withdrawn stream lsn log, r ∈ log := fun r hr => (mem_withdrawn.mp hr).1
  have hre : ∀ r, r ∈ (s.withdrawSuffix stream lsn).records ↔
      r ∈ s.records ∧ (r.stream ≠ stream ∨ r.lsn < lsn) := fun r => mem_withdrawn
  refine ⟨?_,?_,?_,?_,?_,?_,?_,?_,h.keyed⟩
  · intro r
    rw [hre,mem_withdrawn,h.hot]
    exact and_right_comm
  · intro r
    rw [hre,← h.marked]
    exact mem_withdrawn
  · exact fun r hr q hq => h.slot r (hs r hr) q (hs q hq)
  · intro r hr
    by_cases he : r.stream = stream
    · subst he
      simp only [DiskState.withdrawSuffix,Function.update_self]
      obtain ⟨hf,hl⟩ := le_foldl_max
        ((((s.withdrawSuffix r.stream lsn).records.filter (·.stream = r.stream)).map
          (·.writerEpoch))) ((prefixOf s.trimmed r.stream).elim 0 (·.writerEpoch))
      by_cases hlt : floorOf s.trimmed r.stream < r.lsn
      · have hm := (hre r).mpr ⟨(h.hot r).mpr ⟨hs r hr,hlt⟩,(mem_withdrawn.mp hr).2⟩
        exact hl _ (List.mem_map.mpr ⟨r,List.mem_filter.mpr ⟨hm,by simp⟩,rfl⟩)
      · refine Nat.le_trans ?_ hf
        rw [floorOf_eq h.keyed] at hlt
        cases hp : prefixOf s.trimmed r.stream with
        | none =>
          rw [hp] at hlt
          exact absurd (h.above r (hs r hr)).1 hlt
        | some p =>
          rw [hp] at hlt
          exact h.trimEpoch r.stream p hp r (hs r hr) rfl (by simpa using hlt)
    · simp only [DiskState.withdrawSuffix,Function.update_of_ne he]
      exact h.epoch r (hs r hr)
  · exact fun st p hp r hr => h.trimEpoch st p hp r (hs r hr)
  · exact fun r hr q hq => h.ordered r (hs r hr) q (hs q hq)
  · intro r hr n hfl hst hlt
    obtain ⟨q,hq,hqs,hql⟩ := h.dense r (hs r hr) n hfl hst hlt
    refine ⟨q,mem_withdrawn.mpr ⟨hq,?_⟩,hqs,hql⟩
    rcases (mem_withdrawn.mp hr).2 with hn | hb
    · exact .inl (hqs ▸ hn)
    · exact .inr (by omega)
  · exact fun r hr => h.above r (hs r hr)

structure Retrims (s : DiskState σ β) (prefixes next next' : List (TrimmedPrefix σ)) : Prop where
  keyed : (next.map (·.stream)).Nodup → (next'.map (·.stream)).Nodup
  at_stream : ∀ stream, prefixOf next' stream = prefixOf next stream ∨
    ∃ p ∈ prefixes, p.stream = stream ∧
      (∀ q, prefixOf s.trimmed stream = some q → q.archivedLsn ≤ p.archivedLsn) ∧
      ∃ q, prefixOf next' stream = some q ∧ q.archivedLsn = p.archivedLsn ∧
        s.highestEpoch stream ≤ q.writerEpoch

theorem prefixOf_replace (next : List (TrimmedPrefix σ)) (p : TrimmedPrefix σ) (stream : σ) :
    prefixOf (p :: next.filter (·.stream ≠ p.stream)) stream =
      if p.stream = stream then some p else prefixOf next stream := by
  by_cases he : p.stream = stream
  · simp [prefixOf,he]
  · simp only [prefixOf,List.find?_cons,he,decide_false,List.find?_filter,if_false]
    congr 1
    funext q
    by_cases hq : q.stream = stream
    · simp [hq,Ne.symm he]
    · simp [hq]

variable {prefixes : List (TrimmedPrefix σ)}

/-- Every fence asked for is taken, with an epoch not below any that was seen. -/
theorem nextTrimmed_spec
    (h : s.nextTrimmed prefixes next = .ok next') : Retrims s prefixes next next' := by
  induction prefixes generalizing next with
  | nil =>
    cases h
    exact ⟨fun hk => hk,fun _ => .inl rfl⟩
  | cons p rest ih =>
    simp only [DiskState.nextTrimmed,guard_ok] at h
    obtain ⟨_,hb,h⟩ := h
    have hr := ih h
    refine ⟨fun hk => hr.keyed ?_,fun stream => ?_⟩
    · simp only [List.map_cons,List.nodup_cons,List.mem_map,List.mem_filter]
      refine ⟨?_,(hk.sublist ((List.filter_sublist).map _))⟩
      rintro ⟨q,⟨_,hq⟩,he⟩
      simp [he] at hq
    · rcases hr.at_stream stream with he | ⟨q,hq,hre⟩
      · rw [he,prefixOf_replace]
        by_cases hp : p.stream = stream
        · refine .inr ⟨p,List.mem_cons_self,hp,?_,?_⟩
          · intro q hq
            rw [hp,hq] at hb
            simpa using hb
          · simp only [hp,if_true]
            exact ⟨_,rfl,rfl,by simp only; omega⟩
        · simp [hp]
      · exact .inr ⟨q,List.mem_cons_of_mem _ hq,hre⟩

theorem Retrims.floor_le
    (hr : Retrims s prefixes s.trimmed next') (hk : (s.trimmed.map (·.stream)).Nodup)
    (stream : σ) : floorOf s.trimmed stream ≤ floorOf next' stream := by
  rw [floorOf_eq hk,floorOf_eq (hr.keyed hk)]
  rcases hr.at_stream stream with he | ⟨p,_,_,hb,q,hq,hql,_⟩
  · rw [he]
  · rw [hq]
    cases hp : prefixOf s.trimmed stream with
    | none => exact Nat.zero_le _
    | some old =>
      have := hb old hp
      simp only [Option.elim_some]
      omega

structure DiskState.Compacts (s s' : DiskState σ β) (prefixes : List (TrimmedPrefix σ)) :
    Prop where
  retrims : Retrims s prefixes s.trimmed s'.trimmed
  epoch : ∀ stream, s.highestEpoch stream ≤ s'.highestEpoch stream
  records : ∀ r, r ∈ s'.records ↔
    r ∈ s.records ∧ ∀ p, prefixOf s'.trimmed r.stream = some p → p.archivedLsn < r.lsn
  committed : ∀ r, r ∈ s'.committed ↔
    r ∈ s.committed ∧ ∀ p, prefixOf s'.trimmed r.stream = some p → p.archivedLsn < r.lsn
  maintenance : s'.maintenance = s.maintenance

theorem DiskState.compactArchivedBatch_spec
    (h : s.compactArchivedBatch prefixes = .ok s') : s.Compacts s' prefixes := by
  simp only [DiskState.compactArchivedBatch,Except.bind_eq_ok] at h
  obtain ⟨next,hn,hs⟩ := h
  cases hs
  have hk : ∀ r : EncryptedRecord σ β,
      ((prefixOf next r.stream).all fun p => decide (p.archivedLsn < r.lsn)) = true ↔
        ∀ p, prefixOf next r.stream = some p → p.archivedLsn < r.lsn := by
    intro r
    cases prefixOf next r.stream <;> simp
  refine ⟨nextTrimmed_spec hn,fun stream => ?_,fun r => ?_,fun r => ?_,rfl⟩
  · simp only
    cases prefixOf next stream with
    | none => exact Nat.le_refl _
    | some p => exact Nat.le_max_left _ _
  · rw [← hk]
    exact List.mem_filter
  · rw [← hk]
    exact List.mem_filter

/-- A trim leaves the log as it is. -/
theorem Tracks.compact (h : Tracks start s log) (hc : s.Compacts s' prefixes) : Tracks start s' log := by
  have hkey := hc.retrims.keyed h.keyed
  have hflo := hc.retrims.floor_le h.keyed
  have hk : ∀ r ∈ log, (∀ p, prefixOf s'.trimmed r.stream = some p → p.archivedLsn < r.lsn) ↔
      floorOf s'.trimmed r.stream < r.lsn := by
    intro r hr
    refine ⟨floorOf_lt hkey (h.above r hr).1,fun hl p hp => ?_⟩
    rw [floorOf_eq hkey,hp] at hl
    exact hl
  refine ⟨?_,?_,h.slot,?_,?_,h.ordered,?_,h.above,hkey⟩
  · intro r
    rw [hc.records,h.hot]
    constructor
    · rintro ⟨⟨hr,_⟩,hkee⟩
      exact ⟨hr,(hk r hr).mp hkee⟩
    · rintro ⟨hr,hl⟩
      exact ⟨⟨hr,Nat.lt_of_le_of_lt (hflo r.stream) hl⟩,(hk r hr).mpr hl⟩
  · intro r
    rw [hc.records,hc.committed,h.marked]
  · exact fun r hr => Nat.le_trans (h.epoch r hr) (hc.epoch r.stream)
  · intro stream p hp r hr he hle
    rcases hc.retrims.at_stream stream with ho | ⟨_,_,_,_,q,hq,_,hqe⟩
    · exact h.trimEpoch stream p (ho ▸ hp) r hr he hle
    · rw [hq,Option.some.injEq] at hp
      subst hp
      exact Nat.le_trans (he ▸ h.epoch r hr) hqe
  · exact fun r hr n hf => h.dense r hr n (Nat.lt_of_le_of_lt (hflo r.stream) hf)

end Walleye.Bitr
