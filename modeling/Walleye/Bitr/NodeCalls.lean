import Walleye.Bitr.Replay

namespace Walleye.Bitr

open Walleye.Base

variable {σ β : Type} [DecidableEq σ]

/-! ### The maps a call leaves -/

theorem raiseTo_eq (h : σ → Option Nat) (stream : σ) (epoch : Nat) :
    raiseTo h stream epoch =
      Function.update h stream (some (max epoch ((h stream).getD 0))) := by
  unfold raiseTo
  congr 2
  cases h stream with
  | none => simp
  | some a => simp [Nat.max_comm]

variable {next prefixes : List (TrimmedPrefix σ)} {batch : List (EncryptedRecord σ β)}
  {s : DiskState σ β} {m m' : NodeMaps σ β} {fence token : Option MaintenanceFence}
  {boundary : EncryptedRecord σ β → Bool}

theorem foldl_fences (f : Option Nat → TrimmedPrefix σ → Option Nat)
    (hk : (next.map (·.stream)).Nodup) (h : σ → Option Nat) (stream : σ) :
    next.foldl (fun h p => Function.update h p.stream (f (h p.stream) p)) h stream =
      (prefixOf next stream).elim (h stream) (f (h stream)) := by
  induction next generalizing h with
  | nil => rfl
  | cons p rest ih =>
    simp only [List.map_cons,List.nodup_cons] at hk
    rw [List.foldl_cons,ih hk.2]
    by_cases hp : p.stream = stream
    · have hn : prefixOf rest stream = none := by
        apply List.find?_eq_none.mpr
        intro q hq
        simp only [decide_eq_true_eq]
        intro he
        exact hk.1 (List.mem_map.mpr ⟨q,hq,he.trans hp.symm⟩)
      have hc : prefixOf (p :: rest) stream = some p := by simp [prefixOf,hp]
      rw [hn,hc]
      simp [hp]
    · have hc : prefixOf (p :: rest) stream = prefixOf rest stream := by simp [prefixOf,hp]
      rw [hc,Function.update_of_ne (Ne.symm hp)]

theorem keyed_of_sublist {added : List (EncryptedRecord σ β)}
    (hv : validateAppendBatch batch = .ok ()) (hs : added.Sublist batch) :
    added.Pairwise fun a b => ¬(a.stream = b.stream ∧ a.lsn = b.lsn) := by
  apply ((validateAppendBatch_sorted hv).sublist hs).imp
  intro a b hl he
  omega

theorem nextTrimmed_positive
    (h : s.nextTrimmed prefixes next = .ok next') (hn : ∀ p ∈ next, p.archivedLsn ≠ 0) :
    ∀ p ∈ next', p.archivedLsn ≠ 0 := by
  induction prefixes generalizing next with
  | nil =>
    cases h
    exact hn
  | cons p rest ih =>
    simp only [DiskState.nextTrimmed,guard_ok] at h
    obtain ⟨hp,_,h⟩ := h
    apply ih h
    intro q hq
    rcases List.mem_cons.mp hq with rfl | hq
    · exact hp
    · exact hn q (List.mem_of_mem_filter hq)

def NodeMaps.compacted (m : NodeMaps σ β) (next : List (TrimmedPrefix σ)) : NodeMaps σ β :=
  let keep := fun r : EncryptedRecord σ β =>
    (prefixOf next r.stream).all fun p => decide (p.archivedLsn < r.lsn)
  ⟨next.foldl (fun h p => raiseTo h p.stream p.writerEpoch) m.highestEpoch,
    m.records.filter keep, m.committed.filter keep, next⟩

/-- After a compaction the highest epochs are those of the records kept and the fences: a moved
fence covers every epoch seen, one that stayed kept every record. -/
theorem NodeMaps.Wf.compacted_epochs (h : m.Wf)
    (hr : Retrims (m.disk fence) prefixes m.trimmed next)
    (stream : σ) : (m.compacted next).highestEpoch stream =
      (seenEpochs (m.compacted next).records next stream).max? := by
  have hf := foldl_fences (fun o p => some (o.elim p.writerEpoch (max · p.writerEpoch)))
    (hr.keyed h.fences) m.highestEpoch stream
  refine hf.trans ?_
  have hst : prefixOf next stream = prefixOf m.trimmed stream →
      ∀ r ∈ m.records, r.stream = stream → r ∈ (m.compacted next).records := by
    intro he r hre hs
    apply List.mem_filter.mpr
    refine ⟨hre,?_⟩
    rw [hs,he]
    cases hp : prefixOf m.trimmed stream with
    | none => rfl
    | some p => simpa using h.above r hre p (hs ▸ hp)
  cases hp : prefixOf next stream with
  | none =>
    have he : prefixOf next stream = prefixOf m.trimmed stream := by
      rcases hr.at_stream stream with he | ⟨_,_,_,_,q,hq,_⟩
      · exact he
      · rw [hp] at hq
        cases hq
    simp only [Option.elim]
    rw [h.epochs stream]
    apply max?_congr
    intro x
    simp only [mem_seenEpochs,← he]
    constructor
    · rintro (⟨r,hre,hs,hx⟩ | hx)
      · exact .inl ⟨r,hst he r hre hs,hs,hx⟩
      · exact .inr hx
    · rintro (⟨r,hre,hs,hx⟩ | hx)
      · exact .inl ⟨r,List.mem_of_mem_filter hre,hs,hx⟩
      · exact .inr hx
  | some p =>
    simp only [Option.elim]
    rcases hr.at_stream stream with he | ⟨_,_,_,_,q,hq,_,hc⟩
    · rw [h.epochs stream]
      apply max?_raise
      intro x
      simp only [mem_seenEpochs,← he,hp]
      constructor
      · rintro (⟨r,hre,hs,hx⟩ | hx)
        · exact .inr (.inl ⟨r,List.mem_of_mem_filter hre,hs,hx⟩)
        · exact .inr (.inr hx)
      · rintro (rfl | ⟨r,hre,hs,hx⟩ | hx)
        · exact .inr ⟨p,rfl,rfl⟩
        · exact .inl ⟨r,hst he r hre hs,hs,hx⟩
        · exact .inr hx
    · cases hp.symm.trans hq
      have hse : ∀ x ∈ seenEpochs m.records m.trimmed stream, x ≤ p.writerEpoch := by
        intro x hx
        cases hm : m.highestEpoch stream with
        | none =>
          rw [h.epochs stream,List.max?_eq_none_iff] at hm
          rw [hm] at hx
          cases hx
        | some a =>
          have hl := (List.max?_eq_some_iff.mp ((h.epochs stream).symm.trans hm)).2 x hx
          simp only [NodeMaps.disk,hm,Option.getD_some] at hc
          exact Nat.le_trans hl hc
      have hma : (seenEpochs (m.compacted next).records next stream).max? = some p.writerEpoch := by
        apply List.max?_eq_some_iff.mpr
        refine ⟨mem_seenEpochs.mpr (.inr ⟨p,hp,rfl⟩),?_⟩
        intro x hx
        rcases mem_seenEpochs.mp hx with ⟨r,hre,hs,hx⟩ | ⟨q,hq,hx⟩
        · exact hse x (mem_seenEpochs.mpr (.inl ⟨r,List.mem_of_mem_filter hre,hs,hx⟩))
        · rw [hp] at hq
          cases hq
          exact Nat.le_of_eq hx.symm
      rw [hma]
      cases hm : m.highestEpoch stream with
      | none => rfl
      | some a =>
        simp only [NodeMaps.disk,hm,Option.getD_some] at hc
        simp [Nat.max_eq_right hc]

/-- The maps after a compaction are well formed. -/
theorem NodeMaps.Wf.compacted (h : m.Wf)
    (hn : (m.disk fence).nextTrimmed prefixes m.trimmed = .ok next) : (m.compacted next).Wf where
  keyed := h.keyed.sublist List.filter_sublist
  marked stream lsn r hr := by
    have hk : ∀ q : EncryptedRecord σ β, q.stream = stream → q.lsn = lsn →
        ((prefixOf next q.stream).all fun p => decide (p.archivedLsn < q.lsn)) =
          (prefixOf next stream).all fun p => decide (p.archivedLsn < lsn) := by
      intro q hs hl
      rw [hs,hl]
    simp only [NodeMaps.compacted,recordAt_filter hk] at hr ⊢
    split at hr
    · rename_i hb
      rw [if_pos hb]
      exact h.marked stream lsn r hr
    · cases hr
  fences := (nextTrimmed_spec hn).keyed h.fences
  positive := nextTrimmed_positive hn h.positive
  above r hr p hp := by
    have hk := (List.mem_filter.mp hr).2
    have hp' : prefixOf next r.stream = some p := hp
    simpa [hp'] using hk
  epochs := h.compacted_epochs (nextTrimmed_spec hn)

theorem fenced_wf (hk : (next.map (·.stream)).Nodup)
    (hpo : ∀ p ∈ next, p.archivedLsn ≠ 0) : NodeMaps.Wf (β := β)
      ⟨next.foldl (fun h p => Function.update h p.stream (some p.writerEpoch)) fun _ => none,
        [],[],next⟩ where
  keyed := .nil
  marked := by simp [recordAt]
  fences := hk
  positive := hpo
  above := by simp
  epochs stream := by
    have hf := foldl_fences (fun _ p => some p.writerEpoch) hk (fun _ => none) stream
    refine hf.trans ?_
    cases hp : prefixOf next stream with
    | none => simp [seenEpochs,hp]
    | some p => simp [seenEpochs,hp]

theorem getD_foldl_raiseTo (fresh : List (EncryptedRecord σ β)) (h : σ → Option Nat) (stream : σ) :
    (fresh.foldl (fun h r => raiseTo h r.stream r.writerEpoch) h stream).getD 0 =
      ((fresh.filter (·.stream = stream)).map (·.writerEpoch)).foldl max ((h stream).getD 0) := by
  induction fresh generalizing h with
  | nil => rfl
  | cons r rest ih =>
    rw [List.foldl_cons,ih,raiseTo_eq,Function.update_apply]
    by_cases hs : r.stream = stream
    · simp [hs,Nat.max_comm]
    · simp [hs,Ne.symm hs]

theorem getD_max? (xs : List Nat) : xs.max?.getD 0 = xs.foldl max 0 := by
  cases xs with
  | nil => rfl
  | cons x rest => simp only [List.max?_cons',List.foldl_cons,Nat.zero_max,Option.getD_some]

theorem getD_max?_seenEpochs (records : List (EncryptedRecord σ β))
    (trimmed : List (TrimmedPrefix σ)) (stream : σ) :
    (seenEpochs records trimmed stream).max?.getD 0 =
      ((records.filter (·.stream = stream)).map (·.writerEpoch)).foldl max
        ((prefixOf trimmed stream).elim 0 (·.writerEpoch)) := by
  rw [getD_max?,seenEpochs,List.foldl_append]
  cases prefixOf trimmed stream with
  | none => rfl
  | some p =>
    have ha (xs : List Nat) : xs.foldl max (max p.writerEpoch 0) =
        max p.writerEpoch (xs.foldl max 0) := List.foldl_assoc
    simpa [Nat.max_comm] using (ha _).symm

variable [DecidableEq β]

theorem DiskState.checkNew_sublist (h : s.checkNew boundary batch fresh = .ok fresh') :
    ∃ added, fresh' = fresh ++ added ∧ added.Sublist batch := by
  induction batch generalizing fresh with
  | nil =>
    cases h
    exact ⟨[],by simp,List.Sublist.refl _⟩
  | cons r rest ih =>
    simp only [DiskState.checkNew,guard_ok] at h
    obtain ⟨_,_,h⟩ := h
    split at h
    · simp only [guard_ok] at h
      obtain ⟨added,he,hs⟩ := ih h.2
      exact ⟨added,he,hs.cons r⟩
    · simp only [guard_ok] at h
      obtain ⟨added,he,hs⟩ := ih h.2
      exact ⟨r :: added,by simp [he],hs.cons_cons r⟩

theorem DiskState.checkCommits_sublist (h : s.checkCommits fresh batch commits = .ok commits') :
    ∃ added, commits' = commits ++ added ∧ added.Sublist batch ∧
      ∀ r ∈ added, recordAt s.committed r.stream r.lsn = none ∧
        (recordAt s.records r.stream r.lsn = some r ∨ r ∈ fresh) := by
  induction batch generalizing commits with
  | nil =>
    cases h
    exact ⟨[],by simp,List.Sublist.refl _,by simp⟩
  | cons r rest ih =>
    simp only [DiskState.checkCommits] at h
    split at h
    · obtain ⟨added,he,hs,ha⟩ := ih h
      exact ⟨added,he,hs.cons r,ha⟩
    · split at h
      · simp only [guard_ok] at h
        obtain ⟨added,he,hs,ha⟩ := ih h.2
        exact ⟨added,he,hs.cons r,ha⟩
      · rename_i hn
        simp only [guard_ok,not_and,not_not] at h
        obtain ⟨hh,h⟩ := h
        obtain ⟨added,he,hs,ha⟩ := ih h
        refine ⟨r :: added,by simp [he],hs.cons_cons r,?_⟩
        refine List.forall_mem_cons.mpr ⟨⟨hn,?_⟩,ha⟩
        by_cases hat : recordAt s.records r.stream r.lsn = some r
        · exact .inl hat
        · exact .inr (hh hat)

/-! ### Appended lines -/

theorem NodeMaps.append_extend (h : m.append fence boundary token r = .ok (m',w)) :
    ∃ entries, w = .extend entries ∧ m.replayAll entries = .ok m' ∧
      ∀ e ∈ entries, e.isTrim = false := by
  obtain ⟨d,hd,h⟩ := Except.bind_eq_ok.mp h
  simp only [DiskState.append,guard_ok] at hd
  obtain ⟨_,_,_,ht,_⟩ := hd
  cases ha : recordAt m.records r.stream r.lsn with
  | some existing =>
    simp only [ha] at h
    cases h
    exact ⟨[],rfl,rfl,by simp⟩
  | none =>
    simp only [ha] at h
    cases h
    refine ⟨[.record r],rfl,?_,by simp [LogEntry.isTrim]⟩
    have hr := NodeMaps.replay_record ha (m := m) (by
      intro p hp
      have hpd : prefixOf (m.disk fence).trimmed r.stream = some p := hp
      simpa [hpd] using ht)
    simp only [NodeMaps.replayAll,hr,Except.bind,raiseTo_eq]

/-- A batch append writes the lines that replay to its maps, none of them a trim. -/
theorem NodeMaps.appendMany_extend {commit : Bool}
    (h : m.appendMany fence boundary token commit batch = .ok (m',w)) :
    ∃ entries, w = .extend entries ∧ m.replayAll entries = .ok m' ∧
      ∀ e ∈ entries, e.isTrim = false := by
  simp only [NodeMaps.appendMany,Except.bind_eq_ok,guard_ok] at h
  obtain ⟨_,hv,_,fresh,hn,commits,hco,h⟩ := h
  cases h
  refine ⟨_,rfl,?_,?_⟩
  · obtain ⟨hc,_,ha⟩ := DiskState.checkNew_spec hn
    obtain ⟨_,rfl,hs⟩ := DiskState.checkNew_sublist hn
    have hk := keyed_of_sublist hv hs
    have habs : ∀ r ∈ fresh, recordAt m.records r.stream r.lsn = none := fun r hr =>
      ((ha r hr).resolve_left List.not_mem_nil).2.1
    have hab : ∀ r ∈ fresh, ∀ p, prefixOf m.trimmed r.stream = some p →
        p.archivedLsn < r.lsn := fun r hr => hc.above r (hs.subset hr)
    rw [NodeMaps.replayAll_append,NodeMaps.replayAll_records hk habs hab]
    obtain ⟨marks,heq,hm,hma⟩ : ∃ marks, commits = marks ∧ marks.Sublist batch ∧
        ∀ r ∈ marks, recordAt m.committed r.stream r.lsn = none ∧
          (recordAt m.records r.stream r.lsn = some r ∨ r ∈ fresh) := by
      cases commit with
      | true =>
        obtain ⟨marks,heq,hm,hma⟩ := DiskState.checkCommits_sublist hco
        exact ⟨marks,by simpa using heq,hm,hma⟩
      | false =>
        cases hco
        exact ⟨[],rfl,List.nil_sublist _,by simp⟩
    subst heq
    simp only [Except.bind]
    apply NodeMaps.replayAll_commits (keyed_of_sublist hv hm)
    · intro r hr
      rw [recordAt_append]
      rcases (hma r hr).2 with hh | hf
      · simp [hh]
      · rw [habs r hf,recordAt_of_mem hk hf]
        rfl
    · exact fun r hr => (hma r hr).1
  · intro e he
    simp only [List.mem_append,List.mem_map] at he
    rcases he with ⟨r,_,rfl⟩ | ⟨r,_,rfl⟩ <;> rfl

theorem NodeMaps.commit_extend (h : m.commit fence token r = .ok (m',w)) :
    ∃ entries, w = .extend entries ∧ m.replayAll entries = .ok m' ∧
      ∀ e ∈ entries, e.isTrim = false := by
  obtain ⟨d,hd,h⟩ := Except.bind_eq_ok.mp h
  by_cases hb : (prefixOf m.trimmed r.stream).any fun p => decide (r.lsn ≤ p.archivedLsn)
  · simp only [hb,if_true] at h
    cases h
    exact ⟨[],rfl,rfl,by simp⟩
  · have hb' : ¬((prefixOf (m.disk fence).trimmed r.stream).any fun p =>
        decide (r.lsn ≤ p.archivedLsn)) = true := hb
    simp only [DiskState.commit,guard_ok,if_neg hb',ne_eq,not_not] at hd
    obtain ⟨_,_,hh,_⟩ := hd
    simp only [hb] at h
    cases ha : recordAt m.committed r.stream r.lsn with
    | some marked =>
      simp only [ha] at h
      cases h
      exact ⟨[],rfl,rfl,by simp⟩
    | none =>
      simp only [ha] at h
      cases h
      refine ⟨[.commit r],rfl,?_,by simp [LogEntry.isTrim]⟩
      simp [NodeMaps.replayAll,NodeMaps.replay_commit hh ha,Except.bind]

theorem NodeMaps.supersede_extend
    (h : m.supersede fence stream fromLsn writerEpoch = .ok (m',w)) :
    ∃ entries, w = .extend entries ∧ m.replayAll entries = .ok m' ∧
      ∀ e ∈ entries, e.isTrim = false := by
  obtain ⟨d,hd,h⟩ := Except.bind_eq_ok.mp h
  split at h
  · cases h
    exact ⟨_,rfl,rfl,by simp [LogEntry.isTrim]⟩
  · cases h
    exact ⟨[],rfl,rfl,by simp⟩

/-! ### A compacted log -/

theorem NodeMaps.replayAll_trims (m : NodeMaps σ β)
    (hk : ((m.trimmed ++ next).map (·.stream)).Nodup) (hpo : ∀ p ∈ next, p.archivedLsn ≠ 0) :
    m.replayAll (next.map .trim) = .ok { m with
      highestEpoch := next.foldl
        (fun h p => Function.update h p.stream (some p.writerEpoch)) m.highestEpoch
      trimmed := m.trimmed ++ next } := by
  induction next generalizing m with
  | nil => simp [NodeMaps.replayAll]
  | cons p rest ih =>
    obtain ⟨hp,hr⟩ := List.forall_mem_cons.mp hpo
    have hn : prefixOf m.trimmed p.stream = none := by
      apply List.find?_eq_none.mpr
      intro q hq
      simp only [decide_eq_true_eq]
      intro he
      simp only [List.map_append,List.map_cons,List.nodup_append] at hk
      exact hk.2.2 q.stream (List.mem_map.mpr ⟨q,hq,rfl⟩) p.stream List.mem_cons_self he
    simp only [List.map_cons,NodeMaps.replayAll,NodeMaps.replay,hp,hn,Option.isSome_none,
      Bool.false_eq_true,or_self,if_false,Except.bind]
    refine (ih _ ?_ hr).trans ?_
    · simpa using hk
    · simp

/-- The retained lines of a compacted log replay one by one. -/
theorem NodeMaps.replayAll_retained (committed : List (EncryptedRecord σ β))
    (hk : retained.Pairwise fun a b => ¬(a.stream = b.stream ∧ a.lsn = b.lsn))
    (hnew : ∀ r ∈ retained, recordAt m.records r.stream r.lsn = none ∧
      recordAt m.committed r.stream r.lsn = none)
    (ha : ∀ r ∈ retained, ∀ p, prefixOf m.trimmed r.stream = some p → p.archivedLsn < r.lsn) :
    ∃ n, m.replayAll (retained.flatMap fun r =>
        if recordAt committed r.stream r.lsn = some r then [.record r,.commit r]
        else [.record r]) = .ok n ∧
      n.records = m.records ++ retained ∧ n.trimmed = m.trimmed ∧
      n.committed = m.committed ++
        retained.filter fun r => decide (recordAt committed r.stream r.lsn = some r) := by
  induction retained generalizing m with
  | nil => exact ⟨m,rfl,by simp⟩
  | cons r rest ih =>
    obtain ⟨hr,hre⟩ := List.pairwise_cons.mp hk
    obtain ⟨hnewr,hnewre⟩ := List.forall_mem_cons.mp hnew
    obtain ⟨har,hare⟩ := List.forall_mem_cons.mp ha
    have ho : ∀ (xs : List (EncryptedRecord σ β)), ∀ q ∈ rest,
        recordAt xs q.stream q.lsn = none → recordAt (xs ++ [r]) q.stream q.lsn = none := by
      intro xs q hq hx
      have hne := hr q hq
      rw [recordAt_append,hx]
      simp [recordAt,hne]
    have hh : recordAt (m.records ++ [r]) r.stream r.lsn = some r := by
      rw [recordAt_append,hnewr.1]
      simp [recordAt]
    simp only [List.flatMap_cons,NodeMaps.replayAll_append]
    by_cases hm : recordAt committed r.stream r.lsn = some r
    · have hc := NodeMaps.replay_commit (m := ⟨raiseTo m.highestEpoch r.stream r.writerEpoch,
        m.records ++ [r],m.committed,m.trimmed⟩) hh hnewr.2
      simp only [hm,if_true,NodeMaps.replayAll,NodeMaps.replay_record hnewr.1 har,
        Except.bind,hc]
      obtain ⟨n,hn,h1,h2,h3⟩ := ih (m := ⟨raiseTo m.highestEpoch r.stream r.writerEpoch,
        m.records ++ [r],m.committed ++ [r],m.trimmed⟩) hre
        (fun q hq => ⟨ho _ q hq (hnewre q hq).1,ho _ q hq (hnewre q hq).2⟩) hare
      exact ⟨n,hn,by simp [h1],h2,by simp [h3,hm]⟩
    · simp only [hm,if_false,NodeMaps.replayAll,NodeMaps.replay_record hnewr.1 har,
        Except.bind]
      obtain ⟨n,hn,h1,h2,h3⟩ := ih (m := ⟨raiseTo m.highestEpoch r.stream r.writerEpoch,
        m.records ++ [r],m.committed,m.trimmed⟩) hre
        (fun q hq => ⟨ho _ q hq (hnewre q hq).1,(hnewre q hq).2⟩) hare
      exact ⟨n,hn,by simp [h1],h2,by simp [h3,hm]⟩

/-- A compacted log reads back as the maps it was written from. -/
theorem NodeMaps.Wf.replay_compacted (h : m.Wf)
    (hne : (m.disk fence).nextTrimmed prefixes m.trimmed = .ok next) :
    ∃ n, NodeMaps.empty.replayAll
        (compactedLog next (m.compacted next).records m.committed) = .ok n ∧
      n.Agrees (m.compacted next) := by
  have hw := h.compacted hne
  have hkey : (((NodeMaps.empty : NodeMaps σ β).trimmed ++ next).map (·.stream)).Nodup := by
    simpa [NodeMaps.empty] using (nextTrimmed_spec hne).keyed h.fences
  have ht := NodeMaps.empty.replayAll_trims hkey hw.positive
  obtain ⟨n,hn,hre,htri,hc⟩ := NodeMaps.replayAll_retained
    (m := ⟨next.foldl (fun h p => Function.update h p.stream (some p.writerEpoch)) fun _ => none,
      [],[],next⟩) m.committed hw.keyed (by simp [recordAt]) hw.above
  refine ⟨n,?_,?_⟩
  · rw [compactedLog,NodeMaps.replayAll_append,ht]
    simpa [NodeMaps.empty,Except.bind] using hn
  · have hnw : n.Wf := by
      apply (fenced_wf hw.fences hw.positive).replayAll _ hn
      intro e he
      obtain ⟨r,_,he⟩ := List.mem_flatMap.mp he
      split at he
      · simp only [List.mem_cons,List.not_mem_nil,or_false] at he
        rcases he with rfl | rfl <;> rfl
      · simp only [List.mem_singleton] at he
        subst he
        rfl
    apply hnw.agrees hw (by simpa using hre) htri
    intro stream lsn
    rw [hc,List.nil_append]
    cases ha : recordAt m.committed stream lsn with
    | none =>
      have hno : recordAt (m.compacted next).committed stream lsn = none := by
        apply recordAt_eq_none.mpr
        intro r hr
        exact recordAt_eq_none.mp ha r (List.mem_of_mem_filter hr)
      rw [hno]
      apply recordAt_eq_none.mpr
      intro r hr hke
      have hm : recordAt m.committed r.stream r.lsn = some r := by
        simpa using (List.mem_filter.mp hr).2
      rw [hke.1,hke.2,ha] at hm
      cases hm
    | some r =>
      obtain ⟨_,rfl,rfl⟩ := recordAt_eq_some ha
      obtain ⟨hh,_,_⟩ := recordAt_eq_some (h.marked _ _ r ha)
      have hkee : ∀ q : EncryptedRecord σ β, q.stream = r.stream → q.lsn = r.lsn →
          ((prefixOf next q.stream).all fun p => decide (p.archivedLsn < q.lsn)) =
            (prefixOf next r.stream).all fun p => decide (p.archivedLsn < r.lsn) := by
        intro q hs hl
        rw [hs,hl]
      simp only [NodeMaps.compacted,recordAt_filter hkee,ha]
      split
      · rename_i hk
        apply recordAt_of_mem ((h.keyed.sublist List.filter_sublist).sublist List.filter_sublist)
        apply List.mem_filter.mpr
        refine ⟨List.mem_filter.mpr ⟨hh,hk⟩,?_⟩
        simpa using ha
      · rename_i hk
        apply recordAt_eq_none.mpr
        intro q hq hke
        have hqk := (List.mem_filter.mp (List.mem_of_mem_filter hq)).2
        rw [hkee q hke.1 hke.2] at hqk
        exact hk hqk

theorem NodeMaps.compactArchivedBatch_cases
    (h : m.compactArchivedBatch fence prefixes = .ok (m',w)) :
    (m' = m ∧ w = .extend []) ∨ ∃ next,
      (m.disk fence).nextTrimmed prefixes m.trimmed = .ok next ∧ m' = m.compacted next ∧
      w = .rewrite (compactedLog next (m.compacted next).records m.committed) := by
  unfold NodeMaps.compactArchivedBatch at h
  split at h
  · cases h
    exact .inl ⟨rfl,rfl⟩
  · obtain ⟨next,hn,h⟩ := Except.bind_eq_ok.mp h
    simp only at h
    split at h
    · cases h
      exact .inl ⟨rfl,rfl⟩
    · cases h
      exact .inr ⟨next,hn,rfl,rfl⟩

/-! ### Every call -/

/-- What a call leaves is what its lines read back: appended lines continue from the maps
before it, and a rewritten log starts from nothing. -/
theorem NodeMaps.Wf.call (h : m.Wf) (hc : m.call fence c = .ok (m',w)) :
    (∃ entries, w = .extend entries ∧ m.replayAll entries = .ok m' ∧
      ∀ e ∈ entries, e.isTrim = false) ∨
    ∃ entries n, w = .rewrite entries ∧ NodeMaps.empty.replayAll entries = .ok n ∧
      n.Agrees m' ∧ m'.Wf := by
  cases c with
  | append boundary token r => exact .inl (NodeMaps.append_extend hc)
  | appendMany boundary token commit batch => exact .inl (NodeMaps.appendMany_extend hc)
  | commit token r => exact .inl (NodeMaps.commit_extend hc)
  | supersede stream fromLsn epoch => exact .inl (NodeMaps.supersede_extend hc)
  | compactArchivedBatch prefixes =>
    rcases NodeMaps.compactArchivedBatch_cases hc with ⟨rfl,rfl⟩ | ⟨next,hne,rfl,rfl⟩
    · exact .inl ⟨[],rfl,rfl,by simp⟩
    · obtain ⟨n,hn,ha⟩ := h.replay_compacted hne
      exact .inr ⟨_,n,rfl,hn,ha,h.compacted hne⟩

theorem NodeMaps.Wf.call_extend (h : m.Wf) (hc : m.call fence c = .ok (m',.extend entries)) :
    m.replayAll entries = .ok m' ∧ ∀ e ∈ entries, e.isTrim = false := by
  rcases h.call hc with ⟨_,hw,hr⟩ | ⟨_,_,hw,_⟩
  · cases hw
    exact hr
  · cases hw

theorem NodeMaps.Wf.call_rewrite (h : m.Wf) (hc : m.call fence c = .ok (m',.rewrite entries)) :
    m'.Wf ∧ ∃ n, NodeMaps.empty.replayAll entries = .ok n ∧ n.Agrees m' := by
  rcases h.call hc with ⟨_,hw,_⟩ | ⟨_,n,hw,hr,ha,hwf⟩
  · cases hw
  · cases hw
    exact ⟨hwf,n,hr,ha⟩

def DiskState.call (s : DiskState σ β) : NodeCall σ β → Except ReplicaError (DiskState σ β)
  | .append boundary token r => s.append boundary token r
  | .appendMany boundary token commit batch => s.appendMany boundary token commit batch
  | .commit token r => s.commit token r
  | .supersede stream fromLsn writerEpoch => s.supersede stream fromLsn writerEpoch
  | .compactArchivedBatch prefixes => s.compactArchivedBatch prefixes

def NodeCall.idle : NodeCall σ β → LogWrite σ β → Bool
  | .compactArchivedBatch _, .extend [] => true
  | _, _ => false

theorem NodeMaps.append_disk (hc : m.append fence boundary token r = .ok (m',w)) :
    (m.disk fence).append boundary token r = .ok (m'.disk fence) := by
  obtain ⟨d,hd,hc⟩ := Except.bind_eq_ok.mp hc
  refine hd.trans ?_
  delta NodeMaps.disk at hd ⊢
  simp only [DiskState.append,guard_ok] at hd
  obtain ⟨_,_,_,_,hd⟩ := hd
  split at hd <;> rename_i ha <;> simp only [ha,guard_ok] at hd hc <;> cases hc
  · exact hd.2.symm
  · refine hd.2.symm.trans ?_
    simp only [Except.ok.injEq,DiskState.mk.injEq,and_true]
    funext stream
    by_cases hs : stream = r.stream <;> simp [hs]

theorem NodeMaps.appendMany_disk {commit : Bool}
    (hc : m.appendMany fence boundary token commit batch = .ok (m',w)) :
    (m.disk fence).appendMany boundary token commit batch = .ok (m'.disk fence) := by
  simp only [NodeMaps.appendMany,Except.bind_eq_ok,guard_ok] at hc
  obtain ⟨u,hv,ht,fresh,hn,commits,hco,hc⟩ := hc
  cases hc
  simp only [DiskState.appendMany,Except.bind_eq_ok,guard_ok]
  refine ⟨u,hv,ht,fresh,hn,commits,hco,?_⟩
  simp only [NodeMaps.disk,Except.ok.injEq,DiskState.mk.injEq,and_true]
  funext stream
  exact (getD_foldl_raiseTo fresh m.highestEpoch stream).symm

theorem NodeMaps.commit_disk (hc : m.commit fence token r = .ok (m',w)) :
    (m.disk fence).commit token r = .ok (m'.disk fence) := by
  obtain ⟨d,hd,hc⟩ := Except.bind_eq_ok.mp hc
  refine hd.trans ?_
  delta NodeMaps.disk at hd ⊢
  simp only [DiskState.commit,guard_ok] at hd
  obtain ⟨_,_,hd⟩ := hd
  split at hd <;> rename_i hb
  · rw [if_pos hb] at hc
    cases hc
    exact hd.symm
  · simp only [if_neg hb,guard_ok] at hd hc
    obtain ⟨_,hd⟩ := hd
    split at hd <;> rename_i ha <;> simp only [ha,guard_ok] at hd hc <;> cases hc
    · exact hd.2.symm
    · exact hd.symm

omit [DecidableEq β] in
theorem NodeMaps.supersede_disk (hc : m.supersede fence stream fromLsn epoch = .ok (m',w)) :
    (m.disk fence).supersede stream fromLsn epoch = .ok (m'.disk fence) := by
  obtain ⟨d,hd,hc⟩ := Except.bind_eq_ok.mp hc
  refine hd.trans ?_
  delta NodeMaps.disk at hd ⊢
  simp only [DiskState.supersede,guard_ok] at hd
  obtain ⟨_,_,hd⟩ := hd
  have hdo : m.records.filter (fun r => decide (r.stream = stream ∧ fromLsn ≤ r.lsn)) = [] ↔
      ¬m.records.any (fun r => decide (r.stream = stream ∧ fromLsn ≤ r.lsn)) = true := by
    simp [List.filter_eq_nil_iff]
  simp only [hdo,ite_not] at hd
  split at hc <;> rename_i han
  · simp only [if_pos han,guard_ok] at hd
    cases hc
    refine hd.2.symm.trans ?_
    simp only [DiskState.withdrawSuffix,NodeMaps.withdrawSuffix,Except.ok.injEq,
      DiskState.mk.injEq,and_true]
    funext other
    by_cases hs : other = stream
    · subst hs
      simp only [Function.update_self,getD_max?_seenEpochs]
    · simp [hs]
  · rw [if_neg han] at hd
    cases hc
    exact hd.symm

omit [DecidableEq β] in
theorem NodeMaps.Wf.compacted_disk (h : m.Wf)
    (hn : (m.disk fence).nextTrimmed prefixes m.trimmed = .ok next) :
    (m.disk fence).compactArchivedBatch prefixes = .ok ((m.compacted next).disk fence) := by
  apply Except.bind_eq_ok.mpr
  refine ⟨next,hn,?_⟩
  simp only [NodeMaps.disk,NodeMaps.compacted,Except.ok.injEq,DiskState.mk.injEq,and_true]
  funext stream
  have hf : next.foldl (fun h p => raiseTo h p.stream p.writerEpoch) m.highestEpoch stream = _ :=
    foldl_fences (fun o p => some (o.elim p.writerEpoch (max · p.writerEpoch)))
      ((nextTrimmed_spec hn).keyed h.fences) m.highestEpoch stream
  rw [hf]
  cases prefixOf next stream with
  | none => rfl
  | some p => cases m.highestEpoch stream <;> simp

/-- The node with a log file does to its visible state what the node without one does. A
compaction that finds nothing leaves the state alone. -/
theorem NodeMaps.Wf.call_disk (h : m.Wf) (hc : m.call fence c = .ok (m',w)) :
    (c.idle w = false ∧ (m.disk fence).call c = .ok (m'.disk fence)) ∨
      (c.idle w = true ∧ m' = m) := by
  cases c with
  | append => exact .inl ⟨rfl,NodeMaps.append_disk hc⟩
  | appendMany => exact .inl ⟨rfl,NodeMaps.appendMany_disk hc⟩
  | commit => exact .inl ⟨rfl,NodeMaps.commit_disk hc⟩
  | supersede => exact .inl ⟨rfl,NodeMaps.supersede_disk hc⟩
  | compactArchivedBatch prefixes =>
    rcases NodeMaps.compactArchivedBatch_cases hc with ⟨rfl,rfl⟩ | ⟨next,hn,rfl,rfl⟩
    · exact .inr ⟨rfl,rfl⟩
    · exact .inl ⟨rfl,h.compacted_disk hn⟩

theorem NodeMaps.Wf.call_wf (h : m.Wf) (hc : m.call fence c = .ok (m',w)) : m'.Wf := by
  obtain ⟨_,_,hr,ht⟩ | ⟨_,_,_,_,_,hw⟩ := h.call hc
  · exact h.replayAll ht hr
  · exact hw

def NodeMaps.effective (fence : Option MaintenanceFence) :
    NodeMaps σ β → List (NodeCall σ β) → List (NodeCall σ β)
  | _, [] => []
  | m, c :: rest =>
    match m.call fence c with
    | .error _ => []
    | .ok (m', w) => if c.idle w then m'.effective fence rest else c :: m'.effective fence rest

/-- What callers see after any calls, a node without a log file shows after them, less the
compactions that found nothing. -/
theorem NodeMaps.Wf.calls_disk {calls : List (NodeCall σ β)} (h : m.Wf)
    (hc : calls.foldlM (fun m c => (m.call fence c).map (·.1)) m = .ok m') :
    (m.effective fence calls).Sublist calls ∧
      (m.effective fence calls).foldlM DiskState.call (m.disk fence) = .ok (m'.disk fence) := by
  induction calls generalizing m with
  | nil =>
    cases hc
    exact ⟨.slnil,rfl⟩
  | cons c rest ih =>
    rw [List.foldlM_cons] at hc
    obtain ⟨m1,hme,hc⟩ := Except.bind_eq_ok.mp hc
    obtain ⟨⟨_,w⟩,hm,rfl⟩ := Except.map_eq_ok.mp hme
    obtain ⟨hs,hd⟩ := ih (h.call_wf hm) hc
    unfold NodeMaps.effective
    simp only [hm]
    obtain ⟨hi,ha⟩ | ⟨hi,rfl⟩ := h.call_disk hm
    · rw [hi]
      exact ⟨hs.cons_cons c,Except.bind_eq_ok.mpr ⟨_,ha,hd⟩⟩
    · rw [if_pos hi]
      exact ⟨hs.cons c,hd⟩

/-- A record is appended, and the compaction after it finds nothing. -/
theorem NodeMaps.append_then_compact_disk :
    (NodeMaps.empty.effective none [.append (fun _ => false) none (⟨0, 1, 1, 0, 11⟩ :
        EncryptedRecord Nat Nat), .compactArchivedBatch []]).Sublist
      [.append (fun _ => false) none ⟨0, 1, 1, 0, 11⟩, .compactArchivedBatch []] ∧
    (NodeMaps.empty.effective none [.append (fun _ => false) none (⟨0, 1, 1, 0, 11⟩ :
        EncryptedRecord Nat Nat), .compactArchivedBatch []]).foldlM DiskState.call
      (NodeMaps.empty.disk none) = .ok (NodeMaps.disk
        ⟨Function.update (fun _ => none) 0 (some 1), [⟨0, 1, 1, 0, 11⟩], [], []⟩ none) :=
  NodeMaps.Wf.empty.calls_disk rfl

end Walleye.Bitr
