import Walleye.Bitr.Members

namespace Walleye.Bitr

open Walleye.Base

variable {σ β : Type}

def Members.Replaced (s : Members σ β) (m : Fin 3) (r : EncryptedRecord σ β) : Prop :=
  ∃ c, c.stream = r.stream ∧ c.lsn ≤ r.lsn ∧ r.writerEpoch < c.writerEpoch ∧
    ∀ m', m' ≠ m → c ∈ s.logs m'

variable [DecidableEq σ] {start : σ → Nat} {s s' : Members σ β} {m : Fin 3}

/-- What the logs of the members keep. A record leaves a log only for one both other members
hold, so what two members accepted never leaves. -/
structure Members.Consistent (start : σ → Nat) (s : Members σ β) : Prop where
  member : ∀ m, Tracks start (s.nodes m) (s.logs m)
  logged : ∀ m, ∀ r ∈ s.logs m, s.Accepted m r
  replaced : ∀ m r, s.Accepted m r → r ∈ s.logs m ∨ s.Replaced m r
  kept : ∀ r, s.Acked r → ∀ m, s.Accepted m r → r ∈ s.logs m
  archived : ∀ stream, Archived stream (s.archive stream)
  fenced : ∀ m stream, floorOf (s.nodes m).trimmed stream ≤ headLsn (s.archive stream)

/-- The invariant of the cohort: its logs are consistent and the archive holds acknowledged
records of the range. -/
structure Members.Sound (start : σ → Nat) (s : Members σ β) : Prop
    extends s.Consistent start where
  certified : ∀ stream, ∀ r ∈ s.archive stream, start stream ≤ r.lsn → s.Acked r

theorem Members.Consistent.empty (start : σ → Nat) :
    (Members.empty : Members σ β).Consistent start := by
  refine ⟨fun _ => Tracks.empty start,?_,?_,?_,fun stream => Archived.nil stream,?_⟩
  · simp [Members.empty]
  · simp [Members.empty,Members.Accepted,AcceptedIn]
  · simp [Members.empty,Members.Accepted,AcceptedIn]
  · simp [Members.empty,DiskState.empty,floorOf]

theorem Members.Sound.empty (start : σ → Nat) : (Members.empty : Members σ β).Sound start :=
  ⟨.empty start,by simp [Members.empty]⟩

variable {r : EncryptedRecord σ β} {stream : σ} {lsn epoch : Nat}

theorem Members.Consistent.agree (h : s.Consistent start) (hr : s.Acked r)
    (hq : s.Acked q) (hs : r.SameSlot q) : r = q := by
  obtain ⟨m,hm,hmq⟩ := TwoOf.meet hr hq
  exact (h.member m).slot r (h.kept r hr m hm) q (h.kept q hq m hmq) hs

theorem Members.Consistent.hot (h : s.Consistent start) (hr : s.Acked r)
    (hm : s.Accepted m r) (hf : floorOf (s.nodes m).trimmed r.stream < r.lsn) :
    r ∈ (s.nodes m).records :=
  ((h.member m).hot r).mpr ⟨h.kept r hr m hm,hf⟩

theorem Members.Consistent.mem_archive (h : s.Consistent start)
    (hr : s.Acked r) (hl : r.lsn ≤ headLsn (s.archive r.stream))
    (ho : ∀ q ∈ s.archive r.stream, start r.stream ≤ q.lsn → q.SameSlot r → q = r) :
    r ∈ s.archive r.stream := by
  obtain ⟨m,hm,_⟩ := TwoOf.meet hr hr
  have ha := (h.member m).above r (h.kept r hr m hm)
  obtain ⟨q,hq,hls⟩ := (h.archived r.stream).exists_at ha.1 hl
  have hs := (h.archived r.stream).stream q hq
  exact ho q hq (by rw [hls]; exact ha.2) ⟨hs,hls⟩ ▸ hq

theorem Members.Sound.mem_archive (h : s.Sound start) (hr : s.Acked r)
    (hl : r.lsn ≤ headLsn (s.archive r.stream)) : r ∈ s.archive r.stream :=
  h.toConsistent.mem_archive hr hl fun q hq hst hs =>
    h.agree (h.certified r.stream q hq hst) hr hs

theorem Members.Consistent.not_newer (h : s.Consistent start)
    (hr : r ∈ s.logs m) (hc : c ∈ s.logs m) (hs : c.stream = r.stream) (hl : c.lsn ≤ r.lsn) :
    ¬r.writerEpoch < c.writerEpoch :=
  Nat.not_lt_of_le ((h.member m).not_newer hr hc hs hl)

section Append

variable [DecidableEq β]

theorem Members.append_spec (h : s.append start m batch = .ok s') :
    (∀ r ∈ batch, start r.stream ≤ r.lsn) ∧ (s.nodes m).maintenance = none ∧
      ∃ node fresh, (s.nodes m).Appends (opens start) node batch fresh ∧
        s' = s.take m node batch := by
  simp only [Members.append,guard_ok,Except.bind_eq_ok] at h
  obtain ⟨hra,node,hn,he⟩ := h
  obtain ⟨ht,fresh,hf⟩ := DiskState.appendMany_spec hn
  refine ⟨fun r hr => ?_,ht,node,fresh,hf,?_⟩
  · by_contra hl
    exact hra (List.any_eq_true.mpr ⟨r,hr,by simpa using hl⟩)
  · cases he
    rfl

/-- An append keeps the members consistent. -/
theorem Members.Consistent.append (h : s.Consistent start)
    (ha : s.append start m batch = .ok s') : s'.Consistent start := by
  obtain ⟨hran,_,node,fresh,hf,rfl⟩ := Members.append_spec ha
  have hn : ∀ r ∈ batch, ∀ a, a ≠ m → s.Accepted a r → r ∈ s.logs a := by
    intro r hr a hne hra
    rcases h.replaced a r hra with hl | ⟨c,hs,hle,hlt,ho⟩
    · exact hl
    · have hc := (h.member m).epoch c (ho m (Ne.symm hne))
      have hr' := hf.epoch r hr
      rw [hs] at hc
      omega
  refine ⟨?_,?_,?_,?_,h.archived,?_⟩
  · intro a
    by_cases ham : a = m
    · subst ham
      simpa [Members.take] using (h.member a).append hf hran
    · simpa [Members.take,ham] using h.member a
  · intro a r hr
    rw [Members.accepted_take]
    exact (Members.mem_take_logs.mp hr).imp_right (h.logged a r)
  · intro a r hr
    rcases Members.accepted_take.mp hr with hr | hr
    · exact .inl (Members.mem_take_logs.mpr (.inl hr))
    · rcases h.replaced a r hr with hl | ⟨c,hc1,hc2,hc3,hc4⟩
      · exact .inl (Members.mem_take_logs.mpr (.inr hl))
      · exact .inr ⟨c,hc1,hc2,hc3,fun m' hne => Members.mem_take_logs.mpr (.inr (hc4 m' hne))⟩
  · intro r hac a hra
    rw [Members.mem_take_logs]
    rcases Members.accepted_take.mp hra with hr | hr
    · exact .inl hr
    · by_cases hnew : r ∈ batch
      · by_cases ham : a = m
        · exact .inl ⟨ham,hnew⟩
        · exact .inr (hn r hnew a ham hr)
      · have hol : s.Acked r := TwoOf.mono hac fun x hx =>
          (Members.accepted_take.mp hx).resolve_left fun hx => hnew hx.2
        exact .inr (h.kept r hol a hr)
  · intro a stream
    by_cases ham : a = m
    · subst ham
      simpa [Members.take,hf.trimmed] using h.fenced a stream
    · simpa [Members.take,ham] using h.fenced a stream

theorem Members.Sound.append (h : s.Sound start)
    (ha : s.append start m batch = .ok s') : s'.Sound start := by
  refine ⟨h.toConsistent.append ha,?_⟩
  obtain ⟨_,_,node,fresh,_,rfl⟩ := Members.append_spec ha
  exact fun stream r hr hl => TwoOf.mono (h.certified stream r hr hl) fun x hx =>
    Members.accepted_take.mpr (.inr hx)

end Append

def Members.Holds (s : Members σ β) (m : Fin 3) (stream : σ) (lsn : Nat) : Prop :=
  ∃ r ∈ (s.nodes m).records, r.stream = stream ∧ lsn ≤ r.lsn

instance (s : Members σ β) (m : Fin 3) (stream : σ) (lsn : Nat) :
    Decidable (s.Holds m stream lsn) :=
  inferInstanceAs (Decidable (∃ r ∈ _, _))

def Members.Outranked (start : σ → Nat) (s : Members σ β) (m : Fin 3) (stream : σ) (lsn : Nat) :
    Prop :=
  ∃ c ∈ (s.nodes (m + 1)).records ++ s.archive stream, c.stream = stream ∧ c.lsn = lsn ∧
    (∀ r ∈ (s.nodes m).records, r.stream = stream → lsn ≤ r.lsn → r.writerEpoch < c.writerEpoch) ∧
    ((∀ m', m' ≠ m → c ∈ (s.nodes m').records) ∨ (start stream ≤ lsn ∧ c ∈ s.archive stream))

instance [DecidableEq β] (start : σ → Nat) (s : Members σ β) (m : Fin 3) (stream : σ) (lsn : Nat) :
    Decidable (s.Outranked start m stream lsn) :=
  inferInstanceAs (Decidable (∃ c ∈ _, _))

/-- A withdrawal takes the suffix it finds, or changes nothing. -/
theorem Members.withdraw_spec
    (h : s.withdraw m stream lsn epoch = .ok s') (hs : s.Consistent start) :
    s' = { s with
        nodes := Function.update s.nodes m ((s.nodes m).withdrawSuffix stream lsn)
        logs := Function.update s.logs m (withdrawn stream lsn (s.logs m)) } ∧
      (∀ r ∈ s.logs m, r.stream = stream → lsn ≤ r.lsn → r ∈ (s.nodes m).records) ∧
      s.Holds m stream lsn ∨ s' = s := by
  simp only [Members.withdraw,DiskState.supersede,Except.bind_eq_ok,guard_ok] at h
  obtain ⟨node,⟨_,ht,hnod⟩,he⟩ := h
  have hf : floorOf (s.nodes m).trimmed stream < lsn := by
    refine floorOf_lt (hs.member m).keyed (by omega) fun p hp => ?_
    simpa [hp] using ht
  have hh : ∀ r ∈ s.logs m, r.stream = stream → lsn ≤ r.lsn → r ∈ (s.nodes m).records := by
    intro r hr hst hl
    exact ((hs.member m).hot r).mpr ⟨hr,by rw [hst]; omega⟩
  split at hnod
  · rename_i hnon
    cases hnod
    cases he
    refine .inr ?_
    have hk : withdrawn stream lsn (s.logs m) = s.logs m := by
      refine List.filter_eq_self.mpr fun r hr => ?_
      by_contra hn
      simp only [ne_eq,decide_eq_true_eq,not_or,not_not,Nat.not_lt] at hn
      exact List.filter_eq_nil_iff.mp hnon r (hh r hr hn.1 hn.2) (by simpa using hn)
    rw [hk,Function.update_eq_self,Function.update_eq_self]
  · rename_i hsome
    simp only [guard_ok] at hnod
    cases hnod.2
    cases he
    obtain ⟨r,hr⟩ := List.exists_mem_of_ne_nil _ hsome
    obtain ⟨hr,hd⟩ := List.mem_filter.mp hr
    exact .inl ⟨rfl,hh,r,hr,of_decide_eq_true hd⟩

theorem Members.Consistent.outranked (h : s.Consistent start) (ho : s.Outranked start m stream lsn)
    (hc : start stream ≤ lsn → ∀ c ∈ s.archive stream, c.lsn = lsn → s.Acked c)
    (hh : ∀ r ∈ s.logs m, r.stream = stream → lsn ≤ r.lsn → r ∈ (s.nodes m).records) :
    ∃ c, c.stream = stream ∧ c.lsn = lsn ∧ (∀ m', m' ≠ m → c ∈ s.logs m') ∧
      ∀ r ∈ s.logs m, r.stream = stream → lsn ≤ r.lsn → r.writerEpoch < c.writerEpoch := by
  obtain ⟨c,_,hstr,hls,hnew,hhe⟩ := ho
  have hn' : ∀ r ∈ s.logs m, r.stream = stream → lsn ≤ r.lsn →
      r.writerEpoch < c.writerEpoch := fun r hr hs hl => hnew r (hh r hr hs hl) hs hl
  refine ⟨c,hstr,hls,fun m' hn => ?_,hn'⟩
  rcases hhe with hb | ⟨hst,ha⟩
  · exact (((h.member m').hot c).mp (hb m' hn)).1
  · have hac := hc hst c ha hls
    refine h.kept c hac m' (hac.others (m := m) ?_ m' hn)
    intro hm
    have hcm := h.kept c hac m hm
    exact Nat.lt_irrefl _ (hn' c hcm hstr (Nat.le_of_eq hls.symm))

/-- An outranked suffix can go: two other members log the record that replaces it. -/
theorem Members.Consistent.withdraw (h : s.Consistent start)
    (ho : s.Holds m stream lsn → s.Outranked start m stream lsn)
    (hc : s.Holds m stream lsn → start stream ≤ lsn →
      ∀ c ∈ s.archive stream, c.lsn = lsn → s.Acked c)
    (hw : s.withdraw m stream lsn epoch = .ok s') : s'.Consistent start := by
  rcases Members.withdraw_spec hw h with ⟨rfl,hh,hd⟩ | rfl
  swap
  · exact h
  obtain ⟨c,hcs,hcl,hot,hnew⟩ := h.outranked (ho hd) (hc hd) hh
  have hlog : ∀ a r, r ∈ Function.update s.logs m (withdrawn stream lsn (s.logs m)) a ↔
      r ∈ s.logs a ∧ (a = m → r.stream ≠ stream ∨ r.lsn < lsn) := by
    intro a r
    by_cases ha : a = m
    · subst ha
      simp [mem_withdrawn]
    · simp [ha]
  have hs : ∀ r a, a ≠ m → r ∈ s.logs m → r ∈ s.logs a → r.stream ≠ stream ∨ r.lsn < lsn := by
    intro r a hn hrm hra
    by_contra hno
    simp only [ne_eq,not_or,not_not,Nat.not_lt] at hno
    exact h.not_newer hra (hot a hn) (hcs.trans hno.1.symm) (by omega)
      (hnew r hrm hno.1 hno.2)
  refine ⟨?_,?_,?_,?_,h.archived,?_⟩
  · intro a
    by_cases ha : a = m
    · subst ha
      simpa using (h.member a).withdraw stream lsn
    · simpa [ha] using h.member a
  · exact fun a r hr => h.logged a r ((hlog a r).mp hr).1
  · intro a r hr
    rcases h.replaced a r hr with hl | ⟨x,hx,hx2,hx3,hx4⟩
    · by_cases hg : a = m ∧ r.stream = stream ∧ lsn ≤ r.lsn
      · obtain ⟨rfl,hstr,hle⟩ := hg
        refine .inr ⟨c,hcs.trans hstr.symm,by omega,hnew r hl hstr hle,?_⟩
        exact fun m' hn => (hlog m' c).mpr ⟨hot m' hn,fun he => absurd he hn⟩
      · refine .inl ((hlog a r).mpr ⟨hl,fun ha => ?_⟩)
        by_contra hno
        simp only [ne_eq,not_or,not_not,Nat.not_lt] at hno
        exact hg ⟨ha,hno⟩
    · refine .inr ⟨x,hx,hx2,hx3,fun m' hn => (hlog m' x).mpr ⟨hx4 m' hn,?_⟩⟩
      rintro rfl
      obtain ⟨third,h1,h2⟩ := exists_third m' a
      exact hs x third h1 (hx4 m' hn) (hx4 third h2)
  · intro r hac a hra
    refine (hlog a r).mpr ⟨h.kept r hac a hra,?_⟩
    rintro rfl
    obtain ⟨a',hn,ha'⟩ := hac.other a
    exact hs r a' hn (h.kept r hac a hra) (h.kept r hac a' ha')
  · intro a st
    by_cases ha : a = m
    · subst ha
      simpa [DiskState.withdrawSuffix] using h.fenced a st
    · simpa [ha] using h.fenced a st

theorem Members.Sound.withdraw (h : s.Sound start)
    (ho : s.Holds m stream lsn → s.Outranked start m stream lsn)
    (hw : s.withdraw m stream lsn epoch = .ok s') : s'.Sound start := by
  refine ⟨h.toConsistent.withdraw ho ?_ hw,?_⟩
  · exact fun _ hl c hc hls => h.certified stream c hc (by omega)
  · rcases Members.withdraw_spec hw h.toConsistent with ⟨rfl,_⟩ | rfl
    · exact h.certified
    · exact h.certified

/-- A publication appends a segment to the archive. -/
theorem Members.Consistent.publish (h : s.Consistent start)
    (hp : s.publish limit stream records = .ok s') :
    s'.Consistent start ∧ s' = { s with
      archive := Function.update s.archive stream
        (s.archive stream ++ nextSegment limit (s.archive stream) records) } := by
  simp only [Members.publish,Except.bind_eq_ok] at hp
  obtain ⟨archive,hc,he⟩ := hp
  cases he
  obtain ⟨ha,rfl⟩ := archiveCommitted_spec (h.archived stream) hc
  refine ⟨⟨h.member,h.logged,h.replaced,h.kept,?_,?_⟩,rfl⟩
  · intro st
    by_cases hs : st = stream
    · subst hs
      simpa using ha
    · simpa [hs] using h.archived st
  · intro m st
    by_cases hs : st = stream
    · subst hs
      have hl := h.fenced m st
      rw [(h.archived st).headLsn_eq] at hl
      simp only [Function.update_self]
      rw [ha.headLsn_eq,List.length_append]
      omega
    · simpa [hs] using h.fenced m st

theorem Members.Consistent.acked_of_held (h : s.Consistent start)
    (hr : TwoOf fun m => r ∈ (s.nodes m).records) : s.Acked r :=
  hr.mono fun m hm => h.logged m r (((h.member m).hot r).mp hm).1

theorem Members.Sound.publish (h : s.Sound start) (hp : s.publish limit stream records = .ok s')
    (hh : ∀ r ∈ nextSegment limit (s.archive stream) records, start stream ≤ r.lsn →
      TwoOf fun m => r ∈ (s.nodes m).records) : s'.Sound start := by
  obtain ⟨hs',rfl⟩ := h.toConsistent.publish hp
  refine ⟨hs',fun st r hr hl => ?_⟩
  by_cases hs : st = stream
  · subst hs
    rcases List.mem_append.mp (by simpa using hr) with hr | hr
    · exact h.certified st r hr hl
    · exact h.acked_of_held (hh r hr hl)
  · exact h.certified st r (by simpa [hs] using hr) hl

/-- A trim takes only what the archive holds. -/
theorem Members.Consistent.compact (h : s.Consistent start)
    (hc : s.compact m heads = .ok s') : s'.Consistent start := by
  simp only [Members.compact,guard_ok,Except.bind_eq_ok] at hc
  obtain ⟨hhea,node,hn,he⟩ := hc
  cases he
  have hco := DiskState.compactArchivedBatch_spec hn
  refine ⟨?_,h.logged,h.replaced,h.kept,h.archived,?_⟩
  · intro a
    by_cases ha : a = m
    · subst ha
      simpa using (h.member a).compact hco
    · simpa [ha] using h.member a
  · intro a stream
    by_cases ha : a = m
    · subst ha
      simp only [Function.update_self]
      have hk := (h.member a).keyed
      rw [floorOf_eq (hco.retrims.keyed hk)]
      rcases hco.retrims.at_stream stream with ho | ⟨p,hp,hps,_,q,hq,hql,_⟩
      · rw [ho,← floorOf_eq hk]
        exact h.fenced a stream
      · rw [hq]
        obtain ⟨head,hh,rfl⟩ := List.mem_map.mp hp
        simp only [Option.elim_some,hql]
        subst hps
        by_contra hl
        exact hhea (List.any_eq_true.mpr ⟨head,hh,by simpa using hl⟩)
    · simpa [ha] using h.fenced a stream

theorem Members.Sound.compact (h : s.Sound start)
    (hc : s.compact m heads = .ok s') : s'.Sound start := by
  refine ⟨h.toConsistent.compact hc,?_⟩
  simp only [Members.compact,guard_ok,Except.bind_eq_ok] at hc
  obtain ⟨_,node,_,he⟩ := hc
  rw [← Except.ok.inj he]
  exact h.certified

end Walleye.Bitr
