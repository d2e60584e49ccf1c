import Walleye.Bitr.Agreement
import Walleye.Bitr.HotTail

namespace Walleye.Bitr

open Walleye.Base

variable {σ β : Type} [DecidableEq σ] {start : σ → Nat} {s s' : Members σ β} {m : Fin 3}
  {before : List (Fin 3 × List (EncryptedRecord σ β))} {snapshot : NodeSnapshot σ β}

structure Heard (start : σ → Nat) (s : Members σ β)
    (before : List (Fin 3 × List (EncryptedRecord σ β))) (m : Fin 3) (snapshot : NodeSnapshot σ β) :
    Prop where
  tracked : ∃ node log, Tracks start node log ∧ node.snapshot = snapshot
  accepted : ∀ r ∈ snapshot.records, s.Accepted m r
  kept : ∀ r, AckedIn before r → AcceptedIn before m r →
    floorOf snapshot.trimmed r.stream < r.lsn → r ∈ snapshot.records

theorem Heard.now (h : s.Sound start) (hb : before ⊆ s.answered) (m : Fin 3) :
    Heard start s before m (s.nodes m).snapshot := by
  refine ⟨⟨s.nodes m,s.logs m,h.member m,rfl⟩,?_,?_⟩
  · exact fun r hr => h.logged m r (((h.member m).hot r).mp hr).1
  · exact fun r hr hm hl => h.hot (hr.mono hb) (hm.mono hb) hl

theorem Heard.mono (h : Heard start s before m snapshot) (hs : s.answered ⊆ s'.answered) :
    Heard start s' before m snapshot :=
  ⟨h.tracked,fun r hr => (h.accepted r hr).mono hs,h.kept⟩

variable {r : EncryptedRecord σ β}

theorem Heard.ordered (h : Heard start s before m snapshot)
    (hr : r ∈ snapshot.records) (hq : q ∈ snapshot.records) (hs : r.stream = q.stream)
    (hl : r.lsn ≤ q.lsn) : r.writerEpoch ≤ q.writerEpoch := by
  obtain ⟨node,log,ht,rfl⟩ := h.tracked
  exact ht.not_newer ((ht.hot q).mp hq).1 ((ht.hot r).mp hr).1 hs hl

theorem Heard.marked (h : Heard start s before m snapshot)
    (hr : r ∈ snapshot.records) : r ∈ snapshot.committed := by
  obtain ⟨node,log,ht,rfl⟩ := h.tracked
  exact (ht.marked r).mpr hr

theorem Heard.dense (h : Heard start s before m snapshot)
    (hr : r ∈ snapshot.records) (hf : floorOf snapshot.trimmed r.stream < n)
    (hs : start r.stream ≤ n) (hl : n < r.lsn) :
    ∃ q ∈ snapshot.records, q.stream = r.stream ∧ q.lsn = n := by
  obtain ⟨node,log,ht,rfl⟩ := h.tracked
  obtain ⟨q,hq,hqs,hql⟩ := ht.dense r ((ht.hot r).mp hr).1 n hf hs hl
  refine ⟨q,(ht.hot q).mpr ⟨hq,?_⟩,hqs,hql⟩
  rw [hqs,hql]
  exact hf

variable {owns : Fin 3 → EncryptedRecord σ β → Bool}
  {snapshots : Fin 3 → Option (NodeSnapshot σ β)} {stream : σ} {floor : Nat}

variable (owns snapshots stream floor) in
def Unconflicted : Prop :=
  (∀ m, (snapshots m).isSome = true) ∨
    ∀ p ∈ evidence owns snapshots, ∀ q ∈ evidence owns snapshots, p.stream = stream →
      q.stream = stream → floor < p.lsn → p.lsn = q.lsn → p = q

instance [DecidableEq β] : Decidable (Unconflicted owns snapshots stream floor) :=
  inferInstanceAs (Decidable (_ ∨ _))

variable (owns snapshots stream floor start s before) in
/-- The snapshots a reader decides from: a quorum answered, each from its own time after
`before`, and no answering member trimmed past the floor. -/
structure Answered : Prop where
  sound : s.Sound start
  chained : ∀ m r, s.Accepted m r → r.Chained
  since : before ⊆ s.answered
  heard : ∀ m, ∀ snapshot ∈ snapshots m, Heard start s before m snapshot
  quorum : TwoOf fun m => (snapshots m).isSome = true
  trimmed : ∀ m, ∀ snapshot ∈ snapshots m, floorOf snapshot.trimmed stream ≤ floor
  range : start stream ≤ floor + 1
  owned : ∀ m r, r.stream = stream → start stream ≤ r.lsn → owns m r = true

theorem Shows.accepted (ha : Answered start s before owns snapshots stream floor)
    (h : Shows owns snapshots r m) : s.Accepted m r := by
  obtain ⟨snapshot,hs,hr,_⟩ := h
  exact (ha.heard m snapshot hs).accepted r hr

theorem Answered.shows (ha : Answered start s before owns snapshots stream floor)
    (hr : AckedIn before r) (hm : AcceptedIn before m r)
    (hs : r.stream = stream) (hl : floor < r.lsn) (hsn : snapshot ∈ snapshots m) :
    r ∈ snapshot.records ∧ Marks owns snapshots r m := by
  have hh := ha.heard m snapshot hsn
  have hf := ha.trimmed m snapshot hsn
  have hme := hh.kept r hr hm (by rw [hs]; omega)
  have hra := ha.range
  exact ⟨hme,snapshot,hsn,⟨hme,ha.owned m r hs (by omega)⟩,hh.marked hme⟩

variable [DecidableEq β]

theorem Answered.acked_of_eligible (ha : Answered start s before owns snapshots stream floor)
    (hal : ∀ m, (snapshots m).isSome = true)
    (he : Eligible owns snapshots r) (hs : r.stream = stream) (hl : floor < r.lsn) :
    TwoOf (Shows owns snapshots r) ∧ s.Acked r := by
  have hr := ha.range
  have ht := he.twoOf fun m => ⟨hal m,ha.owned m r hs (by omega)⟩
  exact ⟨ht,ht.mono fun m hm => hm.accepted ha⟩

/-- With all three answers, a chain of candidates leads to each acknowledged record. -/
theorem Answered.reaches_of_all (ha : Answered start s before owns snapshots stream floor)
    (hal : ∀ m, (snapshots m).isSome = true) (hr : AckedIn before r)
    (hs : r.stream = stream) (hl : floor < r.lsn) :
    Reaches (floor + 1) 0 ((collectCandidates owns snapshots stream).filter
      fun r => decide (floor < r.lsn)) r := by
  have hc : ∀ x ∈ (collectCandidates owns snapshots stream).filter
      (fun r => decide (floor < r.lsn)), x.stream = stream ∧
        TwoOf (Shows owns snapshots x) ∧ s.Acked x := by
    intro x hx
    obtain ⟨hx,hxl⟩ := List.mem_filter.mp hx
    obtain ⟨_,hxs,hxe,_⟩ := mem_collectCandidates.mp hx
    exact ⟨hxs,ha.acked_of_eligible hal hxe hxs (by simpa using hxl)⟩
  refine ⟨List.mem_filter.mpr ⟨mem_collectCandidates.mpr ⟨?_,hs,?_,?_⟩,by simpa using hl⟩,
    hl,?_,?_,fun _ _ _ _ => Nat.zero_le _⟩
  · obtain ⟨m,hm,_⟩ := TwoOf.meet hr hr
    obtain ⟨snapshot,hsn⟩ := Option.isSome_iff_exists.mp (hal m)
    exact mem_evidence.mpr ⟨m,(ha.shows hr hm hs hl hsn).2.shows⟩
  · have hma : TwoOf (Marks owns snapshots r) := TwoOf.mono hr fun m hm => by
      obtain ⟨snapshot,hsn⟩ := Option.isSome_iff_exists.mp (hal m)
      exact (ha.shows hr hm hs hl hsn).2
    obtain ⟨m,hm,_⟩ := hma.meet hma
    have hch := ha.chained m r (hm.shows.accepted ha)
    exact ⟨by have := hch.1; have := hch.2; omega,.inl (two_le_countOf.mpr hma)⟩
  · intro q _ hqs hql hqe
    have hq := ha.acked_of_eligible hal hqe hqs (by omega)
    exact ha.sound.agree hq.2 (hr.mono ha.since) ⟨hqs.trans hs.symm,hql⟩
  · intro x hx _ _
    obtain ⟨m,hm,_⟩ := TwoOf.meet (hc x hx).2.2 (hc x hx).2.2
    exact ha.chained m x hm
  · intro x hx y hy _ hle _
    obtain ⟨m,⟨snap,hsn,hxm,_⟩,⟨snap',hs',hym,_⟩⟩ :=
      (hc x hx).2.1.meet (hc y hy).2.1
    cases Option.some.inj (hsn.symm.trans hs')
    exact (ha.heard m snap hsn).ordered hxm hym ((hc x hx).1.trans (hc y hy).1.symm) hle

/-- With one member silent it does so where the answers do not conflict. -/
theorem Answered.reaches_of_silent (ha : Answered start s before owns snapshots stream floor)
    (hs : snapshots silent = none)
    (hc : ∀ p ∈ evidence owns snapshots, ∀ q ∈ evidence owns snapshots, p.stream = stream →
      q.stream = stream → floor < p.lsn → p.lsn = q.lsn → p = q) (hr : AckedIn before r)
    (hst : r.stream = stream) (hl : floor < r.lsn) :
    Reaches (floor + 1) 0 ((collectCandidates owns snapshots stream).filter
      fun r => decide (floor < r.lsn)) r := by
  obtain ⟨m,hn,hm⟩ := TwoOf.other hr silent
  have hso := ha.quorum.others (m := silent) (by simp [hs]) m hn
  obtain ⟨snapshot,hsn⟩ := Option.isSome_iff_exists.mp hso
  have hh := ha.heard m snapshot hsn
  obtain ⟨hme,hma⟩ := ha.shows hr hm hst hl hsn
  have hra := ha.range
  have he : ∀ q ∈ snapshot.records, q.stream = stream → floor < q.lsn →
      q ∈ evidence owns snapshots := fun q hq hqs hql =>
    mem_evidence.mpr ⟨m,snapshot,hsn,hq,ha.owned m q hqs (by omega)⟩
  have ho : ∀ x ∈ (collectCandidates owns snapshots stream).filter
      (fun r => decide (floor < r.lsn)), x.lsn ≤ r.lsn → x ∈ snapshot.records ∧ x.stream = stream := by
    intro x hx hle
    obtain ⟨hx,hxl⟩ := List.mem_filter.mp hx
    obtain ⟨hxe,hxs,_⟩ := mem_collectCandidates.mp hx
    have hxl' : floor < x.lsn := by simpa using hxl
    have hf := ha.trimmed m snapshot hsn
    have hp : ∃ q ∈ snapshot.records, q.stream = stream ∧ q.lsn = x.lsn := by
      rcases Nat.lt_or_eq_of_le hle with hl' | heq
      · obtain ⟨q,hq,hqs,hql⟩ := hh.dense hme (n := x.lsn) (by rw [hst]; omega)
          (by rw [hst]; omega) hl'
        exact ⟨q,hq,hqs.trans hst,hql⟩
      · exact ⟨r,hme,hst,heq.symm⟩
    obtain ⟨q,hq,hqs,hql⟩ := hp
    have heq := hc x hxe q (he q hq hqs (by omega)) hxs hqs hxl' hql.symm
    exact ⟨heq ▸ hq,hxs⟩
  have hch := ha.chained m r (hma.shows.accepted ha)
  have hco : r.committedLsn < r.lsn := by
    have := hch.1
    have := hch.2
    omega
  refine ⟨List.mem_filter.mpr ⟨mem_collectCandidates.mpr
    ⟨he r hme hst hl,hst,.of_shows hco hma hs,?_⟩,by simpa using hl⟩,
    hl,?_,?_,fun _ _ _ _ => Nat.zero_le _⟩
  · exact fun q hq hqs hql _ => hc q hq r (he r hme hst hl) hqs hst (by omega) hql
  · exact fun x hx _ hle => ha.chained m x (hh.accepted x (ho x hx hle).1)
  · intro x hx y hy _ hle hyr
    have hx' := ho x hx (by omega)
    have hy' := ho y hy hyr
    exact hh.ordered hx'.1 hy'.1 (hx'.2.trans hy'.2.symm) hle

theorem Answered.reaches (ha : Answered start s before owns snapshots stream floor)
    (hc : Unconflicted owns snapshots stream floor)
    (hr : AckedIn before r) (hs : r.stream = stream) (hl : floor < r.lsn) :
    Reaches (floor + 1) 0 ((collectCandidates owns snapshots stream).filter
      fun r => decide (floor < r.lsn)) r := by
  by_cases hal : ∀ m, (snapshots m).isSome = true
  · exact ha.reaches_of_all hal hr hs hl
  · obtain ⟨silent,hsi⟩ := not_forall.mp hal
    exact ha.reaches_of_silent (by simpa using hsi) (hc.resolve_left hal) hr hs hl

/-- Where no two records are shown at one LSN, an acceptor that answered shows a candidate at
every LSN up to an acknowledged record. -/
theorem Answered.candidates_at (ha : Answered start s before owns snapshots stream floor)
    (hc : ∀ p ∈ evidence owns snapshots, ∀ q ∈ evidence owns snapshots, p.stream = stream →
      q.stream = stream → floor < p.lsn → p.lsn = q.lsn → p = q) (hr : AckedIn before r) (hs : r.stream = stream)
    (hl : floor < r.lsn) :
    ∃ m, ∃ snapshot ∈ snapshots m, ∀ n, floor < n → n ≤ r.lsn →
      ∃ x ∈ collectCandidates owns snapshots stream, x ∈ snapshot.records ∧ x.lsn = n := by
  have hra := ha.range
  have hp : ∀ m, AcceptedIn before m r → ∀ snapshot ∈ snapshots m, ∀ n, floor < n →
      n ≤ r.lsn → ∃ x ∈ snapshot.records, x.stream = stream ∧ x.lsn = n ∧
        Marks owns snapshots x m := by
    intro m hm snapshot hsn n hn hle
    have hh := ha.heard m snapshot hsn
    have hf := ha.trimmed m snapshot hsn
    have hme := (ha.shows hr hm hs hl hsn).1
    have hx : ∃ x ∈ snapshot.records, x.stream = stream ∧ x.lsn = n := by
      rcases Nat.lt_or_eq_of_le hle with hl' | he
      · obtain ⟨q,hq,hqs,hql⟩ := hh.dense hme (n := n) (by rw [hs]; omega)
          (by rw [hs]; omega) hl'
        exact ⟨q,hq,hqs.trans hs,hql⟩
      · exact ⟨r,hme,hs,he.symm⟩
    obtain ⟨x,hx,hxs,hxl⟩ := hx
    exact ⟨x,hx,hxs,hxl,snapshot,hsn,⟨hx,ha.owned m x hxs (by omega)⟩,hh.marked hx⟩
  have hev : ∀ {m x}, Marks owns snapshots x m → x ∈ evidence owns snapshots := fun hx =>
    mem_evidence.mpr ⟨_,hx.shows⟩
  have hel : ∀ m x n, Marks owns snapshots x m → x.stream = stream → x.lsn = n → floor < n →
      n ≤ r.lsn → Eligible owns snapshots x := by
    intro m x n hx hxs hxl hn hle
    have hch := ha.chained m x (hx.shows.accepted ha)
    have hco : x.committedLsn < x.lsn := by
      have := hch.1
      have := hch.2
      omega
    by_cases hal : ∀ m, (snapshots m).isSome = true
    · refine ⟨hco,.inl (two_le_countOf.mpr (TwoOf.mono hr fun a hac => ?_))⟩
      obtain ⟨snapshot,hsn⟩ := Option.isSome_iff_exists.mp (hal a)
      obtain ⟨y,_,hy,hyl,hym⟩ := hp a hac snapshot hsn n hn hle
      rw [hc x (hev hx) y (hev hym) hxs hy (by omega) (by omega)]
      exact hym
    · obtain ⟨silent,hsi⟩ := not_forall.mp hal
      exact .of_shows hco hx (by simpa using hsi)
  obtain ⟨m,hm,hso⟩ := TwoOf.meet hr ha.quorum
  obtain ⟨snapshot,hsn⟩ := Option.isSome_iff_exists.mp hso
  refine ⟨m,snapshot,hsn,fun n hn hle => ?_⟩
  obtain ⟨x,hx,hxs,hxl,hxm⟩ := hp m hm snapshot hsn n hn hle
  refine ⟨x,mem_collectCandidates.mpr ⟨hev hxm,hxs,hel m x n hxm hxs hxl hn hle,?_⟩,hx,hxl⟩
  exact fun q hq hqs hql _ => hc q hq x (hev hxm) hqs hxs (by omega) hql

end Walleye.Bitr
