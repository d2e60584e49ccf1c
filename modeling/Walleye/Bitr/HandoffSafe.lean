import Walleye.Bitr.Handoff

namespace Walleye.Bitr

open Walleye.Base

variable {σ β : Type} [DecidableEq σ] {route : σ → SourceRoute}

structure Frozen (source : PlacementEpoch) (s : Members σ β) (gate : Gate) (stream : σ)
    (m : Fin 3) (snapshot : NodeSnapshot σ β) : Prop where
  past : gate.Past source
  kept : ∀ r ∈ s.logs m, r.stream = stream → floorOf snapshot.trimmed stream < r.lsn →
    r ∈ snapshot.records ∧ r ∈ snapshot.committed
  slot : ∀ r ∈ snapshot.records, ∀ q ∈ snapshot.records, r.SameSlot q → r = q
  trimmed : floorOf snapshot.trimmed stream ≤ headLsn (s.archive stream)

/-- What a step does to a member's log: it takes valid records, and none of a stream whose gate
is past the source's placement. -/
def Handoff.Takes (route : σ → SourceRoute) (s : Handoff σ β) (members : Members σ β) : Prop :=
  ∀ m, ∀ r ∈ members.logs m, r ∈ s.cohort.members.logs m ∨ (r.committedLsn < r.lsn ∧
    ¬(s.admissions m r.stream).gate.Past (route r.stream).placement)

variable {stream : σ} {m : Fin 3} {t : StreamCutover σ β}

theorem Frozen.mono (h : Frozen source s gate stream m snapshot)
    (ha : Archived stream (s'.archive stream)) (hg : s.Grows s')
    (hl : ∀ r ∈ s'.logs m, r.stream = stream → r ∈ s.logs m)
    (hga : gate.placement.epoch ≤ gate'.placement.epoch) :
    Frozen source s' gate' stream m snapshot :=
  ⟨Nat.lt_of_lt_of_le h.past hga,fun r hr hs hlt => h.kept r (hl r hr hs) hs hlt,h.slot,
    Nat.le_trans h.trimmed (ha.headLsn_mono (hg.archive stream))⟩

theorem Frozen.now (h : s.Consistent start) (hp : gate.Past source) (stream : σ) (m : Fin 3) :
    Frozen source s gate stream m (s.nodes m).snapshot := by
  have ht := h.member m
  refine ⟨hp,fun r hr hs hl => ?_,fun r hr q hq => ?_,h.fenced m stream⟩
  · have hh := (ht.hot r).mpr ⟨hr,by rw [hs]; exact hl⟩
    exact ⟨hh,(ht.marked r).mpr hh⟩
  · exact ht.slot r ((ht.hot r).mp hr).1 q ((ht.hot q).mp hq).1

structure StreamCutover.Sound (route : σ → SourceRoute) (s : Members σ β)
    (admissions : Fin 3 → σ → Admission σ β) (t : StreamCutover σ β) : Prop where
  heard : ∀ m snapshot, t.heard m = some (some snapshot) →
    Frozen (route t.stream).placement s (admissions m t.stream).gate t.stream m snapshot
  trimmed : ∀ before ∈ t.before, ∀ m snapshot, t.heard m = some (some snapshot) →
    floorOf snapshot.trimmed t.stream ≤ before
  archived : ∀ archived ∈ t.archived, ∀ x ∈ archived, ∀ y ∈ archived, x.lsn = y.lsn → x = y

theorem StreamCutover.Sound.hear
    (h : t.Sound route s admissions) (hb : t.before = none) (ha : ∀ snapshot ∈ answer,
      Frozen (route t.stream).placement s (admissions m t.stream).gate t.stream m snapshot) :
    StreamCutover.Sound route s admissions
      { t with heard := Function.update t.heard m (some answer) } := by
  refine ⟨fun x snapshot hx => ?_,?_,h.archived⟩
  · by_cases hxm : x = m
    · subst hxm
      exact ha snapshot (by simpa using hx)
    · exact h.heard x snapshot (by simpa [hxm] using hx)
  · simp [hb]

variable [DecidableEq β]

structure CutoverTail.Sound (route : σ → SourceRoute) (s : Members σ β)
    (admissions : Fin 3 → σ → Admission σ β) (v : CutoverTail σ β) : Prop where
  heard : ∀ m, ∀ snapshot ∈ v.snapshots m,
    Frozen (route v.stream).placement s (admissions m v.stream).gate v.stream m snapshot
  trimmed : ∀ m, ∀ snapshot ∈ v.snapshots m, floorOf snapshot.trimmed v.stream ≤ v.before
  archived : ∀ x ∈ v.archived, ∀ y ∈ v.archived, x.lsn = y.lsn → x = y
  certified : certifyCutover (ownsRange (starts route)) v.snapshots v.stream (route v.stream)
    v.before v.archived = .ok (v.records, v.next)

def CutoverTail.Vouches (v : CutoverTail σ β) (stream : σ) (r : EncryptedRecord σ β) : Prop :=
  v.stream = stream ∧ r ∈ v.records ∧ v.before < r.lsn

structure Handoff.Sound (route : σ → SourceRoute) (s : Handoff σ β) : Prop where
  gates : ∀ m stream, (s.admissions m stream).gate.Sound (route stream).placement
    (s.admissions m stream).leases.length
  leases : ∀ m stream, ∀ batch ∈ (s.admissions m stream).leases,
    ValidBatch batch ∧ ∀ r ∈ batch, r.stream = stream
  members : s.cohort.members.Consistent (starts route)
  watermark : ∀ m, ∀ r ∈ s.cohort.members.logs m, r.committedLsn < r.lsn
  cutovers : ∀ t ∈ s.cutovers, t.Sound route s.cohort.members s.admissions
  tails : ∀ v ∈ s.tails, v.Sound route s.cohort.members s.admissions
  vouched : ∀ stream, ∀ r ∈ s.cohort.members.archive stream, starts route stream ≤ r.lsn →
    s.cohort.members.Acked r ∨ ∃ v ∈ s.tails, v.Vouches stream r
  covered : ∀ x ∈ s.successors, ∃ v ∈ s.tails, v.stream = x.stream ∧ v.next ≤ x.startLsn ∧
    v.next ≤ headLsn (s.cohort.members.archive v.stream) + 1

variable {s s' : Handoff σ β}

/-- Whatever is acknowledged, now or later, is in a certified tail or below it: a member of it was
read after its gate closed. -/
theorem CutoverTail.Sound.covers {s : Members σ β}
    {v : CutoverTail σ β} (h : v.Sound route s admissions) (hs : s.Consistent (starts route))
    (hma : ∀ m, ∀ r ∈ s.logs m, r.committedLsn < r.lsn)
    (hr : s.Acked r) (hstr : r.stream = v.stream) :
    r.lsn < v.next ∧ (v.before < r.lsn → r ∈ v.records) := by
  obtain ⟨hnex,hme,_⟩ := certifyCutover_spec h.archived h.certified
  obtain ⟨hq,hh⟩ := certifyCutover_heard h.certified
  by_cases hl : v.before < r.lsn
  swap
  · exact ⟨by omega,fun hl' => absurd hl' hl⟩
  obtain ⟨m₀,hm₀,_⟩ := TwoOf.meet hr hr
  have hlo := hs.kept r hr m₀ hm₀
  have hls := hma m₀ r hlo
  have hst : (route v.stream).startLsn ≤ r.lsn := hstr ▸ ((hs.member m₀).above r hlo).2
  have ho : ∀ m (q : EncryptedRecord σ β), q.stream = v.stream → q.lsn = r.lsn →
      ownsRange (starts route) m q = true := by
    intro m q hqs hql
    refine decide_eq_true ?_
    rw [hqs,hql]
    exact hst
  have hmar : ∀ m, s.Accepted m r → (v.snapshots m).isSome = true →
      Marks (ownsRange (starts route)) v.snapshots r m := by
    intro m hm hso
    obtain ⟨snapshot,hsn⟩ := Option.isSome_iff_exists.mp hso
    have hf := h.trimmed m snapshot hsn
    obtain ⟨hre,hc⟩ := (h.heard m snapshot hsn).kept r (hs.kept r hr m hm) hstr (by omega)
    exact ⟨snapshot,hsn,⟨hre,ho m r hstr rfl⟩,hc⟩
  have hca : r ∈ collectCandidates (ownsRange (starts route)) v.snapshots v.stream := by
    by_cases ha : ∀ m, (v.snapshots m).isSome = true
    · exact Marks.candidate_of_all (TwoOf.mono hr fun m hm => hmar m hm (ha m)) ha ho
        (fun m snapshot hsn => (h.heard m snapshot hsn).slot) hls hstr
    · obtain ⟨silent,hsi⟩ := not_forall.mp ha
      obtain ⟨m,hn,hm⟩ := TwoOf.other hr silent
      exact (hmar m hm (hq.others hsi m hn)).candidate_of_silent
        (by simpa using hsi) hls hstr (hh.resolve_left ha)
  obtain ⟨hre,hb⟩ := hme r hca hst hl
  exact ⟨hb,fun _ => hre⟩

theorem Handoff.Sound.safe (h : s.Sound route) : s.Safe := by
  intro x hx r hr hstr
  obtain ⟨v,hv,hvs,hn,hh⟩ := h.covered x hx
  have hc := (h.tails v hv).covers h.members h.watermark hr (hstr.trans hvs.symm)
  refine ⟨by omega,h.members.mem_archive hr ?_ fun q hq hs hsl => ?_⟩
  · rw [hstr,← hvs]
    omega
  · rcases h.vouched r.stream q hq hs with ha | ⟨w,hw,hws,hqw,hl⟩
    · exact h.members.agree ha hr hsl
    · have hrw := ((h.tails w hw).covers h.members h.watermark hr hws.symm).2 (hsl.2 ▸ hl)
      exact (certifyCutover_spec (h.tails w hw).archived (h.tails w hw).certified).2.2 q hqw r hrw
        hsl.2

/-- The cohort may move as long as each archived record stays vouched for. -/
theorem Handoff.Sound.setCohort (h : s.Sound route) {cohort : Cohort σ β}
    (hm : cohort.members.Consistent (starts route)) (hg : s.cohort.members.Grows cohort.members)
    (hta : s.Takes route cohort.members)
    (ha : ∀ stream, ∀ r ∈ cohort.members.archive stream, starts route stream ≤ r.lsn →
      r ∈ s.cohort.members.archive stream ∨ cohort.members.Acked r ∨
        ∃ v ∈ s.tails, v.Vouches stream r) :
    Handoff.Sound route { s with cohort } := by
  have hfr : ∀ m stream snapshot, Frozen (route stream).placement s.cohort.members
      (s.admissions m stream).gate stream m snapshot → Frozen (route stream).placement
        cohort.members (s.admissions m stream).gate stream m snapshot := by
    intro m stream snapshot hf
    refine hf.mono (hm.archived stream) hg (fun r hr hst => ?_) (Nat.le_refl _)
    rcases hta m r hr with ho | ⟨_,hop⟩
    · exact ho
    · rw [hst] at hop
      exact absurd hf.past hop
  refine ⟨h.gates,h.leases,hm,fun m r hr => ?_,fun t ht => ?_,fun v hv => ?_,?_,?_⟩
  · exact (hta m r hr).elim (h.watermark m r) fun hn => hn.1
  · have ho := h.cutovers t ht
    exact ⟨fun m snapshot hs => hfr m t.stream snapshot (ho.heard m snapshot hs),
      ho.trimmed,ho.archived⟩
  · have ho := h.tails v hv
    exact ⟨fun m snapshot hs => hfr m v.stream snapshot (ho.heard m snapshot hs),
      ho.trimmed,ho.archived,ho.certified⟩
  · intro stream r hr hl
    rcases ha stream r hr hl with ho | hn
    · rcases h.vouched stream r ho hl with hac | hv
      · exact .inl (AckedIn.mono hac hg.answered)
      · exact .inr hv
    · exact hn
  · intro x hx
    obtain ⟨v,hv,hvs,hnex,hh⟩ := h.covered x hx
    refine ⟨v,hv,hvs,hnex,Nat.le_trans hh (Nat.succ_le_succ ?_)⟩
    exact (hm.archived v.stream).headLsn_mono (hg.archive v.stream)

/-- An admission may change as long as its gate does not move back. -/
theorem Handoff.Sound.setAdmission (h : s.Sound route)
    (hg : a.gate.Sound (route stream).placement a.leases.length)
    (hlea : ∀ batch ∈ a.leases, ValidBatch batch ∧ ∀ r ∈ batch, r.stream = stream)
    (hl : (s.admissions m stream).gate.placement.epoch ≤ a.gate.placement.epoch) :
    (s.setAdmission m stream a).Sound route := by
  have hri : ∀ m' stream', (s.admissions m' stream').gate.placement.epoch ≤
      ((s.setAdmission m stream a).admissions m' stream').gate.placement.epoch := by
    intro m' stream'
    rw [Handoff.setAdmission_at]
    split
    · rename_i he
      rw [he.1,he.2]
      exact hl
    · exact Nat.le_refl _
  have hfr : ∀ m' stream' snapshot, Frozen (route stream').placement s.cohort.members
      (s.admissions m' stream').gate stream' m' snapshot → Frozen (route stream').placement
        s.cohort.members ((s.setAdmission m stream a).admissions m' stream').gate stream' m'
        snapshot := fun m' stream' snapshot hf =>
    hf.mono (h.members.archived stream') (.refl _) (fun _ hr _ => hr) (hri m' stream')
  refine ⟨fun m' stream' => ?_,fun m' stream' => ?_,h.members,h.watermark,fun t ht => ?_,
    fun v hv => ?_,h.vouched,h.covered⟩
  · rw [Handoff.setAdmission_at]
    split
    · rename_i he
      rw [he.2]
      exact hg
    · exact h.gates m' stream'
  · rw [Handoff.setAdmission_at]
    split
    · rename_i he
      rw [he.2]
      exact hlea
    · exact h.leases m' stream'
  · have ho := h.cutovers t ht
    exact ⟨fun m' snapshot hs => hfr m' t.stream snapshot (ho.heard m' snapshot hs),
      ho.trimmed,ho.archived⟩
  · have ho := h.tails v hv
    exact ⟨fun m' snapshot hs => hfr m' v.stream snapshot (ho.heard m' snapshot hs),
      ho.trimmed,ho.archived,ho.certified⟩

theorem Handoff.Sound.setInstalled (h : s.Sound route)
    (installed : List (Fin 3 × σ × PlacementEpoch)) :
    Handoff.Sound route { s with installed } :=
  ⟨h.gates,h.leases,h.members,h.watermark,h.cutovers,h.tails,h.vouched,h.covered⟩

theorem Handoff.Sound.setCutover (h : s.Sound route)
    (ht : t.Sound route s.cohort.members s.admissions) : (s.setCutover i t).Sound route := by
  refine ⟨h.gates,h.leases,h.members,h.watermark,fun t' hm => ?_,h.tails,h.vouched,
    h.covered⟩
  rcases List.mem_or_eq_of_mem_set hm with ho | rfl
  · exact h.cutovers t' ho
  · exact ht

theorem Handoff.Sound.addCutover (h : s.Sound route)
    (ht : t.Sound route s.cohort.members s.admissions) : Handoff.Sound route { s with cutovers := s.cutovers ++ [t] } := by
  refine ⟨h.gates,h.leases,h.members,h.watermark,fun t' hm => ?_,h.tails,h.vouched,
    h.covered⟩
  rcases List.mem_append.mp hm with ho | hn
  · exact h.cutovers t' ho
  · rw [List.mem_singleton] at hn
    exact hn ▸ ht

/-- A cohort step without appends keeps the handoff sound. -/
theorem Handoff.Sound.cohort (h : s.Sound route) {cohort : Cohort σ β}
    (hs : s.cohort.step (starts route) a = some cohort) (hle : a.Appendless = true)
    (hra : s.cohort.WithdrawsOutranked (starts route) a)
    (hac : s.cohort.WithdrawsAcknowledged a) : Handoff.Sound route { s with cohort } := by
  have hmo := Cohort.step_moves hs
  have hg := hmo.grows
  cases hmo with
  | rest he =>
    refine h.setCohort (he ▸ h.members) hg (fun m r hr => .inl (he ▸ hr)) ?_
    exact fun stream r hr _ => .inl (he ▸ hr)
  | append m batch hf _ =>
    rcases hf with rfl | ⟨i,rfl,_⟩ <;> cases hle
  | withdraw i t plan p ha ht hpl hp hw =>
    subst ha
    have hm := h.members.withdraw (hra t ht plan hpl p hp)
      (fun hd _ c hc hl => hac t ht plan hpl p hp hd c hc hl) hw
    have hsp := Members.withdraw_spec hw h.members
    refine h.setCohort hm hg (fun a r hr => .inl ?_) fun stream r hr _ => .inl ?_
    · rcases hsp with ⟨he,_⟩ | he
      · rw [he] at hr
        by_cases ham : a = t.member
        · subst ham
          exact (mem_withdrawn.mp (by simpa using hr)).1
        · simpa [ham] using hr
      · exact he ▸ hr
    · rcases hsp with ⟨he,_⟩ | he <;> simpa [he] using hr

/-- An append lands only while its gate has not moved past the source's placement. -/
theorem Handoff.Sound.land (h : s.Sound route)
    (hb : (s.admissions m stream).leases[i]? = some batch) :
    ((s.setMembers ((s.cohort.members.append (starts route) m batch).toOption.getD
      s.cohort.members)).setAdmission m stream ⟨(s.admissions m stream).gate.release,
        (s.admissions m stream).leases.eraseIdx i⟩).Sound route := by
  obtain ⟨hv,hs⟩ := h.leases m stream batch (List.mem_of_getElem? hb)
  obtain ⟨hl,_⟩ := List.getElem?_eq_some_iff.mp hb
  have ho : ¬(s.admissions m stream).gate.Past (route stream).placement := fun hp =>
    absurd ((h.gates m stream).drained hp) (by omega)
  have hmem : (s.setMembers ((s.cohort.members.append (starts route) m batch).toOption.getD
      s.cohort.members)).Sound route := by
    cases ha : s.cohort.members.append (starts route) m batch with
    | error e => exact h
    | ok members =>
      refine h.setCohort (h.members.append ha) (.append ha) (fun a r hr => ?_) fun st r hr _ => ?_
      · obtain ⟨_,_,node,fresh,_,rfl⟩ := Members.append_spec ha
        rcases Members.mem_take_logs.mp hr with ⟨rfl,hn⟩ | hol
        · exact .inr ⟨hv.watermark r hn,by rw [hs r hn]; exact ho⟩
        · exact .inl hol
      · obtain ⟨_,_,node,fresh,_,rfl⟩ := Members.append_spec ha
        exact .inl hr
  refine hmem.setAdmission ?_ ?_ (Nat.le_refl _)
  · rw [List.length_eraseIdx_of_lt hl]
    exact (h.gates m stream).release
  · exact fun b hm => h.leases m stream b (List.mem_of_mem_eraseIdx hm)

/-- A certified cutover vouches for the records below its successor. -/
theorem Handoff.Sound.certify (h : s.Sound route) (ht : t ∈ s.cutovers)
    (hh : allHeard t.heard = some snapshots) (hb : t.before = some before)
    (ha : t.archived = some archived)
    (hc : certifyCutover (ownsRange (starts route)) snapshots t.stream (route t.stream) before
      archived = .ok (records,next)) :
    Handoff.Sound route
      { s with tails := s.tails ++ [⟨t.stream,snapshots,before,archived,records,next⟩] } := by
  have ho := h.cutovers t ht
  have hsu : ∀ v ∈ s.tails,
      v ∈ s.tails ++ [⟨t.stream,snapshots,before,archived,records,next⟩] :=
    fun v hv => List.mem_append_left _ hv
  refine ⟨h.gates,h.leases,h.members,h.watermark,h.cutovers,fun v hv => ?_,?_,?_⟩
  · rcases List.mem_append.mp hv with hv | hv
    · exact h.tails v hv
    · rw [List.mem_singleton] at hv
      subst hv
      exact ⟨fun m snapshot hs => ho.heard m snapshot (allHeard_eq_some hh hs),
        fun m snapshot hs => ho.trimmed before hb m snapshot (allHeard_eq_some hh hs),
        ho.archived archived ha,hc⟩
  · intro stream r hr hl
    rcases h.vouched stream r hr hl with hac | ⟨v,hv,hvo⟩
    · exact .inl hac
    · exact .inr ⟨v,hsu v hv,hvo⟩
  · intro x hx
    obtain ⟨v,hv,hre⟩ := h.covered x hx
    exact ⟨v,hsu v hv,hre⟩

theorem Handoff.Sound.publish (h : s.Sound route)
    {members : Members σ β}
    (hp : s.cohort.members.publish limit stream records = .ok members)
    (hv : ∀ r ∈ nextSegment limit (s.cohort.members.archive stream) records,
      starts route stream ≤ r.lsn →
        s.cohort.members.Acked r ∨ ∃ v ∈ s.tails, v.Vouches stream r) :
    (s.setMembers members).Sound route := by
  obtain ⟨hm,rfl⟩ := h.members.publish hp
  refine h.setCohort hm (.publish h.members hp) (fun m r hr => .inl hr) fun st r hr hl => ?_
  by_cases hs : st = stream
  · subst hs
    rcases List.mem_append.mp (by simpa using hr) with hr | hr
    · exact .inl hr
    · exact .inr (hv r hr hl)
  · exact .inl (by simpa [hs] using hr)

/-- Every step keeps the handoff sound. -/
theorem Handoff.Sound.step {a : HandoffStep σ β} (h : s.Sound route) (ho : s.Certain route a)
    (hst : s.step route a = some s') : s'.Sound route := by
  cases a with
  | cohort a =>
    simp only [Handoff.step] at hst
    split at hst
    · rename_i hles
      obtain ⟨cohort,hc,rfl⟩ := Option.map_eq_some_iff.mp hst
      exact h.cohort hc hles ho.1 ho.2
    · cases hst
  | admitBatch m batch =>
    obtain ⟨_,hva,hst⟩ := Option.bind_eq_some_iff.mp hst
    obtain ⟨r,hr,hst⟩ := Option.bind_eq_some_iff.mp hst
    obtain ⟨gate,hga,rfl⟩ := Option.map_eq_some_iff.mp hst
    have hv := validateAppendBatch_spec (Except.toOption_eq_some.mp hva)
    have ha := Except.toOption_eq_some.mp hga
    refine h.setAdmission ?_ (fun b hb => ?_) ?_
    · simpa using (h.gates m r.stream).admitLease ha
    · rcases List.mem_append.mp hb with hb | hb
      · exact h.leases m r.stream b hb
      · rw [List.mem_singleton] at hb
        subst hb
        exact ⟨hv,fun q hq => hv.stream q hq r (List.mem_of_mem_head? hr)⟩
    · rw [(Gate.admitLease_spec ha).2]
  | land m stream i =>
    obtain ⟨batch,hb,rfl⟩ := Option.map_eq_some_iff.mp hst
    exact h.land hb
  | install m stream p =>
    simp only [Handoff.step] at hst
    split at hst
    · cases hst
    · obtain ⟨gate,hga,rfl⟩ := Option.map_eq_some_iff.mp hst
      have hi := Except.toOption_eq_some.mp hga
      have hse : (s.setAdmission m stream { s.admissions m stream with gate }).Sound route := by
        refine h.setAdmission ((h.gates m stream).installFence hi) (h.leases m stream) ?_
        rcases Gate.installFence_spec hi with ⟨rfl,_⟩ | ⟨rfl,_⟩ <;> exact Nat.le_refl _
      split
      · exact hse.setInstalled _
      · exact hse
  | drain m stream =>
    obtain ⟨gate,hd,rfl⟩ := Option.map_eq_some_iff.mp hst
    have hse : (s.setAdmission m stream { s.admissions m stream with gate }).Sound route := by
      refine h.setAdmission ((h.gates m stream).drain hd) (h.leases m stream) ?_
      obtain ⟨p,hp,_,rfl⟩ := Gate.drain_spec hd
      exact Nat.le_of_lt ((h.gates m stream).rises p hp)
    exact hse.setInstalled _
  | publish limit stream records =>
    obtain ⟨members,hm,rfl⟩ := Option.map_eq_some_iff.mp hst
    refine h.publish (Except.toOption_eq_some.mp hm) fun r hr hl => .inl ?_
    exact h.members.acked_of_held (ho r hr hl)
  | compact m heads =>
    obtain ⟨members,hm,rfl⟩ := Option.map_eq_some_iff.mp hst
    have hc := Except.toOption_eq_some.mp hm
    have hm' := h.members.compact hc
    have hg := Members.Grows.compact hc
    simp only [Members.compact,guard_ok,Except.bind_eq_ok] at hc
    obtain ⟨_,node,_,he⟩ := hc
    cases he
    exact h.setCohort hm' hg (fun m r hr => .inl hr) fun stream r hr _ => .inl hr
  | cutover stream seen digest =>
    cases hst
    exact h.addCutover ⟨by simp,by simp,by simp⟩
  | fenced i m | unfenced i m =>
    obtain ⟨t,ht,hst⟩ := Option.bind_eq_some_iff.mp hst
    split at hst <;> cases hst
    have hol := h.cutovers t (List.mem_of_getElem? ht)
    exact h.setCutover ⟨hol.heard,hol.trimmed,hol.archived⟩
  | hear i m =>
    obtain ⟨t,ht,hst⟩ := Option.bind_eq_some_iff.mp hst
    split at hst <;> cases hst
    rename_i hgu
    refine h.setCutover ((h.cutovers t (List.mem_of_getElem? ht)).hear (by simpa using hgu.2.1)
      fun snapshot hs => ?_)
    cases hs
    exact .now h.members (ho t ht) t.stream m
  | miss i m =>
    obtain ⟨t,ht,hst⟩ := Option.bind_eq_some_iff.mp hst
    split at hst <;> cases hst
    rename_i hgu
    exact h.setCutover ((h.cutovers t (List.mem_of_getElem? ht)).hear (by simpa using hgu.2.1)
      (by simp))
  | readHead i =>
    obtain ⟨t,ht,hst⟩ := Option.bind_eq_some_iff.mp hst
    obtain ⟨_,_,hst⟩ := Option.bind_eq_some_iff.mp hst
    split at hst <;> cases hst
    have hol := h.cutovers t (List.mem_of_getElem? ht)
    refine h.setCutover ⟨hol.heard,fun before hb m snapshot hs => ?_,hol.archived⟩
    cases hb
    exact (hol.heard m snapshot hs).trimmed
  | readArchive i =>
    obtain ⟨t,ht,hst⟩ := Option.bind_eq_some_iff.mp hst
    obtain ⟨before,_,hst⟩ := Option.bind_eq_some_iff.mp hst
    split at hst <;> cases hst
    have hol := h.cutovers t (List.mem_of_getElem? ht)
    refine h.setCutover ⟨hol.heard,hol.trimmed,fun archived ha x hx y hy => ?_⟩
    cases ha
    exact (h.members.archived t.stream).eq_of_lsn (List.mem_filter.mp hx).1 (List.mem_filter.mp hy).1
  | certify i =>
    obtain ⟨t,ht,hst⟩ := Option.bind_eq_some_iff.mp hst
    obtain ⟨snapshots,hhea,hst⟩ := Option.bind_eq_some_iff.mp hst
    obtain ⟨before,hbe,hst⟩ := Option.bind_eq_some_iff.mp hst
    obtain ⟨archived,har,hst⟩ := Option.bind_eq_some_iff.mp hst
    obtain ⟨⟨records,next⟩,hc,rfl⟩ := Option.map_eq_some_iff.mp hst
    exact h.certify (List.mem_of_getElem? ht) hhea hbe har
      (Except.toOption_eq_some.mp hc)
  | archive i limit =>
    obtain ⟨v,hv,hst⟩ := Option.bind_eq_some_iff.mp hst
    obtain ⟨members,hm,rfl⟩ := Option.map_eq_some_iff.mp hst
    refine h.publish (Except.toOption_eq_some.mp hm) fun r hr _ => .inr ⟨v,?_,rfl,?_⟩
    · exact List.mem_of_getElem? hv
    · have hr' := (List.mem_filter.mp (List.mem_of_mem_take hr)).1
      exact ⟨(List.mem_filter.mp hr').1,by simpa using (List.mem_filter.mp hr').2⟩
  | finish i =>
    obtain ⟨v,hv,hst⟩ := Option.bind_eq_some_iff.mp hst
    split at hst
    · cases hst
    · rename_i hh
      cases hst
      refine ⟨h.gates,h.leases,h.members,h.watermark,h.cutovers,h.tails,h.vouched,?_⟩
      refine List.forall_mem_cons.mpr ⟨⟨v,List.mem_of_getElem? hv,rfl,?_,?_⟩,h.covered⟩
      · simp only
        omega
      · simp only
        omega
  | resume i =>
    obtain ⟨t,ht,rfl⟩ := Option.map_eq_some_iff.mp hst
    exact h.addCutover ⟨by simp [StreamCutover.again],by simp [StreamCutover.again],
      by simp [StreamCutover.again]⟩

theorem Handoff.Sound.empty (route : σ → SourceRoute) :
    (Handoff.empty : Handoff σ β).Sound route := by
  refine ⟨fun _ _ => Gate.Sound.new _,?_,Members.Consistent.empty _,?_,?_,?_,?_,?_⟩
  all_goals simp [Handoff.empty,Cohort.empty,Members.empty]

/-- In a run whose cutovers read only members past the source's placement, every record two source
members acknowledge is archived and below the successor's range. -/
theorem handoffs_are_safe (h : Reachable (· = Handoff.empty) (Handoff.step route)
    (Handoff.Certain route) s) : s.Safe := by
  refine (h.invariant (P := Handoff.Sound route) ?_ fun s a s' hs ho hst => hs.step ho hst).safe
  rintro s rfl
  exact .empty route

section Runs

def firstRoute : Nat → SourceRoute := fun _ => ⟨1, 1, ⟨1, "source"⟩⟩

def place (m : Fin 3) (p : PlacementEpoch) : List (HandoffStep Nat Nat) :=
  [.install m 0 p, .drain m 0]

def take (m : Fin 3) (batch : List (EncryptedRecord Nat Nat)) : List (HandoffStep Nat Nat) :=
  [.admitBatch m batch, .land m 0 0]

def fenceRun (a b c : Fin 3) : List (HandoffStep Nat Nat) :=
  [.cutover 0 [] "move"] ++ place a ⟨2, "move"⟩ ++ place b ⟨2, "move"⟩ ++
    [.fenced 0 a, .fenced 0 b, .unfenced 0 c]

def moveRun (a b c : Fin 3) : List (HandoffStep Nat Nat) :=
  [.hear 0 a, .hear 0 b, .miss 0 c, .readHead 0, .readArchive 0, .certify 0, .archive 0 10,
    .finish 0]

/-- The second record is on two members, one of which the cutover does not hear. -/
theorem handoffs_are_safe_with_a_silent_member : ∃ s : Handoff Nat Nat,
    Reachable (· = .empty) (Handoff.step firstRoute) (Handoff.Certain firstRoute) s ∧
    s.successors = [⟨0, 3⟩] ∧ s.Safe := by
  exact Reachable.exists_of_runs rfl
    (place 0 ⟨1,"source"⟩ ++ place 1 ⟨1,"source"⟩ ++
    place 2 ⟨1,"source"⟩ ++ take 0 [⟨0,1,1,0,11⟩] ++ take 1 [⟨0,1,1,0,11⟩] ++
    take 2 [⟨0,1,1,0,11⟩] ++ take 0 [⟨0,1,2,1,12⟩] ++ take 2 [⟨0,1,2,1,12⟩] ++
    fenceRun 0 1 2 ++ moveRun 0 1 2) rfl fun hr => ⟨by decide,handoffs_are_safe hr⟩

/-- Member 2 takes the second record, then members 1 and 2 get the fence. The cutover hears members
0 and 1; after that the record lands on member 0 as well. -/
theorem handoff_strands_a_record : ¬ ∀ s : Handoff Nat Nat,
    Reachable (· = .empty) (Handoff.step firstRoute) anyStep s → s.Safe := by
  intro ha
  have hr := ha _ (.of_start rfl
    (place 0 ⟨1,"source"⟩ ++ place 1 ⟨1,"source"⟩ ++
    place 2 ⟨1,"source"⟩ ++ take 0 [⟨0,1,1,0,11⟩] ++ take 1 [⟨0,1,1,0,11⟩] ++
    take 2 [⟨0,1,1,0,11⟩] ++ take 2 [⟨0,1,2,1,12⟩] ++ fenceRun 1 2 0 ++
    moveRun 0 1 2 ++ take 0 [⟨0,1,2,1,12⟩]) rfl)
  have hl := (hr ⟨0,2⟩ (by decide) ⟨0,1,2,1,12⟩ (by decide) rfl).1
  exact absurd hl (by decide)

end Runs

end Walleye.Bitr
