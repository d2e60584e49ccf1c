import Walleye.Bitr.Sealing

namespace Walleye.Bitr

open Walleye.Base

variable {σ β : Type} [DecidableEq σ] {start : σ → Nat}

/-- A cutover in flight: every member is fenced, so nothing was acknowledged since it began. -/
structure Cutover.Sound (start : σ → Nat) (s : Members σ β) (t : Cutover σ β) : Prop where
  fenced : ∀ m, (s.nodes m).maintenance ≠ none
  since : t.before = s.answered
  heard : ∀ m snapshot, t.heard m = some (some snapshot) → Heard start s t.before m snapshot
  trimmed : ∀ m snapshot, t.heard m = some (some snapshot) → ∀ stream,
    floorOf snapshot.trimmed stream ≤ headLsn (s.archive stream)

variable {s s' : Members σ β} {t : Cutover σ β} {m : Fin 3}

theorem Cutover.Sound.mono (h : t.Sound start s)
    (hs : s'.Sound start) (hg : s.Grows s') (hsa : s'.answered = s.answered)
    (hf : ∀ m, (s'.nodes m).maintenance = (s.nodes m).maintenance) : t.Sound start s' := by
  refine ⟨fun m => by rw [hf]; exact h.fenced m,h.since.trans hsa.symm,?_,?_⟩
  · exact fun m snapshot hm => (h.heard m snapshot hm).mono hg.answered
  · intro m snapshot hm stream
    exact Nat.le_trans (h.trimmed m snapshot hm stream)
      ((hs.archived stream).headLsn_mono (hg.archive stream))

theorem Members.withdraw_maintenance (h : s.withdraw m stream lsn epoch = .ok s') (a : Fin 3) :
    (s'.nodes a).maintenance = (s.nodes a).maintenance := by
  simp only [Members.withdraw,DiskState.supersede,Except.bind_eq_ok,guard_ok] at h
  obtain ⟨node,⟨_,_,hn⟩,he⟩ := h
  have hk : node.maintenance = (s.nodes m).maintenance := by
    split at hn
    · cases hn
      rfl
    · simp only [guard_ok] at hn
      cases hn.2
      rfl
  cases he
  by_cases ha : a = m
  · subst ha
    simpa using hk
  · simp [ha]

theorem Members.compact_maintenance (h : s.compact m heads = .ok s') (a : Fin 3) :
    (s'.nodes a).maintenance = (s.nodes a).maintenance := by
  simp only [Members.compact,guard_ok,Except.bind_eq_ok] at h
  obtain ⟨_,node,hn,he⟩ := h
  have hk := (DiskState.compactArchivedBatch_spec hn).maintenance
  cases he
  by_cases ha : a = m
  · subst ha
    simpa using hk
  · simp [ha]

theorem Members.Sound.setMaintenance (h : s.Sound start) (m : Fin 3)
    (fence : Option MaintenanceFence) : (s.setMaintenance m fence).Sound start := by
  refine ⟨⟨fun a => ?_,h.logged,h.replaced,h.kept,h.archived,fun a stream => ?_⟩,h.certified⟩
  · by_cases ha : a = m
    · subst ha
      have ht := h.member a
      simpa [Members.setMaintenance] using
        (⟨ht.hot,ht.marked,ht.slot,ht.epoch,ht.trimEpoch,ht.ordered,ht.dense,ht.above,
          ht.keyed⟩ : Tracks start { s.nodes a with maintenance := fence } (s.logs a))
    · simpa [Members.setMaintenance,ha] using h.member a
  · by_cases ha : a = m
    · subst ha
      simpa [Members.setMaintenance] using h.fenced a stream
    · simpa [Members.setMaintenance,ha] using h.fenced a stream

structure Cell.Sound (start : σ → Nat) (s : Cell σ β) : Prop where
  members : s.cohort.members.Sound start
  chains : s.cohort.Chains
  cutovers : ∀ t ∈ s.cutovers, t.done = false → t.Sound start s.cohort.members
  covered : s.Covered

theorem Cell.Sound.grow {s : Cell σ β} (h : s.Sound start) {members : Members σ β}
    (hm : members.Sound start) (hg : s.cohort.members.Grows members)
    (hs : members.answered = s.cohort.members.answered)
    (hf : ∀ m, (members.nodes m).maintenance = (s.cohort.members.nodes m).maintenance) :
    (s.setMembers members).Sound start := by
  refine ⟨hm,⟨fun m r hr => ?_,h.chains.planned⟩,?_,h.covered⟩
  · exact h.chains.accepted m r (AcceptedIn.mono hr (hs ▸ List.Subset.refl _))
  · exact fun t ht hd => (h.cutovers t ht hd).mono hm hg hs hf

theorem Cell.Sound.setCutover {s : Cell σ β} (h : s.Sound start)
    (ht : t.done = false → t.Sound start s.cohort.members) : (s.setCutover i t).Sound start := by
  refine ⟨h.members,h.chains,fun t' hm => ?_,h.covered⟩
  rcases List.mem_or_eq_of_mem_set hm with ho | rfl
  · exact h.cutovers t' ho
  · exact ht

theorem Cutover.Sound.hear (h : t.Sound start s)
    (ha : ∀ snapshot ∈ answer, Heard start s t.before m snapshot ∧
      ∀ stream, floorOf snapshot.trimmed stream ≤ headLsn (s.archive stream)) :
    Cutover.Sound start s { t with heard := Function.update t.heard m (some answer) } := by
  have hat : ∀ x snapshot, Function.update t.heard m (some answer) x = some (some snapshot) →
      Heard start s t.before x snapshot ∧
        ∀ stream, floorOf snapshot.trimmed stream ≤ headLsn (s.archive stream) := by
    intro x snapshot hx
    by_cases hxm : x = m
    · subst hxm
      exact ha snapshot (by simpa using hx)
    · rw [Function.update_of_ne hxm] at hx
      exact ⟨h.heard x snapshot hx,h.trimmed x snapshot hx⟩
  exact ⟨h.fenced,h.since,fun x snapshot hx => (hat x snapshot hx).1,
    fun x snapshot hx => (hat x snapshot hx).2⟩

variable [DecidableEq β]

/-- No acknowledged record is past the tail that a cutover judges. -/
theorem Cutover.Sound.le_judgedTail (h : t.Sound start s)
    (hs : s.Sound start) (hcha : ∀ m r, s.Accepted m r → r.Chained)
    (hhea : allHeard t.heard = some snapshots)
    (hq : ackQuorum ≤ countOf fun m => (snapshots m).isSome = true)
    (ho : ∀ r ∈ others, r.stream = stream ∧ r.lsn < start stream)
    (hse : Settled start (s.archive stream) snapshots stream others)
    (hr : AckedIn s.answered r) (hst : r.stream = stream) :
    r.lsn ≤ judgedTail start (s.archive stream) snapshots stream others trims := by
  obtain ⟨hra,hc,hne⟩ := hse
  have har := hs.archived stream
  have hh := har.le_certifiedWalk others
  have hw : Walked (s.archive stream ++ others) 1 0 (certifiedWalk (s.archive stream ++ others)
      (s.archive stream ++ others).length 1 0) := certifiedWalk_walked Nat.one_pos
  generalize certifiedWalk (s.archive stream ++ others) (s.archive stream ++ others).length 1 0 =
    below at hra hc hne hh hw
  refine Nat.le_trans ?_ (Nat.le_max_right _ _)
  rw [← List.append_assoc]
  have hno : ∀ n, below.1 < n → n ≤ r.lsn → copyAt (s.archive stream ++ others) n = none := by
    intro n hn _
    refine List.find?_eq_none.mpr fun x hx => ?_
    have hxl : x.lsn ≤ below.1 := by
      rcases List.mem_append.mp hx with hx | hx
      · exact Nat.le_trans (har.mem hx).2.2.1 hh
      · have := (ho x hx).2
        omega
    simp only [decide_eq_true_eq]
    omega
  by_cases hl : below.1 < r.lsn
  · have ha : Answered start s t.before (ownsRange start) snapshots stream below.1 := by
      refine ⟨hs,hcha,by rw [h.since]; exact List.Subset.refl _,?_,two_le_countOf.mp hq,
        ?_,hra,?_⟩
      · exact fun m snapshot hm => h.heard m snapshot (allHeard_eq_some hhea hm)
      · exact fun m snapshot hm => Nat.le_trans
          (h.trimmed m snapshot (allHeard_eq_some hhea hm) stream) hh
      · intro m x hxs hxl
        exact decide_eq_true (by rw [hxs]; exact hxl)
    obtain ⟨m,snapshot,hsn,hal⟩ := ha.candidates_at hc (h.since ▸ hr) hst hl
    have hh' := ha.heard m snapshot hsn
    have hat : ∀ n, below.1 < n → n ≤ r.lsn → ∃ x ∈ snapshot.records,
        copyAt (collectCandidates (ownsRange start) snapshots stream) n = some x ∧
          x.stream = stream ∧ x.lsn = n ∧ x ∈ evidence (ownsRange start) snapshots := by
      intro n hn hle
      obtain ⟨x,hx,hxm,rfl⟩ := hal n hn hle
      obtain ⟨he,hxs,_⟩ := mem_collectCandidates.mp hx
      have hf := copyAt_of_unique (fun a ha b hb => collectCandidates_unique ha hb) hx
      exact ⟨x,hxm,hf,hxs,rfl,he⟩
    have hor : ∀ n n' x y, below.1 < n → n ≤ n' → n' ≤ r.lsn →
        copyAt (collectCandidates (ownsRange start) snapshots stream) n = some x →
        copyAt (collectCandidates (ownsRange start) snapshots stream) n' = some y →
        x.writerEpoch ≤ y.writerEpoch := by
      intro n n' x y hn hnn hle hx hy
      obtain ⟨x',hxm,hx',hxs,hxl,_⟩ := hat n hn (by omega)
      obtain ⟨y',hym,hy',hys,hyl,_⟩ := hat n' (by omega) hle
      cases Option.some.inj (hx.symm.trans hx')
      cases Option.some.inj (hy.symm.trans hy')
      exact hh'.ordered hxm hym (hxs.trans hys.symm) (by omega)
    refine le_certifiedWalk_append hw hno ?_ hor
    intro n hn hle
    obtain ⟨x,hxm,hx,hxs,hxl,_⟩ := hat n hn hle
    obtain ⟨y,_,hy,hys,hyl,hye⟩ := hat (below.1 + 1) (by omega) (by omega)
    have hch := hcha m x (hh'.accepted x hxm)
    refine ⟨x,hx,by rw [← hxl]; exact hch.2,?_⟩
    exact Nat.le_trans (hne y hye hys hyl)
      (hor (below.1 + 1) n y x (by omega) (by omega) hle hy hx)
  · refine le_certifiedWalk_append hw hno ?_ ?_
    · exact fun n hn hle => by omega
    · exact fun n n' x y hn hnn hle => by omega

theorem Cutover.Sound.moves
    (h : t.Sound start c.members) (hm : Cohort.Moves start c c' a) (hs : c'.members.Sound start) :
    t.Sound start c'.members := by
  have hg := hm.grows
  cases hm with
  | rest he => rwa [he]
  | append m batch _ ha => exact absurd (Members.append_spec ha).2.1 (h.fenced m)
  | withdraw i task plan p _ _ _ _ hw =>
    refine h.mono hs hg ?_ (Members.withdraw_maintenance hw)
    simp only [Members.withdraw,Except.bind_eq_ok] at hw
    obtain ⟨_,_,he⟩ := hw
    rw [← Except.ok.inj he]

/-- Every step keeps the cell sound. -/
theorem Cell.Sound.step {s s' : Cell σ β} (h : s.Sound start)
    (ho : s.Certain start a) (hst : s.step start a = some s') : s'.Sound start := by
  cases a with
  | cohort a =>
    simp only [Cell.step] at hst
    split at hst
    · rename_i hse
      obtain ⟨cohort,hc,rfl⟩ := Option.map_eq_some_iff.mp hst
      have hm := Cohort.step_moves hc
      have hs := hm.sound h.members ho
      exact ⟨hs,h.chains.step hse hc,fun t ht hd => (h.cutovers t ht hd).moves hm hs,h.covered⟩
    · cases hst
  | publish limit stream records =>
    obtain ⟨members,hm,rfl⟩ := Option.map_eq_some_iff.mp hst
    have hp := Except.toOption_eq_some.mp hm
    have hs := h.members.publish hp ho
    have hg := Members.Grows.publish h.members.toConsistent hp
    simp only [Members.publish,Except.bind_eq_ok] at hp
    obtain ⟨_,_,he⟩ := hp
    cases he
    exact h.grow hs hg rfl fun _ => rfl
  | compact m heads =>
    obtain ⟨members,hm,rfl⟩ := Option.map_eq_some_iff.mp hst
    have hc := Except.toOption_eq_some.mp hm
    refine h.grow (h.members.compact hc) (.compact hc) ?_ (Members.compact_maintenance hc)
    simp only [Members.compact,guard_ok,Except.bind_eq_ok] at hc
    obtain ⟨_,_,_,he⟩ := hc
    rw [← Except.ok.inj he]
  | fence m fence =>
    simp only [Cell.step] at hst
    split at hst
    · rename_i hop
      cases hst
      refine ⟨h.members.setMaintenance m (some fence),⟨h.chains.accepted,h.chains.planned⟩,
        fun t ht hd => ?_,h.covered⟩
      exact absurd hop ((h.cutovers t ht hd).fenced m)
    · cases hst
  | release m =>
    simp only [Cell.step] at hst
    split at hst
    · rename_i hdo
      cases hst
      refine ⟨h.members.setMaintenance m none,⟨h.chains.accepted,h.chains.planned⟩,
        fun t ht hd => ?_,h.covered⟩
      exact absurd (hdo t ht) (by simp [hd])
    · cases hst
  | cutover fence =>
    simp only [Cell.step] at hst
    split at hst
    · rename_i hf
      cases hst
      refine ⟨h.members,h.chains,fun t ht hd => ?_,h.covered⟩
      rcases List.mem_append.mp ht with ht | ht
      · exact h.cutovers t ht hd
      · rw [List.mem_singleton] at ht
        subst ht
        exact ⟨fun m => by simp [hf m],rfl,by simp,by simp⟩
    · cases hst
  | hear i m =>
    obtain ⟨t,ht,hst⟩ := Option.bind_eq_some_iff.mp hst
    split at hst <;> cases hst
    rename_i hop
    have hol := h.cutovers t (List.mem_of_getElem? ht) hop.1
    refine h.setCutover fun _ => hol.hear fun snapshot hsn => ?_
    cases hsn
    exact ⟨.now h.members (by rw [hol.since]; exact List.Subset.refl _) m,h.members.fenced m⟩
  | miss i m =>
    obtain ⟨t,ht,hst⟩ := Option.bind_eq_some_iff.mp hst
    split at hst <;> cases hst
    rename_i hop
    exact h.setCutover fun _ => (h.cutovers t (List.mem_of_getElem? ht) hop.1).hear (by simp)
  | judge i stream others trims =>
    obtain ⟨t,ht,hst⟩ := Option.bind_eq_some_iff.mp hst
    obtain ⟨snapshots,hsn,hst⟩ := Option.bind_eq_some_iff.mp hst
    split at hst
    · rename_i hgu
      have hco : ∀ r, AckedIn s.cohort.members.answered r → r.stream = stream → r.lsn ≤
          judgedTail start (s.cohort.members.archive stream) snapshots stream others trims :=
        fun r hr hstr => (h.cutovers t (List.mem_of_getElem? ht) hgu.1).le_judgedTail
          h.members h.chains.accepted hsn hgu.2.1 hgu.2.2 (ho t ht snapshots hsn) hr hstr
      simp only at hst
      split at hst
      · rename_i hem
        split at hst <;> cases hst
        refine ⟨h.members,h.chains,h.cutovers,h.covered.1,?_⟩
        refine List.forall_mem_cons.mpr ⟨fun r hr (hstr : r.stream = stream) => ?_,h.covered.2⟩
        obtain ⟨m,hm,_⟩ := TwoOf.meet hr hr
        have ha := ((h.members.member m).above r (h.members.kept r hr m hm)).2
        have hl := hco r hr hstr
        rw [hstr] at ha
        omega
      · cases hst
        exact ⟨h.members,h.chains,h.cutovers,
          List.forall_mem_cons.mpr ⟨hco,h.covered.1⟩,h.covered.2⟩
    · cases hst
  | finish i =>
    obtain ⟨t,ht,hst⟩ := Option.bind_eq_some_iff.mp hst
    cases hst
    exact h.setCutover (by simp)

/-- In a run whose withdrawals, publications and cutovers are certain, no acknowledged record
is past the seal of its range, and no dropped range held one. -/
theorem seals_cover_acknowledged_records {s : Cell σ β}
    (h : Reachable (· = Cell.empty) (Cell.step start) (Cell.Certain start) s) : s.Covered := by
  have hso : s.Sound start := by
    refine h.invariant (P := Cell.Sound start) ?_ fun s a s' hs ho hst => hs.step ho hst
    rintro s rfl
    exact ⟨Members.Sound.empty start,⟨by simp [Cell.empty,Cohort.empty,Members.empty,
      Members.Accepted,AcceptedIn],by simp [Cell.empty,Cohort.empty]⟩,by simp [Cell.empty],
      by simp [Cell.Covered,Cell.empty]⟩
  exact hso.covered

section Runs

def cutoverRun (silent : Fin 3) : List (CellStep Nat Nat) :=
  let fence : MaintenanceFence := ⟨"operation", 1, "signature"⟩
  [.fence 0 fence, .fence 1 fence, .fence 2 fence, .cutover fence] ++
    [0, 1, 2].map fun m => if m = silent then .miss 0 m else .hear 0 m

/-- A range from LSN 1 with two acknowledged records, the first archived and trimmed, is
sealed after the second while a member is silent. -/
theorem seals_cover_a_trimmed_range : ∃ s : Cell Nat Nat,
    Reachable (· = .empty) (Cell.step fun _ => 1) (Cell.Certain fun _ => 1) s ∧
    s.sealed.map (·.lsn) = [2] ∧ s.Covered := by
  exact Reachable.exists_of_runs rfl
    ([.cohort (.append 0 [⟨0,1,1,0,11⟩,⟨0,1,2,1,12⟩]),
    .cohort (.append 1 [⟨0,1,1,0,11⟩,⟨0,1,2,1,12⟩]),
    .publish 10 0 [⟨0,1,1,0,11⟩],.compact 0 [(0,1)]] ++ cutoverRun 1 ++
    [.judge 0 0 [] []]) rfl fun hr => ⟨by decide,seals_cover_acknowledged_records hr⟩

/-- Members 0 and 1 acknowledge the second record while member 2 holds another at its LSN. A cutover
that member 0 does not answer seals the range below it. -/
theorem seal_strands_a_record : ¬ ∀ s : Cell Nat Nat,
    Reachable (· = .empty) (Cell.step fun _ => 1) anyStep s → s.Covered := by
  intro ha
  have hr := ha _ (.of_start rfl
    ([.cohort (.append 0 [⟨0,1,1,0,11⟩]),
    .cohort (.append 1 [⟨0,1,1,0,11⟩]),.cohort (.append 2 [⟨0,1,1,0,11⟩]),
    .cohort (.append 0 [⟨0,1,2,1,12⟩]),.cohort (.append 1 [⟨0,1,2,1,12⟩]),
    .cohort (.append 2 [⟨0,1,2,1,22⟩])] ++ cutoverRun 0 ++ [.judge 0 0 [] []]) rfl)
  have hl := hr.1 _ List.mem_cons_self ⟨0,1,2,1,12⟩
    ⟨0,1,by decide,⟨[⟨0,1,2,1,12⟩],by decide,by decide⟩,
      ⟨[⟨0,1,2,1,12⟩],by decide,by decide⟩⟩ rfl
  exact absurd hl (by decide)

end Runs

end Walleye.Bitr
