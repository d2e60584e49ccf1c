import Walleye.Bitr.LogFile

namespace Walleye.Bitr

open Walleye.Base

variable {σ β : Type}

/-! ### Contiguous records -/

def HoldsLsn (records : List (EncryptedRecord σ β)) (stream : σ) (lsn : Nat) : Prop :=
  ∃ r ∈ records, r.stream = stream ∧ r.lsn = lsn

def ContiguousAbove (records : List (EncryptedRecord σ β)) (stream : σ) (floor : Nat) : Prop :=
  ∃ top, floor ≤ top ∧ ∀ lsn, HoldsLsn records stream lsn ↔ floor < lsn ∧ lsn ≤ top

section Contiguous

variable {records fresh : List (EncryptedRecord σ β)} {stream : σ}

theorem holdsLsn_append :
    HoldsLsn (records ++ fresh) stream lsn ↔
      HoldsLsn records stream lsn ∨ HoldsLsn fresh stream lsn := by
  simp only [HoldsLsn,List.mem_append,or_and_right,exists_or]

theorem ContiguousAbove.add (h : ContiguousAbove records stream floor)
    (hr : r.stream = stream) (hp : 0 < r.lsn)
    (hn : ¬HoldsLsn records stream r.lsn) (ha : floor < r.lsn)
    (hl : r.lsn ≤ 1 ∨ HoldsLsn records stream (r.lsn - 1) ∨ floor = r.lsn - 1) :
    ContiguousAbove (records ++ [r]) stream floor := by
  obtain ⟨top,hf,hh⟩ := h
  have hpa : top < r.lsn := by
    by_contra hle
    exact hn ((hh r.lsn).mpr ⟨ha,by omega⟩)
  have hnex : r.lsn = top + 1 := by
    rcases hl with hfi | hpr | ht
    · omega
    · have := (hh _).mp hpr
      omega
    · omega
  refine ⟨top + 1,by omega,?_⟩
  intro lsn
  rw [holdsLsn_append,hh lsn]
  simp only [HoldsLsn,List.mem_singleton,exists_eq_left,hr,true_and,hnex]
  omega

/-- New records that link up leave no gap above the floor. -/
theorem contiguousAbove_append (h : ContiguousAbove records stream floor)
    (hs : ∀ r ∈ fresh, r.stream = stream) (hso : fresh.Pairwise (·.lsn < ·.lsn))
    (hp : ∀ r ∈ fresh, 0 < r.lsn) (hn : ∀ r ∈ fresh, ¬HoldsLsn records stream r.lsn)
    (ha : ∀ r ∈ fresh, floor < r.lsn)
    (hl : ∀ r ∈ fresh, r.lsn ≤ 1 ∨ HoldsLsn (records ++ fresh) stream (r.lsn - 1) ∨
      floor = r.lsn - 1) : ContiguousAbove (records ++ fresh) stream floor := by
  induction fresh generalizing records with
  | nil => simpa using h
  | cons r rest ih =>
    obtain ⟨hla,hre⟩ := List.pairwise_cons.mp hso
    have hr := hp r List.mem_cons_self
    have hf : r.lsn ≤ 1 ∨ HoldsLsn records stream (r.lsn - 1) ∨ floor = r.lsn - 1 := by
      refine (hl r List.mem_cons_self).imp_right (Or.imp_left ?_)
      intro hh
      obtain ho | ⟨q,hq,_,hls⟩ := holdsLsn_append.mp hh
      · exact ho
      · obtain rfl | hq := List.mem_cons.mp hq
        · omega
        · have := hla q hq
          omega
    have had := h.add (hs r List.mem_cons_self) hr (hn r List.mem_cons_self)
      (ha r List.mem_cons_self) hf
    have hap : records ++ r :: rest = records ++ [r] ++ rest := by simp
    rw [hap]
    apply ih had
    · exact fun q hq => hs q (List.mem_cons_of_mem _ hq)
    · exact hre
    · exact fun q hq => hp q (List.mem_cons_of_mem _ hq)
    · intro q hq hh
      obtain hh | ⟨x,hx,_,hls⟩ := holdsLsn_append.mp hh
      · exact hn q (List.mem_cons_of_mem _ hq) hh
      · rw [List.mem_singleton] at hx
        subst hx
        have := hla q hq
        omega
    · exact fun q hq => ha q (List.mem_cons_of_mem _ hq)
    · intro q hq
      rw [← hap]
      exact hl q (List.mem_cons_of_mem _ hq)

theorem ContiguousAbove.below (h : ContiguousAbove records stream floor) (hf : floor < fromLsn)
    (hk : ∀ lsn, HoldsLsn kept stream lsn ↔ HoldsLsn records stream lsn ∧ lsn < fromLsn) :
    ContiguousAbove kept stream floor := by
  obtain ⟨top,hfl,hh⟩ := h
  refine ⟨min top (fromLsn - 1),by omega,?_⟩
  intro lsn
  rw [hk,hh]
  omega

theorem ContiguousAbove.trim (h : ContiguousAbove records stream floor) (hf : floor ≤ floor')
    (hk : ∀ lsn, HoldsLsn kept stream lsn ↔ HoldsLsn records stream lsn ∧ floor' < lsn) :
    ContiguousAbove kept stream floor' := by
  obtain ⟨top,_,hh⟩ := h
  refine ⟨max top floor',Nat.le_max_right _ _,?_⟩
  intro lsn
  rw [hk,hh]
  omega

theorem ContiguousAbove.congr (h : ContiguousAbove records stream floor)
    (hk : ∀ lsn, HoldsLsn kept stream lsn ↔ HoldsLsn records stream lsn) :
    ContiguousAbove kept stream floor := by
  obtain ⟨top,hf,hh⟩ := h
  exact ⟨top,hf,fun lsn => (hk lsn).trans (hh lsn)⟩

end Contiguous

variable [DecidableEq σ]

/-! ### What a call does to the maps -/

/-- The records a call adds: one stream and epoch, in order, new to the node, above its trim fence,
not below its highest epoch, each with a predecessor. -/
structure NodeMaps.Fresh (boundary : EncryptedRecord σ β → Bool) (m : NodeMaps σ β)
    (fresh : List (EncryptedRecord σ β)) : Prop where
  alike : ∀ r ∈ fresh, ∀ q ∈ fresh, r.stream = q.stream ∧ r.writerEpoch = q.writerEpoch
  sorted : fresh.Pairwise (·.lsn < ·.lsn)
  positive : ∀ r ∈ fresh, 0 < r.lsn
  absent : ∀ r ∈ fresh, recordAt m.records r.stream r.lsn = none
  above : ∀ r ∈ fresh, ∀ p, prefixOf m.trimmed r.stream = some p → p.archivedLsn < r.lsn
  fenced : ∀ r ∈ fresh, (m.highestEpoch r.stream).getD 0 ≤ r.writerEpoch
  linked : ∀ r ∈ fresh, (m.disk none).Linked boundary fresh r

def NodeCall.boundary : NodeCall σ β → EncryptedRecord σ β → Bool
  | .append boundary _ _ => boundary
  | .appendMany boundary _ _ _ => boundary
  | _ => fun _ => false

inductive NodeMaps.Change (c : NodeCall σ β) (m m' : NodeMaps σ β) : Prop
  | keeps (records : m'.records = m.records) (highestEpoch : m'.highestEpoch = m.highestEpoch)
      (trimmed : m'.trimmed = m.trimmed)
  | adds (fresh : List (EncryptedRecord σ β)) (new : m.Fresh c.boundary fresh)
      (records : m'.records = m.records ++ fresh)
      (highestEpoch : m'.highestEpoch =
        fresh.foldl (fun h r => raiseTo h r.stream r.writerEpoch) m.highestEpoch)
      (trimmed : m'.trimmed = m.trimmed)
  | withdraws (stream : σ) (fromLsn writerEpoch : Nat) (call : c = .supersede stream fromLsn writerEpoch)
      (positive : fromLsn ≠ 0)
      (above : ∀ p, prefixOf m.trimmed stream = some p → p.archivedLsn < fromLsn)
      (maps : m' = m.withdrawSuffix stream fromLsn)
  | compacts (fence : Option MaintenanceFence) (prefixes next : List (TrimmedPrefix σ))
      (trims : (m.disk fence).nextTrimmed prefixes m.trimmed = .ok next)
      (maps : m' = m.compacted next)

section Calls

variable {m m' : NodeMaps σ β}

theorem NodeMaps.supersede_change (h : m.supersede fence stream fromLsn writerEpoch = .ok (m',w)) :
    NodeMaps.Change (.supersede stream fromLsn writerEpoch) m m' := by
  obtain ⟨_,hd,h⟩ := Except.bind_eq_ok.mp h
  simp only [DiskState.supersede,guard_ok] at hd
  obtain ⟨hpo,ht,_⟩ := hd
  split at h
  · cases h
    refine .withdraws stream fromLsn writerEpoch rfl hpo ?_ rfl
    intro p hp
    have hp' : prefixOf (m.disk fence).trimmed stream = some p := hp
    simpa [hp'] using ht
  · cases h
    exact .keeps rfl rfl rfl

variable [DecidableEq β]

/-- All that a single append can do to the maps. -/
theorem NodeMaps.append_change (h : m.append fence boundary token r = .ok (m',w)) :
    NodeMaps.Change (.append boundary token r) m m' := by
  obtain ⟨d,hd,h⟩ := Except.bind_eq_ok.mp h
  simp only [DiskState.append,guard_ok] at hd
  obtain ⟨_,hw,he,ht,hd⟩ := hd
  cases ha : recordAt m.records r.stream r.lsn with
  | some existing =>
    simp only [ha] at h
    cases h
    exact .keeps rfl rfl rfl
  | none =>
    have ha' : recordAt (m.disk fence).records r.stream r.lsn = none := ha
    simp only [ha',ha,guard_ok] at hd h
    cases h
    refine .adds [r] ⟨by simp,List.pairwise_singleton _ _,?_,?_,?_,?_,?_⟩ rfl ?_ rfl
    · simp only [List.mem_singleton,forall_eq]
      omega
    · simpa using ha
    · simp only [List.mem_singleton,forall_eq]
      intro p hp
      have hp' : prefixOf (m.disk fence).trimmed r.stream = some p := hp
      simpa [hp'] using ht
    · simp only [List.mem_singleton,forall_eq]
      exact Nat.le_of_not_lt he
    · simp only [List.mem_singleton,forall_eq]
      by_contra hn
      simp only [DiskState.Linked,not_or] at hn
      obtain ⟨hf,hh,htri,hm⟩ := hn
      refine hd.1 ⟨by omega,?_,?_,by simpa [NodeCall.boundary] using hm⟩
      · apply recordAt_eq_none.mpr
        intro x hx heq
        exact hh ⟨x,.inl hx,heq⟩
      · apply Bool.eq_false_iff.mpr
        intro han
        obtain ⟨p,hp,heq⟩ := (Option.any_eq_true _ _).mp han
        exact htri ⟨p,hp,by simpa using heq⟩
    · simp [raiseTo_eq]

theorem NodeMaps.appendMany_change {commit : Bool}
    (h : m.appendMany fence boundary token commit batch = .ok (m',w)) :
    NodeMaps.Change (.appendMany boundary token commit batch) m m' := by
  simp only [NodeMaps.appendMany,Except.bind_eq_ok,guard_ok] at h
  obtain ⟨_,hv,_,fresh,hn,commits,_,h⟩ := h
  cases h
  obtain ⟨hc,_,ha⟩ := DiskState.checkNew_spec hn
  obtain ⟨_,rfl,hs⟩ := DiskState.checkNew_sublist hn
  have hb := validateAppendBatch_spec hv
  have hf : ∀ r ∈ fresh, recordAt m.records r.stream r.lsn = none ∧
      (m.disk none).Linked boundary fresh r := fun r hr =>
    ((ha r hr).resolve_left List.not_mem_nil).2
  refine .adds fresh ⟨?_,(validateAppendBatch_sorted hv).sublist hs,?_,?_,?_,?_,?_⟩
    rfl rfl rfl
  · intro r hr q hq
    exact ⟨hb.stream r (hs.subset hr) q (hs.subset hq),
      hb.epoch r (hs.subset hr) q (hs.subset hq)⟩
  · exact fun r hr => hb.positive r (hs.subset hr)
  · exact fun r hr => (hf r hr).1
  · exact fun r hr => hc.above r (hs.subset hr)
  · exact fun r hr => hc.epoch r (hs.subset hr)
  · exact fun r hr => (hf r hr).2

theorem NodeMaps.commit_change
    (h : m.commit fence token r = .ok (m',w)) : NodeMaps.Change (.commit token r) m m' := by
  obtain ⟨_,_,h⟩ := Except.bind_eq_ok.mp h
  split at h
  · cases h
    exact .keeps rfl rfl rfl
  · split at h <;> cases h <;> exact .keeps rfl rfl rfl

theorem NodeMaps.call_change {c : NodeCall σ β} (h : m.call fence c = .ok (m',w)) :
    NodeMaps.Change c m m' := by
  cases c with
  | append boundary token r => exact NodeMaps.append_change h
  | appendMany boundary token commit batch => exact NodeMaps.appendMany_change h
  | commit token r => exact NodeMaps.commit_change h
  | supersede stream fromLsn epoch => exact NodeMaps.supersede_change h
  | compactArchivedBatch prefixes =>
    obtain ⟨rfl,rfl⟩ | ⟨next,hn,rfl,rfl⟩ := NodeMaps.compactArchivedBatch_cases h
    · exact .keeps rfl rfl rfl
    · exact .compacts fence prefixes next hn rfl

end Calls

/-! ### The order of a node's log -/

/-- Each stream's records are contiguous above its trim checkpoint and their epochs do not go
back. -/
structure NodeMaps.Ordered (m : NodeMaps σ β) : Prop where
  contiguous : ∀ stream, ContiguousAbove m.records stream (floorOf m.trimmed stream)
  epochs : ∀ r ∈ m.records, ∀ q ∈ m.records, r.stream = q.stream → r.lsn ≤ q.lsn →
    r.writerEpoch ≤ q.writerEpoch

theorem NodeMaps.Ordered.empty : (NodeMaps.empty : NodeMaps σ β).Ordered := by
  constructor
  · intro stream
    refine ⟨0,Nat.le_refl _,?_⟩
    intro lsn
    simp only [HoldsLsn,NodeMaps.empty,floorOf]
    simp
    omega
  · simp [NodeMaps.empty]

theorem NodeMaps.Wf.covers {m : NodeMaps σ β} (h : m.Wf)
    (hs : epoch ∈ seenEpochs m.records m.trimmed stream) :
    ∃ highest, m.highestEpoch stream = some highest ∧ epoch ≤ highest := by
  rw [h.epochs stream]
  cases hm : (seenEpochs m.records m.trimmed stream).max? with
  | none =>
    rw [List.max?_eq_none_iff] at hm
    rw [hm] at hs
    cases hs
  | some highest => exact ⟨highest,rfl,(List.max?_eq_some_iff.mp hm).2 epoch hs⟩

theorem NodeMaps.Wf.record_le {m : NodeMaps σ β} (h : m.Wf)
    (hr : r ∈ m.records) : r.writerEpoch ≤ (m.highestEpoch r.stream).getD 0 := by
  obtain ⟨highest,he,hl⟩ := h.covers (mem_seenEpochs.mpr (.inl ⟨r,hr,rfl,rfl⟩))
  simpa [he] using hl

theorem NodeMaps.Wf.floor_lt {m : NodeMaps σ β} (h : m.Wf) (hl : 0 < lsn)
    (ha : ∀ p, prefixOf m.trimmed stream = some p → p.archivedLsn < lsn) :
    floorOf m.trimmed stream < lsn := by
  rw [floorOf_eq h.fences]
  cases hp : prefixOf m.trimmed stream with
  | none => exact hl
  | some p => exact ha p hp

/-- New records keep the log in order. -/
theorem NodeMaps.Ordered.adds {m m' : NodeMaps σ β} (h : m.Ordered) (hw : m.Wf)
    (hn : m.Fresh (fun _ => false) fresh)
    (hre : m'.records = m.records ++ fresh) (ht : m'.trimmed = m.trimmed) :
    m'.Ordered := by
  have ha : ∀ r ∈ fresh, ¬HoldsLsn m.records r.stream r.lsn := by
    rintro r hr ⟨q,hq,hk⟩
    exact recordAt_eq_none.mp (hn.absent r hr) q hq hk
  have hf : ∀ r ∈ fresh, floorOf m.trimmed r.stream < r.lsn := fun r hr =>
    hw.floor_lt (hn.positive r hr) (hn.above r hr)
  constructor
  · intro stream
    rw [hre,ht]
    by_cases hs : ∀ r ∈ fresh, r.stream = stream
    · apply contiguousAbove_append (h.contiguous stream) hs hn.sorted hn.positive
      · exact fun r hr => hs r hr ▸ ha r hr
      · exact fun r hr => hs r hr ▸ hf r hr
      · intro r hr
        rcases hn.linked r hr with hfi | ⟨q,hq,hqs,hql⟩ | ⟨p,hp,hpl⟩ | hm
        · exact .inl hfi
        · exact .inr (.inl ⟨q,List.mem_append.mpr hq,hqs.trans (hs r hr),hql⟩)
        · have hp' : prefixOf m.trimmed stream = some p := hs r hr ▸ hp
          refine .inr (.inr ?_)
          rw [floorOf_eq hw.fences,hp',← hpl]
          rfl
        · cases hm
    · apply (h.contiguous stream).congr
      intro lsn
      rw [holdsLsn_append]
      refine ⟨?_,.inl⟩
      rintro (hh | ⟨q,hq,hqs,_⟩)
      · exact hh
      · exact absurd (fun r hr => (hn.alike r hr q hq).1.trans hqs) hs
  · rw [hre]
    intro r hr q hq hs hl
    obtain hr | hr := List.mem_append.mp hr
    · obtain hq | hq := List.mem_append.mp hq
      · exact h.epochs r hr q hq hs hl
      · exact Nat.le_trans (hw.record_le hr) (hs ▸ hn.fenced q hq)
    · obtain hq | hq := List.mem_append.mp hq
      · obtain ⟨top,_,hh⟩ := h.contiguous q.stream
        have hqt := (hh q.lsn).mp ⟨q,hq,rfl,rfl⟩
        exact absurd ((hh r.lsn).mpr ⟨hs ▸ hf r hr,by omega⟩) (hs ▸ ha r hr)
      · exact Nat.le_of_eq (hn.alike r hr q hq).2

/-- A withdrawn suffix leaves the log in order. -/
theorem NodeMaps.Ordered.withdraws {m : NodeMaps σ β} (h : m.Ordered) (hw : m.Wf)
    (hp : fromLsn ≠ 0) (ha : ∀ p, prefixOf m.trimmed stream = some p → p.archivedLsn < fromLsn) :
    (m.withdrawSuffix stream fromLsn).Ordered := by
  have hm : ∀ r, r ∈ (m.withdrawSuffix stream fromLsn).records ↔
      r ∈ m.records ∧ (r.stream ≠ stream ∨ r.lsn < fromLsn) := by
    intro r
    simp [NodeMaps.withdrawSuffix]
  constructor
  · intro other
    by_cases hs : other = stream
    · subst hs
      apply (h.contiguous other).below (hw.floor_lt (Nat.pos_of_ne_zero hp) ha)
      intro lsn
      simp only [HoldsLsn,hm]
      constructor
      · rintro ⟨r,⟨hr,hkee⟩,hrs,rfl⟩
        exact ⟨⟨r,hr,hrs,rfl⟩,hkee.resolve_left (not_not.mpr hrs)⟩
      · rintro ⟨⟨r,hr,hrs,rfl⟩,hl⟩
        exact ⟨r,⟨hr,.inr hl⟩,hrs,rfl⟩
    · apply (h.contiguous other).congr
      intro lsn
      simp only [HoldsLsn,hm]
      constructor
      · rintro ⟨r,⟨hr,_⟩,hk⟩
        exact ⟨r,hr,hk⟩
      · rintro ⟨r,hr,hrs,hrl⟩
        exact ⟨r,⟨hr,.inl (hrs ▸ hs)⟩,hrs,hrl⟩
  · intro r hr q hq
    exact h.epochs r ((hm r).mp hr).1 q ((hm q).mp hq).1

/-- A trimmed prefix leaves the log in order. -/
theorem NodeMaps.Ordered.compacts {m : NodeMaps σ β} (h : m.Ordered) (hw : m.Wf)
    (hn : (m.disk fence).nextTrimmed prefixes m.trimmed = .ok next) :
    (m.compacted next).Ordered := by
  have hre := nextTrimmed_spec hn
  have hf := hre.keyed hw.fences
  have hm : ∀ r, r ∈ (m.compacted next).records ↔
      r ∈ m.records ∧ ∀ p, prefixOf next r.stream = some p → p.archivedLsn < r.lsn := by
    intro r
    simp [NodeMaps.compacted,Option.all_eq_true]
  constructor
  · intro stream
    apply (h.contiguous stream).trim (hre.floor_le hw.fences stream)
    intro lsn
    simp only [HoldsLsn,hm]
    constructor
    · rintro ⟨r,⟨hr,hk⟩,rfl,rfl⟩
      have hl : 0 < r.lsn := by
        obtain ⟨top,_,hh⟩ := h.contiguous r.stream
        have := (hh r.lsn).mp ⟨r,hr,rfl,rfl⟩
        omega
      exact ⟨⟨r,hr,rfl,rfl⟩,(hw.compacted hn).floor_lt hl hk⟩
    · rintro ⟨⟨r,hr,rfl,rfl⟩,hlt⟩
      refine ⟨r,⟨hr,?_⟩,rfl,rfl⟩
      intro p hp
      have hfl : floorOf next r.stream = p.archivedLsn := by
        rw [floorOf_eq hf,hp]
        rfl
      exact hfl ▸ hlt
  · intro r hr q hq
    exact h.epochs r ((hm r).mp hr).1 q ((hm q).mp hq).1

/-- No call breaks the order of the log. -/
theorem NodeMaps.Ordered.change {m m' : NodeMaps σ β} (h : m.Ordered) (hw : m.Wf)
    (hf : c.boundary = fun _ => false) (hc : NodeMaps.Change c m m') :
    m'.Ordered := by
  cases hc with
  | keeps records highestEpoch trimmed =>
    constructor
    · rw [records,trimmed]
      exact h.contiguous
    · rw [records]
      exact h.epochs
  | adds fresh new records highestEpoch trimmed => exact h.adds hw (hf ▸ new) records trimmed
  | withdraws stream fromLsn writerEpoch call positive above maps =>
    subst maps
    exact h.withdraws hw positive above
  | compacts fence prefixes next trims maps =>
    subst maps
    exact h.compacts hw trims

variable [DecidableEq β]

structure NodeMaps.InOrder (m : NodeMaps σ β) : Prop where
  committed : ∀ stream lsn r, recordAt m.committed stream lsn = some r →
    recordAt m.records stream lsn = some r
  above : ∀ r ∈ m.records, floorOf m.trimmed r.stream < r.lsn
  contiguous : ∀ stream, ContiguousAbove m.records stream (floorOf m.trimmed stream)
  epochs : ∀ r ∈ m.records, ∀ q ∈ m.records, r.stream = q.stream → r.lsn ≤ q.lsn →
    r.writerEpoch ≤ q.writerEpoch
  highest : ∀ stream, ∀ epoch ∈ seenEpochs m.records m.trimmed stream,
    ∃ highest, m.highestEpoch stream = some highest ∧ epoch ≤ highest

def FileStep.uncontrolled : FileStep σ β → Prop
  | .call c => c.boundary = fun _ => false
  | .fence _ => True
  | .crash _ _ => False

namespace NodeFile

variable {s s' : NodeFile σ β}

theorem call_maps (hm : s.node = .ok m) (hs : step codec cap s (.call c) = some s') :
    s'.node = .ok m ∨ ∃ m' w, s.attempt codec cap c = .ok (m',w) ∧ m.call s.fence c = .ok (m',w) ∧
      s'.node = .ok m' := by
  simp only [step] at hs
  split at hs
  · cases hs
    exact .inl hm
  all_goals
    rename_i m' entries ha
    obtain ⟨m₁,hm₁,hc⟩ := attempt_eq_ok ha
    cases hm.symm.trans hm₁
    cases hs
    exact .inr ⟨m',_,ha,hc,rfl⟩

/-- Every state of a node without a control document has its log in order. -/
theorem log_stays_in_order
    (h : Reachable (· = NodeFile.new) (step codec cap) (fun _ a => a.uncontrolled) s) :
    ∃ m, s.node = .ok m ∧ m.InOrder := by
  have hi : ∃ m, s.node = .ok m ∧ m.Wf ∧ m.Ordered := by
    apply h.invariant
    · rintro _ rfl
      exact ⟨.empty,rfl,NodeMaps.Wf.empty,NodeMaps.Ordered.empty⟩
    · rintro t a t' ⟨m,hm,hw,ho⟩ ha hs
      cases a with
      | call c =>
        obtain hsa | ⟨m',w,_,hc,hm'⟩ := call_maps hm hs
        · exact ⟨m,hsa,hw,ho⟩
        · refine ⟨m',hm',?_,ho.change hw ha (NodeMaps.call_change hc)⟩
          obtain ⟨entries,_,hre,ht⟩ | ⟨_,_,_,_,_,hw'⟩ := hw.call hc
          · exact hw.replayAll ht hre
          · exact hw'
      | fence marker =>
        cases hs
        exact ⟨m,hm,hw,ho⟩
      | crash c kept => cases ha
  obtain ⟨m,hm,hw,ho⟩ := hi
  refine ⟨m,hm,hw.marked,?_,ho.contiguous,ho.epochs,?_⟩
  · intro r hr
    obtain ⟨top,_,hh⟩ := ho.contiguous r.stream
    exact ((hh r.lsn).mp ⟨r,hr,rfl,rfl⟩).1
  · exact fun stream epoch hse => hw.covers hse

/-- A batch is appended, its end withdrawn, another record takes the place, and the first one is
compacted. -/
theorem log_stays_in_order_over_a_withdrawal : ∃ s : NodeFile Nat Nat,
    Reachable (· = NodeFile.new) (step entryCodec none) (fun _ a => a.uncontrolled) s ∧
    s.lines = [.trim ⟨0, 1, 2⟩, .record ⟨0, 2, 2, 1, 9⟩] ∧ ∃ m, s.node = .ok m ∧ m.InOrder := by
  have hs : Reachable (· = NodeFile.new) (step entryCodec none)
      (fun _ (a : FileStep Nat Nat) => a.uncontrolled) _ := .start rfl
  have ha := hs.next (a := .call (.appendMany (fun _ => false) none true
    [⟨0,1,1,0,7⟩,⟨0,1,2,1,8⟩])) (by rfl) rfl
  have hw := ha.next (a := .call (.supersede 0 2 2)) (by rfl) rfl
  have hag := hw.next (a := .call (.append (fun _ => false) none ⟨0,2,2,1,9⟩)) (by rfl) rfl
  have hc := hag.next (a := .call (.compactArchivedBatch [⟨0,1,1⟩])) (by rfl) rfl
  exact ⟨_,hc,by decide,log_stays_in_order hc⟩

end NodeFile

end Walleye.Bitr
