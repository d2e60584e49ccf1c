import Walleye.Bitr.CatchUp
import Walleye.Bitr.HotTail
import Walleye.Bitr.Placement

namespace Walleye.Bitr

open Walleye.Base

/-- The open range a stream is moved from: where it starts, the writer epoch of its route, and
the placement its appends carry. -/
structure SourceRoute where
  startLsn : Nat
  writerEpoch : Nat
  placement : PlacementEpoch
deriving DecidableEq, Repr

variable {σ β : Type}

/-- The certified records from `expected` on, in LSN order, and the LSN after them. A record past a
missing LSN is a gap. -/
def certifiedTail (expected epoch : Nat) :
    List (EncryptedRecord σ β) → Except ReplicaError (List (EncryptedRecord σ β) × Nat)
  | [] => .ok ([], expected)
  | r :: rest =>
    if r.lsn < expected then certifiedTail expected epoch rest
    else if r.lsn ≠ expected then .error (.recoveryGap expected r.lsn)
    else if r.committedLsn ≠ expected - 1 ∨ r.writerEpoch < epoch then
      .error (.recoveryAmbiguous expected 0 ackQuorum)
    else (certifiedTail (expected + 1) r.writerEpoch rest).bind fun tail =>
      .ok (r :: tail.1, tail.2)

structure CertifiesFrom (expected : Nat) (records certified : List (EncryptedRecord σ β))
    (next : Nat) : Prop where
  reached : expected ≤ next
  mem : ∀ r ∈ records, expected ≤ r.lsn → r ∈ certified ∧ r.lsn < next
  sub : ∀ r ∈ certified, r ∈ records

/-- The certified tail holds one record at each LSN up to its end. -/
theorem certifiedTail_spec
    {records certified : List (EncryptedRecord σ β)}
    (hu : ∀ x ∈ records, ∀ y ∈ records, x.lsn = y.lsn → x = y)
    (h : certifiedTail expected epoch records = .ok (certified,next)) :
    CertifiesFrom expected records certified next := by
  induction records generalizing expected epoch certified with
  | nil =>
    cases h
    exact ⟨Nat.le_refl _,by simp,by simp⟩
  | cons x rest ih =>
    have hu' : ∀ a ∈ rest, ∀ b ∈ rest, a.lsn = b.lsn → a = b := fun a ha b hb =>
      hu a (List.mem_cons_of_mem _ ha) b (List.mem_cons_of_mem _ hb)
    simp only [certifiedTail] at h
    split at h
    · rename_i hlt
      have ht := ih hu' h
      refine ⟨ht.reached,fun r hr hle => ?_,fun r hr => List.mem_cons_of_mem _ (ht.sub r hr)⟩
      rcases List.mem_cons.mp hr with rfl | hr
      · omega
      · exact ht.mem r hr hle
    · simp only [guard_ok,ne_eq,not_not,Except.bind_eq_ok] at h
      obtain ⟨hx,_,tail,hta,he⟩ := h
      cases he
      have ht := ih hu' hta
      have hre := ht.reached
      refine ⟨by omega,fun r hr hle => ?_,fun r hr => ?_⟩
      · by_cases he : r = x
        · subst he
          exact ⟨List.mem_cons_self,by omega⟩
        · have hn : r.lsn ≠ x.lsn := fun hl => he (hu r hr x List.mem_cons_self hl)
          have hr' := (List.mem_cons.mp hr).resolve_left he
          obtain ⟨hm,hlt⟩ := ht.mem r hr' (by omega)
          exact ⟨List.mem_cons_of_mem _ hm,hlt⟩
      · rcases List.mem_cons.mp hr with rfl | hr
        · exact List.mem_cons_self
        · exact List.mem_cons_of_mem _ (ht.sub r hr)

variable [DecidableEq σ] [DecidableEq β]

def cutoverRecords (before : Nat) (archived candidates : List (EncryptedRecord σ β)) :
    Except ReplicaError (List (EncryptedRecord σ β)) :=
  let hot := candidates.filter fun r => decide (before < r.lsn)
  if hot.any fun r => (copyAt archived r.lsn).any fun q => decide (q ≠ r) then .error .lsnConflict
  else .ok (archived ++ hot)

theorem cutoverRecords_spec {archived candidates records : List (EncryptedRecord σ β)}
    (ha : ∀ x ∈ archived, ∀ y ∈ archived, x.lsn = y.lsn → x = y)
    (hc : ∀ x ∈ candidates, ∀ y ∈ candidates, x.lsn = y.lsn → x = y)
    (h : cutoverRecords before archived candidates = .ok records) :
    (∀ x ∈ records, ∀ y ∈ records, x.lsn = y.lsn → x = y) ∧
      ∀ r ∈ candidates, before < r.lsn → r ∈ records := by
  simp only [cutoverRecords,guard_ok] at h
  obtain ⟨hag,he⟩ := h
  cases he
  have hcr : ∀ x ∈ archived, ∀ y ∈ candidates.filter (fun r => decide (before < r.lsn)),
      x.lsn = y.lsn → x = y := by
    intro x hx y hy hl
    by_contra hn
    refine hag (List.any_eq_true.mpr ⟨y,hy,(Option.any_eq_true _ _).mpr ⟨x,?_,by simpa using hn⟩⟩)
    rw [← hl]
    exact copyAt_of_unique ha hx
  refine ⟨fun x hx y hy hl => ?_,fun r hr hlt => ?_⟩
  · rcases List.mem_append.mp hx with hx | hx <;> rcases List.mem_append.mp hy with hy | hy
    · exact ha x hx y hy hl
    · exact hcr x hx y hy hl
    · exact (hcr y hy x hx hl.symm).symm
    · exact hc x (List.mem_filter.mp hx).1 y (List.mem_filter.mp hy).1 hl
  · exact List.mem_append_right _ (List.mem_filter.mpr ⟨hr,by simpa using hlt⟩)

section Evidence

variable (owns : Fin 3 → EncryptedRecord σ β → Bool)
  (snapshots : Fin 3 → Option (NodeSnapshot σ β)) (stream : σ)

def unsafeRecords : List Nat :=
  (((evidence owns snapshots).filter (·.stream = stream)).map (·.lsn)).dedup.filter fun n =>
    (copyAt (collectCandidates owns snapshots stream) n).isNone

def certifyCutover (source : SourceRoute) (before : Nat)
    (archived : List (EncryptedRecord σ β)) :
    Except ReplicaError (List (EncryptedRecord σ β) × Nat) :=
  if countOf (fun m => (snapshots m).isSome = true) < ackQuorum then .error .nodeUnavailable
  else match ambiguousQuorum owns snapshots stream before with
  | some r => .error (.recoveryAmbiguous r.lsn (countOf (Marks owns snapshots r)) ackQuorum)
  | none =>
    if unsafeRecords owns snapshots stream ≠ [] ∧
        countOf (fun m => (snapshots m).isSome = true) < 3 then
      .error (.recoveryAmbiguous 0 0 ackQuorum)
    else (cutoverRecords before archived (collectCandidates owns snapshots stream)).bind
      fun records => certifiedTail (max source.startLsn (before + 1)) source.writerEpoch
        (sortByLsn records)

variable {owns snapshots stream}

theorem Marks.candidate_of_silent (hm : Marks owns snapshots r m) (hs : snapshots silent = none)
    (hl : r.committedLsn < r.lsn) (hst : r.stream = stream)
    (hsa : unsafeRecords owns snapshots stream = []) :
    r ∈ collectCandidates owns snapshots stream := by
  have he : r ∈ evidence owns snapshots := mem_evidence.mpr ⟨m,hm.shows⟩
  have hf : (copyAt (collectCandidates owns snapshots stream) r.lsn).isSome = true := by
    have hn := List.filter_eq_nil_iff.mp hsa r.lsn ?_
    · simpa [Option.isSome_iff_ne_none] using hn
    · rw [List.mem_dedup]
      exact List.mem_map.mpr ⟨r,List.mem_filter.mpr ⟨he,by simpa using hst⟩,rfl⟩
  obtain ⟨x,hx⟩ := Option.isSome_iff_exists.mp hf
  obtain ⟨hxm,hxl⟩ := copyAt_eq_some hx
  have ho := (mem_collectCandidates.mp hxm).2.2.2 r he hst hxl.symm
    (.of_shows hl hm hs)
  exact ho ▸ hxm

theorem Marks.candidate_of_all (hm : TwoOf (Marks owns snapshots r))
    (ha : ∀ m, (snapshots m).isSome = true) (ho : ∀ m q, q.stream = stream →
      q.lsn = r.lsn → owns m q = true)
    (hsl : ∀ m, ∀ s ∈ snapshots m, ∀ x ∈ s.records, ∀ y ∈ s.records, x.SameSlot y → x = y)
    (hl : r.committedLsn < r.lsn) (hst : r.stream = stream) :
    r ∈ collectCandidates owns snapshots stream := by
  obtain ⟨m,_,_,hma,_⟩ := id hm
  refine mem_collectCandidates.mpr ⟨mem_evidence.mpr ⟨m,hma.shows⟩,hst,
    ⟨hl,.inl (two_le_countOf.mpr hm)⟩,fun q _ hqs hql hq => ?_⟩
  have hsh := hq.twoOf fun m => ⟨ha m,ho m q hqs hql⟩
  obtain ⟨m',⟨s,hs,hqm,_⟩,s',hs',⟨hr,_⟩,_⟩ := hsh.meet hm
  cases Option.some.inj (hs.symm.trans hs')
  exact hsl m' s hs q hqm r hr ⟨hqs.trans hst.symm,hql⟩

/-- A certified tail ends past the archive head and every candidate of the range above it, holds
each of them, and has one record for an LSN. -/
theorem certifyCutover_spec {before next : Nat}
    (ha : ∀ x ∈ archived, ∀ y ∈ archived, x.lsn = y.lsn → x = y)
    (h : certifyCutover owns snapshots stream source before archived = .ok (certified,next)) :
    before < next ∧
      (∀ r ∈ collectCandidates owns snapshots stream, source.startLsn ≤ r.lsn → before < r.lsn →
        r ∈ certified ∧ r.lsn < next) ∧
      ∀ x ∈ certified, ∀ y ∈ certified, x.lsn = y.lsn → x = y := by
  simp only [certifyCutover,guard_ok] at h
  obtain ⟨_,h⟩ := h
  split at h
  · cases h
  · simp only [guard_ok,Except.bind_eq_ok] at h
    obtain ⟨_,records,hre,hta⟩ := h
    obtain ⟨hu,hm⟩ := cutoverRecords_spec ha
      (fun x hx y hy => collectCandidates_unique hx hy) hre
    have hu' : ∀ x ∈ sortByLsn records, ∀ y ∈ sortByLsn records, x.lsn = y.lsn → x = y :=
      fun x hx y hy => hu x (mem_sortByLsn.mp hx) y (mem_sortByLsn.mp hy)
    have ht := certifiedTail_spec hu' hta
    have hrea := ht.reached
    refine ⟨by omega,fun r hr hs hl => ?_,fun x hx y hy => ?_⟩
    · exact ht.mem r (mem_sortByLsn.mpr (hm r hr hl)) (by omega)
    · exact hu' x (ht.sub x hx) y (ht.sub y hy)

theorem certifyCutover_heard
    (h : certifyCutover owns snapshots stream source before archived = .ok out) :
    (TwoOf fun m => (snapshots m).isSome = true) ∧
      ((∀ m, (snapshots m).isSome = true) ∨ unsafeRecords owns snapshots stream = []) := by
  simp only [certifyCutover,guard_ok,Nat.not_lt] at h
  obtain ⟨hq,h⟩ := h
  refine ⟨two_le_countOf.mp hq,?_⟩
  split at h
  · cases h
  · simp only [guard_ok,not_and_or,not_not] at h
    rcases h.1 with hs | ha
    · exact .inr hs
    · refine .inl fun m => ?_
      by_contra hm
      exact ha (Nat.lt_succ_of_le (countOf_le_two hm))

end Evidence

end Walleye.Bitr
