import Mathlib.Data.List.Chain
import Walleye.Bitr.Log

namespace Walleye.Bitr

open Walleye.Base

variable {σ β : Type}

/-- The next record of an archived stream: adjacent, chained, and of an epoch not older. -/
def Succeeds (r q : EncryptedRecord σ β) : Prop :=
  q.lsn = r.lsn + 1 ∧ q.committedLsn = r.lsn ∧ r.writerEpoch ≤ q.writerEpoch

instance (r q : EncryptedRecord σ β) : Decidable (Succeeds r q) :=
  inferInstanceAs (Decidable (_ ∧ _ ∧ _))

def headLsn (archive : List (EncryptedRecord σ β)) : Nat :=
  archive.getLast?.elim 0 (·.lsn)

def headEpoch (archive : List (EncryptedRecord σ β)) : Nat :=
  archive.getLast?.elim 0 (·.writerEpoch)

def archiveRecover (archive : List (EncryptedRecord σ β)) (after : Nat) :
    List (EncryptedRecord σ β) :=
  archive.filter fun r => decide (after < r.lsn)

def nextSegment (limit : Nat) (archive records : List (EncryptedRecord σ β)) :
    List (EncryptedRecord σ β) :=
  (records.filter fun r => decide (headLsn archive < r.lsn)).take limit

section Publish

variable [DecidableEq σ]

def archiveCommitted (limit : Nat) (stream : σ) (archive records : List (EncryptedRecord σ β)) :
    Except ReplicaError (List (EncryptedRecord σ β)) :=
  if ∃ r ∈ records, r.stream ≠ stream then
    .error (.nodeStorage "one archive call must contain exactly one non-empty stream")
  else if ¬records.IsChain Succeeds then .error (.nodeStorage "archive contiguity")
  else match records.filter fun r => decide (headLsn archive < r.lsn) with
    | [] => .ok archive
    | first :: _ =>
      if first.lsn ≠ headLsn archive + 1 ∨ first.committedLsn ≠ headLsn archive ∨
          first.writerEpoch < headEpoch archive then .error (.nodeStorage "archive contiguity")
      else .ok (archive ++ nextSegment limit archive records)

end Publish

structure Archived (stream : σ) (archive : List (EncryptedRecord σ β)) : Prop where
  stream : ∀ r ∈ archive, r.stream = stream
  chain : archive.IsChain Succeeds
  first : ∀ r ∈ archive.head?, r.lsn = 1 ∧ r.committedLsn = 0

theorem Archived.nil (stream : σ) : Archived stream ([] : List (EncryptedRecord σ β)) :=
  ⟨by simp,.nil,by simp⟩

theorem chain_place (h : (r :: rest).IsChain Succeeds) (hq : (r :: rest)[i]? = some q) :
    q.lsn = r.lsn + i ∧ r.writerEpoch ≤ q.writerEpoch ∧ (r.Chained → q.Chained) := by
  induction rest generalizing r i with
  | nil =>
    cases i with
    | zero =>
      cases hq
      exact ⟨rfl,Nat.le_refl _,fun hc => hc⟩
    | succ i => simp at hq
  | cons x rest ih =>
    obtain ⟨hx,hr⟩ := List.isChain_cons_cons.mp h
    cases i with
    | zero =>
      cases hq
      exact ⟨rfl,Nat.le_refl _,fun hc => hc⟩
    | succ i =>
      obtain ⟨h1,h2,h3⟩ := ih hr (i := i) (by simpa using hq)
      obtain ⟨hl,hcl,he⟩ := hx
      exact ⟨by omega,Nat.le_trans he h2,fun _ => h3 ⟨by omega,by omega⟩⟩

variable {stream : σ}

theorem Archived.place (h : Archived stream archive)
    (hq : archive[i]? = some q) : q.lsn = i + 1 ∧ q.Chained := by
  cases archive with
  | nil => simp at hq
  | cons r rest =>
    obtain ⟨hl,hc⟩ := h.first r rfl
    obtain ⟨h1,_,h3⟩ := chain_place h.chain hq
    exact ⟨by omega,h3 ⟨by omega,by omega⟩⟩

theorem Archived.headLsn_eq (h : Archived stream archive) : headLsn archive = archive.length := by
  unfold headLsn
  rw [List.getLast?_eq_getElem?]
  cases hq : archive[archive.length - 1]? with
  | none =>
    have := List.getElem?_eq_none_iff.mp hq
    simp only [Option.elim_none]
    omega
  | some q =>
    obtain ⟨hl,_⟩ := List.getElem?_eq_some_iff.mp hq
    have := (h.place hq).1
    simp only [Option.elim_some]
    omega

theorem Archived.mem (h : Archived stream archive) (hr : r ∈ archive) :
    r.stream = stream ∧ 0 < r.lsn ∧ r.lsn ≤ headLsn archive ∧ r.Chained := by
  obtain ⟨i,hi⟩ := List.getElem?_of_mem hr
  obtain ⟨hlt,_⟩ := List.getElem?_eq_some_iff.mp hi
  obtain ⟨hl,hc⟩ := h.place hi
  exact ⟨h.stream r hr,hc.1,by rw [h.headLsn_eq]; omega,hc⟩

theorem Archived.exists_at (h : Archived stream archive) (hp : 0 < n)
    (hl : n ≤ headLsn archive) : ∃ r ∈ archive, r.lsn = n := by
  rw [h.headLsn_eq] at hl
  have hlt : n - 1 < archive.length := by omega
  refine ⟨archive[n - 1],List.getElem_mem hlt,?_⟩
  have := (h.place (List.getElem?_eq_getElem hlt)).1
  omega

theorem Archived.eq_of_lsn (h : Archived stream archive)
    (hr : r ∈ archive) (hq : q ∈ archive) (he : r.lsn = q.lsn) : r = q := by
  obtain ⟨i,hi⟩ := List.getElem?_of_mem hr
  obtain ⟨j,hj⟩ := List.getElem?_of_mem hq
  have h1 := (h.place hi).1
  have h2 := (h.place hj).1
  have hij : i = j := by omega
  subst hij
  exact Option.some.inj (hi.symm.trans hj)

theorem Archived.epochs (h : Archived stream archive)
    (hr : r ∈ archive) (hq : q ∈ archive) (hl : r.lsn ≤ q.lsn) :
    r.writerEpoch ≤ q.writerEpoch := by
  obtain ⟨i,hi⟩ := List.getElem?_of_mem hr
  obtain ⟨j,hj⟩ := List.getElem?_of_mem hq
  have h1 := (h.place hi).1
  have h2 := (h.place hj).1
  obtain ⟨hlt,hg⟩ := List.getElem?_eq_some_iff.mp hi
  have hd : archive.drop i = r :: archive.drop (i + 1) := by
    rw [← hg]
    exact List.drop_eq_getElem_cons hlt
  have hc : (r :: archive.drop (i + 1)).IsChain Succeeds := hd ▸ h.chain.drop i
  refine (chain_place hc (i := j - i) ?_).2.1
  rw [← hd,List.getElem?_drop,Nat.add_sub_cancel' (by omega)]
  exact hj

theorem Archived.of_prefix (h : Archived stream archive)
    (hp : earlier <+: archive) : Archived stream earlier := by
  refine ⟨fun r hr => h.stream r (hp.subset hr), h.chain.prefix hp,fun r hr => h.first r ?_⟩
  obtain ⟨rest,rfl⟩ := hp
  rw [Option.mem_def] at hr ⊢
  rw [List.head?_append,hr]
  rfl

theorem Archived.headLsn_mono (h : Archived stream archive)
    (hp : earlier <+: archive) : headLsn earlier ≤ headLsn archive := by
  rw [h.headLsn_eq,(h.of_prefix hp).headLsn_eq]
  exact hp.length_le

theorem Archived.mem_earlier (h : Archived stream archive)
    (hp : earlier <+: archive) (hr : r ∈ archive) (hle : r.lsn ≤ headLsn earlier) : r ∈ earlier := by
  obtain ⟨q,hq,hl⟩ := (h.of_prefix hp).exists_at (h.mem hr).2.1 hle
  exact h.eq_of_lsn (hp.subset hq) hr hl ▸ hq

theorem filter_suffix_of_chain (h : records.IsChain Succeeds) (n : Nat) :
    records.filter (fun r => decide (n < r.lsn)) <:+ records := by
  induction records with
  | nil => simp
  | cons r rest ih =>
    by_cases hn : n < r.lsn
    · have ha : ∀ q ∈ r :: rest, n < q.lsn := by
        intro q hq
        obtain ⟨i,hi⟩ := List.getElem?_of_mem hq
        have := (chain_place h hi).1
        omega
      exact ⟨[],List.filter_eq_self.mpr fun q hq => by simpa using ha q hq⟩
    · rw [List.filter_cons_of_neg (by simpa using hn)]
      exact (ih h.tail).trans (List.suffix_cons r rest)

variable [DecidableEq σ]

/-- An archive pass appends the next segment and keeps the archive a chain. -/
theorem archiveCommitted_spec (ha : Archived stream archive)
    (h : archiveCommitted limit stream archive records = .ok archive') :
    Archived stream archive' ∧ archive' = archive ++ nextSegment limit archive records := by
  simp only [archiveCommitted,guard_ok,not_not] at h
  obtain ⟨hs,hc,h⟩ := h
  have hsuf := filter_suffix_of_chain hc (headLsn archive)
  split at h
  · rename_i hem
    cases h
    exact ⟨ha,by simp [nextSegment,hem]⟩
  · rename_i first rest heq
    simp only [guard_ok,not_or,not_not,Nat.not_lt,ne_eq] at h
    obtain ⟨⟨hl,hcl,he⟩,h⟩ := h
    have hse : nextSegment limit archive records = (first :: rest).take limit := by
      rw [nextSegment,heq]
    rw [hse] at h ⊢
    cases h
    rw [heq] at hsuf
    have hsu : ∀ r ∈ (first :: rest).take limit, r ∈ records := fun r hr =>
      hsuf.subset (List.mem_of_mem_take hr)
    have hnew : ((first :: rest).take limit).IsChain Succeeds :=
      (hc.suffix hsuf).take limit
    have hh : ∀ y ∈ ((first :: rest).take limit).head?, y = first := by
      intro y hy
      cases limit with
      | zero => simp at hy
      | succ n => simpa using hy.symm
    refine ⟨⟨?_,?_,?_⟩,rfl⟩
    · intro r hr
      rcases List.mem_append.mp hr with hr | hr
      · exact ha.stream r hr
      · by_contra hn
        exact hs ⟨r,hsu r hr,hn⟩
    · refine List.isChain_append.mpr ⟨ha.chain,hnew,?_⟩
      intro x hx y hy
      rw [hh y hy]
      have hls : headLsn archive = x.lsn := by
        rw [Option.mem_def] at hx
        simp [headLsn,hx]
      have hep : headEpoch archive = x.writerEpoch := by
        rw [Option.mem_def] at hx
        simp [headEpoch,hx]
      exact ⟨by omega,by omega,by omega⟩
    · intro r hr
      rw [List.head?_append] at hr
      cases hem : archive.head? with
      | some x =>
        rw [hem] at hr
        exact ha.first r (by simpa [hem] using hr)
      | none =>
        rw [List.head?_eq_none_iff] at hem
        subst hem
        rw [hh r (by simpa using hr)]
        simp only [headLsn,List.getLast?_nil,Option.elim_none] at hl hcl
        exact ⟨by omega,hcl⟩

end Walleye.Bitr
