import Walleye.Bitr.CatchUp
import Walleye.Bitr.Evidence

namespace Walleye.Bitr

open Walleye.Base

variable {σ β : Type}

/-- The contiguous prefix of a set of records from `expected` on: the last LSN and its epoch.
Of several records at one LSN the first counts. -/
def certifiedWalk (records : List (EncryptedRecord σ β)) : Nat → Nat → Nat → Nat × Nat
  | 0, expected, epoch => (expected - 1, epoch)
  | fuel + 1, expected, epoch =>
    match copyAt records expected with
    | none => (expected - 1, epoch)
    | some r =>
      if r.committedLsn ≠ expected - 1 ∨ r.writerEpoch < epoch then (expected - 1, epoch)
      else certifiedWalk records fuel (expected + 1) r.writerEpoch

/-- The trim watermark a quorum reports: the second highest. -/
def quorumTrim (trims : List Nat) : Nat :=
  (trims.insertionSort (· ≥ ·))[ackQuorum - 1]?.getD 0

/-- The committed LSN of a stream in a writer state rebuilt from hot evidence. -/
def rebuildCommitted (candidates : List (EncryptedRecord σ β)) (trims : List Nat) : Nat :=
  (certifiedWalk candidates candidates.length (quorumTrim trims + 1) 0).1

/-- The durable tail of a stream for a cutover: the hot prefix, or the archive merged with the
candidates when that reaches further. -/
def certifiedStreamTail (archive candidates : List (EncryptedRecord σ β)) (trims : List Nat) : Nat :=
  max (rebuildCommitted candidates trims)
    (certifiedWalk (archive ++ candidates) (archive ++ candidates).length 1 0).1

structure Leads (records : List (EncryptedRecord σ β)) (expected epoch last : Nat) : Prop where
  found : ∀ n, expected ≤ n → n ≤ last → ∃ r, copyAt records n = some r ∧
    r.committedLsn = n - 1 ∧ epoch ≤ r.writerEpoch
  ordered : ∀ n n' r r', expected ≤ n → n ≤ n' → n' ≤ last → copyAt records n = some r →
    copyAt records n' = some r' → r.writerEpoch ≤ r'.writerEpoch

variable {records : List (EncryptedRecord σ β)} {fuel expected epoch last : Nat}

theorem le_certifiedWalk_fst : expected - 1 ≤ (certifiedWalk records fuel expected epoch).1 := by
  induction fuel generalizing expected epoch with
  | zero => exact Nat.le_refl _
  | succ fuel ih =>
    unfold certifiedWalk
    split
    · exact Nat.le_refl _
    · split
      · exact Nat.le_refl _
      · exact Nat.le_trans (by omega) ih

theorem Leads.le_certifiedWalk (h : Leads records expected epoch last)
    (hf : last < expected + fuel) : last ≤ (certifiedWalk records fuel expected epoch).1 := by
  induction fuel generalizing expected epoch with
  | zero =>
    simp only [certifiedWalk]
    omega
  | succ fuel ih =>
    by_cases hl : expected ≤ last
    · obtain ⟨r,hr,hc,he⟩ := h.found expected (Nat.le_refl _) hl
      simp only [certifiedWalk,hr]
      rw [if_neg (by omega)]
      refine ih ⟨?_,?_⟩ (by omega)
      · intro n hn hla
        obtain ⟨q,hq,hqc,_⟩ := h.found n (by omega) hla
        exact ⟨q,hq,hqc,h.ordered expected n r q (Nat.le_refl _) (by omega) hla hr hq⟩
      · exact fun n n' q q' hn => h.ordered n n' q q' (by omega)
    · have hs : expected - 1 ≤ (certifiedWalk records (fuel + 1) expected epoch).1 :=
        le_certifiedWalk_fst
      omega

/-- A walk: what it went over is a chain, no record of it newer than the epoch it ends with. -/
structure Walked (records : List (EncryptedRecord σ β)) (expected epoch : Nat) (result : Nat × Nat) :
    Prop where
  leads : Leads records expected epoch result.1
  le : epoch ≤ result.2
  newest : ∀ n r, expected ≤ n → n ≤ result.1 → copyAt records n = some r →
    r.writerEpoch ≤ result.2

theorem Walked.stop (hp : 0 < expected) : Walked records expected epoch (expected - 1,epoch) :=
  ⟨⟨fun n h1 h2 => by simp only at h2; omega,fun n n' r r' h1 h2 h3 => by simp only at h3; omega⟩,
    Nat.le_refl _,fun n r h1 h2 => by simp only at h2; omega⟩

/-- A record that links up starts a longer walk. -/
theorem Walked.cons
    (h : Walked records (expected + 1) r.writerEpoch result) (hr : copyAt records expected = some r)
    (hc : r.committedLsn = expected - 1) (he : epoch ≤ r.writerEpoch) :
    Walked records expected epoch result := by
  have hf : ∀ n q, expected ≤ n → n ≤ result.1 → copyAt records n = some q →
      r.writerEpoch ≤ q.writerEpoch := by
    intro n q hn hl hq
    rcases Nat.eq_or_lt_of_le hn with rfl | hlt
    · rw [hr,Option.some.injEq] at hq
      rw [hq]
    · obtain ⟨x,hx,_,hle⟩ := h.leads.found n hlt hl
      rw [hx,Option.some.injEq] at hq
      exact hq ▸ hle
  refine ⟨⟨?_,?_⟩,Nat.le_trans he h.le,?_⟩
  · intro n hn hl
    rcases Nat.eq_or_lt_of_le hn with rfl | hlt
    · exact ⟨r,hr,hc,he⟩
    · obtain ⟨x,hx,hxc,hle⟩ := h.leads.found n hlt hl
      exact ⟨x,hx,hxc,Nat.le_trans he hle⟩
  · intro n n' q q' hn hnn hl hq hq'
    rcases Nat.eq_or_lt_of_le hn with rfl | hlt
    · rw [hr,Option.some.injEq] at hq
      exact hq ▸ hf n' q' hnn hl hq'
    · exact h.leads.ordered n n' q q' hlt hnn hl hq hq'
  · intro n q hn hl hq
    rcases Nat.eq_or_lt_of_le hn with rfl | hlt
    · rw [hr,Option.some.injEq] at hq
      exact hq ▸ h.le
    · exact h.newest n q hlt hl hq

theorem certifiedWalk_walked (hp : 0 < expected) :
    Walked records expected epoch (certifiedWalk records fuel expected epoch) := by
  induction fuel generalizing expected epoch with
  | zero => exact .stop hp
  | succ fuel ih =>
    unfold certifiedWalk
    split
    · exact .stop hp
    · rename_i r hr
      split
      · exact .stop hp
      · rename_i ho
        simp only [not_or,ne_eq,not_not,Nat.not_lt] at ho
        exact (ih (Nat.succ_pos _)).cons hr ho.1 ho.2

theorem le_length_of_copyAt (h : ∀ n, 1 ≤ n → n ≤ last → ∃ r, copyAt records n = some r) :
    last ≤ records.length := by
  have hs : List.range' 1 last ⊆ records.map (·.lsn) := by
    intro n hn
    rw [List.mem_range'_1] at hn
    obtain ⟨r,hr⟩ := h n hn.1 (by omega)
    exact List.mem_map.mpr ⟨r,copyAt_eq_some hr⟩
  have hl := (List.subperm_of_subset (List.nodup_range' (s := 1) (n := last)) hs).length_le
  simpa using hl

theorem copyAt_append : copyAt (front ++ back) n = (copyAt front n).or (copyAt back n) :=
  List.find?_append

/-- A walk over the archive goes on through the hot copies that follow it. -/
theorem le_certifiedWalk_append (hf : Walked front 1 0 result)
    (hcl : ∀ n, result.1 < n → n ≤ last → copyAt front n = none)
    (hfo : ∀ n, result.1 < n → n ≤ last → ∃ r, copyAt back n = some r ∧
      r.committedLsn = n - 1 ∧ result.2 ≤ r.writerEpoch)
    (ho : ∀ n n' r r', result.1 < n → n ≤ n' → n' ≤ last → copyAt back n = some r →
      copyAt back n' = some r' → r.writerEpoch ≤ r'.writerEpoch) :
    last ≤ (certifiedWalk (front ++ back) (front ++ back).length 1 0).1 := by
  have hl : ∀ n, 1 ≤ n → n ≤ result.1 → ∃ r, copyAt front n = some r ∧
      copyAt (front ++ back) n = some r ∧ r.committedLsn = n - 1 ∧ r.writerEpoch ≤ result.2 := by
    intro n hn hle
    obtain ⟨r,hr,hc,_⟩ := hf.leads.found n hn hle
    exact ⟨r,hr,by rw [copyAt_append,hr]; rfl,hc,hf.newest n r hn hle hr⟩
  have hh : ∀ n, result.1 < n → n ≤ last → ∃ r, copyAt back n = some r ∧
      copyAt (front ++ back) n = some r ∧ r.committedLsn = n - 1 ∧ result.2 ≤ r.writerEpoch := by
    intro n hn hle
    obtain ⟨r,hr,hc,he⟩ := hfo n hn hle
    exact ⟨r,hr,by rw [copyAt_append,hcl n hn hle,hr]; rfl,hc,he⟩
  have ha : ∀ n, 1 ≤ n → n ≤ last → ∃ r, copyAt (front ++ back) n = some r ∧
      r.committedLsn = n - 1 := by
    intro n hn hle
    by_cases hlt : result.1 < n
    · obtain ⟨r,_,hr,hc,_⟩ := hh n hlt hle
      exact ⟨r,hr,hc⟩
    · obtain ⟨r,_,hr,hc,_⟩ := hl n hn (by omega)
      exact ⟨r,hr,hc⟩
  refine Leads.le_certifiedWalk ⟨?_,?_⟩ ?_
  · intro n hn hle
    obtain ⟨r,hr,hc⟩ := ha n hn hle
    exact ⟨r,hr,hc,Nat.zero_le _⟩
  · intro n n' r r' hn hnn hla hr hr'
    by_cases hlt : result.1 < n
    · obtain ⟨x,hx,hx',_⟩ := hh n hlt (by omega)
      obtain ⟨y,hy,hy',_⟩ := hh n' (by omega) hla
      cases Option.some.inj (hr.symm.trans hx')
      cases Option.some.inj (hr'.symm.trans hy')
      exact ho n n' r r' hlt hnn hla hx hy
    · obtain ⟨x,hx,hx',_,hxe⟩ := hl n hn (by omega)
      cases Option.some.inj (hr.symm.trans hx')
      by_cases hl' : result.1 < n'
      · obtain ⟨y,_,hy',_,hye⟩ := hh n' hl' hla
        cases Option.some.inj (hr'.symm.trans hy')
        exact Nat.le_trans hxe hye
      · obtain ⟨y,hy,hy',_⟩ := hl n' (by omega) (by omega)
        cases Option.some.inj (hr'.symm.trans hy')
        exact hf.leads.ordered n n' r r' hn hnn (by omega) hx hy
  · have hlen := le_length_of_copyAt fun n hn hle =>
      (ha n hn hle).imp fun r hr => hr.1
    omega

/-- The archive is a chain from the first LSN on. -/
theorem Archived.leads {stream : σ}
    (h : Archived stream archive) (others : List (EncryptedRecord σ β)) :
    Leads (archive ++ others) 1 0 (headLsn archive) := by
  have ha : ∀ n, 1 ≤ n → n ≤ headLsn archive →
      ∃ r ∈ archive, copyAt (archive ++ others) n = some r ∧ r.lsn = n := by
    intro n hn hl
    obtain ⟨r,hr,rfl⟩ := h.exists_at hn hl
    have hf := copyAt_of_unique (fun x hx y hy => h.eq_of_lsn hx hy) hr
    exact ⟨r,hr,by rw [copyAt_append,hf]; rfl,rfl⟩
  refine ⟨?_,?_⟩
  · intro n hn hl
    obtain ⟨r,hr,ha,rfl⟩ := ha n hn hl
    exact ⟨r,ha,(h.mem hr).2.2.2.2,Nat.zero_le _⟩
  · intro n n' r r' hn hnn hla hr hr'
    obtain ⟨x,hx,hxa,hxl⟩ := ha n hn (by omega)
    obtain ⟨y,hy,hya,hyl⟩ := ha n' (by omega) hla
    cases Option.some.inj (hr.symm.trans hxa)
    cases Option.some.inj (hr'.symm.trans hya)
    exact h.epochs hx hy (by omega)

theorem Archived.le_certifiedWalk {stream : σ}
    (h : Archived stream archive) (others : List (EncryptedRecord σ β)) :
    headLsn archive ≤ (certifiedWalk (archive ++ others) (archive ++ others).length 1 0).1 := by
  refine (h.leads others).le_certifiedWalk ?_
  rw [h.headLsn_eq,List.length_append]
  omega

end Walleye.Bitr
