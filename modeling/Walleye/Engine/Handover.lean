import Walleye.Engine.Arrival

namespace Walleye.Engine

open Walleye.Base

variable {κ : Type}

/-- One append in flight: `before` is what clients had been told was stored when it began, `rows`
its rows once they are numbered, `landed` how many of them the current attempt has in the table. -/
structure Append (κ : Type) where
  process : Nat
  keys : List κ
  before : List Nat
  rows : Option (List (Row κ))
  landed : Nat
  deriving DecidableEq, Repr

def Append.numbered (a : Append κ) : List (Row κ) := a.rows.getD []

def Append.numbers (a : Append κ) : List Nat := a.numbered.map Row.seq

def Append.next (a : Append κ) : Option (Row κ) := a.numbered[a.landed]?

/-- The ownership record; a release names nobody and leaves the next arrival number. -/
structure OwnerRecord where
  node : Option Nat
  nextSeq : Option Nat
  deriving DecidableEq, Repr

def OwnerRecord.handed (r : OwnerRecord) : Option Nat := if r.node = none then r.nextSeq else none

/-- One table, its ownership record, the processes that take themselves for its owner, and every
process's counter. -/
structure Handover (κ : Type) where
  record : OwnerRecord
  holders : List Nat
  counters : Nat → Counter
  table : List (Row κ)
  appends : Nat → Option (Append κ)
  acknowledged : List (Append κ)

/-- Clock readings and whether the seeding query succeeds are part of the schedule. -/
inductive HandoverStep (κ : Type) where
  | claim (process : Nat)
  | release (process : Nat)
  | lapse (process : Nat)
  | restart (process : Nat)
  | openClaimed (process : Nat) (scanned : Bool) (micros : Nat)
  | begin (id process : Nat) (keys : List κ)
  | reserve (id : Nat) (scanned : Bool) (micros : Nat)
  | land (id : Nat)
  | reclaim (id : Nat)
  | acknowledge (id : Nat)
  | abandon (id : Nat)
  deriving DecidableEq, Repr

def Handover.stored (s : Handover κ) : List Nat := s.acknowledged.flatMap Append.numbers

/-- The numbers of the rows a query sees: the newest of each key. -/
def Handover.visible (s : Handover κ) : List Nat := s.table.map Row.seq

def Handover.scan (s : Handover κ) (scanned : Bool) : Scan :=
  if scanned then scanOf s.visible else .failed

def Handover.empty : Handover κ where
  record := { node := none, nextSeq := none }
  holders := []
  counters := fun _ => { handed := none, seq := none }
  table := []
  appends := fun _ => none
  acknowledged := []

/-- `claim`: the number a release left is handed to the claimant; a claim from any other record
takes back whatever an earlier claim was handed. -/
def Handover.claim (s : Handover κ) (p : Nat) : Option (Handover κ) :=
  if p ∉ s.holders then
    some { s with
      record := { node := some p, nextSeq := none }
      holders := p :: s.holders
      counters := Function.update s.counters p ((s.counters p).hand s.record.handed) }
  else none

/-- `release_key`: the record, if it still names the process, names nobody and carries the
in-memory counter. -/
def Handover.release (s : Handover κ) (p : Nat) : Option (Handover κ) :=
  if p ∈ s.holders then
    some { s with
      record :=
        if s.record.node = some p then { node := none, nextSeq := (s.counters p).seq }
        else s.record
      holders := s.holders.filter (· ≠ p) }
  else none

/-- The lease lapses, or the release could not be written: the record still names a session nobody
renews. The process keeps its counter. -/
def Handover.lapse (s : Handover κ) (p : Nat) : Option (Handover κ) :=
  if p ∈ s.holders then some { s with holders := s.holders.filter (· ≠ p) } else none

def Handover.restart (s : Handover κ) (p : Nat) : Option (Handover κ) :=
  some { s with
    holders := s.holders.filter (· ≠ p)
    counters := Function.update s.counters p { handed := none, seq := none }
    appends := fun id => (s.appends id).filter (fun a => a.process ≠ p) }

def Handover.openClaimed (s : Handover κ) (p : Nat) (scanned : Bool) (micros : Nat) :
    Option (Handover κ) :=
  some { s with
    counters := Function.update s.counters p
      ((s.counters p).seedSeq (s.scan scanned) (nowMicros micros)) }

def Handover.begin (s : Handover κ) (id p : Nat) (keys : List κ) : Option (Handover κ) :=
  if p ∈ s.holders ∧ (s.appends id).isNone then
    some { s with
      appends := Function.update s.appends id
        (some { process := p, keys, before := s.stored, rows := none, landed := 0 }) }
  else none

/-- `reserve_seq` and `conform_batch`; an append whose numbers would pass the largest `u64` is
refused, and its numbers are spent. -/
def Handover.reserve (s : Handover κ) (id : Nat) (scanned : Bool) (micros : Nat) :
    Option (Handover κ) :=
  match s.appends id with
  | some a =>
    if a.rows.isNone then
      let taken :=
        (s.counters a.process).reserveSeq (s.scan scanned) (nowMicros micros) a.keys.length
      some { s with
        counters := Function.update s.counters a.process taken.2
        appends := Function.update s.appends id
          ((numberRows taken.1 a.keys).map fun rows => { a with rows := some rows, landed := 0 }) }
    else none
  | none => none

/-- The next row of an attempt is durable, and takes the place of the row with its key. -/
def Handover.land [DecidableEq κ] (s : Handover κ) (id : Nat) : Option (Handover κ) :=
  match s.appends id with
  | some a =>
    match a.next with
    | some r =>
      some { s with
        table := upsert s.table r
        appends := Function.update s.appends id (some { a with landed := a.landed + 1 }) }
    | none => none
  | none => none

/-- The attempt is fenced and made again by a fresh writer, from the first row. -/
def Handover.reclaim (s : Handover κ) (id : Nat) : Option (Handover κ) :=
  match s.appends id with
  | some a =>
    if a.process ∈ s.holders then
      some { s with
        appends := Function.update s.appends id (some { a with landed := 0 }) }
    else none
  | none => none

/-- `confirm`: only the owner acknowledges. -/
def Handover.acknowledge (s : Handover κ) (id : Nat) : Option (Handover κ) :=
  match s.appends id with
  | some a =>
    if a.rows.isSome ∧ a.landed = a.numbered.length ∧ a.process ∈ s.holders then
      some { s with
        appends := Function.update s.appends id none
        acknowledged := s.acknowledged ++ [a] }
    else none
  | none => none

def Handover.abandon (s : Handover κ) (id : Nat) : Option (Handover κ) :=
  some { s with appends := Function.update s.appends id none }

def Handover.step [DecidableEq κ] (s : Handover κ) : HandoverStep κ → Option (Handover κ)
  | .claim p => s.claim p
  | .release p => s.release p
  | .lapse p => s.lapse p
  | .restart p => s.restart p
  | .openClaimed p scanned micros => s.openClaimed p scanned micros
  | .begin id p keys => s.begin id p keys
  | .reserve id scanned micros => s.reserve id scanned micros
  | .land id => s.land id
  | .reclaim id => s.reclaim id
  | .acknowledge id => s.acknowledge id
  | .abandon id => s.abandon id

/-- Every acknowledged append took numbers above every number clients had been told was stored when
it began. -/
def Handover.Increasing (s : Handover κ) : Prop :=
  ∀ a ∈ s.acknowledged, ∀ m ∈ a.before, ∀ n ∈ a.numbers, m < n

instance : DecidablePred (Handover.Increasing (κ := κ)) := fun s =>
  inferInstanceAs (Decidable (∀ a ∈ s.acknowledged, ∀ m ∈ a.before, ∀ n ∈ a.numbers, m < n))

/-- Nobody takes itself for the owner when the table is claimed, and a claim handed no number finds
no counter left; a counter is released only with no handed number to take; the query a counter is
seeded from succeeds; and no row lands over one of its key with a larger number. -/
def Handover.Seeded (s : Handover κ) : HandoverStep κ → Prop
  | .claim p => s.holders = [] ∧ (s.record.handed = none → (s.counters p).seq = none)
  | .release p => (s.counters p).seq ≠ none → (s.counters p).handed = none
  | .openClaimed p scanned _ => (s.counters p).Scans → scanned = true
  | .reserve id scanned _ =>
    ∀ a ∈ s.appends id, (s.counters a.process).Scans → scanned = true
  | .land id => ∀ r ∈ (s.appends id).bind Append.next, ∀ q ∈ s.table, q.key = r.key → q.seq ≤ r.seq
  | _ => True

instance [DecidableEq κ] (s : Handover κ) : DecidablePred s.Seeded := fun a =>
  match a with
  | .claim p =>
    inferInstanceAs
      (Decidable (s.holders = [] ∧ (s.record.handed = none → (s.counters p).seq = none)))
  | .release p =>
    inferInstanceAs (Decidable ((s.counters p).seq ≠ none → (s.counters p).handed = none))
  | .openClaimed p scanned _ =>
    inferInstanceAs (Decidable ((s.counters p).Scans → scanned = true))
  | .reserve id scanned _ =>
    inferInstanceAs (Decidable (∀ a ∈ s.appends id, (s.counters a.process).Scans → scanned = true))
  | .land id =>
    inferInstanceAs (Decidable (∀ r ∈ (s.appends id).bind Append.next,
      ∀ q ∈ s.table, q.key = r.key → q.seq ≤ r.seq))
  | .lapse _ | .restart _ | .begin _ _ _ | .reclaim _ | .acknowledge _ | .abandon _ =>
    instDecidableTrue

def Handover.floor (s : Handover κ) (p : Nat) : Nat := (s.counters p).floor s.visible

/-- A scan of the table finds a number that is at least `n`. -/
def Handover.Reaches (s : Handover κ) (n : Nat) : Prop := ∃ m ∈ s.visible, n ≤ m

structure Handover.Placed (s : Handover κ) (a : Append κ) : Prop where
  before : ∀ m ∈ a.before, m ∈ s.stored
  waiting : a.rows = none → ∀ m ∈ a.before, m < s.floor a.process
  above : ∀ m ∈ a.before, ∀ n ∈ a.numbers, m < n
  below : ∀ n ∈ a.numbers, ∃ x, (s.counters a.process).seq = some x ∧ n < x
  landed : ∀ r ∈ a.numbered.take a.landed, s.Reaches r.seq

/-- The counter of the owner, or the number a release left behind, is above everything stored, and
a scan would find a number that far. -/
structure Handover.Ordered (s : Handover κ) : Prop where
  bounded : ∀ p, (s.counters p).Bounded
  inTable : ∀ n ∈ s.visible, n < u64Max
  reached : ∀ n ∈ s.stored, s.Reaches n
  exclusive : ∀ p ∈ s.holders, ∀ q ∈ s.holders, p = q
  owner : ∀ p ∈ s.holders, ∀ n ∈ s.stored, n < s.floor p
  owned : s.holders ≠ [] → s.record.handed = none
  handed : ∀ x, s.record.handed = some x → x ≤ u64Max ∧ ∀ n ∈ s.stored, n < x
  placed : ∀ id a, s.appends id = some a → s.Placed a
  increasing : s.Increasing

structure Handover.Advances (s s' : Handover κ) (p : Nat) : Prop where
  stored : ∀ n ∈ s.stored, n ∈ s'.stored
  reaches : ∀ n, s.Reaches n → s'.Reaches n
  floor : ∀ n ∈ s.stored, n < s.floor p → n < s'.floor p
  seq : ∀ x, (s.counters p).seq = some x → ∃ y, (s'.counters p).seq = some y ∧ x ≤ y

variable {s s' : Handover κ} {i : Nat}

theorem Handover.Placed.advance (h : s.Placed a) (ha : s.Advances s' a.process) : s'.Placed a where
  before m hm := ha.stored m (h.before m hm)
  waiting hb m hm := ha.floor m (h.before m hm) (h.waiting hb m hm)
  above := h.above
  below n hn := by
    obtain ⟨x,hx,hlt⟩ := h.below n hn
    obtain ⟨y,hy,hle⟩ := ha.seq x hx
    exact ⟨y,hy,Nat.lt_of_lt_of_le hlt hle⟩
  landed r hr := ha.reaches r.seq (h.landed r hr)

theorem Handover.Ordered.start : (Handover.empty (κ := κ)).Ordered where
  bounded _ := ⟨fun _ h => (by cases h),fun _ h => (by cases h)⟩
  inTable n hn := by cases hn
  reached n hn := by cases hn
  exclusive _ h := by cases h
  owner _ h := by cases h
  owned h := absurd rfl h
  handed _ h := by cases h
  placed _ _ h := by cases h
  increasing a ha := by cases ha

theorem Handover.Placed.of_same (h : s.Placed a) (hc : s'.counters = s.counters)
    (ht : s'.table = s.table) (ha : s'.acknowledged = s.acknowledged) : s'.Placed a := by
  refine h.advance ⟨?_,?_,?_,?_⟩
  · simp [Handover.stored,ha]
  · simp [Handover.Reaches,Handover.visible,ht]
  · simp [Handover.floor,Handover.visible,hc,ht]
  · intro x hx
    exact ⟨x,by rw [hc]; exact hx,Nat.le_refl x⟩

def Handover.withCounter (s : Handover κ) (p : Nat) (c : Counter) : Handover κ :=
  { s with counters := Function.update s.counters p c }

theorem Handover.advances_withCounter (hf : ∀ n ∈ s.stored, n < s.floor p → n < c.floor s.visible)
    (hx : ∀ x, (s.counters p).seq = some x → ∃ y, c.seq = some y ∧ x ≤ y) (q : Nat) :
    s.Advances (s.withCounter p c) q := by
  refine ⟨fun _ hn => hn,fun _ hn => hn,?_,?_⟩
  · exact (Function.forall_update_iff _ fun q (c : Counter) => ∀ n ∈ s.stored,
      n < s.floor q → n < c.floor s.visible).mpr ⟨hf,fun _ _ _ _ hl => hl⟩ q
  · exact (Function.forall_update_iff _ fun q (c : Counter) => ∀ x,
      (s.counters q).seq = some x → ∃ y, c.seq = some y ∧ x ≤ y).mpr
      ⟨hx,fun _ _ x hx => ⟨x,hx,Nat.le_refl x⟩⟩ q

theorem Handover.Ordered.bounded_withCounter (h : s.Ordered) (hc : c.Bounded) (q : Nat) :
    ((s.withCounter p c).counters q).Bounded :=
  (Function.forall_update_iff _ fun _ (c : Counter) => c.Bounded).mpr
    ⟨hc,fun q _ => h.bounded q⟩ q

/-- A counter that has to scan starts above everything stored. -/
theorem Handover.Ordered.lt_scanned {c : Counter} (h : s.Ordered) (hc : c.Scans) (hn : n ∈ s.stored) :
    n < c.floor s.visible := by
  obtain ⟨m,hm,hle⟩ := h.reached n hn
  rw [hc.floor_eq]
  exact Nat.lt_of_le_of_lt hle (lt_highestSeq_scanOf h.inTable hm)

/-- The claimant starts above everything stored, whichever record it claimed from. -/
theorem Handover.Ordered.lt_claimed (h : s.Ordered) (ho : s.Seeded (.claim p)) (hn : n ∈ s.stored) :
    n < ((s.counters p).hand s.record.handed).floor s.visible := by
  cases hx : s.record.handed with
  | some x => exact Nat.lt_of_lt_of_le ((h.handed x hx).2 n hn) (Counter.handed_le_floor rfl)
  | none => exact h.lt_scanned ⟨rfl,ho.2 hx⟩ hn

theorem Handover.Ordered.claim (h : s.Ordered) (ho : s.Seeded (.claim p))
    (hs : s.claim p = some s') : s'.Ordered := by
  unfold Handover.claim at hs
  split at hs <;> cases hs
  have hp : ∀ q ∈ p :: s.holders, q = p := by simp [ho.1]
  refine ⟨h.bounded_withCounter ⟨fun n hn => (h.handed n hn).1,(h.bounded p).seq⟩,h.inTable,
    h.reached,fun q hq r hr => (hp q hq).trans (hp r hr).symm,?_,fun _ => rfl,
    fun x hx => (by cases hx),?_,h.increasing⟩
  · intro q hq n hn
    cases hp q hq
    simpa [Handover.floor,Handover.visible] using h.lt_claimed ho hn
  · intro id a ha
    have hv := Handover.advances_withCounter (fun n hn _ => h.lt_claimed ho hn)
      (fun x hx => ⟨x,hx,Nat.le_refl x⟩) a.process
    exact (h.placed id a ha).advance ⟨hv.stored,hv.reaches,hv.floor,hv.seq⟩

/-- Nobody holds the table any more; what the record hands over is above everything stored. -/
theorem Handover.Ordered.setRecord (h : s.Ordered) (record : OwnerRecord)
    (hx : ∀ x, record.handed = some x → x ≤ u64Max ∧ ∀ n ∈ s.stored, n < x) :
    Handover.Ordered { s with record, holders := [] } :=
  ⟨h.bounded,h.inTable,h.reached,fun _ hp => (by cases hp),fun _ hp => (by cases hp),
    fun hn => absurd rfl hn,hx,fun i a ha => (h.placed i a ha).of_same rfl rfl rfl,h.increasing⟩

theorem Handover.Ordered.filter_holders (h : s.Ordered) (hp : p ∈ s.holders) :
    s.holders.filter (· ≠ p) = [] := by
  simp only [List.filter_eq_nil_iff,decide_eq_true_eq,not_not]
  exact fun q hq => h.exclusive q hq p hp

theorem Handover.Ordered.release (h : s.Ordered)
    (hok : s.Seeded (.release p)) (hs : s.release p = some s') : s'.Ordered := by
  unfold Handover.release at hs
  split at hs
  · rename_i ho
    cases hs
    rw [h.filter_holders ho]
    refine h.setRecord _ fun x hx => ?_
    split at hx
    · have hq : (s.counters p).seq = some x := hx
      have hh : (s.counters p).handed = none := hok (by simp [hq])
      refine ⟨(h.bounded p).seq x hq,fun n hn => ?_⟩
      have hl := h.owner p ho n hn
      rwa [Handover.floor,Counter.floor_of_known hh hq] at hl
    · exact h.handed x hx
  · cases hs

theorem Handover.Ordered.lapse (h : s.Ordered) (hs : s.lapse p = some s') : s'.Ordered := by
  unfold Handover.lapse at hs
  split at hs <;> cases hs
  rename_i ho
  rw [h.filter_holders ho]
  exact h.setRecord s.record h.handed

/-- A restarted process loses its counter and its appends, and owns nothing. -/
theorem Handover.Ordered.restart (h : s.Ordered) (hs : s.restart p = some s') : s'.Ordered := by
  cases hs
  have hot : ∀ q, q ≠ p →
      Function.update s.counters p { handed := none, seq := none } q = s.counters q :=
    fun q hq => Function.update_of_ne hq ..
  have hho : ∀ q ∈ s.holders.filter (· ≠ p), q ∈ s.holders ∧ q ≠ p := by simp
  refine ⟨h.bounded_withCounter ⟨fun _ hn => (by cases hn),fun _ hn => (by cases hn)⟩,h.inTable,
    h.reached,fun q hq r hr => h.exclusive q (hho q hq).1 r (hho r hr).1,?_,?_,h.handed,?_,
    h.increasing⟩
  · intro q ho n hn
    have hl := h.owner q (hho q ho).1 n hn
    simpa [Handover.floor,Handover.visible,hot q (hho q ho).2] using hl
  · intro hn
    obtain ⟨q,hq⟩ := List.exists_mem_of_ne_nil _ hn
    exact h.owned (List.ne_nil_of_mem (hho q hq).1)
  · intro id a ha
    obtain ⟨ha,hp⟩ := Option.filter_eq_some_iff.mp ha
    have hq : a.process ≠ p := by simpa using hp
    refine (h.placed id a ha).advance ⟨fun _ hn => hn,fun _ hn => hn,?_,?_⟩
    · intro n _ hl
      simpa [Handover.floor,Handover.visible,hot _ hq] using hl
    · intro x hx
      exact ⟨x,by simpa [hot _ hq] using hx,Nat.le_refl x⟩

/-- A process whose counter stands at `next`, with nothing left to take. -/
def Handover.setCounter (s : Handover κ) (p next : Nat) : Handover κ :=
  s.withCounter p { handed := none, seq := some next }

def Handover.setAppend (s : Handover κ) (i : Nat) (a : Option (Append κ)) : Handover κ :=
  { s with appends := Function.update s.appends i a }

theorem Handover.Ordered.setCounter (h : s.Ordered) (hf : s.floor p ≤ next)
    (hm : next ≤ u64Max) : (s.setCounter p next).Ordered := by
  have hv : ∀ q, s.Advances (s.setCounter p next) q := by
    refine Handover.advances_withCounter (fun n _ hl => ?_) fun x hx => ⟨next,rfl,?_⟩
    · rw [Counter.floor_of_known rfl rfl]
      exact Nat.lt_of_lt_of_le hl hf
    · exact Nat.le_trans (Counter.seq_le_floor hx) hf
  refine ⟨h.bounded_withCounter ⟨fun _ hn => (by cases hn),fun n hn => (by cases hn; exact hm)⟩,
    h.inTable,h.reached,h.exclusive,?_,h.owned,h.handed,?_,h.increasing⟩
  · intro q ho n hn
    exact (hv q).floor n hn (h.owner q ho n hn)
  · intro i a ha
    exact (h.placed i a ha).advance (hv a.process)

theorem Handover.Ordered.setAppend (h : s.Ordered)
    (hp : ∀ b, a = some b → s.Placed b) : (s.setAppend i a).Ordered :=
  ⟨h.bounded,h.inTable,h.reached,h.exclusive,h.owner,h.owned,h.handed,
    fun j b hb => ((Function.forall_update_iff _ fun _ a => ∀ b, a = some b → s.Placed b).mpr
      ⟨hp,fun j _ => h.placed j⟩ j b hb).of_same rfl rfl rfl,h.increasing⟩

theorem Handover.scan_eq {c : Counter} (h : c.Scans → scanned = true) :
    c.Scans → s.scan scanned = scanOf s.visible := by
  intro hc
  simp [Handover.scan,h hc]

theorem Handover.Ordered.openClaimed (h : s.Ordered)
    (ho : s.Seeded (.openClaimed p scanned micros))
    (hs : s.openClaimed p scanned micros = some s') : s'.Ordered := by
  obtain ⟨y,hy,hf,hm⟩ :=
    Counter.seedSeq_spec s.visible (h.bounded p) (nowMicros_le micros) (Handover.scan_eq ho)
  unfold Handover.openClaimed at hs
  rw [hy] at hs
  cases hs
  exact h.setCounter hf hm

theorem Handover.Ordered.begin (h : s.Ordered) (hs : s.begin i p keys = some s') : s'.Ordered := by
  unfold Handover.begin at hs
  split at hs
  · rename_i hg
    cases hs
    refine h.setAppend ?_
    intro b hb
    cases hb
    exact ⟨fun _ hm => hm,fun _ => h.owner p hg.1,fun _ _ _ hn => (by cases hn),
      fun _ hn => (by cases hn),fun _ hr => (by cases hr)⟩
  · cases hs

/-- The numbers of a reservation are above what was stored when its append began. -/
theorem Handover.Ordered.reserve (h : s.Ordered) (ho : s.Seeded (.reserve i scanned micros))
    (hs : s.reserve i scanned micros = some s') : s'.Ordered := by
  unfold Handover.reserve at hs
  cases ha : s.appends i with
  | none => simp [ha] at hs
  | some a =>
    simp only [ha] at hs
    split at hs
    · rename_i hst
      have hol := h.placed i a ha
      obtain ⟨first,next,hr,hf,hne,hma,hd⟩ := Counter.reserveSeq_spec s.visible
        a.keys.length (h.bounded a.process) (nowMicros_le micros) (Handover.scan_eq (ho a ha))
      rw [hr] at hs
      cases hs
      refine (h.setCounter (Nat.le_trans hf hne) hma).setAppend ?_
      intro b hb
      obtain ⟨rows,hnu,rfl⟩ := Option.map_eq_some_iff.mp hb
      have hra := arrivalNumbers_spec (numberRows_seq hnu).1
      refine ⟨hol.before,fun hl => (by cases hl),?_,?_,fun _ hr => (by cases hr)⟩
      · intro m hm n hn
        have := hol.waiting (Option.isNone_iff_eq_none.mp hst) m hm
        have := (hra n hn).1
        unfold Handover.floor at *
        omega
      · intro n hn
        refine ⟨next,by simp [Handover.setCounter,Handover.withCounter],?_⟩
        rw [hd]
        exact (hra n hn).2
    · cases hs

theorem Handover.advances_table {table : List (Row κ)}
    (hb : ∀ n ∈ table.map Row.seq, n < u64Max)
    (hu : ∀ n ∈ s.visible, ∃ m ∈ table.map Row.seq, n ≤ m) (q : Nat) :
    s.Advances { s with table := table } q := by
  refine ⟨fun _ hn => hn,?_,?_,fun x hx => ⟨x,hx,Nat.le_refl x⟩⟩
  · rintro n ⟨m,hm,hnm⟩
    obtain ⟨k,hk,hmk⟩ := hu m hm
    exact ⟨k,hk,Nat.le_trans hnm hmk⟩
  · intro n _ hlt
    exact Nat.lt_of_lt_of_le hlt (Counter.floor_mono hb hu)

/-- A table that still reaches every number keeps the order. -/
theorem Handover.Ordered.setTable {table : List (Row κ)} (h : s.Ordered)
    (hb : ∀ n ∈ table.map Row.seq, n < u64Max)
    (hu : ∀ n ∈ s.visible, ∃ m ∈ table.map Row.seq, n ≤ m) :
    Handover.Ordered { s with table := table } :=
  have had := Handover.advances_table hb hu
  ⟨h.bounded,hb,fun n hn => (had 0).reaches n (h.reached n hn),h.exclusive,
    fun q hq n hn => (had q).floor n hn (h.owner q hq n hn),h.owned,h.handed,
    fun j b hb => (h.placed j b hb).advance (had b.process),h.increasing⟩

/-- A row that lands over no larger number of its key leaves every number within reach. -/
theorem reaches_upsert [DecidableEq κ] {table : List (Row κ)} {r q : Row κ}
    (hr : ∀ q ∈ table, q.key = r.key → q.seq ≤ r.seq) (hq : q ∈ table) :
    ∃ m ∈ (upsert table r).map Row.seq, q.seq ≤ m := by
  by_cases hk : q.key = r.key
  · exact ⟨r.seq,List.mem_map_of_mem (by simp [upsert]),hr q hq hk⟩
  · exact ⟨q.seq,List.mem_map_of_mem (by simp [upsert,hq,hk]),Nat.le_refl _⟩

/-- A row that lands over no larger number of its key hides none from the scan. -/
theorem Handover.Ordered.land [DecidableEq κ] (h : s.Ordered) (ho : s.Seeded (.land i))
    (hs : s.land i = some s') : s'.Ordered := by
  unfold Handover.land at hs
  split at hs
  · rename_i a ha
    split at hs
    · rename_i r hr
      cases hs
      have hol := h.placed i a ha
      have hle : ∀ q ∈ s.table, q.key = r.key → q.seq ≤ r.seq := ho r (by simp [ha,hr])
      have hbo : ∀ n ∈ (upsert s.table r).map Row.seq, n < u64Max := by
        intro n hn
        obtain ⟨q,hq,rfl⟩ := List.mem_map.mp hn
        rcases List.mem_append.mp hq with hq | hq
        · exact h.inTable _ (List.mem_map_of_mem (List.mem_of_mem_filter hq))
        · cases List.mem_singleton.mp hq
          obtain ⟨x,hx,hlt⟩ := hol.below r.seq (List.mem_map_of_mem (List.mem_of_getElem? hr))
          exact Nat.lt_of_lt_of_le hlt ((h.bounded _).seq x hx)
      have hup : ∀ n ∈ s.visible, ∃ m ∈ (upsert s.table r).map Row.seq, n ≤ m := by
        intro n hn
        obtain ⟨q,hq,rfl⟩ := List.mem_map.mp hn
        exact reaches_upsert hle hq
      have hg := h.setTable hbo hup
      refine hg.setAppend ?_
      intro b hb
      cases hb
      have hm := hol.advance (Handover.advances_table hbo hup a.process)
      refine ⟨hm.before,hm.waiting,hm.above,hm.below,?_⟩
      intro q hq
      have hnx : a.numbered[a.landed]? = some r := hr
      have hq : q ∈ a.numbered.take (a.landed + 1) := hq
      rw [List.take_add_one,hnx] at hq
      rcases List.mem_append.mp hq with hq | hq
      · exact hm.landed q hq
      · cases List.mem_singleton.mp hq
        exact ⟨r.seq,List.mem_map_of_mem (by simp [upsert]),Nat.le_refl _⟩
    · cases hs
  · cases hs

theorem Handover.Ordered.reclaim (h : s.Ordered) (hs : s.reclaim i = some s') : s'.Ordered := by
  unfold Handover.reclaim at hs
  split at hs
  · rename_i a ha
    split at hs <;> cases hs
    refine h.setAppend ?_
    intro b hb
    cases hb
    have hol := h.placed i a ha
    exact ⟨hol.before,hol.waiting,hol.above,hol.below,fun _ hr => (by cases hr)⟩
  · cases hs

theorem Handover.Ordered.abandon (h : s.Ordered) (hs : s.abandon i = some s') : s'.Ordered := by
  cases hs
  exact h.setAppend (fun _ hb => (by cases hb))

/-- An acknowledged batch was below the counter and is in reach of a scan. -/
theorem Handover.Ordered.acknowledge (h : s.Ordered) (hs : s.acknowledge i = some s') :
    s'.Ordered := by
  unfold Handover.acknowledge at hs
  split at hs
  · split at hs <;> cases hs
    rename_i a ha hg
    obtain ⟨-,hla,hho⟩ := hg
    have hol := h.placed i a ha
    have hst : ∀ n,
        n ∈ Handover.stored { s with acknowledged := s.acknowledged ++ [a] } ↔
          n ∈ s.stored ∨ n ∈ a.numbers := by
      intro n
      simp [Handover.stored]
    have hac : Handover.Ordered { s with acknowledged := s.acknowledged ++ [a] } := by
      refine ⟨h.bounded,h.inTable,?_,h.exclusive,?_,h.owned,?_,?_,?_⟩
      · intro n hn
        rcases (hst n).mp hn with hn | hn
        · exact h.reached n hn
        · obtain ⟨r,hr,rfl⟩ := List.mem_map.mp hn
          exact hol.landed r (by rwa [hla,List.take_length])
      · intro q ho n hn
        rcases (hst n).mp hn with hn | hn
        · exact h.owner q ho n hn
        · obtain ⟨x,hx,hl⟩ := hol.below n hn
          rw [h.exclusive a.process hho q ho] at hx
          exact Nat.lt_of_lt_of_le hl (Counter.seq_le_floor hx)
      · intro x hx
        rw [h.owned (List.ne_nil_of_mem hho)] at hx
        cases hx
      · intro j b hb
        refine (h.placed j b hb).advance
          ⟨fun n hn => (hst n).mpr (.inl hn),fun _ hn => hn,fun _ _ hl => hl,
            fun x hx => ⟨x,hx,Nat.le_refl x⟩⟩
      · intro b hb
        rcases List.mem_append.mp hb with hb | hb
        · exact h.increasing b hb
        · simp only [List.mem_singleton] at hb
          subst hb
          exact hol.above
    exact hac.setAppend (fun _ hb => (by cases hb))
  · cases hs

theorem Handover.Ordered.step [DecidableEq κ] (h : s.Ordered) (ho : s.Seeded a)
    (hs : s.step a = some s') : s'.Ordered := by
  cases a with
  | claim p => exact h.claim ho hs
  | release p => exact h.release ho hs
  | lapse p => exact h.lapse hs
  | restart p => exact h.restart hs
  | openClaimed p scanned micros => exact h.openClaimed ho hs
  | begin i p keys => exact h.begin hs
  | reserve i scanned micros => exact h.reserve ho hs
  | land i => exact h.land ho hs
  | reclaim i => exact h.reclaim hs
  | acknowledge i => exact h.acknowledge hs
  | abandon i => exact h.abandon hs

/-- What every step keeps holds along every schedule that meets the condition. -/
theorem reachable_ordered [DecidableEq κ]
    (h : Reachable (· = Handover.empty (κ := κ)) Handover.step Handover.Seeded s) : s.Ordered := by
  refine h.invariant ?_ (fun _ _ _ ho hok hs => ho.step hok hs)
  rintro s rfl
  exact Handover.Ordered.start

/-- Along every schedule whose claims, releases, seedings and landings meet the condition, an append
that begins after a row was acknowledged gets larger numbers than that row. -/
theorem arrival_numbers_increase [DecidableEq κ]
    (h : Reachable (· = Handover.empty (κ := κ)) Handover.step Handover.Seeded s) : s.Increasing :=
  (reachable_ordered h).increasing

def wholeAppend (i p micros : Nat) : List (HandoverStep Nat) :=
  [.begin i p [i], .reserve i true micros, .land i, .acknowledge i]

/-- Three owners in turn, one release and one lapse, a clock that steps back, and an append whose
attempt is fenced and made again. -/
theorem arrival_numbers_increase_over_a_release :
    ∃ s : Handover Nat, Reachable (· = Handover.empty) Handover.step Handover.Seeded s ∧
      s.stored = [100, 101, 102] ∧ s.Increasing := by
  exact Reachable.exists_of_runs rfl
    ([.claim 0] ++ wholeAppend 0 0 100 ++ [.release 0,.claim 1,.begin 1 1 [0],.reserve 1 true 5,
    .land 1,.reclaim 1,.land 1,.acknowledge 1,.lapse 1,.claim 2] ++ wholeAppend 2 2 0) rfl
    fun hr => ⟨by decide,arrival_numbers_increase hr⟩

def HandoverStep.lands : HandoverStep κ → Bool
  | .land _ => true
  | _ => false

/-- Process 0 owns the table, lapses, and claims it back after process 1 wrote to it: its counter is
still in memory, so its next row takes a number that is taken. And when rows of one key land against
the order of their numbers, the larger one is hidden from the scan of the next owner. -/
theorem arrival_number_repeats :
    (¬ ∀ s : Handover Nat, Reachable (· = Handover.empty) Handover.step anyStep s →
      s.Increasing) ∧
    ¬ ∀ s : Handover Nat, Reachable (· = Handover.empty) Handover.step
      (fun s a => a.lands ∨ s.Seeded a) s → s.Increasing := by
  constructor
  · intro ha
    have hr := ha _ (.of_start rfl
      ([.claim 0] ++ wholeAppend 0 0 100 ++ [.lapse 0,.claim 1] ++
      wholeAppend 1 1 100 ++ [.lapse 1,.claim 0] ++ wholeAppend 2 0 100) rfl)
    exact absurd hr (by decide)
  · intro ha
    have hr := ha _ (.of_start rfl
      ([.claim 0,.begin 0 0 [7],.reserve 0 true 100,.begin 1 0 [7],.reserve 1 true 100,
      .land 1,.acknowledge 1,.land 0,.acknowledge 0,.lapse 0,.claim 1] ++ wholeAppend 2 1 0) rfl)
    exact absurd hr (by decide)

end Walleye.Engine
