import Mathlib.Algebra.Group.Nat.Defs
import Mathlib.Data.List.MinMax
import Mathlib.Logic.Function.Basic
import Walleye.Base.Runs

namespace Walleye.Engine

open Walleye.Base

def u64Max : Nat := 2 ^ 64 - 1

def saturatingAdd (a b : Nat) : Nat := min (a + b) u64Max

theorem saturatingAdd_le (a b : Nat) : saturatingAdd a b ≤ u64Max := Nat.min_le_right _ _

/-- The query behind `highest_seq`: it fails, or answers the largest arrival
number the table holds, if it holds any. -/
inductive Scan where
  | failed
  | high (high : Option Nat)
  deriving DecidableEq, Repr

/-- `highest_seq`: a query that fails reads as a table with no rows. -/
def highestSeq : Scan → Nat
  | .failed => 0
  | .high none => 0
  | .high (some high) => saturatingAdd high 1

/-- What a process keeps of a table's arrival numbers: the number handed by a release until
something takes it, and the counter of the stream. -/
structure Counter where
  handed : Option Nat
  seq : Option Nat
  deriving DecidableEq, Repr

/-- `seed_seq`, with the clock's microseconds already cut to a `u64`. -/
def Counter.seedSeq (c : Counter) (scan : Scan) (now : Nat) : Counter :=
  match c.handed with
  | some next => { handed := none, seq := some (max (max (c.seq.getD 0) next) now) }
  | none =>
    match c.seq with
    | none => { handed := none, seq := some (max (highestSeq scan) now) }
    | some _ => c

def Counter.hand (c : Counter) (next : Option Nat) : Counter := { handed := next, seq := c.seq }

@[simp] theorem Counter.hand_seq (c : Counter) (next : Option Nat) :
    (c.hand next).seq = c.seq := rfl

/-- `reserve_seq`: the first of `rows` consecutive numbers, and the counter
after them. -/
def Counter.reserveSeq (c : Counter) (scan : Scan) (now rows : Nat) : Nat × Counter :=
  let seeded := c.seedSeq scan now
  let next := seeded.seq.getD 0
  (next, { seeded with seq := some (saturatingAdd next (max rows 1)) })

/-- The numbers `conform_batch` writes. A range cut short by saturation has fewer numbers than rows,
and the batch is refused. -/
def arrivalNumbers (first rows : Nat) : Option (List Nat) :=
  if saturatingAdd first rows - first = rows then some (List.range' first rows) else none

/-- The clock as `now_micros` returns it: microseconds cast to `u64`. -/
def nowMicros (micros : Nat) : Nat := micros % 2 ^ 64

theorem nowMicros_le (micros : Nat) : nowMicros micros ≤ u64Max := by
  have h : nowMicros micros < 2 ^ 64 := Nat.mod_lt _ (by decide)
  unfold u64Max
  omega

theorem arrivalNumbers_spec (h : arrivalNumbers first rows = some numbers) :
    ∀ n ∈ numbers, first ≤ n ∧ n < saturatingAdd first (max rows 1) := by
  intro n hn
  unfold arrivalNumbers at h
  split at h
  · rename_i hs
    cases h
    obtain ⟨i,hi,rfl⟩ := List.mem_range'.mp hn
    unfold saturatingAdd at *
    omega
  · cases h

/-- The highest number a table holds, as a successful scan reads it. -/
def scanOf (table : List Nat) : Scan := .high table.max?

theorem lt_highestSeq_scanOf (hb : ∀ n ∈ table, n < u64Max)
    (hn : n ∈ table) : n < highestSeq (scanOf table) := by
  unfold scanOf
  cases h : table.max? with
  | none =>
    rw [List.max?_eq_none_iff] at h
    subst h
    cases hn
  | some high =>
    obtain ⟨hm,hl⟩ := List.max?_eq_some_iff.mp h
    have hlt := hb high hm
    have hnh := hl n hn
    simp only [highestSeq,saturatingAdd]
    omega

theorem highestSeq_le (scan : Scan) : highestSeq scan ≤ u64Max := by
  unfold highestSeq
  split
  · exact Nat.zero_le _
  · exact Nat.zero_le _
  · exact saturatingAdd_le _ _

/-- The least number the counter can still give out, over a table whose rows
a scan would find: what seeding gives with the clock at zero. -/
def Counter.floor (c : Counter) (table : List Nat) : Nat :=
  (c.seedSeq (scanOf table) 0).seq.getD 0

/-- Whether seeding has to scan the table: nothing was handed over and nothing
is known. -/
def Counter.Scans (c : Counter) : Prop := c.handed = none ∧ c.seq = none

instance : DecidablePred Counter.Scans := fun _ => inferInstanceAs (Decidable (_ ∧ _))

/-- Both numbers a process keeps are `u64` values. -/
structure Counter.Bounded (c : Counter) : Prop where
  handed : ∀ n, c.handed = some n → n ≤ u64Max
  seq : ∀ n, c.seq = some n → n ≤ u64Max

variable {c : Counter}

theorem Counter.seq_le_floor (h : c.seq = some x) : x ≤ c.floor table := by
  unfold Counter.floor Counter.seedSeq
  split
  · simp only [h,Option.getD_some]
    omega
  · simp [h]

theorem Counter.handed_le_floor (h : c.handed = some x) : x ≤ c.floor table := by
  simp only [Counter.floor,Counter.seedSeq,h,Option.getD_some]
  omega

theorem Counter.floor_of_known (hh : c.handed = none) (hs : c.seq = some x) :
    c.floor table = x := by
  simp [Counter.floor,Counter.seedSeq,hh,hs]

theorem Counter.Scans.floor_eq (h : c.Scans) : c.floor table = highestSeq (scanOf table) := by
  simp [Counter.floor,Counter.seedSeq,h.1,h.2]

theorem Counter.floor_mono (hb : ∀ n ∈ table', n < u64Max)
    (hsu : ∀ n ∈ table, ∃ m ∈ table', n ≤ m) : c.floor table ≤ c.floor table' := by
  by_cases hc : c.Scans
  · rw [hc.floor_eq,hc.floor_eq]
    unfold scanOf
    cases h : table.max? with
    | none => exact Nat.zero_le _
    | some high =>
      obtain ⟨m,hm,hle⟩ := hsu high (List.max?_mem h)
      have hl := lt_highestSeq_scanOf hb hm
      unfold scanOf at hl
      simp only [highestSeq,saturatingAdd] at hl ⊢
      omega
  · unfold Counter.floor Counter.seedSeq
    unfold Counter.Scans at hc
    split
    · exact Nat.le_refl _
    · rename_i hh
      cases hs : c.seq with
      | none => exact absurd ⟨hh,hs⟩ hc
      | some x => exact Nat.le_refl _

/-- A counter is seeded at its floor or above, and has nothing left to take. -/
theorem Counter.seedSeq_spec (table : List Nat) (hb : c.Bounded)
    (hno : now ≤ u64Max) (hsc : c.Scans → scan = scanOf table) :
    ∃ y, c.seedSeq scan now = { handed := none, seq := some y } ∧
      c.floor table ≤ y ∧ y ≤ u64Max := by
  unfold Counter.floor Counter.seedSeq
  cases hh : c.handed with
  | some next =>
    refine ⟨_,rfl,?_,?_⟩
    · simp only [Option.getD_some]
      omega
    · have hn := hb.handed next hh
      have hs : c.seq.getD 0 ≤ u64Max := by
        cases hs : c.seq with
        | none => exact Nat.zero_le _
        | some x => exact hb.seq x hs
      omega
  | none =>
    cases hs : c.seq with
    | none =>
      rw [hsc ⟨hh,hs⟩]
      refine ⟨_,rfl,?_,?_⟩
      · simp only [Option.getD_some]
        omega
      · have := highestSeq_le (scanOf table)
        omega
    | some x =>
      refine ⟨x,?_,?_,hb.seq x hs⟩
      · cases c
        simp_all
      · simp [hs]

theorem Counter.floor_le (hb : c.Bounded) : c.floor table ≤ u64Max := by
  obtain ⟨y,_,hf,hm⟩ :=
    Counter.seedSeq_spec table hb (Nat.zero_le u64Max) (fun _ => rfl)
  exact Nat.le_trans hf hm

theorem Counter.Scans.now_le (h : c.Scans) (scan : Scan) (now rows : Nat) :
    now ≤ (c.reserveSeq scan now rows).1 := by
  simp only [Counter.reserveSeq,Counter.seedSeq,h.1,h.2,Option.getD_some]
  omega

theorem Counter.reserveSeq_spec (table : List Nat) (rows : Nat) (hb : c.Bounded)
    (hn : now ≤ u64Max) (hs : c.Scans → scan = scanOf table) :
    ∃ first next, c.reserveSeq scan now rows = (first,{ handed := none, seq := some next }) ∧
      c.floor table ≤ first ∧ first ≤ next ∧ next ≤ u64Max ∧
      next = saturatingAdd first (max rows 1) := by
  obtain ⟨y,hy,hf,hm⟩ := Counter.seedSeq_spec table hb hn hs
  refine ⟨y,saturatingAdd y (max rows 1),?_,hf,?_,saturatingAdd_le _ _,rfl⟩
  · simp [Counter.reserveSeq,hy]
  · unfold saturatingAdd
    omega

variable {κ : Type}

/-- One version of a row: its primary key and the arrival number it was given. -/
structure Row (κ : Type) where
  key : κ
  seq : Nat
  deriving DecidableEq, Repr

/-- `conform_batch`: the rows of an append, numbered in order from `first`. -/
def numberRows (first : Nat) (keys : List κ) : Option (List (Row κ)) :=
  (arrivalNumbers first keys.length).map fun numbers =>
    (keys.zip numbers).map fun pair => { key := pair.1, seq := pair.2 }

theorem numberRows_seq {batch : List (Row κ)} (h : numberRows first keys = some batch) :
    arrivalNumbers first keys.length = some (batch.map Row.seq) ∧ (batch.map Row.seq).Nodup := by
  obtain ⟨numbers,hn,rfl⟩ := Option.map_eq_some_iff.mp h
  have hr : numbers = List.range' first keys.length := by
    unfold arrivalNumbers at hn
    split at hn
    · exact (Option.some.inj hn).symm
    · cases hn
  have hs : ((keys.zip numbers).map fun pair => (Row.mk pair.1 pair.2)).map Row.seq = numbers := by
    rw [List.map_map]
    exact List.map_snd_zip (by simp [hr])
  rw [hs]
  exact ⟨hn,hr ▸ List.nodup_range'⟩

def upsert [DecidableEq κ] (rows : List (Row κ)) (row : Row κ) : List (Row κ) :=
  rows.filter (fun r => r.key ≠ row.key) ++ [row]

end Walleye.Engine
