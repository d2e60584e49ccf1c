import Mathlib.Data.List.Flatten
import Mathlib.Data.List.Sort
import Walleye.Engine.Arrival

namespace Walleye.Engine

open Walleye.Base

variable {κ : Type} {batch : List (Row κ)}

/-- A source table in its owner, and one view of it. `reserved` are rows of appends that took their
numbers and are not visible, `landed` those visible and not answered, `covered` those handed to a
pass whose cursor write included them. -/
structure Source (κ : Type) where
  counter : Counter
  rows : List (Row κ)
  reserved : List (List (Row κ))
  landed : List (List (Row κ))
  acknowledged : List (Row κ)
  cursor : Nat
  pass : Option (List (Row κ))
  covered : List (Row κ)

inductive SourceStep (κ : Type) where
  | reserve (keys : List κ) (scanned : Bool) (micros : Nat)
  | land (batch : List (Row κ))
  | acknowledge (batch : List (Row κ))
  | abandon (batch : List (Row κ))
  | restart
  | pick (batchRows : Nat)
  | failPass
  | setCursor
  deriving DecidableEq, Repr

def Source.empty : Source κ where
  counter := { handed := none, seq := none }
  rows := []
  reserved := []
  landed := []
  acknowledged := []
  cursor := 0
  pass := none
  covered := []

def Source.numbers (s : Source κ) : List Nat := s.rows.map Row.seq

def Source.reserve (s : Source κ) (keys : List κ) (scanned : Bool) (micros : Nat) : Source κ :=
  let scan := if scanned then scanOf s.numbers else .failed
  let taken := s.counter.reserveSeq scan (nowMicros micros) keys.length
  { s with
    counter := taken.2
    reserved := (numberRows taken.1 keys).toList ++ s.reserved }

/-- `append_prepared` under the table's lock: the rows become visible at once. -/
def Source.land [DecidableEq κ] (s : Source κ) (batch : List (Row κ)) : Option (Source κ) :=
  if batch ∈ s.reserved then
    some { s with
      rows := batch.foldl upsert s.rows
      reserved := s.reserved.erase batch
      landed := batch :: s.landed }
  else none

def Source.acknowledge [DecidableEq κ] (s : Source κ) (batch : List (Row κ)) : Option (Source κ) :=
  if batch ∈ s.landed then
    some { s with landed := s.landed.erase batch, acknowledged := batch ++ s.acknowledged }
  else none

def Source.abandon [DecidableEq κ] (s : Source κ) (batch : List (Row κ)) : Source κ :=
  { s with reserved := s.reserved.erase batch }

/-- The owner restarts: the counter, its appends and the pass are gone. -/
def Source.restart (s : Source κ) : Source κ :=
  { s with counter := { handed := none, seq := none }, reserved := [], landed := [], pass := none }

def Row.Earlier (a b : Row κ) : Prop := a.seq ≤ b.seq

instance : DecidableRel (Row.Earlier (κ := κ)) := fun a b => inferInstanceAs (Decidable (a.seq ≤ b.seq))

instance : Std.Total (Row.Earlier (κ := κ)) := ⟨fun a b => Nat.le_total a.seq b.seq⟩

instance : IsTrans (Row κ) Row.Earlier := ⟨fun _ _ _ => Nat.le_trans⟩

def Source.fresh (s : Source κ) (batchRows : Nat) : List (Row κ) :=
  ((s.rows.filter fun r => s.cursor < r.seq).insertionSort Row.Earlier).take batchRows

/-- `advance_from` up to its cursor write: a pass over no rows is idle. -/
def Source.pick (s : Source κ) (batchRows : Nat) : Option (Source κ) :=
  if s.pass = none then
    some (if s.fresh batchRows = [] then s else { s with pass := some (s.fresh batchRows) })
  else none

/-- `highest_in`: where a pass over these rows moves the cursor. -/
def through (picked : List (Row κ)) (cursor : Nat) : Nat :=
  (picked.map Row.seq).max?.getD cursor

/-- The end of `advance_from`: the cursor moves past everything picked. -/
def Source.setCursor (s : Source κ) : Option (Source κ) :=
  match s.pass with
  | some picked =>
    some { s with
      cursor := through picked s.cursor
      pass := none
      covered := picked ++ s.covered }
  | none => none

def Source.step [DecidableEq κ] (s : Source κ) : SourceStep κ → Option (Source κ)
  | .reserve keys scanned micros => some (s.reserve keys scanned micros)
  | .land batch => s.land batch
  | .acknowledge batch => s.acknowledge batch
  | .abandon batch => some (s.abandon batch)
  | .restart => some s.restart
  | .pick batchRows => s.pick batchRows
  | .failPass => some { s with pass := none }
  | .setCursor => s.setCursor

/-- No acknowledged row that is still current is behind the cursor without
having been handed to a pass the cursor covered. -/
def Source.Complete (s : Source κ) : Prop :=
  ∀ r ∈ s.acknowledged, r ∈ s.rows → r.seq ≤ s.cursor → r ∈ s.covered

instance [DecidableEq κ] : DecidablePred (Source.Complete (κ := κ)) := fun s =>
  inferInstanceAs
    (Decidable (∀ r ∈ s.acknowledged, r ∈ s.rows → r.seq ≤ s.cursor → r ∈ s.covered))

/-- When a pass reads the table, no reserved number is below a visible one; and the counter is
seeded from a query that succeeds, by a clock past the epoch. -/
def Source.Unraced (s : Source κ) : SourceStep κ → Prop
  | .pick _ => ∀ batch ∈ s.reserved, ∀ r ∈ batch, ∀ v ∈ s.rows, v.seq < r.seq
  | .reserve _ scanned micros => s.counter.Scans → scanned = true ∧ 0 < nowMicros micros
  | _ => True

instance (s : Source κ) : DecidablePred s.Unraced := fun a =>
  match a with
  | .pick _ =>
    inferInstanceAs (Decidable (∀ batch ∈ s.reserved, ∀ r ∈ batch, ∀ v ∈ s.rows, v.seq < r.seq))
  | .reserve _ scanned micros =>
    inferInstanceAs (Decidable (s.counter.Scans → scanned = true ∧ 0 < nowMicros micros))
  | .land _ | .acknowledge _ | .abandon _ | .restart | .failPass | .setCursor =>
    instDecidableTrue

theorem foldl_upsert_sublist [DecidableEq κ] (batch rows : List (Row κ)) :
    (batch.foldl upsert rows).Sublist (rows ++ batch) := by
  induction batch generalizing rows with
  | nil => simp
  | cons r batch ih =>
    refine (ih (upsert rows r)).trans ?_
    have hs : (upsert rows r).Sublist (rows ++ [r]) :=
      List.Sublist.append_right List.filter_sublist _
    simpa using hs.append_right batch

theorem foldl_upsert_reaches [DecidableEq κ]
    (h : ∃ r ∈ rows, c ≤ r.seq) (hb : ∀ r ∈ batch, c < r.seq) :
    ∃ r ∈ batch.foldl upsert rows, c ≤ r.seq := by
  induction batch generalizing rows with
  | nil => exact h
  | cons r batch ih =>
    refine ih ⟨r,by simp [upsert],?_⟩ (fun q hq => hb q (List.mem_cons_of_mem _ hq))
    exact Nat.le_of_lt (hb r List.mem_cons_self)

def Source.floor (s : Source κ) : Nat := s.counter.floor s.numbers

/-- Nothing still to come can land at or below position `c`, and a scan would
still find a number that far. -/
structure Source.Behind (s : Source κ) (c : Nat) : Prop where
  reserved : ∀ r ∈ s.reserved.flatten, c < r.seq
  ahead : c < s.floor ∨ (c = 0 ∧ s.counter.Scans)
  anchored : c = 0 ∨ ∃ r ∈ s.rows, c ≤ r.seq

variable {s s' : Source κ}

theorem Source.Behind.congr (h : s.Behind c) (hc : s'.counter = s.counter)
    (hr : s'.rows = s.rows) (hv : s'.reserved = s.reserved) : s'.Behind c := by
  obtain ⟨hre,ha,han⟩ := h
  refine ⟨hv ▸ hre,?_,hr ▸ han⟩
  unfold Source.floor Source.numbers at *
  rwa [hc,hr]

structure Source.Tracked (s : Source κ) : Prop where
  bounded : s.counter.Bounded
  known : s.reserved.flatten ≠ [] → ∃ x, s.counter = { handed := none, seq := some x }
  inTable : ∀ n ∈ s.numbers, n < u64Max
  distinct : ((s.rows ++ s.reserved.flatten).map Row.seq).Nodup
  below : ∀ r ∈ s.rows ++ s.reserved.flatten, r.seq < s.floor
  cursor : s.Behind s.cursor
  seen : ∀ r ∈ s.rows, r.seq ≤ s.cursor → r ∈ s.covered
  pass : ∀ picked, s.pass = some picked → s.Behind (through picked s.cursor) ∧
    ∀ r ∈ s.rows, s.cursor < r.seq → r.seq ≤ through picked s.cursor → r ∈ picked

theorem Source.Tracked.start : (Source.empty (κ := κ)).Tracked where
  bounded := ⟨fun _ h => (by cases h),fun _ h => (by cases h)⟩
  known h := absurd rfl h
  inTable _ h := by cases h
  distinct := List.nodup_nil
  below _ h := by cases h
  cursor := ⟨fun _ h => (by cases h),.inr ⟨rfl,rfl,rfl⟩,.inl rfl⟩
  seen _ h := by cases h
  pass _ h := by cases h

def Source.take (s : Source κ) (next : Nat) (batches : List (List (Row κ))) : Source κ :=
  { s with counter := { handed := none, seq := some next }, reserved := batches ++ s.reserved }

theorem Source.take_floor (s : Source κ) (next : Nat) (batches : List (List (Row κ))) :
    (s.take next batches).floor = next := Counter.floor_of_known rfl rfl

theorem Source.Behind.take (h : s.Behind c)
    (hn : c < next) (hb : ∀ r ∈ batches.flatten, c < r.seq) :
    (s.take next batches).Behind c := by
  refine ⟨?_,.inl (by rwa [Source.take_floor]),h.anchored⟩
  intro r hr
  simp only [Source.take,List.flatten_append,List.mem_append] at hr
  rcases hr with hr | hr
  · exact hb r hr
  · exact h.reserved r hr

/-- Fresh numbers above the cursors keep every batch countable. -/
theorem Source.Tracked.take (h : s.Tracked)
    (hf : s.floor ≤ first) (hl : first ≤ next) (hm : next ≤ u64Max)
    (hab : ∀ c, s.Behind c → c < first) (hra : ∀ r ∈ batches.flatten, first ≤ r.seq ∧ r.seq < next)
    (hno : (batches.flatten.map Row.seq).Nodup) : (s.take next batches).Tracked := by
  have hbe : ∀ c, s.Behind c → (s.take next batches).Behind c := by
    intro c hc
    have hlt := hab c hc
    refine hc.take (by omega) (fun r hr => ?_)
    have := (hra r hr).1
    omega
  refine ⟨⟨fun _ hn => (by cases hn),fun n hn => (by cases hn; exact hm)⟩,
    fun _ => ⟨next,rfl⟩,h.inTable,?_,?_,hbe _ h.cursor,h.seen,
    fun picked hp => ⟨hbe _ (h.pass picked hp).1,(h.pass picked hp).2⟩⟩
  · have hpe : (s.rows ++ (batches ++ s.reserved).flatten).Perm
        (batches.flatten ++ (s.rows ++ s.reserved.flatten)) := by
      rw [List.flatten_append,← List.append_assoc,← List.append_assoc]
      exact List.perm_append_comm.append_right _
    refine (hpe.map Row.seq).nodup_iff.mpr ?_
    rw [List.map_append]
    refine List.nodup_append.mpr ⟨hno,h.distinct,?_⟩
    intro a ha b hb
    obtain ⟨r,hr,rfl⟩ := List.mem_map.mp ha
    obtain ⟨q,hq,rfl⟩ := List.mem_map.mp hb
    have := (hra r hr).1
    have := h.below q hq
    omega
  · intro r hr
    rw [Source.take_floor]
    simp only [Source.take,List.flatten_append,List.mem_append] at hr
    rcases hr with hr | hr | hr
    · have := h.below r (List.mem_append_left _ hr)
      omega
    · exact (hra r hr).2
    · have := h.below r (List.mem_append_right _ hr)
      omega

/-- A reservation is above every cursor. -/
theorem Source.Tracked.reserve (h : s.Tracked) (ho : s.Unraced (.reserve keys scanned micros)) :
    (s.reserve keys scanned micros).Tracked := by
  have hs : s.counter.Scans →
      (if scanned then scanOf s.numbers else Scan.failed) = scanOf s.numbers := by
    intro hc
    simp [(ho hc).1]
  obtain ⟨first,next,hr,hf,hl,hm,hd⟩ := Counter.reserveSeq_spec s.numbers
    keys.length h.bounded (nowMicros_le micros) hs
  have he : s.reserve keys scanned micros = s.take next (numberRows first keys).toList := by
    simp only [Source.reserve,Source.take,hr]
  rw [he]
  have ha : ∀ c, s.Behind c → c < first := by
    intro c hc
    rcases hc.ahead with hlt | ⟨rfl,hsca⟩
    · exact Nat.lt_of_lt_of_le hlt hf
    · have hn := hsca.now_le (if scanned then scanOf s.numbers else .failed)
        (nowMicros micros) keys.length
      rw [hr] at hn
      exact Nat.lt_of_lt_of_le (ho hsca).2 hn
  cases hb : numberRows first keys with
  | none => exact h.take hf hl hm ha (by simp) (by simp)
  | some batch =>
    obtain ⟨hnu,hnod⟩ := numberRows_seq hb
    refine h.take hf hl hm ha ?_ (by simpa using hnod)
    intro r hme
    rw [hd]
    exact arrivalNumbers_spec hnu _ (List.mem_map_of_mem (by simpa using hme))

theorem mem_flatten_of_erase [DecidableEq κ]
    {reserved : List (List (Row κ))} (h : r ∈ (reserved.erase batch).flatten) :
    r ∈ reserved.flatten := by
  obtain ⟨b,hb,hr⟩ := List.mem_flatten.mp h
  exact List.mem_flatten.mpr ⟨b,List.mem_of_mem_erase hb,hr⟩

theorem Source.mem_of_foldl_upsert [DecidableEq κ] (hm : batch ∈ s.reserved)
    (hr : r ∈ batch.foldl upsert s.rows) : r ∈ s.rows ∨ r ∈ s.reserved.flatten :=
  (List.mem_append.mp ((foldl_upsert_sublist batch s.rows).mem hr)).imp_right
    fun hr => List.mem_flatten.mpr ⟨batch,hm,hr⟩

theorem Source.Tracked.floor_foldl [DecidableEq κ] (h : s.Tracked) (hm : batch ∈ s.reserved) :
    s.counter.floor ((batch.foldl upsert s.rows).map Row.seq) = s.floor := by
  cases batch with
  | nil => rfl
  | cons r rest =>
    obtain ⟨x,hx⟩ := h.known
      (List.ne_nil_of_mem (List.mem_flatten.mpr ⟨_,hm,List.mem_cons_self (a := r)⟩))
    simp only [Source.floor,hx]
    rw [Counter.floor_of_known rfl rfl,Counter.floor_of_known rfl rfl]

theorem Source.Tracked.behind_land [DecidableEq κ] (h : s.Tracked) (hm : batch ∈ s.reserved)
    (hc : s.Behind c) : Source.Behind { s with
      rows := batch.foldl upsert s.rows
      reserved := s.reserved.erase batch
      landed := batch :: s.landed } c := by
  refine ⟨fun r hr => hc.reserved r (mem_flatten_of_erase hr),?_,?_⟩
  · exact hc.ahead.imp_left fun hl => Nat.lt_of_lt_of_eq hl (h.floor_foldl hm).symm
  · exact hc.anchored.imp_right fun hr => foldl_upsert_reaches hr
      fun r hr => hc.reserved r (List.mem_flatten.mpr ⟨batch,hm,hr⟩)

/-- A landed batch is one the counter gave out. -/
theorem Source.Tracked.land [DecidableEq κ]
    (h : s.Tracked) (hs : s.land batch = some s') : s'.Tracked := by
  unfold Source.land at hs
  split at hs
  · rename_i hm
    cases hs
    refine ⟨h.bounded,?_,?_,?_,?_,h.behind_land hm h.cursor,?_,?_⟩
    · intro hne
      obtain ⟨r,hr⟩ := List.exists_mem_of_ne_nil _ hne
      exact h.known (List.ne_nil_of_mem (mem_flatten_of_erase hr))
    · intro n hn
      obtain ⟨r,hr,rfl⟩ := List.mem_map.mp hn
      exact Nat.lt_of_lt_of_le (h.below r (List.mem_append.mpr (Source.mem_of_foldl_upsert hm hr)))
        (Counter.floor_le h.bounded)
    · have hpe : (s.rows ++ s.reserved.flatten).Perm
          ((s.rows ++ batch) ++ (s.reserved.erase batch).flatten) := by
        rw [List.append_assoc]
        exact ((List.perm_cons_erase hm).flatten).append_left _
      exact ((hpe.map Row.seq).nodup_iff.mp h.distinct).sublist
        (((foldl_upsert_sublist batch s.rows).append_right _).map Row.seq)
    · intro r hr
      change r.seq < s.counter.floor ((batch.foldl upsert s.rows).map Row.seq)
      rw [h.floor_foldl hm]
      apply h.below
      rcases List.mem_append.mp hr with hr | hr
      · exact List.mem_append.mpr (Source.mem_of_foldl_upsert hm hr)
      · exact List.mem_append_right _ (mem_flatten_of_erase hr)
    · intro r hr hle
      rcases Source.mem_of_foldl_upsert hm hr with hr | hr
      · exact h.seen r hr hle
      · exact absurd (h.cursor.reserved r hr) (Nat.not_lt.mpr hle)
    · intro picked hp
      obtain ⟨hb,hco⟩ := h.pass picked hp
      refine ⟨h.behind_land hm hb,fun r hr hl hle => ?_⟩
      rcases Source.mem_of_foldl_upsert hm hr with hr | hr
      · exact hco r hr hl hle
      · exact absurd (hb.reserved r hr) (Nat.not_lt.mpr hle)
  · cases hs

theorem Source.Tracked.abandon [DecidableEq κ] (h : s.Tracked)
    (batch : List (Row κ)) : (s.abandon batch).Tracked := by
  have hb : ∀ c, s.Behind c → (s.abandon batch).Behind c := fun c hc =>
    ⟨fun r hr => hc.reserved r (mem_flatten_of_erase hr),hc.ahead,hc.anchored⟩
  have hs : (s.reserved.erase batch).flatten.Sublist s.reserved.flatten :=
    List.erase_sublist.flatten
  refine ⟨h.bounded,?_,h.inTable,?_,?_,hb _ h.cursor,h.seen,
    fun picked hp => ⟨hb _ (h.pass picked hp).1,(h.pass picked hp).2⟩⟩
  · intro hn
    obtain ⟨r,hr⟩ := List.exists_mem_of_ne_nil _ hn
    exact h.known (List.ne_nil_of_mem (mem_flatten_of_erase hr))
  · exact h.distinct.sublist ((hs.append_left _).map Row.seq)
  · intro r hr
    rcases List.mem_append.mp hr with hr | hr
    · exact h.below r (List.mem_append_left _ hr)
    · exact h.below r (List.mem_append_right _ (mem_flatten_of_erase hr))

/-- A restart forgets the batches that had not landed. -/
theorem Source.Tracked.restart (h : s.Tracked) : s.restart.Tracked := by
  have hs : s.restart.counter.Scans := ⟨rfl,rfl⟩
  have hf : ∀ r ∈ s.rows, r.seq < s.restart.floor := by
    intro r hr
    unfold Source.floor
    rw [hs.floor_eq]
    exact lt_highestSeq_scanOf h.inTable (List.mem_map_of_mem hr)
  refine ⟨⟨fun _ hn => (by cases hn),fun _ hn => (by cases hn)⟩,fun hne => absurd rfl hne,
    h.inTable,?_,?_,⟨fun _ hr => (by cases hr),?_,h.cursor.anchored⟩,h.seen,
    fun _ hp => (by cases hp)⟩
  · have hsu : (s.rows ++ []).Sublist (s.rows ++ s.reserved.flatten) :=
      (List.nil_sublist _).append_left _
    exact h.distinct.sublist (hsu.map Row.seq)
  · intro r hr
    simp only [Source.restart,List.flatten_nil,List.append_nil] at hr
    exact hf r hr
  · rcases h.cursor.anchored with hz | ⟨r,hr,hl⟩
    · exact .inr ⟨hz,hs⟩
    · exact .inl (Nat.lt_of_le_of_lt hl (hf r hr))

theorem mem_fresh (h : r ∈ s.fresh batchRows) : r ∈ s.rows ∧ s.cursor < r.seq := by
  have hr := (List.perm_insertionSort Row.Earlier _).subset (List.mem_of_mem_take h)
  simpa using hr

theorem fresh_covers (hd : (s.rows.map Row.seq).Nodup)
    (hpi : p ∈ s.fresh batchRows) (hr : r ∈ s.rows) (hl : s.cursor < r.seq)
    (hle : r.seq ≤ p.seq) : r ∈ s.fresh batchRows := by
  have hp := hpi
  unfold Source.fresh at hp ⊢
  have hs := List.pairwise_insertionSort (Row.Earlier (κ := κ))
    (s.rows.filter fun q => s.cursor < q.seq)
  have hm : r ∈ (s.rows.filter fun q => s.cursor < q.seq).insertionSort Row.Earlier := by
    rw [(List.perm_insertionSort _ _).mem_iff]
    simp [hr,hl]
  rw [← List.take_append_drop batchRows (List.insertionSort _ _)] at hs hm
  rcases List.mem_append.mp hm with hm | hm
  · exact hm
  · have hg : p.seq ≤ r.seq := (List.pairwise_append.mp hs).2.2 p hp r hm
    have hpr : p ∈ s.rows := (mem_fresh hpi).1
    have he : p = r := List.inj_on_of_nodup_map hd hpr hr (by omega)
    exact he ▸ hp

theorem through_spec (hn : picked ≠ []) : ∃ p ∈ picked, through picked c = p.seq := by
  unfold through
  cases hm : (picked.map Row.seq).max? with
  | none =>
    rw [List.max?_eq_none_iff,List.map_eq_nil_iff] at hm
    exact absurd hm hn
  | some high =>
    obtain ⟨p,hp,rfl⟩ := List.mem_map.mp (List.max?_mem hm)
    exact ⟨p,hp,rfl⟩

/-- A picked batch leaves nothing below the new cursor behind. -/
theorem Source.Tracked.pick (h : s.Tracked) (ho : s.Unraced (.pick batchRows))
    (hs : s.pick batchRows = some s') : s'.Tracked := by
  unfold Source.pick at hs
  split at hs
  · cases hs
    split
    · exact h
    · rename_i hn
      refine ⟨h.bounded,h.known,h.inTable,h.distinct,h.below,h.cursor.congr rfl rfl rfl,
        h.seen,?_⟩
      intro picked hp
      cases hp
      obtain ⟨p,hp,ht⟩ := through_spec (c := s.cursor) hn
      obtain ⟨hpr,-⟩ := mem_fresh hp
      dsimp only
      rw [ht]
      have hd : (s.rows.map Row.seq).Nodup :=
        h.distinct.sublist ((List.sublist_append_left _ _).map Row.seq)
      refine ⟨⟨?_,.inl (h.below p (List.mem_append_left _ hpr)),.inr ⟨p,hpr,Nat.le_refl _⟩⟩,
        fun r hr hl hle => fresh_covers hd hp hr hl hle⟩
      intro r hr
      obtain ⟨batch,hb,hr⟩ := List.mem_flatten.mp hr
      exact ho batch hb r hr p hpr
  · cases hs

theorem Source.Tracked.setCursor (h : s.Tracked) (hs : s.setCursor = some s') : s'.Tracked := by
  unfold Source.setCursor at hs
  cases hp : s.pass with
  | none => simp [hp] at hs
  | some picked =>
    simp only [hp,Option.some.injEq] at hs
    subst hs
    obtain ⟨hb,hco⟩ := h.pass picked hp
    refine ⟨h.bounded,h.known,h.inTable,h.distinct,h.below,hb.congr rfl rfl rfl,?_,
      fun _ hn => (by cases hn)⟩
    intro r hr hl
    apply List.mem_append.mpr
    by_cases hc : r.seq ≤ s.cursor
    · exact .inr (h.seen r hr hc)
    · exact .inl (hco r hr (by omega) hl)

/-- Every step keeps the rows behind the cursor counted. -/
theorem Source.Tracked.step [DecidableEq κ] (h : s.Tracked)
    (ho : s.Unraced a) (hs : s.step a = some s') : s'.Tracked := by
  cases a with
  | reserve keys scanned micros =>
    cases hs
    exact h.reserve ho
  | land batch => exact h.land hs
  | acknowledge batch =>
    simp only [Source.step,Source.acknowledge] at hs
    split at hs
    · cases hs
      exact ⟨h.bounded,h.known,h.inTable,h.distinct,h.below,h.cursor.congr rfl rfl rfl,
        h.seen,fun picked hp => ⟨(h.pass picked hp).1.congr rfl rfl rfl,(h.pass picked hp).2⟩⟩
    · cases hs
  | abandon batch =>
    cases hs
    exact h.abandon batch
  | restart =>
    cases hs
    exact h.restart
  | pick batchRows => exact h.pick ho hs
  | failPass =>
    cases hs
    exact ⟨h.bounded,h.known,h.inTable,h.distinct,h.below,h.cursor.congr rfl rfl rfl,
      h.seen,fun _ hp => (by cases hp)⟩
  | setCursor => exact h.setCursor hs

end Walleye.Engine
