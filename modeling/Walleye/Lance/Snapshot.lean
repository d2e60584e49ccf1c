import Mathlib.Data.List.MinMax
import Mathlib.Data.List.Nodup
import Walleye.Base.Runs

namespace Walleye.Lance

open Walleye.Base

variable {κ : Type}

/-- One version of a row. Versions follow the order of the appends, so of two
rows with one key the later version is the newer. -/
structure Row (κ : Type) where
  key : κ
  version : Nat
  deriving DecidableEq, Repr

structure Generation (κ : Type) where
  generation : Nat
  rows : List (Row κ)
  deriving DecidableEq, Repr

/-- What `in_memory_memtable_refs` gives the first read, and what had been
acknowledged by then. -/
structure MemTables (κ : Type) where
  active : Generation κ
  frozen : List (Generation κ)
  acknowledged : List (Row κ)

structure Snapshot (κ : Type) where
  sources : List (Generation κ)
  acknowledged : List (Row κ)
  deriving DecidableEq, Repr

/-- One shard: its memtables, the SSTables of its manifest, the generations
whose flush committed, the capture under way and the snapshots taken. -/
structure Shard (κ : Type) where
  active : Generation κ
  frozen : List (Generation κ)
  sstables : List (Generation κ)
  flushed : List Nat
  acknowledged : List (Row κ)
  capture : Option (MemTables κ)
  snapshots : List (Snapshot κ)

inductive ShardStep (κ : Type) where
  | append (keys : List κ)
  | freeze
  | flush (memtable : Generation κ)
  | evict (generation : Nat)
  | compact (generations : List Nat)
  | readMemTables
  | readManifest
  deriving DecidableEq, Repr

def Shard.empty : Shard κ where
  active := { generation := 1, rows := [] }
  frozen := []
  sstables := []
  flushed := []
  acknowledged := []
  capture := none
  snapshots := []

def Shard.append (s : Shard κ) (keys : List κ) : Shard κ :=
  let rows := keys.zipIdx s.acknowledged.length |>.map fun pair =>
    { key := pair.1, version := pair.2 }
  { s with
    active := { s.active with rows := s.active.rows ++ rows }
    acknowledged := s.acknowledged ++ rows }

def Shard.freeze (s : Shard κ) : Shard κ :=
  { s with
    active := { generation := s.active.generation + 1, rows := [] }
    frozen := s.active :: s.frozen }

/-- A frozen memtable's flush commits: the manifest gains an SSTable of its
generation. -/
def Shard.flush [DecidableEq κ] (s : Shard κ) (m : Generation κ) : Option (Shard κ) :=
  if m ∈ s.frozen ∧ m.generation ∉ s.flushed then
    some { s with sstables := m :: s.sstables, flushed := m.generation :: s.flushed }
  else none

def Shard.evict (s : Shard κ) (generation : Nat) : Option (Shard κ) :=
  if generation ∈ s.flushed then
    some { s with frozen := s.frozen.filter fun m => m.generation ≠ generation }
  else none

def newestRows [DecidableEq κ] (rows : List (Row κ)) : List (Row κ) :=
  rows.filter fun r => rows.all fun q => q.key ≠ r.key || q.version ≤ r.version

def Shard.merged (s : Shard κ) (generations : List Nat) : List (Generation κ) :=
  s.sstables.filter fun t => t.generation ∈ generations

/-- The number the merged SSTable takes: the highest of those merged. -/
def topGeneration (merged : List (Generation κ)) : Nat :=
  (merged.map Generation.generation).max?.getD 0

/-- `compact`: one SSTable with the newest rows of the merged ones replaces them. -/
def Shard.compact [DecidableEq κ] (s : Shard κ) (generations : List Nat) : Option (Shard κ) :=
  let merged := s.merged generations
  if merged = [] then none
  else some { s with
    sstables :=
      { generation := topGeneration merged, rows := newestRows (merged.flatMap (·.rows)) } ::
        s.sstables.filter fun t => t.generation ∉ generations }

def Shard.readMemTables (s : Shard κ) : Option (Shard κ) :=
  if s.capture.isNone then
    some { s with
      capture := some {
        active := s.active
        frozen := s.frozen
        acknowledged := s.acknowledged } }
  else none

/-- `captured_in_memory || created_after_capture`: an SSTable of this generation
is left out of the snapshot. -/
def MemTables.Excludes (c : MemTables κ) (generation : Nat) : Prop :=
  (∃ m ∈ c.active :: c.frozen, m.generation = generation) ∨ c.active.generation ≤ generation

instance (c : MemTables κ) : DecidablePred c.Excludes := fun _ =>
  inferInstanceAs (Decidable (_ ∨ _))

/-- The second read: the manifest's SSTables join the captured memtables. -/
def Shard.readManifest (s : Shard κ) : Option (Shard κ) :=
  match s.capture with
  | some c =>
    some { s with
      capture := none
      snapshots := {
        sources := c.active :: c.frozen ++
          s.sstables.filter fun t => ¬ c.Excludes t.generation
        acknowledged := c.acknowledged } :: s.snapshots }
  | none => none

def Shard.step [DecidableEq κ] (s : Shard κ) : ShardStep κ → Option (Shard κ)
  | .append keys => some (s.append keys)
  | .freeze => some s.freeze
  | .flush m => s.flush m
  | .evict generation => s.evict generation
  | .compact generations => s.compact generations
  | .readMemTables => s.readMemTables
  | .readManifest => s.readManifest

def Covers (rows : List (Row κ)) (r : Row κ) : Prop :=
  ∃ q ∈ rows, q.key = r.key ∧ r.version ≤ q.version

instance [DecidableEq κ] (rows : List (Row κ)) : DecidablePred (Covers rows) := fun r =>
  inferInstanceAs (Decidable (∃ q ∈ rows, q.key = r.key ∧ r.version ≤ q.version))

structure Snapshot.Complete (v : Snapshot κ) : Prop where
  contains : ∀ r ∈ v.acknowledged, ∃ g ∈ v.sources, Covers g.rows r
  once : (v.sources.map Generation.generation).Nodup

/-- A compaction of several generations may not take the number of a memtable still in memory nor,
during a capture, one that it leaves out unless it leaves out all that is merged. -/
def Shard.Unshared (s : Shard κ) : ShardStep κ → Prop
  | .compact generations =>
    (∀ t ∈ s.merged generations, t.generation = topGeneration (s.merged generations)) ∨
      ((∀ m ∈ s.frozen, m.generation ≠ topGeneration (s.merged generations)) ∧
        ∀ c ∈ s.capture.toList, c.Excludes (topGeneration (s.merged generations)) →
          ∀ t ∈ s.merged generations, c.Excludes t.generation)
  | _ => True

instance (s : Shard κ) : DecidablePred s.Unshared := fun a =>
  match a with
  | .compact generations => inferInstanceAs (Decidable
    ((∀ t ∈ s.merged generations, t.generation = topGeneration (s.merged generations)) ∨
      ((∀ m ∈ s.frozen, m.generation ≠ topGeneration (s.merged generations)) ∧
        ∀ c ∈ s.capture.toList, c.Excludes (topGeneration (s.merged generations)) →
          ∀ t ∈ s.merged generations, c.Excludes t.generation)))
  | .append _ | .freeze | .flush _ | .evict _ | .readMemTables | .readManifest =>
    instDecidableTrue

theorem Covers.mono (hs : ∀ q ∈ rows, q ∈ rows') (h : Covers rows r) : Covers rows' r := by
  obtain ⟨q,hq,hk,hl⟩ := h
  exact ⟨q,hs q hq,hk,hl⟩

/-- The newest row of each key covers all rows. -/
theorem Covers.newestRows [DecidableEq κ] {rows : List (Row κ)} (h : Covers rows r) :
    Covers (newestRows rows) r := by
  obtain ⟨q,hq,hk,hl⟩ := h
  have hme : q.version ∈ (rows.filter fun p => p.key = r.key).map Row.version := by
    refine List.mem_map.mpr ⟨q,?_,rfl⟩
    simp [hq,hk]
  cases hm : ((rows.filter fun p => p.key = r.key).map Row.version).max? with
  | none =>
    rw [List.max?_eq_none_iff] at hm
    rw [hm] at hme
    cases hme
  | some high =>
    obtain ⟨hh,hma⟩ := List.max?_eq_some_iff.mp hm
    obtain ⟨p,hp,rfl⟩ := List.mem_map.mp hh
    obtain ⟨hp,hpk⟩ := List.mem_filter.mp hp
    have hpk : p.key = r.key := by simpa using hpk
    refine ⟨p,?_,hpk,Nat.le_trans hl (hma _ hme)⟩
    refine List.mem_filter.mpr ⟨hp,?_⟩
    rw [List.all_eq_true]
    intro z hz
    by_cases hzk : z.key = p.key
    · have := hma z.version (List.mem_map.mpr ⟨z,by simp [hz,hzk,hpk],rfl⟩)
      simp [this]
    · simp [hzk]

def Held (gs : List (Generation κ)) (r : Row κ) : Prop := ∃ g ∈ gs, Covers g.rows r

theorem topGeneration_mem (h : merged ≠ []) :
    ∃ t ∈ merged, t.generation = topGeneration merged := by
  unfold topGeneration
  cases hm : (merged.map Generation.generation).max? with
  | none =>
    rw [List.max?_eq_none_iff,List.map_eq_nil_iff] at hm
    exact absurd hm h
  | some high =>
    obtain ⟨t,ht,rfl⟩ := List.mem_map.mp (List.max?_mem hm)
    exact ⟨t,ht,rfl⟩

/-- What a capture under way can still count on: the rows it did not get from
memory are in SSTables it will not leave out. -/
structure MemTables.Sound (c : MemTables κ) (sstables : List (Generation κ)) : Prop where
  contains : ∀ r ∈ c.acknowledged, Held (c.active :: c.frozen) r ∨
    Held (sstables.filter fun t => ¬ c.Excludes t.generation) r
  once : ((c.active :: c.frozen).map Generation.generation).Nodup

/-- Generation numbers stay apart, every row is in memory or in an SSTable whose number no memtable
shares, and flushed rows are in their own SSTable or in one of the latter. -/
structure Shard.Kept (s : Shard κ) : Prop where
  newest : ∀ g ∈ s.frozen ++ s.sstables, g.generation < s.active.generation
  committed : ∀ n ∈ s.flushed, n < s.active.generation
  flushed : ∀ t ∈ s.sstables, t.generation ∈ s.flushed
  frozenOnce : (s.frozen.map Generation.generation).Nodup
  sstablesOnce : (s.sstables.map Generation.generation).Nodup
  held : ∀ r ∈ s.acknowledged, Held (s.active :: s.frozen) r ∨
    Held (s.sstables.filter fun t => t.generation ∉ s.frozen.map Generation.generation) r
  backed : ∀ m ∈ s.frozen, m.generation ∈ s.flushed → ∀ r ∈ m.rows,
    Held (s.sstables.filter fun t => t.generation = m.generation ∨
      t.generation ∉ s.frozen.map Generation.generation) r
  capture : ∀ c, s.capture = some c → c.Sound s.sstables
  snapshots : ∀ v ∈ s.snapshots, v.Complete

theorem Held.mono (hs : ∀ g ∈ gs, g ∈ gs') (h : Held gs r) : Held gs' r := by
  obtain ⟨g,hg,hc⟩ := h
  exact ⟨g,hs g hg,hc⟩

theorem Held.filter_mono {gs gs' : List (Generation κ)}
    (hs : ∀ g ∈ gs, g ∈ gs') (h : Held (gs.filter P) r) : Held (gs'.filter P) r := by
  refine h.mono fun g hg => ?_
  obtain ⟨hg,hp⟩ := List.mem_filter.mp hg
  exact List.mem_filter.mpr ⟨hs g hg,hp⟩

variable {s s' : Shard κ}

/-- A compaction keeps what it merges within a set of generation numbers, as
long as the set has the result's number whenever it has a merged one. -/
theorem Held.compact [DecidableEq κ] {P : Nat → Prop} [DecidablePred P]
    (hs : s.compact generations = some s')
    (hP : ∀ t ∈ s.merged generations, P t.generation → P (topGeneration (s.merged generations)))
    (h : Held (s.sstables.filter fun t => P t.generation) r) :
    Held (s'.sstables.filter fun t => P t.generation) r := by
  unfold Shard.compact at hs
  dsimp only at hs
  split at hs
  · cases hs
  · cases hs
    obtain ⟨t,ht,q,hq,hk,hl⟩ := h
    obtain ⟨hm,hp⟩ := List.mem_filter.mp ht
    have hp : P t.generation := by simpa using hp
    by_cases hi : t.generation ∈ generations
    · have hmer : t ∈ s.merged generations := List.mem_filter.mpr ⟨hm,by simpa using hi⟩
      have hc : Covers (newestRows ((s.merged generations).flatMap (·.rows))) r :=
        Covers.newestRows ⟨q,List.mem_flatMap.mpr ⟨t,hmer,hq⟩,hk,hl⟩
      refine ⟨_,List.mem_filter.mpr ⟨List.mem_cons_self,?_⟩,hc⟩
      simpa using hP t hmer hp
    · refine ⟨t,List.mem_filter.mpr ⟨List.mem_cons_of_mem _ ?_,by simpa using hp⟩,
        q,hq,hk,hl⟩
      exact List.mem_filter.mpr ⟨hm,by simpa using hi⟩

theorem Shard.Kept.start : (Shard.empty (κ := κ)).Kept where
  newest _ h := by cases h
  committed _ h := by cases h
  flushed _ h := by cases h
  frozenOnce := List.nodup_nil
  sstablesOnce := List.nodup_nil
  held _ h := by cases h
  backed _ h := by cases h
  capture _ h := by cases h
  snapshots _ h := by cases h

theorem Shard.Kept.append (h : s.Kept) (keys : List κ) : (s.append keys).Kept := by
  refine ⟨h.newest,h.committed,h.flushed,h.frozenOnce,h.sstablesOnce,?_,h.backed,h.capture,
    h.snapshots⟩
  intro r hr
  rcases List.mem_append.mp hr with hr | hr
  · rcases h.held r hr with ⟨g,hg,hc⟩ | hs
    · left
      rcases List.mem_cons.mp hg with rfl | hg
      · exact ⟨_,List.mem_cons_self,hc.mono (fun q hq => List.mem_append_left _ hq)⟩
      · exact ⟨g,List.mem_cons_of_mem _ hg,hc⟩
    · exact .inr hs
  · exact .inl ⟨_,List.mem_cons_self,r,List.mem_append_right _ hr,rfl,Nat.le_refl _⟩

/-- A freeze starts the next generation. -/
theorem Shard.Kept.freeze (h : s.Kept) : s.freeze.Kept := by
  have hfr : ∀ t ∈ s.sstables, t.generation ∉ s.frozen.map Generation.generation →
      t.generation ∉ s.freeze.frozen.map Generation.generation := by
    intro t ht hn
    have hl := h.newest t (List.mem_append_right _ ht)
    simp only [Shard.freeze,List.map_cons,List.mem_cons,not_or]
    exact ⟨by omega,hn⟩
  refine ⟨?_,?_,h.flushed,?_,h.sstablesOnce,?_,?_,h.capture,h.snapshots⟩
  · intro g hg
    change g.generation < s.active.generation + 1
    simp only [Shard.freeze,List.cons_append,List.mem_cons] at hg
    rcases hg with rfl | hg
    · exact Nat.lt_succ_self _
    · exact Nat.lt_succ_of_lt (h.newest g hg)
  · intro n hn
    exact Nat.lt_succ_of_lt (h.committed n hn)
  · simp only [Shard.freeze,List.map_cons,List.nodup_cons]
    refine ⟨?_,h.frozenOnce⟩
    intro hme
    obtain ⟨g,hg,he⟩ := List.mem_map.mp hme
    have := h.newest g (List.mem_append_left _ hg)
    omega
  · intro r hr
    rcases h.held r hr with hme | ⟨t,ht,hc⟩
    · exact .inl (hme.mono fun g hg => List.mem_cons_of_mem _ hg)
    · obtain ⟨ht,hn⟩ := List.mem_filter.mp ht
      refine .inr ⟨t,List.mem_filter.mpr ⟨ht,?_⟩,hc⟩
      simpa using hfr t ht (by simpa using hn)
  · intro m hm hf r hr
    rcases List.mem_cons.mp hm with rfl | hm
    · have := h.committed _ hf
      omega
    · obtain ⟨t,ht,hc⟩ := h.backed m hm hf r hr
      obtain ⟨ht,hn⟩ := List.mem_filter.mp ht
      refine ⟨t,List.mem_filter.mpr ⟨ht,?_⟩,hc⟩
      rw [decide_eq_true_eq] at hn ⊢
      exact hn.imp_right (hfr t ht)

/-- A flush gives the memtable's rows an SSTable of their generation. -/
theorem Shard.Kept.flush [DecidableEq κ] {m : Generation κ} (h : s.Kept)
    (hs : s.flush m = some s') : s'.Kept := by
  unfold Shard.flush at hs
  split at hs
  · rename_i hg
    cases hs
    obtain ⟨hm,hne⟩ := hg
    refine ⟨?_,?_,?_,h.frozenOnce,?_,?_,?_,?_,h.snapshots⟩
    · intro g hg
      rcases List.mem_append.mp hg with hg | hg
      · exact h.newest g (List.mem_append_left _ hg)
      · rcases List.mem_cons.mp hg with rfl | hg
        · exact h.newest _ (List.mem_append_left _ hm)
        · exact h.newest g (List.mem_append_right _ hg)
    · intro n hn
      rcases List.mem_cons.mp hn with rfl | hn
      · exact h.newest m (List.mem_append_left _ hm)
      · exact h.committed n hn
    · intro t ht
      rcases List.mem_cons.mp ht with rfl | ht
      · exact List.mem_cons_self
      · exact List.mem_cons_of_mem _ (h.flushed t ht)
    · rw [List.map_cons,List.nodup_cons]
      refine ⟨?_,h.sstablesOnce⟩
      intro hme
      obtain ⟨t,ht,he⟩ := List.mem_map.mp hme
      exact hne (he ▸ h.flushed t ht)
    · intro r hr
      exact (h.held r hr).imp_right (Held.filter_mono fun t ht => List.mem_cons_of_mem _ ht)
    · intro m' hm' hf r hr
      by_cases hsa : m'.generation = m.generation
      · have he : m' = m := List.inj_on_of_nodup_map h.frozenOnce hm' hm hsa
        subst he
        refine ⟨m',List.mem_filter.mpr ⟨List.mem_cons_self,by simp⟩,r,hr,rfl,Nat.le_refl _⟩
      · have hf : m'.generation ∈ s.flushed := (List.mem_cons.mp hf).resolve_left hsa
        exact (h.backed m' hm' hf r hr).filter_mono fun t ht => List.mem_cons_of_mem _ ht
    · intro c hc
      have ho := h.capture c hc
      exact ⟨fun r hr => (ho.contains r hr).imp_right
        (Held.filter_mono fun t ht => List.mem_cons_of_mem _ ht),ho.once⟩
  · cases hs

/-- What is evicted is backed by an SSTable. -/
theorem Shard.Kept.evict (h : s.Kept) (hs : s.evict generation = some s') : s'.Kept := by
  unfold Shard.evict at hs
  split at hs
  · rename_i hg
    cases hs
    have hsu : ∀ m ∈ s.frozen.filter (fun m => m.generation ≠ generation), m ∈ s.frozen :=
      fun m hm => List.mem_of_mem_filter hm
    have hu : ∀ n, n = generation ∨ n ∉ s.frozen.map Generation.generation →
        n ∉ (s.frozen.filter fun m => m.generation ≠ generation).map Generation.generation := by
      intro n hn hme
      obtain ⟨m,hm,rfl⟩ := List.mem_map.mp hme
      obtain ⟨hm,hne⟩ := List.mem_filter.mp hm
      rcases hn with rfl | hn
      · simp at hne
      · exact hn (List.mem_map_of_mem hm)
    have hfr : ∀ t ∈ s.sstables.filter (fun t => t.generation = generation ∨
        t.generation ∉ s.frozen.map Generation.generation), t ∈ s.sstables.filter fun t =>
          t.generation ∉
            (s.frozen.filter fun m => m.generation ≠ generation).map Generation.generation := by
      intro t ht
      obtain ⟨ht,hn⟩ := List.mem_filter.mp ht
      rw [decide_eq_true_eq] at hn
      refine List.mem_filter.mpr ⟨ht,?_⟩
      rw [decide_eq_true_eq]
      exact hu _ hn
    refine ⟨?_,h.committed,h.flushed,?_,h.sstablesOnce,?_,?_,h.capture,h.snapshots⟩
    · intro g hg
      rcases List.mem_append.mp hg with hg | hg
      · exact h.newest g (List.mem_append_left _ (hsu g hg))
      · exact h.newest g (List.mem_append_right _ hg)
    · exact h.frozenOnce.sublist (List.filter_sublist.map _)
    · intro r hr
      rcases h.held r hr with ⟨g,hme,q,hq,hk,hl⟩ | ⟨t,ht,hc⟩
      · rcases List.mem_cons.mp hme with rfl | hme
        · exact .inl ⟨_,List.mem_cons_self,q,hq,hk,hl⟩
        · by_cases hge : g.generation = generation
          · obtain ⟨t,ht,p,hp,hpk,hpl⟩ := h.backed g hme (hge ▸ hg) q hq
            rw [hge] at ht
            exact .inr ⟨t,hfr t ht,p,hp,hpk.trans hk,Nat.le_trans hl hpl⟩
          · refine .inl ⟨g,List.mem_cons_of_mem _ ?_,q,hq,hk,hl⟩
            exact List.mem_filter.mpr ⟨hme,by simpa using hge⟩
      · obtain ⟨ht,hn⟩ := List.mem_filter.mp ht
        refine .inr ⟨t,hfr t (List.mem_filter.mpr ⟨ht,?_⟩),hc⟩
        rw [decide_eq_true_eq] at hn ⊢
        exact .inr hn
    · intro m hm hf r hr
      refine (h.backed m (hsu m hm) hf r hr).mono fun t ht => ?_
      obtain ⟨ht,hn⟩ := List.mem_filter.mp ht
      refine List.mem_filter.mpr ⟨ht,?_⟩
      rw [decide_eq_true_eq] at hn ⊢
      exact hn.imp_right fun hn => hu _ (.inr hn)
  · cases hs

theorem Shard.compact_cases [DecidableEq κ]
    (hs : s.compact generations = some s') :
    s' = { s with sstables := s'.sstables } ∧
      (∀ t ∈ s'.sstables, t.generation = topGeneration (s.merged generations) ∨ t ∈ s.sstables) ∧
      (∃ t ∈ s.sstables, t.generation = topGeneration (s.merged generations)) ∧
      ((s.sstables.map Generation.generation).Nodup →
        (s'.sstables.map Generation.generation).Nodup) := by
  unfold Shard.compact at hs
  dsimp only at hs
  split at hs
  · cases hs
  · rename_i hn
    cases hs
    obtain ⟨top,hto,hg⟩ := topGeneration_mem hn
    obtain ⟨hto,hi⟩ := List.mem_filter.mp hto
    have hi : top.generation ∈ generations := by simpa using hi
    refine ⟨rfl,?_,⟨top,hto,hg⟩,?_⟩
    · intro t ht
      rcases List.mem_cons.mp ht with rfl | ht
      · exact .inl rfl
      · exact .inr (List.mem_of_mem_filter ht)
    · intro hd
      rw [List.map_cons,List.nodup_cons]
      refine ⟨?_,hd.sublist (List.filter_sublist.map _)⟩
      intro hm
      obtain ⟨t,ht,he⟩ := List.mem_map.mp hm
      obtain ⟨-,hno⟩ := List.mem_filter.mp ht
      rw [← hg] at he
      simp [he,hi] at hno

/-- A compaction keeps the newest row of each key. -/
theorem Shard.Kept.compact [DecidableEq κ] (h : s.Kept)
    (ho : s.Unshared (.compact generations)) (hs : s.compact generations = some s') :
    s'.Kept := by
  obtain ⟨hsa,hgen,⟨top,hto,hge⟩,hon⟩ := Shard.compact_cases hs
  have hk : ∀ {P : Nat → Prop} [DecidablePred P] {r : Row κ},
      ((∀ m ∈ s.frozen, m.generation ≠ topGeneration (s.merged generations)) →
        ∀ t ∈ s.merged generations, P t.generation → P (topGeneration (s.merged generations))) →
      Held (s.sstables.filter fun t => P t.generation) r →
      Held (s'.sstables.filter fun t => P t.generation) r := by
    intro P _ r hP
    refine Held.compact hs ?_
    intro t ht hp
    rcases ho with ha | ⟨hfr,-⟩
    · rw [← ha t ht]
      exact hp
    · exact hP hfr t ht hp
  have hu : (∀ m ∈ s.frozen, m.generation ≠ topGeneration (s.merged generations)) →
      topGeneration (s.merged generations) ∉ s.frozen.map Generation.generation := by
    intro hfr hme
    obtain ⟨m,hm,he⟩ := List.mem_map.mp hme
    exact hfr m hm he
  rw [hsa]
  refine ⟨?_,h.committed,?_,h.frozenOnce,hon h.sstablesOnce,?_,?_,?_,h.snapshots⟩
  · intro g hg
    rcases List.mem_append.mp hg with hg | hg
    · exact h.newest g (List.mem_append_left _ hg)
    · rcases hgen g hg with he | hg
      · rw [he,← hge]
        exact h.newest top (List.mem_append_right _ hto)
      · exact h.newest g (List.mem_append_right _ hg)
  · intro t ht
    rcases hgen t ht with he | ht
    · rw [he,← hge]
      exact h.flushed top hto
    · exact h.flushed t ht
  · intro r hr
    exact (h.held r hr).imp_right
      (hk (P := fun n => n ∉ s.frozen.map Generation.generation)
        fun hfr _ _ _ => hu hfr)
  · intro m hm hf r hr
    exact hk (P := fun n => n = m.generation ∨ n ∉ s.frozen.map Generation.generation)
      (fun hfr _ _ _ => .inr (hu hfr)) (h.backed m hm hf r hr)
  · intro c hc
    have hol := h.capture c hc
    refine ⟨fun r hr => (hol.contains r hr).imp_right ?_,hol.once⟩
    have hkee := fun r => Held.compact (r := r) (P := fun n => ¬ c.Excludes n) hs
    refine hkee r ?_
    intro t ht hn hto
    rcases ho with ha | ⟨-,hca⟩
    · rw [← ha t ht] at hto
      exact hn hto
    · exact hn (hca c (by simpa using hc) hto t ht)

/-- A capture takes the memtables first. -/
theorem Shard.Kept.readMemTables (h : s.Kept) (hs : s.readMemTables = some s') : s'.Kept := by
  unfold Shard.readMemTables at hs
  split at hs
  · cases hs
    refine ⟨h.newest,h.committed,h.flushed,h.frozenOnce,h.sstablesOnce,h.held,h.backed,?_,
      h.snapshots⟩
    intro c hc
    cases hc
    refine ⟨?_,?_⟩
    · intro r hr
      refine (h.held r hr).imp_right fun hss => hss.mono fun t ht => ?_
      obtain ⟨ht,hn⟩ := List.mem_filter.mp ht
      refine List.mem_filter.mpr ⟨ht,?_⟩
      rw [decide_eq_true_eq] at hn ⊢
      have hl := h.newest t (List.mem_append_right _ ht)
      rintro (⟨m,hm,he⟩ | hle)
      · rcases List.mem_cons.mp hm with rfl | hm
        · dsimp only at he
          omega
        · exact hn (List.mem_map.mpr ⟨m,hm,he⟩)
      · dsimp only at hle
        omega
    · rw [List.map_cons,List.nodup_cons]
      refine ⟨?_,h.frozenOnce⟩
      intro hme
      obtain ⟨m,hm,he⟩ := List.mem_map.mp hme
      have := h.newest m (List.mem_append_left _ hm)
      dsimp only at he
      omega
  · cases hs

/-- What the captured memtables miss is in the manifest. -/
theorem Shard.Kept.readManifest (h : s.Kept) (hs : s.readManifest = some s') : s'.Kept := by
  unfold Shard.readManifest at hs
  cases hc : s.capture with
  | none => simp [hc] at hs
  | some c =>
    simp only [hc,Option.some.injEq] at hs
    subst hs
    have hso := h.capture c hc
    refine ⟨h.newest,h.committed,h.flushed,h.frozenOnce,h.sstablesOnce,h.held,h.backed,
      fun _ hn => (by cases hn),?_⟩
    intro v hv
    rcases List.mem_cons.mp hv with rfl | hv
    · refine ⟨?_,?_⟩
      · intro r hr
        rcases hso.contains r hr with hme | hss
        · exact hme.mono fun g hg => List.mem_append_left _ hg
        · exact hss.mono fun g hg => List.mem_append_right _ hg
      · rw [List.map_append,List.nodup_append]
        refine ⟨hso.once,h.sstablesOnce.sublist (List.filter_sublist.map _),?_⟩
        rintro a ha b hb rfl
        obtain ⟨m,hm,rfl⟩ := List.mem_map.mp ha
        obtain ⟨t,ht,he⟩ := List.mem_map.mp hb
        obtain ⟨-,hn⟩ := List.mem_filter.mp ht
        rw [decide_eq_true_eq] at hn
        exact hn (.inl ⟨m,hm,he.symm⟩)
    · exact h.snapshots v hv

theorem Shard.Kept.step [DecidableEq κ] (h : s.Kept)
    (ho : s.Unshared a) (hs : s.step a = some s') : s'.Kept := by
  cases a with
  | append keys =>
    cases hs
    exact h.append keys
  | freeze =>
    cases hs
    exact h.freeze
  | flush m => exact h.flush hs
  | evict generation => exact h.evict hs
  | compact generations => exact h.compact ho hs
  | readMemTables => exact h.readMemTables hs
  | readManifest => exact h.readManifest hs

theorem reachable_kept [DecidableEq κ]
    (h : Reachable (· = Shard.empty) Shard.step Shard.Unshared s) : s.Kept := by
  refine h.invariant ?_ (fun _ _ _ hk ho hs => hk.step ho hs)
  rintro s rfl
  exact Shard.Kept.start

/-- Along every schedule whose compactions never reuse the number of a
generation in memory, every snapshot taken is complete. -/
theorem snapshots_are_complete [DecidableEq κ] {s : Shard κ}
    (h : Reachable (· = Shard.empty) Shard.step Shard.Unshared s) :
    ∀ v ∈ s.snapshots, v.Complete :=
  (reachable_kept h).snapshots

/-- A flush, an eviction and a merge of older generations between the two reads. -/
theorem snapshot_is_complete_over_a_flush :
    ∃ s : Shard Nat, Reachable (· = Shard.empty) Shard.step Shard.Unshared s ∧
      s.snapshots = [⟨[⟨4, []⟩, ⟨3, [⟨7, 2⟩]⟩, ⟨2, [⟨6, 1⟩, ⟨5, 0⟩]⟩],
        [⟨5, 0⟩, ⟨6, 1⟩, ⟨7, 2⟩]⟩] ∧ ∀ v ∈ s.snapshots, v.Complete := by
  exact Reachable.exists_of_runs rfl
    [.append [5],.freeze,.flush ⟨1,[⟨5,0⟩]⟩,.evict 1,.append [6],
    .freeze,.flush ⟨2,[⟨6,1⟩]⟩,.evict 2,.append [7],.freeze,.readMemTables,
    .flush ⟨3,[⟨7,2⟩]⟩,.evict 3,.compact [1,2],.readManifest] rfl
    fun hr => ⟨by decide,snapshots_are_complete hr⟩

/-- The first read sees generation 2 frozen. Before the second, its flush commits and a compaction
merges it with generation 1 under number 2; the snapshot leaves the result out. -/
theorem snapshot_misses_a_row :
    ¬ ∀ s : Shard Nat, Reachable (· = Shard.empty) Shard.step anyStep s →
      ∀ v ∈ s.snapshots, v.Complete := by
  intro ha
  have hr := ha _ (.of_start rfl
    [.append [5],.freeze,.flush ⟨1,[⟨5,0⟩]⟩,.evict 1,.append [6],
    .freeze,.readMemTables,.flush ⟨2,[⟨6,1⟩]⟩,.compact [1,2],.readManifest] rfl)
  have hc := hr ⟨[⟨3,[]⟩,⟨2,[⟨6,1⟩]⟩],[⟨5,0⟩,⟨6,1⟩]⟩ (by decide)
  exact absurd (hc.contains ⟨5,0⟩ (by decide)) (by decide)

end Walleye.Lance
