import Walleye.Cache.Resources

namespace Walleye.Cache

open Walleye.Base

section Pool

variable {p p' : FairSpillPool} {canSpill : Bool} {size n : Nat}

theorem FairSpillPool.register_frame : (p.register canSpill).reserved = p.reserved ∧
    (p.register canSpill).poolSize = p.poolSize := by
  cases canSpill <;> exact ⟨rfl,rfl⟩

theorem FairSpillPool.unregister_frame : (p.unregister canSpill).reserved = p.reserved ∧
    (p.unregister canSpill).poolSize = p.poolSize := by
  cases canSpill <;> exact ⟨rfl,rfl⟩

theorem FairSpillPool.shrink_poolSize : (p.shrink canSpill n).poolSize = p.poolSize := by
  cases canSpill <;> rfl

theorem FairSpillPool.shrink_reserved_le : (p.shrink canSpill n).reserved ≤ p.reserved := by
  cases canSpill <;> simp [FairSpillPool.shrink,FairSpillPool.reserved]

/-- What the pool grants is added to the reservations, and taking it back undoes that. An
unspillable reservation is granted within the pool. -/
theorem FairSpillPool.tryGrow_eq_some (h : p.tryGrow canSpill size n = some p') :
    p'.reserved = p.reserved + n ∧ p'.poolSize = p.poolSize ∧
      (p'.shrink canSpill n).reserved = p.reserved ∧
      (canSpill = false → p.reserved ≤ p.poolSize → p'.reserved ≤ p.poolSize) := by
  unfold FairSpillPool.tryGrow at h
  cases canSpill with
  | true =>
    simp only [if_true,Option.ite_none_left_eq_some,Option.some.injEq] at h
    obtain ⟨-,rfl⟩ := h
    refine ⟨by simp only [reserved]; omega,rfl,?_,by simp⟩
    simp [FairSpillPool.shrink,FairSpillPool.reserved]
  | false =>
    simp only [Bool.false_eq_true,if_false,Option.ite_none_left_eq_some,
      Option.some.injEq] at h
    obtain ⟨hl,rfl⟩ := h
    refine ⟨by simp only [reserved]; omega,rfl,?_,fun _ hi => ?_⟩
    · simp [FairSpillPool.shrink,FairSpillPool.reserved]
    · simp only [reserved] at hi ⊢
      omega

end Pool

section Cache

variable {a : Allocation} {found : Found} {resizes : Bool}
  {capacity capacity' bytes available leased : Nat}

theorem resizeMemory_eq_some (h : resizeMemory a resizes capacity bytes = some capacity') :
    capacity' = min bytes a.cacheMemoryCeiling := by
  unfold resizeMemory at h
  dsimp only at h
  split at h
  · rename_i he
    cases h
    exact he
  · simpa [eq_comm] using (Option.ite_none_right_eq_some.mp h).2

theorem resizeMemory_isSome (bytes capacity : Nat) :
    (resizeMemory a true capacity bytes).isSome := by
  unfold resizeMemory
  dsimp only
  split <;> rfl

theorem evict_le : (evict a available found capacity).2 ≤ capacity := by
  unfold evict
  split
  · split
    · rename_i he
      simp [resizeMemory_eq_some he]
    · exact Nat.le_refl _
  · exact Nat.le_refl _

theorem evict_of_fits (h : found.estimate ≤ available ∨ found.retained ≤ available) :
    evict a available found capacity = (true,capacity) := by
  unfold evict
  rw [if_neg (by omega)]

theorem makeMemoryAvailable_spec (hp : pool.reserved ≤ a.memoryBytes) {ok : Bool}
    (h : makeMemoryAvailable a pool found capacity = (ok,capacity')) :
    capacity' ≤ capacity ∧ (ok = true → capacity' + pool.reserved ≤ a.memoryBytes) := by
  have hd := Nat.div_mul_le_self (min (a.memoryBytes - pool.reserved) a.cacheMemoryCeiling)
    a.quantum
  have he : ∀ c, (evict a (a.memoryBytes - pool.reserved) found c).2 ≤ c := fun _ => evict_le
  unfold makeMemoryAvailable at h
  dsimp only at h
  split at h
  · split at h
    · rename_i c heq
      have hc := he c
      rw [h,resizeMemory_eq_some heq] at hc
      dsimp only at hc
      omega
    · cases h
      simp
  · have hc := he capacity
    rw [h] at hc
    dsimp only at hc
    omega

theorem makeMemoryAvailable_ok (capacity : Nat) (hr : found.resizes = true)
    (hf : found.estimate ≤ a.memoryBytes - pool.reserved ∨
      found.retained ≤ a.memoryBytes - pool.reserved) :
    (makeMemoryAvailable a pool found capacity).1 = true := by
  unfold makeMemoryAvailable
  dsimp only
  split
  · split
    · rw [evict_of_fits hf]
    · rename_i he
      rw [hr] at he
      have hs := resizeMemory_isSome (a := a)
        (min (a.memoryBytes - pool.reserved) a.cacheMemoryCeiling / a.quantum * a.quantum) capacity
      simp [he] at hs
  · rw [evict_of_fits hf]

/-- The cache keeps its capacity, or grows to what the leases leave. -/
theorem returnMemory_cases (pool : FairSpillPool) (resizes : Bool) (capacity : Nat)
    (hl : leased ≤ a.leasable) :
    returnMemory a pool leased resizes capacity = capacity ∧
        (leased < pool.reserved ∨ resizes = false) ∨
      pool.reserved ≤ leased ∧
        returnMemory a pool leased resizes capacity ≤ a.cacheMemoryCeiling ∧
        returnMemory a pool leased resizes capacity + leased ≤ a.memoryBytes ∧
        min (a.memoryBytes - leased) a.cacheMemoryCeiling <
          returnMemory a pool leased resizes capacity + a.quantum := by
  have hq := a.quantum_pos
  have hf := a.cacheMemoryFloor_le
  unfold Allocation.leasable at hl
  have hd := Nat.div_mul_le_self (min (a.memoryBytes - leased) a.cacheMemoryCeiling) a.quantum
  have hlt := Nat.lt_div_mul_add (a := min (a.memoryBytes - leased) a.cacheMemoryCeiling) hq
  unfold returnMemory
  dsimp only
  generalize min (a.memoryBytes - leased) a.cacheMemoryCeiling / a.quantum * a.quantum = x at *
  split
  · exact .inl ⟨rfl,.inl (by omega)⟩
  · split
    · rename_i he
      right
      rw [he]
      omega
    · rename_i hn
      cases hr : resizeMemory a resizes capacity
          (max x (min a.cacheMemoryFloor a.cacheMemoryCeiling)) with
      | some c =>
        right
        rw [Option.getD_some,resizeMemory_eq_some hr]
        omega
      | none =>
        left
        refine ⟨rfl,.inr ?_⟩
        cases resizes with
        | false => rfl
        | true =>
          have hs := resizeMemory_isSome (a := a)
            (max x (min a.cacheMemoryFloor a.cacheMemoryCeiling)) capacity
          simp [hr] at hs

end Cache

section Steps

variable (a : Allocation)

structure Memory.Within (m : Memory) : Prop where
  leases : total Lease.held m.leases ≤ a.leasable
  budget : m.capacity + m.pool.reserved ≤ a.memoryBytes
  returned : m.pool.reserved = 0 → a.cacheMemoryCeiling ≤ m.capacity + a.quantum

/-- A grow that the pool grants while nothing is reserved finds a cache that can be resized and
whose live values fit in what is left. -/
def Memory.Reclaims (m : Memory) (additional : Nat) (found : Found) : Prop :=
  m.pool.reserved = 0 → found.resizes = true ∧
    (found.estimate ≤ a.memoryBytes - (m.pool.reserved + additional) ∨
      found.retained ≤ a.memoryBytes - (m.pool.reserved + additional))

/-- The last reservation is given back while no lease is in the counter, to a cache that can be
resized. -/
def Memory.Returns (m : Memory) (canSpill : Bool) (n : Nat) (resizes : Bool) : Prop :=
  (m.pool.shrink canSpill n).reserved = 0 → m.leased = 0 ∧ resizes = true

/-- A lease is counted while its admission still holds, and a spillable reservation is granted only
what the budget has left. -/
def Memory.Careful (m : Memory) : MemoryStep → Prop
  | .count i => ∀ l ∈ m.leases[i]?, m.leased + l.bytes ≤ a.leasable
  | .growLease i found => ∀ l ∈ m.leases[i]?,
    (m.pool.tryGrow false 0 l.bytes).isSome → m.Reclaims a l.bytes found
  | .freeLease i resizes => ∀ l ∈ m.leases[i]?, m.Returns false l.bytes resizes
  | .tryGrow q additional found => ∀ r ∈ m.queries q,
    (m.pool.tryGrow r.canSpill r.size additional).isSome →
      m.pool.reserved + additional ≤ a.memoryBytes ∧ m.Reclaims a additional found
  | .shrink q n resizes => ∀ r ∈ m.queries q, m.Returns r.canSpill n resizes
  | _ => True

structure Memory.Kept (m : Memory) : Prop where
  counted : m.leased = total Lease.counted m.leases
  leasable : m.leased ≤ a.leasable
  ceiling : m.capacity ≤ a.cacheMemoryCeiling
  poolSize : m.pool.poolSize = a.memoryBytes
  budget : m.capacity + m.pool.reserved ≤ a.memoryBytes
  returned : m.pool.reserved = 0 → a.cacheMemoryCeiling ≤ m.capacity + a.quantum

variable {a} {m m' : Memory} {canSpill resizes : Bool} {size n : Nat} {found : Found}

theorem Memory.Kept.start : (Memory.new a).Kept a where
  counted := rfl
  leasable := Nat.zero_le _
  ceiling := Nat.le_refl _
  poolSize := rfl
  budget := a.memory_contains
  returned _ := Nat.le_add_right _ _

theorem Lease.held_le_counted (l : Lease) : l.held ≤ l.counted := by
  unfold Lease.held Lease.counted
  split
  · rename_i h
    rw [h]
  · exact Nat.zero_le _

theorem Memory.Kept.within (h : m.Kept a) : m.Within a where
  leases := by
    have hl : total Lease.held m.leases ≤ total Lease.counted m.leases :=
      total_le _ _ Lease.held_le_counted
    exact Nat.le_trans hl (h.counted ▸ h.leasable)
  budget := h.budget
  returned := h.returned

theorem Memory.Kept.frame (h : m.Kept a) (hc : m'.leased = total Lease.counted m'.leases)
    (hl : m'.leased ≤ m.leased) (hca : m'.capacity = m.capacity)
    (hr : m'.pool.reserved = m.pool.reserved)
    (hs : m'.pool.poolSize = m.pool.poolSize) : m'.Kept a where
  counted := hc
  leasable := Nat.le_trans hl h.leasable
  ceiling := hca ▸ h.ceiling
  poolSize := hs.trans h.poolSize
  budget := by
    rw [hca,hr]
    exact h.budget
  returned := by
    rw [hca,hr]
    exact h.returned

theorem Memory.Kept.setPhase (h : m.Kept a) (hl : m.leases[i]? = some l) {phase : LeasePhase}
    (hs : ({ l with phase } : Lease).counted = l.counted) : (m.setPhase i l phase).Kept a := by
  have hse := total_set Lease.counted hl { l with phase }
  have hc := h.counted
  refine h.frame ?_ (Nat.le_refl _) rfl rfl rfl
  show m.leased = total Lease.counted (m.leases.set i { l with phase })
  omega

theorem Memory.Kept.discount (h : m.Kept a) (hl : m.leases[i]? = some l) {phase : LeasePhase}
    (hw : l.counted = l.bytes) (hn : ({ l with phase } : Lease).counted = 0) :
    ({ m.setPhase i l phase with leased := m.leased - l.bytes } : Memory).Kept a := by
  have hs := total_set Lease.counted hl { l with phase }
  have hc := h.counted
  refine h.frame ?_ (Nat.sub_le _ _) rfl rfl rfl
  show m.leased - l.bytes = total Lease.counted (m.leases.set i { l with phase })
  omega

/-- A granted reservation stays within the budget. -/
theorem Memory.Kept.tryGrow (h : m.Kept a)
    (hf : (m.pool.tryGrow canSpill size n).isSome → m.pool.reserved + n ≤ a.memoryBytes)
    (hrec : (m.pool.tryGrow canSpill size n).isSome → m.Reclaims a n found) :
    (m.tryGrow a canSpill size n found).2.Kept a ∧
      (m.tryGrow a canSpill size n found).2.leases = m.leases := by
  unfold Memory.tryGrow
  cases hp : m.pool.tryGrow canSpill size n with
  | none => exact ⟨h,rfl⟩
  | some pool =>
    rw [hp] at hf hrec
    have hf := hf rfl
    obtain ⟨hres,hs,hb,-⟩ := FairSpillPool.tryGrow_eq_some hp
    have hl : m.pool.reserved = 0 → found.resizes = true ∧
        (found.estimate ≤ a.memoryBytes - pool.reserved ∨
          found.retained ≤ a.memoryBytes - pool.reserved) := hres ▸ hrec rfl
    have hc := h.ceiling
    have hbu := h.budget
    dsimp only
    cases hm : makeMemoryAvailable a pool found m.capacity with
    | mk ok capacity =>
      obtain ⟨hle,hi⟩ := makeMemoryAvailable_spec (by omega) hm
      cases ok with
      | true =>
        refine ⟨⟨h.counted,h.leasable,hle.trans hc,hs.trans h.poolSize,hi rfl,?_⟩,
          rfl⟩
        intro (hz : pool.reserved = 0)
        have hret := h.returned (by omega)
        have hco := a.memory_contains
        rw [makeMemoryAvailable,if_neg (by omega),evict_of_fits (hl (by omega)).2] at hm
        cases hm
        exact hret
      | false =>
        have hb' : capacity + (pool.shrink canSpill n).reserved ≤ a.memoryBytes := by omega
        refine ⟨⟨h.counted,h.leasable,hle.trans hc,
          (FairSpillPool.shrink_poolSize.trans hs).trans h.poolSize,hb',?_⟩,rfl⟩
        intro (hz : (pool.shrink canSpill n).reserved = 0)
        obtain ⟨hr,hl⟩ := hl (by omega)
        have ho := makeMemoryAvailable_ok m.capacity hr hl
        rw [hm] at ho
        cases ho

/-- Returned memory stays within the budget. -/
theorem Memory.Kept.shrink (h : m.Kept a) (hr : m.Returns canSpill n resizes) :
    (m.shrink a canSpill n resizes).Kept a := by
  have hl : (m.pool.shrink canSpill n).reserved ≤ m.pool.reserved :=
    FairSpillPool.shrink_reserved_le
  have hc := h.ceiling
  have hb := h.budget
  have hca := returnMemory_cases (m.pool.shrink canSpill n) resizes m.capacity h.leasable
  unfold Memory.Returns at hr
  unfold Memory.shrink
  dsimp only
  generalize returnMemory a (m.pool.shrink canSpill n) m.leased resizes m.capacity = capacity at *
  refine ⟨h.counted,h.leasable,by dsimp only; omega,
    FairSpillPool.shrink_poolSize.trans h.poolSize,by dsimp only; omega,?_⟩
  intro (hz : (m.pool.shrink canSpill n).reserved = 0)
  obtain ⟨hlea,rfl⟩ := hr hz
  have hco := a.memory_contains
  simp only [Bool.true_eq_false,or_false] at hca
  dsimp only
  omega

theorem Memory.Kept.enter (h : m.Kept a) (name : String) (bytes : Nat) :
    (m.enter a name bytes).Kept a := by
  unfold Memory.enter
  split
  · refine h.frame ?_ (Nat.le_refl _) rfl rfl rfl
    simpa [Lease.counted] using h.counted
  · exact h

theorem Memory.Kept.count (h : m.Kept a)
    (ha : ∀ l ∈ m.leases[i]?, m.leased + l.bytes ≤ a.leasable)
    (hs : m.count i = some m') : m'.Kept a := by
  simp only [Memory.count,Option.bind_eq_some_iff,Option.ite_none_right_eq_some,
    Option.some.injEq] at hs
  obtain ⟨l,hl,hp,rfl⟩ := hs
  refine ⟨?_,ha l hl,h.ceiling,h.poolSize,h.budget,h.returned⟩
  have hse := total_set Lease.counted hl { l with phase := .counted }
  have hw : l.counted = 0 := by simp [Lease.counted,hp]
  have hn : ({ l with phase := .counted } : Lease).counted = l.bytes := rfl
  have hc := h.counted
  show m.leased + l.bytes = total Lease.counted (m.leases.set i { l with phase := .counted })
  omega

/-- A growing lease stays within the budget. -/
theorem Memory.Kept.growLease (h : m.Kept a)
    (hc : ∀ l ∈ m.leases[i]?,
      (m.pool.tryGrow false 0 l.bytes).isSome → m.Reclaims a l.bytes found)
    (hs : m.growLease a i found = some m') : m'.Kept a := by
  simp only [Memory.growLease,Option.bind_eq_some_iff,Option.ite_none_right_eq_some] at hs
  obtain ⟨l,hl,hp,hs⟩ := hs
  have hf : (m.pool.tryGrow false 0 l.bytes).isSome →
      m.pool.reserved + l.bytes ≤ a.memoryBytes := by
    intro hso
    obtain ⟨pool,hpo⟩ := Option.isSome_iff_exists.mp hso
    obtain ⟨hr,-,-,hi⟩ := FairSpillPool.tryGrow_eq_some hpo
    have hsi := h.poolSize
    have hb := h.budget
    have := hi rfl (by omega)
    omega
  obtain ⟨hk,hle⟩ := h.tryGrow hf (hc l hl)
  generalize m.tryGrow a false 0 l.bytes found = grown at hs hk hle
  obtain ⟨ok,m₁⟩ := grown
  cases ok <;> cases hs <;> exact hk.setPhase (hle ▸ hl) (by simp [Lease.counted,hp])

theorem Memory.Kept.uncount (h : m.Kept a) (hs : m.uncount i = some m') : m'.Kept a := by
  obtain ⟨l,hl,hs⟩ := Option.bind_eq_some_iff.mp hs
  split at hs
  · rename_i error hp
    cases hs
    exact h.discount hl (by simp [Lease.counted,hp]) rfl
  · cases hs

theorem Memory.Kept.dropLease (h : m.Kept a) (hs : m.dropLease i = some m') : m'.Kept a := by
  simp only [Memory.dropLease,Option.bind_eq_some_iff,Option.ite_none_right_eq_some,
    Option.some.injEq] at hs
  obtain ⟨l,hl,hp,rfl⟩ := hs
  exact h.discount hl (by simp [Lease.counted,hp]) rfl

theorem Memory.Kept.freeLease (h : m.Kept a)
    (hr : ∀ l ∈ m.leases[i]?, m.Returns false l.bytes resizes)
    (hs : m.freeLease a i resizes = some m') : m'.Kept a := by
  simp only [Memory.freeLease,Option.bind_eq_some_iff,Option.ite_none_right_eq_some] at hs
  obtain ⟨l,hl,hp,hs⟩ := hs
  have hsa : ({ l with phase := .gone } : Lease).counted = l.counted := by
    simp [Lease.counted,hp]
  split at hs <;> cases hs
  · exact h.setPhase hl hsa
  · exact (h.shrink (hr l hl)).setPhase hl hsa

theorem Memory.Kept.setQuery (h : m.Kept a) (q : Nat) (r : Option MemoryReservation)
    {pool : FairSpillPool} (hp : pool.reserved = m.pool.reserved ∧ pool.poolSize = m.pool.poolSize) :
    ({ m.setQuery q r with pool } : Memory).Kept a :=
  h.frame h.counted (Nat.le_refl _) rfl hp.1 hp.2

/-- Every step keeps the memory within its budget. -/
theorem Memory.Kept.step (h : m.Kept a) {x : MemoryStep} (ho : m.Careful a x)
    (hs : m.step a x = some m') : m'.Kept a := by
  cases x with
  | enter name bytes =>
    cases hs
    exact h.enter name bytes
  | count i => exact h.count ho hs
  | growLease i found => exact h.growLease ho hs
  | uncount i => exact h.uncount hs
  | dropLease i => exact h.dropLease hs
  | freeLease i resizes => exact h.freeLease ho hs
  | register q canSpill =>
    simp only [Memory.step,Option.ite_none_right_eq_some,Option.some.injEq] at hs
    obtain ⟨-,rfl⟩ := hs
    exact h.setQuery q _ FairSpillPool.register_frame
  | unregister q =>
    simp only [Memory.step,Option.bind_eq_some_iff,Option.ite_none_right_eq_some,
      Option.some.injEq] at hs
    obtain ⟨r,-,-,rfl⟩ := hs
    exact h.setQuery q _ FairSpillPool.unregister_frame
  | tryGrow q additional found =>
    obtain ⟨r,hr,hs⟩ := Option.map_eq_some_iff.mp hs
    have hk := (h.tryGrow (fun hso => (ho r hr hso).1)
      (fun hso => (ho r hr hso).2)).1
    generalize m.tryGrow a r.canSpill r.size additional found = grown at hs hk
    obtain ⟨ok,m₁⟩ := grown
    cases ok <;> cases hs
    · exact hk
    · exact hk.setQuery q _ ⟨rfl,rfl⟩
  | shrink q n resizes =>
    simp only [Memory.step,Option.bind_eq_some_iff,Option.ite_none_right_eq_some,
      Option.some.injEq] at hs
    obtain ⟨r,hr,-,rfl⟩ := hs
    exact (h.shrink (ho r hr)).setQuery q _ ⟨rfl,rfl⟩

/-- In every run of careful steps, the leases, the cache and the reservations share the budget. -/
theorem Memory.shares_budget
    (h : Reachable (· = Memory.new a) (Memory.step a) (Memory.Careful a) m) : m.Within a := by
  have hk : m.Kept a :=
    h.invariant (P := fun m => m.Kept a) (fun m hm => hm ▸ .start)
      fun _ _ _ hm ho hs => hm.step ho hs
  exact hk.within

instance (m : Memory) (additional : Nat) (found : Found) :
    Decidable (m.Reclaims a additional found) :=
  inferInstanceAs (Decidable (_ → _ ∧ (_ ∨ _)))

instance (m : Memory) (canSpill : Bool) (n : Nat) (resizes : Bool) :
    Decidable (m.Returns canSpill n resizes) :=
  inferInstanceAs (Decidable (_ → _ ∧ _))

instance (m : Memory) : DecidablePred (m.Careful a) := fun x => by
  unfold Memory.Careful
  split <;> infer_instance

end Steps

section Runs

open Allocation (mib)

def Found.alive (bytes : Nat) : Found := ⟨true, bytes, bytes, true, bytes⟩

/-- A table is opened and a query runs beside it; both give their memory back. -/
theorem Memory.shares_budget_of_table_and_query : ∃ m : Memory,
    Reachable (· = .new .small) (Memory.step .small) (Memory.Careful .small) m ∧
    (m.leased, m.pool.reserved, m.capacity) = (0, 0, 64 * mib) ∧ m.Within .small := by
  have hs : (runs (Memory.step .small) (Memory.Careful .small) (.new .small)
      [.enter "table" (48 * mib),.count 0,.growLease 0 (.alive mib),.register 0 true,
        .tryGrow 0 (12 * mib) (.alive (3 * mib)),.dropLease 0,.freeLease 0 true,
        .shrink 0 (12 * mib) true,.unregister 0]).map
        (fun m => (m.leased,m.pool.reserved,m.capacity)) = some (0,0,64 * mib) := by
    decide +kernel
  obtain ⟨m,hm,he⟩ := Option.map_eq_some_iff.mp hs
  have hst : Reachable (· = Memory.new .small) (Memory.step .small) (Memory.Careful .small)
      (.new .small) := .start rfl
  have hr := hst.of_runs _ hm
  exact ⟨m,hr,he,Memory.shares_budget hr⟩

/-- Two leases are admitted before either is counted; a second spillable reservation gets its share
while the first holds the pool; a failed grow leaves the cache empty. -/
theorem Memory.budget_is_overrun :
    (∃ m, Reachable (· = .new .small) (Memory.step .small) anyStep m ∧
      Allocation.small.leasable < total Lease.held m.leases) ∧
    (∃ m, Reachable (· = .new .small) (Memory.step .small) anyStep m ∧
      Allocation.small.memoryBytes < m.capacity + m.pool.reserved) ∧
    ∃ m, Reachable (· = .new .small) (Memory.step .small) anyStep m ∧ m.pool.reserved = 0 ∧
      m.capacity + Allocation.small.quantum < Allocation.small.cacheMemoryCeiling := by
  have hs : Reachable (· = Memory.new .small) (Memory.step .small) anyStep
      (.new .small) := .start rfl
  have hr : (runs (Memory.step .small) anyStep (.new .small)
      [.enter "first" (31 * mib),.enter "second" (31 * mib),.count 0,.count 1,
        .growLease 0 (.alive 0),.growLease 1 (.alive 0)]).map
        (fun m => total Lease.held m.leases) = some (62 * mib) := by
    decide +kernel
  have hsh : (runs (Memory.step .small) anyStep (.new .small)
      [.register 0 true,.tryGrow 0 (64 * mib) (.alive 0),.register 1 true,
        .tryGrow 1 (32 * mib) (.alive 0)]).map
        (fun m => m.capacity + m.pool.reserved) = some (96 * mib) := by
    decide +kernel
  have he : (runs (Memory.step .small) anyStep (.new .small)
      [.register 0 false,.tryGrow 0 mib (.alive (64 * mib))]).map
        (fun m => (m.pool.reserved,m.capacity)) = some (0,0) := by
    decide +kernel
  obtain ⟨m₁,h₁,hh⟩ := Option.map_eq_some_iff.mp hr
  obtain ⟨m₂,h₂,ho⟩ := Option.map_eq_some_iff.mp hsh
  obtain ⟨m₃,h₃,hl⟩ := Option.map_eq_some_iff.mp he
  obtain ⟨hre,hc⟩ := Prod.mk.inj hl
  refine ⟨⟨m₁,hs.of_runs _ h₁,?_⟩,⟨m₂,hs.of_runs _ h₂,?_⟩,
    ⟨m₃,hs.of_runs _ h₃,hre,?_⟩⟩
  · rw [hh]
    decide
  · rw [ho]
    decide
  · rw [hc]
    decide

end Runs

end Walleye.Cache
