import Walleye.Base.Maps
import Walleye.Base.Sums
import Walleye.Engine.Arrival

namespace Walleye.Cache

open Walleye.Base Walleye.Base.BTreeMap
open Walleye.Engine (saturatingAdd)

/-- DataFusion's pool: unspillable reservations are served first come, first served, and every
spillable one up to an even share of the rest. -/
structure FairSpillPool where
  poolSize : Nat
  numSpill : Nat
  spillable : Nat
  unspillable : Nat
deriving DecidableEq, Repr

namespace FairSpillPool

def new (poolSize : Nat) : FairSpillPool := ⟨poolSize, 0, 0, 0⟩

def reserved (p : FairSpillPool) : Nat := p.spillable + p.unspillable

def register (p : FairSpillPool) (canSpill : Bool) : FairSpillPool :=
  if canSpill then { p with numSpill := p.numSpill + 1 } else p

def unregister (p : FairSpillPool) (canSpill : Bool) : FairSpillPool :=
  if canSpill then { p with numSpill := p.numSpill - 1 } else p

def shrink (p : FairSpillPool) (canSpill : Bool) (n : Nat) : FairSpillPool :=
  if canSpill then { p with spillable := p.spillable - n }
  else { p with unspillable := p.unspillable - n }

def tryGrow (p : FairSpillPool) (canSpill : Bool) (size additional : Nat) :
    Option FairSpillPool :=
  if canSpill then
    let spillAvailable := p.poolSize - p.unspillable
    let available := if p.numSpill = 0 then spillAvailable else spillAvailable / p.numSpill
    if available < size + additional then none
    else some { p with spillable := p.spillable + additional }
  else if p.poolSize - (p.unspillable + p.spillable) < additional then none
  else some { p with unspillable := p.unspillable + additional }

end FairSpillPool

/-- The allocation of one runtime. It contains the cache's ceilings and its disk working floor. -/
structure Allocation where
  memoryBytes : Nat
  diskBytes : Nat
  cacheMemoryCeiling : Nat
  cacheDiskCeiling : Nat
  diskFloor : Nat
  memory_pos : 0 < memoryBytes
  memory_contains : cacheMemoryCeiling ≤ memoryBytes
  disk_contains : cacheDiskCeiling ≤ diskBytes
  disk_floor_lt : diskFloor < diskBytes

namespace Allocation

def new (memoryCapacity persistentCapacity diskFloor memoryBytes diskBytes : Nat) :
    Except String Allocation :=
  if h : memoryBytes = 0 ∨ memoryBytes < memoryCapacity ∨ diskBytes < persistentCapacity ∨
      diskBytes ≤ diskFloor then
    .error "query allocation must contain the cache ceilings and its disk working floor"
  else .ok
    { memoryBytes, diskBytes, diskFloor
      cacheMemoryCeiling := memoryCapacity
      cacheDiskCeiling := persistentCapacity
      memory_pos := by omega
      memory_contains := by omega
      disk_contains := by omega
      disk_floor_lt := by omega }

variable (a : Allocation)

def mib : Nat := 1024 * 1024

/-- A working set the cache keeps against long-lived leases. -/
def cacheMemoryFloor : Nat :=
  min (min (a.cacheMemoryCeiling / 16) (64 * mib)) (a.memoryBytes / 4)

/-- The part of the budget that long-lived leases may hold. -/
def leasable : Nat := a.memoryBytes - a.cacheMemoryFloor

def quantum : Nat := max (min (8 * mib) a.cacheMemoryCeiling) 1

theorem quantum_pos : 0 < a.quantum := Nat.lt_of_lt_of_le Nat.one_pos (Nat.le_max_right _ _)

theorem cacheMemoryFloor_le : a.cacheMemoryFloor ≤ a.memoryBytes :=
  Nat.le_trans (Nat.min_le_right _ _) (Nat.div_le_self _ _)

/-- A cache of 64 MiB in a budget of 64 MiB, of which it keeps 4. -/
def small : Allocation where
  memoryBytes := 64 * mib
  diskBytes := 100
  cacheMemoryCeiling := 64 * mib
  cacheDiskCeiling := 90
  diskFloor := 10
  memory_pos := by decide
  memory_contains := by decide
  disk_contains := by decide
  disk_floor_lt := by decide

end Allocation

section Memory

/-- Where a lease is: past the admission check, counted, granted, refused but counted, dropped but
in the pool, and gone. -/
inductive LeasePhase where
  | admitted
  | counted
  | held
  | refused (error : String)
  | dropping
  | gone
deriving DecidableEq, Repr

structure Lease where
  name : String
  bytes : Nat
  phase : LeasePhase
deriving DecidableEq, Repr

def Lease.counted (l : Lease) : Nat :=
  match l.phase with
  | .counted | .held | .refused _ => l.bytes
  | _ => 0

def Lease.held (l : Lease) : Nat :=
  match l.phase with
  | .held => l.bytes
  | _ => 0

structure MemoryReservation where
  canSpill : Bool
  size : Nat
deriving DecidableEq, Repr

structure Memory where
  pool : FairSpillPool
  /-- The capacity of the cache's memory tier. -/
  capacity : Nat
  leased : Nat
  leases : List Lease
  queries : Nat → Option MemoryReservation

/-- What a call finds of the cache: whether its memory tier takes a new size, the decoded values
alive, whether it can be emptied, and what is alive after. -/
structure Found where
  resizes : Bool
  estimate : Nat
  retained : Nat
  empties : Bool
  left : Nat
deriving DecidableEq, Repr

variable (a : Allocation)

def Memory.new : Memory :=
  ⟨.new a.memoryBytes, a.cacheMemoryCeiling, 0, [], fun _ => none⟩

/-- `resize_memory` of the cache; the size it has needs no change. -/
def resizeMemory (resizes : Bool) (capacity bytes : Nat) : Option Nat :=
  let bytes := min bytes a.cacheMemoryCeiling
  if capacity = bytes then some capacity else if resizes then some bytes else none

/-- Values that are still alive after the cache is emptied refuse the call. -/
def evict (available : Nat) (found : Found) (capacity : Nat) : Bool × Nat :=
  if available < found.estimate ∧ available < found.retained then
    match resizeMemory a found.empties capacity 0 with
    | some capacity => (decide (found.left ≤ available), capacity)
    | none => (false, capacity)
  else (true, capacity)

/-- The cache is trimmed to what the reservations leave. It may have been, in part, when that
fails. -/
def makeMemoryAvailable (pool : FairSpillPool) (found : Found) (capacity : Nat) : Bool × Nat :=
  let available := a.memoryBytes - pool.reserved
  let target := min available a.cacheMemoryCeiling
  if target < capacity then
    match resizeMemory a found.resizes capacity (target / a.quantum * a.quantum) with
    | some capacity => evict a available found capacity
    | none => (false, capacity)
  else evict a available found capacity

def returnMemory (pool : FairSpillPool) (leased : Nat) (resizes : Bool) (capacity : Nat) : Nat :=
  if leased < pool.reserved then capacity
  else
    let target := max
      (min (a.memoryBytes - leased) a.cacheMemoryCeiling / a.quantum * a.quantum)
      (min a.cacheMemoryFloor a.cacheMemoryCeiling)
    if capacity = target then capacity
    else (resizeMemory a resizes capacity target).getD capacity

/-- `try_grow` of a reservation, under the lock, and whether it was granted. -/
def Memory.tryGrow (m : Memory) (canSpill : Bool) (size additional : Nat) (found : Found) :
    Bool × Memory :=
  match m.pool.tryGrow canSpill size additional with
  | none => (false, m)
  | some pool =>
    match makeMemoryAvailable a pool found m.capacity with
    | (true, capacity) => (true, { m with pool, capacity })
    | (false, capacity) => (false, { m with pool := pool.shrink canSpill additional, capacity })

def Memory.shrink (m : Memory) (canSpill : Bool) (n : Nat) (resizes : Bool) : Memory :=
  let pool := m.pool.shrink canSpill n
  { m with pool, capacity := returnMemory a pool m.leased resizes m.capacity }

def admission (held : Nat) (name : String) (bytes : Nat) : Except String Unit :=
  if a.leasable < saturatingAdd held bytes then
    .error (name ++ " needs " ++ toString (bytes / Allocation.mib) ++ " MiB but only " ++
      toString ((a.leasable - held) / Allocation.mib) ++ " MiB of the " ++
      toString (a.memoryBytes / Allocation.mib) ++ " MiB memory budget can be held (" ++
      toString (a.cacheMemoryFloor / Allocation.mib) ++ " MiB is the cache's working floor, " ++
      toString (held / Allocation.mib) ++ " MiB is already held)")
  else .ok ()

def notFree (pool : FairSpillPool) (name : String) (bytes : Nat) : String :=
  name ++ " needs " ++ toString (bytes / Allocation.mib) ++ " MiB but only " ++
    toString ((a.memoryBytes - pool.reserved) / Allocation.mib) ++ " MiB of the " ++
    toString (a.memoryBytes / Allocation.mib) ++ " MiB memory budget is free (" ++
    toString (a.cacheMemoryFloor / Allocation.mib) ++
    " MiB of it is the cache's working floor)"

/-- `reserve_memory` checks, counts, grows and, when refused, takes its count back; a dropped lease
leaves the counter and then the pool. -/
inductive MemoryStep where
  | enter (name : String) (bytes : Nat)
  | count (i : Nat)
  | growLease (i : Nat) (found : Found)
  | uncount (i : Nat)
  | dropLease (i : Nat)
  | freeLease (i : Nat) (resizes : Bool)
  | register (q : Nat) (canSpill : Bool)
  | unregister (q : Nat)
  | tryGrow (q additional : Nat) (found : Found)
  | shrink (q n : Nat) (resizes : Bool)
deriving DecidableEq, Repr

def Memory.setPhase (m : Memory) (i : Nat) (l : Lease) (phase : LeasePhase) : Memory :=
  { m with leases := m.leases.set i { l with phase } }

def Memory.enter (m : Memory) (name : String) (bytes : Nat) : Memory :=
  match admission a m.leased name bytes with
  | .ok () => { m with leases := m.leases ++ [⟨name, bytes, .admitted⟩] }
  | .error _ => m

def Memory.count (m : Memory) (i : Nat) : Option Memory :=
  m.leases[i]?.bind fun l =>
    if l.phase = .admitted then
      some { m.setPhase i l .counted with leased := m.leased + l.bytes }
    else none

def Memory.growLease (m : Memory) (i : Nat) (found : Found) : Option Memory :=
  m.leases[i]?.bind fun l =>
    if l.phase = .counted then
      match m.tryGrow a false 0 l.bytes found with
      | (true, m) => some (m.setPhase i l .held)
      | (false, m) => some (m.setPhase i l (.refused (notFree a m.pool l.name l.bytes)))
    else none

def Memory.uncount (m : Memory) (i : Nat) : Option Memory :=
  m.leases[i]?.bind fun l =>
    match l.phase with
    | .refused _ => some { m.setPhase i l .gone with leased := m.leased - l.bytes }
    | _ => none

def Memory.dropLease (m : Memory) (i : Nat) : Option Memory :=
  m.leases[i]?.bind fun l =>
    if l.phase = .held then
      some { m.setPhase i l .dropping with leased := m.leased - l.bytes }
    else none

def Memory.freeLease (m : Memory) (i : Nat) (resizes : Bool) : Option Memory :=
  m.leases[i]?.bind fun l =>
    if l.phase = .dropping then
      if l.bytes = 0 then some (m.setPhase i l .gone)
      else some ((m.shrink a false l.bytes resizes).setPhase i l .gone)
    else none

def Memory.setQuery (m : Memory) (q : Nat) (r : Option MemoryReservation) : Memory :=
  { m with queries := Function.update m.queries q r }

def Memory.step (m : Memory) : MemoryStep → Option Memory
  | .enter name bytes => some (m.enter a name bytes)
  | .count i => m.count i
  | .growLease i found => m.growLease a i found
  | .uncount i => m.uncount i
  | .dropLease i => m.dropLease i
  | .freeLease i resizes => m.freeLease a i resizes
  | .register q canSpill =>
    if m.queries q = none then
      some { m.setQuery q (some ⟨canSpill, 0⟩) with pool := m.pool.register canSpill }
    else none
  | .unregister q => (m.queries q).bind fun r =>
    if r.size = 0 then
      some { m.setQuery q none with pool := m.pool.unregister r.canSpill }
    else none
  | .tryGrow q additional found => (m.queries q).map fun r =>
    match m.tryGrow a r.canSpill r.size additional found with
    | (true, m) => m.setQuery q (some { r with size := r.size + additional })
    | (false, m) => m
  | .shrink q n resizes => (m.queries q).bind fun r =>
    if n ≤ r.size then
      some ((m.shrink a r.canSpill n resizes).setQuery q (some { r with size := r.size - n }))
    else none

end Memory

section Disk

/-- The cache file's capacity, the usages beside it that their owners reported, and the spill files
that are live. -/
structure Disk where
  capacity : Nat
  diskUsage : BTreeMap String Nat
  spillFiles : Nat

variable (a : Allocation)

def Disk.new : Disk := ⟨a.cacheDiskCeiling, ∅, 0⟩

def Disk.elsewhere (d : Disk) : Nat := d.diskUsage.valuesOf.sum

def Disk.cacheDiskTarget (d : Disk) : Nat :=
  max (min a.cacheDiskCeiling (a.diskBytes - d.elsewhere)) a.diskFloor

def asked (bytes : Nat) : Nat := min bytes a.cacheDiskCeiling

def Disk.resized (d : Disk) : Except String Nat → Disk
  | .ok actual => { d with capacity := actual }
  | .error _ => d

def resourceError (error : String) : String := "cache reclamation failed: " ++ error

def Disk.report (d : Disk) (name : String) (bytes : Nat) : Disk :=
  { d with
    diskUsage := if bytes = 0 then d.diskUsage.erase name else d.diskUsage.insert name bytes }

def Disk.setDiskUsage (d : Disk) (name : String) (bytes : Nat) (answer : Except String Nat) :
    Disk × Except String Unit :=
  let d := d.report name bytes
  if 0 < d.spillFiles then (d, .ok ())
  else (d.resized answer, (answer.mapError resourceError).map fun _ => ())

def Disk.beforeCreate (d : Disk) (answer : Except String Nat) : Disk × Except String Unit :=
  if d.spillFiles = 0 then
    match answer with
    | .error error => (d, .error (resourceError error))
    | .ok actual =>
      if a.diskFloor < actual then
        (d.resized answer, .error "cache did not release the required spill allocation")
      else ({ d.resized answer with spillFiles := d.spillFiles + 1 }, .ok ())
  else ({ d with spillFiles := d.spillFiles + 1 }, .ok ())

def Disk.dropSpill (d : Disk) (answer : Except String Nat) : Disk :=
  let d := { d with spillFiles := d.spillFiles - 1 }
  if d.spillFiles = 0 then d.resized answer else d

/-- The spill space that the disk manager of `runtime` may hand out. -/
def maxTempDirectorySize : Nat := a.diskBytes - a.diskFloor

def Disk.spillAllowed (d : Disk) : Nat :=
  if d.spillFiles = 0 then 0 else maxTempDirectorySize a

inductive DiskStep where
  | setDiskUsage (name : String) (bytes : Nat) (answer : Except String Nat)
  | beforeCreate (answer : Except String Nat)
  | dropSpill (answer : Except String Nat)

def Disk.step (d : Disk) : DiskStep → Option Disk
  | .setDiskUsage name bytes answer => some (d.setDiskUsage name bytes answer).1
  | .beforeCreate answer => some (d.beforeCreate a answer).1
  | .dropSpill answer => if 0 < d.spillFiles then some (d.dropSpill answer) else none

end Disk

end Walleye.Cache
