import Mathlib.Logic.Function.Basic
import Walleye.Base.Runs

namespace Walleye.Cache

open Walleye.Base

/-- Where a `get_or_insert` stands. The locks are numbered as they are made. -/
inductive LoadPoint where
  | calling
  /-- The call has the key's lock from the registry. -/
  | waiting (lock : Nat)
  /-- The call holds the gate and asks the cache once more. -/
  | checking (lock : Nat)
  | loading (lock : Nat)
  /-- The gate's entry is removed and its permit not yet released. -/
  | dropping (lock : Nat)
  | ended
deriving DecidableEq, Repr

def LoadPoint.lock : LoadPoint → Option Nat
  | .waiting lock | .checking lock | .loading lock | .dropping lock => some lock
  | .calling | .ended => none

def LoadPoint.permit : LoadPoint → Option Nat
  | .checking lock | .loading lock | .dropping lock => some lock
  | .calling | .waiting _ | .ended => none

theorem LoadPoint.lock_of_permit {p : LoadPoint} (h : p.permit = some l) : p.lock = some l := by
  cases p <;> cases h <;> rfl

structure LoadCall (κ : Type) where
  key : κ
  point : LoadPoint
deriving DecidableEq, Repr

structure LoadGates (κ : Type) where
  gates : κ → Option Nat
  made : Nat
  calls : List (LoadCall κ)

/-- What the call meets next: the cache has the value or not, or its future is dropped. -/
inductive LoadEvent where
  | hit
  | miss
  | cancelled
deriving DecidableEq, Repr

namespace LoadGates

variable {κ : Type} {s s' : LoadGates κ} {c : LoadCall κ}

def new (keys : List κ) : LoadGates κ := ⟨fun _ => none, 0, keys.map (⟨·, .calling⟩)⟩

def goto (s : LoadGates κ) (i : Nat) (key : κ) (point : LoadPoint) : LoadGates κ :=
  { s with calls := s.calls.set i ⟨key, point⟩ }

def Free (s : LoadGates κ) (lock : Nat) : Prop := ∀ c ∈ s.calls, c.point.permit ≠ some lock

instance (s : LoadGates κ) : DecidablePred s.Free := fun lock =>
  inferInstanceAs (Decidable (∀ c ∈ s.calls, c.point.permit ≠ some lock))

def Uses (s : LoadGates κ) (key : κ) (lock : Nat) : Prop :=
  s.gates key = some lock ∨ ∃ c ∈ s.calls, c.key = key ∧ c.point.lock = some lock

def Exclusive (s : LoadGates κ) : Prop :=
  ∀ (i j l m : Nat) (c d : LoadCall κ), s.calls[i]? = some c → s.calls[j]? = some d →
    c.key = d.key → c.point.permit = some l → d.point.permit = some m → i = j

structure Shared (s : LoadGates κ) : Prop where
  mutex : ∀ (i j l : Nat) (c d : LoadCall κ), s.calls[i]? = some c → s.calls[j]? = some d →
    c.point.permit = some l → d.point.permit = some l → i = j
  one : ∀ k l m, s.Uses k l → s.Uses k m → l = m

theorem Shared.exclusive (hs : Shared s) : Exclusive s := by
  intro i j l m c d hc hd hk hl hm
  have hu : s.Uses c.key l := .inr ⟨c,List.mem_of_getElem? hc,rfl,LoadPoint.lock_of_permit hl⟩
  have hu' : s.Uses c.key m :=
    .inr ⟨d,List.mem_of_getElem? hd,hk.symm,LoadPoint.lock_of_permit hm⟩
  exact hs.mutex i j l c d hc hd hl (hs.one _ _ _ hu hu' ▸ hm)

theorem uses_goto (hu : (s.goto i k p).Uses k' l) : s.Uses k' l ∨ k = k' ∧ p.lock = some l := by
  obtain hg | ⟨d,hd,hk,hl⟩ := hu
  · exact .inl (.inl hg)
  · obtain hd | rfl := List.mem_or_eq_of_mem_set hd
    · exact .inl (.inr ⟨d,hd,hk,hl⟩)
    · exact .inr ⟨hk,hl⟩

theorem get_goto (hd : (s.goto i k p).calls[j]? = some d) :
    j = i ∧ d = ⟨k,p⟩ ∨ s.calls[j]? = some d := by
  rw [goto,List.getElem?_set] at hd
  split at hd
  · rename_i hi
    split at hd <;> cases hd
    exact .inl ⟨hi.symm,rfl⟩
  · exact .inr hd

/-- A call moves on; a permit it gets is one that was free. -/
theorem Shared.goto (hs : Shared s) (hc : s.calls[i]? = some c)
    (hp : ∀ l, p.permit = some l → c.point.permit = some l ∨ s.Free l)
    (hl : ∀ l, p.lock = some l → ∀ m, s.Uses c.key m → l = m) :
    Shared (s.goto i c.key p) where
  mutex j j' l d d' hd hd' hdl hdl' := by
    have hj : ∀ {j d}, s.calls[j]? = some d → d.point.permit = some l → p.permit = some l →
        j = i := by
      intro j d hd hdl hpl
      obtain h | h := hp l hpl
      · exact hs.mutex j i l d c hd hc hdl h
      · exact absurd hdl (h d (List.mem_of_getElem? hd))
    obtain ⟨hi,rfl⟩ | hd := get_goto hd <;> obtain ⟨hi',rfl⟩ | hd' := get_goto hd'
    · exact hi.trans hi'.symm
    · exact hi.trans (hj hd' hdl' hdl).symm
    · exact (hj hd hdl hdl').trans hi'.symm
    · exact hs.mutex j j' l d d' hd hd' hdl hdl'
  one k l m hul hum := by
    obtain hul | ⟨rfl,hpl⟩ := uses_goto hul <;> obtain hum | ⟨hk,hpm⟩ := uses_goto hum
    · exact hs.one k l m hul hum
    · exact (hl m hpm l (hk ▸ hul)).symm
    · exact hl l hpl m hum
    · exact Option.some.inj (hpl.symm.trans hpm)

theorem Shared.keep (hs : Shared s) (hc : s.calls[i]? = some c)
    (hp : ∀ l, p.permit = some l → c.point.permit = some l ∨ s.Free l)
    (hl : ∀ l, p.lock = some l → c.point.lock = some l) : Shared (s.goto i c.key p) :=
  hs.goto hc hp fun l h _ => hs.one c.key _ _ (.inr ⟨c,List.mem_of_getElem? hc,rfl,hl l h⟩)

variable [DecidableEq κ]

def create (s : LoadGates κ) (key : κ) : LoadGates κ :=
  { s with gates := Function.update s.gates key (some s.made), made := s.made + 1 }

def lookUp (s : LoadGates κ) (i : Nat) (key : κ) : LoadGates κ :=
  match s.gates key with
  | some lock => s.goto i key (.waiting lock)
  | none => (s.create key).goto i key (.waiting s.made)

/-- The registry when a gate is dropped: the entry goes if it is still the gate's own. -/
def remove (s : LoadGates κ) (key : κ) (lock : Nat) : LoadGates κ :=
  if s.gates key = some lock then { s with gates := Function.update s.gates key none } else s

/-- `acquire_load_gate` and `LoadGate::drop` in the course of a call; the permit is a field of the
gate and is released after its entry is removed. -/
def resume (s : LoadGates κ) (i : Nat) (key : κ) : LoadPoint → LoadEvent → Option (LoadGates κ)
  | .calling, .miss => some (s.lookUp i key)
  | .calling, _ => some (s.goto i key .ended)
  | .waiting _, .cancelled => some (s.goto i key .ended)
  | .waiting lock, _ => if s.Free lock then some (s.goto i key (.checking lock)) else none
  | .checking lock, .miss => some (s.goto i key (.loading lock))
  | .checking lock, _ => some ((s.remove key lock).goto i key (.dropping lock))
  | .loading lock, _ => some ((s.remove key lock).goto i key (.dropping lock))
  | .dropping _, _ => some (s.goto i key .ended)
  | .ended, _ => none

def step (s : LoadGates κ) (a : Nat × LoadEvent) : Option (LoadGates κ) :=
  s.calls[a.1]?.bind fun c => s.resume a.1 c.key c.point a.2

def MadeAlone (s : LoadGates κ) (a : Nat × LoadEvent) : Prop :=
  ∀ c ∈ s.calls[a.1]?, c.point = .calling ∧ a.2 = .miss → s.gates c.key = none →
    ∀ d ∈ s.calls, d.key = c.key → d.point.lock = none

instance (s : LoadGates κ) : DecidablePred s.MadeAlone := fun a =>
  inferInstanceAs (Decidable (∀ c ∈ s.calls[a.1]?, c.point = .calling ∧ a.2 = .miss →
    s.gates c.key = none → ∀ d ∈ s.calls, d.key = c.key → d.point.lock = none))

/-- The new lock is the only one of its key if no call has one. -/
theorem uses_create (hn : ∀ d ∈ s.calls, d.key = key → d.point.lock = none)
    (hu : (s.create key).Uses k l) : k = key ∧ l = s.made ∨ k ≠ key ∧ s.Uses k l := by
  obtain h | ⟨d,hd,rfl,hl⟩ := hu
  · by_cases hk : k = key
    · subst hk
      exact .inl ⟨rfl,by simpa [create] using h.symm⟩
    · exact .inr ⟨hk,.inl (by simpa [create,hk] using h)⟩
  · refine .inr ⟨fun hk => ?_,.inr ⟨d,hd,rfl,hl⟩⟩
    rw [hn d hd hk] at hl
    cases hl

theorem Shared.create (hs : Shared s) (hn : ∀ d ∈ s.calls, d.key = key → d.point.lock = none) :
    Shared (s.create key) := by
  refine ⟨hs.mutex,fun k l m hl hm => ?_⟩
  obtain ⟨hk,rfl⟩ | ⟨hk,hl⟩ := uses_create hn hl <;>
    obtain ⟨hk',rfl⟩ | ⟨hk',hm⟩ := uses_create hn hm
  · rfl
  · exact absurd hk hk'
  · exact absurd hk' hk
  · exact hs.one k l m hl hm

theorem Shared.lookUp (hs : Shared s) (hc : s.calls[i]? = some c)
    (ha : s.gates c.key = none → ∀ d ∈ s.calls, d.key = c.key → d.point.lock = none) :
    Shared (s.lookUp i c.key) := by
  unfold LoadGates.lookUp
  split
  · rename_i lock hg
    refine hs.goto hc (by simp [LoadPoint.permit]) fun l hl m => ?_
    cases hl
    exact hs.one c.key lock m (.inl hg)
  · rename_i hg
    refine (hs.create (ha hg)).goto hc (by simp [LoadPoint.permit]) fun l hl m hm => ?_
    cases hl
    obtain ⟨-,rfl⟩ | ⟨hk,-⟩ := uses_create (ha hg) hm
    · rfl
    · exact absurd rfl hk

theorem remove_calls (s : LoadGates κ) (k : κ) (l : Nat) : (s.remove k l).calls = s.calls := by
  unfold remove
  split <;> rfl

theorem Shared.remove (hs : Shared s) (k : κ) (l : Nat) : Shared (s.remove k l) := by
  have hu : ∀ k' m, (s.remove k l).Uses k' m → s.Uses k' m := by
    unfold LoadGates.remove
    split
    · rintro k' m (h | h)
      · by_cases hk : k' = k <;> simp [hk] at h
        exact .inl h
      · exact .inr h
    · exact fun _ _ h => h
  refine ⟨?_,fun k' m m' hm hm' => hs.one k' m m' (hu k' m hm) (hu k' m' hm')⟩
  rw [remove_calls]
  exact hs.mutex

theorem Shared.drop (hs : Shared s) (hc : s.calls[i]? = some c) (hp : c.point.permit = some l) :
    Shared ((s.remove c.key l).goto i c.key (.dropping l)) := by
  refine (hs.remove c.key l).keep (by rwa [remove_calls]) (fun m h => .inl ?_) fun m h => ?_ <;>
    cases h
  · exact hp
  · exact LoadPoint.lock_of_permit hp

/-- Every step keeps one lock for each key, with one holder. -/
theorem Shared.step (hs : Shared s) (ho : s.MadeAlone a) (h : s.step a = some s') :
    Shared s' := by
  obtain ⟨c,hc,hr⟩ := Option.bind_eq_some_iff.mp h
  have he : Shared (s.goto a.1 c.key .ended) :=
    hs.keep hc (by simp [LoadPoint.permit]) (by simp [LoadPoint.lock])
  have hd : ∀ {l}, c.point.permit = some l → _ := hs.drop hc
  generalize hp : c.point = p at hr hd
  unfold resume at hr
  split at hr
  · cases hr
    exact hs.lookUp hc (ho c hc ⟨hp,‹_›⟩)
  · cases hr
    exact he
  · cases hr
    exact he
  · split at hr <;> cases hr
    rename_i hf
    refine hs.keep hc (fun l hl => .inr ?_) (by simp [hp,LoadPoint.lock])
    cases hl
    exact hf
  · cases hr
    exact hs.keep hc (by simp [hp,LoadPoint.permit]) (by simp [hp,LoadPoint.lock])
  · cases hr
    exact hd rfl
  · cases hr
    exact hd rfl
  · cases hr
    exact he
  · cases hr

/-- While every gate is made for a key whose earlier gates are gone, a key's gate has one holder,
and its loader does not run twice at a time. -/
theorem load_gate_exclusive
    (h : Reachable (fun s => ∃ keys, s = new keys) step MadeAlone s) : Exclusive s := by
  suffices hs : Shared s from hs.exclusive
  apply h.invariant
  · rintro s ⟨keys,rfl⟩
    have hn : ∀ c ∈ (new keys).calls, c.point = .calling := by
      simp [new]
    constructor
    · intro i j l c d hc hd hl
      rw [hn c (List.mem_of_getElem? hc)] at hl
      cases hl
    · rintro k l m (h | ⟨c,hc,-,hl⟩)
      · cases h
      · rw [hn c hc] at hl
        cases hl
  · intro s a s' hs ho hst
    exact hs.step ho hst

/-- The second call waits for the first, whose loader fails, and then loads. -/
theorem load_gate_passes_on : ∃ s : LoadGates Nat,
    Reachable (fun s => ∃ keys, s = new keys) step MadeAlone s ∧
      s.calls = [⟨0, .ended⟩, ⟨0, .loading 0⟩] ∧ Exclusive s :=
  Reachable.exists_of_runs ⟨[0,0],rfl⟩
    [(0,.miss),(1,.miss),(0,.miss),(0,.miss),(0,.miss),(0,.miss),(1,.miss),(1,.miss)] rfl
    fun hr => ⟨rfl,load_gate_exclusive hr⟩

/-- The first call's gate goes out of the registry while the second waits on its lock; a third call
makes another one, and both load. -/
theorem two_loaders_of_one_key : ¬ ∀ s : LoadGates Nat,
    Reachable (fun s => ∃ keys, s = new keys) step anyStep s → Exclusive s := by
  intro ha
  have hr := ha _ (.of_start ⟨[0,0,0],rfl⟩
    [(0,.miss),(1,.miss),(0,.miss),(0,.miss),(0,.cancelled),(0,.miss),(1,.miss),(1,.miss),
      (2,.miss),(2,.miss),(2,.miss)] rfl)
  exact absurd (hr 1 2 0 1 ⟨0,.loading 0⟩ ⟨0,.loading 1⟩ rfl rfl rfl rfl rfl) (by decide)

end LoadGates

end Walleye.Cache
