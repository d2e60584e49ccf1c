import Mathlib
import Walleye.Base.Guards

namespace Walleye.Base

open Std (ExtTreeMap)

/-- A map kept in the order of its keys, equal to another when it has the same entries. -/
abbrev BTreeMap (κ β : Type) [LinearOrder κ] := ExtTreeMap κ β (compare : κ → κ → Ordering)

variable {κ β ε : Type} [LinearOrder κ]

namespace BTreeMap

scoped instance transCmp : Std.TransCmp (compare : κ → κ → Ordering) := inferInstance

scoped instance lawfulEqCmp : Std.LawfulEqCmp (compare : κ → κ → Ordering) := inferInstance

scoped instance lawfulBEq : LawfulBEq κ := inferInstance

instance decidableEq [DecidableEq β] : DecidableEq (BTreeMap κ β) := inferInstance

end BTreeMap

open BTreeMap

variable {α : Type} {m next : BTreeMap κ β}

theorem forM_eq_ok {f : α → Except ε Unit} {xs : List α} :
    xs.forM f = .ok () ↔ ∀ x ∈ xs, f x = .ok () := by
  induction xs with
  | nil => simp [List.forM,pure,Except.pure]
  | cons x xs ih =>
    cases hx : f x with
    | error e => simp [List.forM,hx,bind,Except.bind]
    | ok u => simpa [List.forM,hx,bind,Except.bind] using ih

def BTreeMap.valuesOf (m : BTreeMap κ β) : List β := m.toList.map (·.2)

theorem BTreeMap.mem_valuesOf : v ∈ m.valuesOf ↔ ∃ k : κ, m[k]? = some v := by
  simp only [BTreeMap.valuesOf,List.mem_map,Prod.exists,exists_eq_right]
  simp only [ExtTreeMap.mem_toList_iff_getElem?_eq_some]

def BTreeMap.tabulate (keys : List κ) (f : κ → β) : BTreeMap κ β :=
  keys.foldl (fun m k => m.insert k (f k)) ∅

theorem BTreeMap.getElem?_tabulate (keys : List κ) (f : κ → β) (k : κ) :
    (BTreeMap.tabulate keys f)[k]? = if k ∈ keys then some (f k) else none := by
  have hf : ∀ (keys : List κ) (m : BTreeMap κ β),
      (keys.foldl (fun m k => m.insert k (f k)) m)[k]? =
        if k ∈ keys then some (f k) else m[k]? := by
    intro keys
    induction keys with
    | nil => simp
    | cons key rest ih =>
      intro m
      rw [List.foldl_cons,ih,ExtTreeMap.getElem?_insert]
      by_cases hk : k = key
      · simp [hk]
      · simp [hk,Ne.symm hk]
  rw [BTreeMap.tabulate,hf]
  simp

theorem BTreeMap.getElem?_foldl_erase (keys : List κ) (m : BTreeMap κ β) (k : κ) :
    (keys.foldl (fun kept key => kept.erase key) m)[k]? = if k ∈ keys then none else m[k]? := by
  induction keys generalizing m with
  | nil => simp
  | cons key rest ih =>
    rw [List.foldl_cons,ih,ExtTreeMap.getElem?_erase]
    by_cases hk : k = key
    · simp [hk]
    · simp [hk,Ne.symm hk]

def BTreeMap.mapValuesM {γ : Type} (f : β → Except ε γ) (m : BTreeMap κ β) :
    Except ε (BTreeMap κ γ) :=
  (m.toList.mapM fun entry => (f entry.2).map fun v => (entry.1, v)).map (ExtTreeMap.ofList · compare)

/-- A map with failures succeeds exactly when every element does. -/
theorem mapM_eq_ok {f : α → Except ε γ} :
    xs.mapM f = .ok ys ↔ List.Forall₂ (fun x y => f x = .ok y) xs ys := by
  induction xs generalizing ys with
  | nil => simp [pure,Except.pure,eq_comm]
  | cons x xs ih =>
    rw [List.mapM_cons]
    cases hx : f x with
    | error e =>
      constructor
      · intro h
        cases h
      · intro h
        cases h with
        | cons hy _ => simp [hx] at hy
    | ok y =>
      cases hxs : xs.mapM f with
      | error e =>
        constructor
        · intro h
          cases h
        · intro h
          cases h with
          | cons _ hr => simp [ih.mpr hr] at hxs
      | ok zs =>
        simp only [bind,Except.bind,pure,Except.pure,Except.ok.injEq]
        constructor
        · intro h
          subst h
          exact .cons hx (ih.mp hxs)
        · intro h
          cases h with
          | cons hy hr =>
            rw [ih.mpr hr] at hxs
            rw [hx] at hy
            cases hy
            cases hxs
            rfl

theorem BTreeMap.ofList_toList (m : BTreeMap κ β) : ExtTreeMap.ofList m.toList compare = m := by
  apply ExtTreeMap.ext_getElem?
  intro k
  cases h : m[k]? with
  | some v =>
    have hm : (k,v) ∈ m.toList := ExtTreeMap.mem_toList_iff_getElem?_eq_some.mpr h
    exact ExtTreeMap.getElem?_ofList_of_mem (by simp) ExtTreeMap.distinct_keys_toList hm
  | none =>
    apply ExtTreeMap.getElem?_ofList_of_contains_eq_false
    simp [List.contains_eq_mem,ExtTreeMap.mem_iff_isSome_getElem?,h]

/-- A key that is listed reads one of its listed values. -/
theorem BTreeMap.getElem?_ofList (h : k ∈ entries.map (·.1)) :
    ∃ v, (ExtTreeMap.ofList entries compare : BTreeMap κ β)[k]? = some v ∧ (k,v) ∈ entries := by
  have hf : ∀ (entries : List (κ × β)) (m : BTreeMap κ β),
      (∃ v, m[k]? = some v) ∨ k ∈ entries.map (·.1) →
      ∃ v, (entries.foldl (fun m e => m.insert e.1 e.2) m)[k]? = some v ∧
        (m[k]? = some v ∨ (k,v) ∈ entries) := by
    intro entries
    induction entries with
    | nil =>
      intro m hm
      simpa using hm
    | cons e rest ih =>
      intro m hm
      have hi : (m.insert e.1 e.2)[k]? = if e.1 = k then some e.2 else m[k]? := by
        simp [ExtTreeMap.getElem?_insert]
      have hn : (∃ v, (m.insert e.1 e.2)[k]? = some v) ∨ k ∈ rest.map (·.1) := by
        rw [hi]
        by_cases hk : e.1 = k
        · exact .inl ⟨e.2,if_pos hk⟩
        · simpa [hk,Ne.symm hk] using hm
      obtain ⟨v,hv,hfr⟩ := ih _ hn
      refine ⟨v,hv,?_⟩
      cases hfr with
      | inr hme => exact .inr (List.mem_cons_of_mem _ hme)
      | inl hm =>
        rw [hi] at hm
        by_cases hk : e.1 = k
        · rw [if_pos hk] at hm
          exact .inr (by simp [← hk,← Option.some.inj hm])
        · rw [if_neg hk] at hm
          exact .inl hm
  rw [ExtTreeMap.ofList_eq_foldl]
  obtain ⟨v,hv,hfr⟩ := hf entries ∅ (.inr h)
  refine ⟨v,hv,?_⟩
  cases hfr with
  | inl he => simp at he
  | inr hme => exact hme

theorem BTreeMap.mapValuesM_self {f : β → Except ε β}
    (h : ∀ v ∈ m.valuesOf, f v = .ok v) : m.mapValuesM f = .ok m := by
  have hl : (m.toList.mapM fun entry => (f entry.2).map fun v => (entry.1,v)) =
      .ok m.toList := by
    apply mapM_eq_ok.mpr
    apply List.forall₂_same.mpr
    intro entry he
    rw [h entry.2 (List.mem_map_of_mem he)]
    rfl
  rw [BTreeMap.mapValuesM,hl]
  exact congrArg Except.ok m.ofList_toList

theorem eq_of_mapM {f : α → Except ε α} {xs ys : List α} (h : xs.mapM f = .ok ys)
    (hf : ∀ x ∈ xs, ∀ y, f x = .ok y → y = x) : ys = xs := by
  have ha := mapM_eq_ok.mp h
  clear h
  induction ha with
  | nil => rfl
  | cons hxy _ ih =>
    rw [hf _ List.mem_cons_self _ hxy,ih fun x hx => hf x (List.mem_cons_of_mem _ hx)]

theorem BTreeMap.eq_of_mapValuesM {f : β → Except ε β} {m' : BTreeMap κ β}
    (h : m.mapValuesM f = .ok m') (hf : ∀ v ∈ m.valuesOf, ∀ w, f v = .ok w → w = v) : m' = m := by
  obtain ⟨entries,hent,rfl⟩ := Except.map_eq_ok.mp h
  have hs : entries = m.toList := by
    apply eq_of_mapM hent
    intro entry he result hr
    obtain ⟨w,hw,rfl⟩ := Except.map_eq_ok.mp hr
    rw [hf entry.2 (List.mem_map_of_mem he) w hw]
  rw [hs,m.ofList_toList]

def carryEntry [DecidableEq β] (conflict : κ → β → ε) (next : BTreeMap κ β) (entry : κ × β) :
    Except ε (BTreeMap κ β) :=
  match next[entry.1]? with
  | some candidate => if candidate ≠ entry.2 then .error (conflict entry.1 entry.2) else .ok next
  | none => .ok (next.insert entry.1 entry.2)

def carryForward [DecidableEq β] (conflict : κ → β → ε) (current next : BTreeMap κ β) :
    Except ε (BTreeMap κ β) :=
  current.toList.foldlM (carryEntry conflict) next

theorem find?_toList (m : BTreeMap κ β) (k : κ) : (m.toList.find? (·.1 = k)).map (·.2) = m[k]? := by
  cases h : m[k]? with
  | some v =>
    have hm : (k,v) ∈ m.toList := ExtTreeMap.mem_toList_iff_getElem?_eq_some.mpr h
    cases hf : m.toList.find? (·.1 = k) with
    | none => simpa using List.find?_eq_none.mp hf _ hm
    | some e =>
      have hk : e.1 = k := by simpa using List.find?_some hf
      have he := ExtTreeMap.mem_toList_iff_getElem?_eq_some.mp (List.mem_of_find?_eq_some hf)
      rw [hk,h] at he
      exact he.symm
  | none =>
    rw [Option.map_eq_none_iff,List.find?_eq_none]
    intro e he hk
    have he := ExtTreeMap.mem_toList_iff_getElem?_eq_some.mp he
    rw [show e.1 = k by simpa using hk,h] at he
    cases he

theorem getElem?_insert_or (h : next[key]? = none) (value : β)
    (k : κ) : (next.insert key value)[k]? =
      next[k]?.or (if key = k then some value else none) := by
  rw [ExtTreeMap.getElem?_insert]
  by_cases hk : key = k
  · subst hk
    simp [h]
  · simp [hk]

theorem or_entry (h : next[key]? = some value)
    (k : κ) : next[k]?.or (if key = k then some value else none) = next[k]? := by
  by_cases hk : key = k
  · subst hk
    simp [h]
  · simp [hk]

variable [DecidableEq β]

theorem carryEntry_eq_ok :
    carryEntry conflict next entry = .ok m ↔
      (∀ v, next[entry.1]? = some v → v = entry.2) ∧
        ∀ k, m[k]? = next[k]?.or (if entry.1 = k then some entry.2 else none) := by
  unfold carryEntry
  cases h : next[entry.1]? with
  | none =>
    simp only [Except.ok.injEq,reduceCtorEq,false_implies,implies_true,true_and,
      ← getElem?_insert_or h]
    exact ⟨fun hm k => hm ▸ rfl,fun hm => (ExtTreeMap.ext_getElem? hm).symm⟩
  | some candidate =>
    simp only [ne_eq,guard_ok,not_not,Option.some.injEq,forall_eq',Except.ok.injEq]
    apply and_congr_right
    rintro rfl
    simp only [or_entry h]
    exact ⟨fun hm k => hm ▸ rfl,fun hm => (ExtTreeMap.ext_getElem? hm).symm⟩

theorem carryEntry_total (conflict : κ → β → ε) (h : ∀ v, next[entry.1]? = some v → v = entry.2) :
    ∃ m, carryEntry conflict next entry = .ok m := by
  unfold carryEntry
  cases hv : next[entry.1]? with
  | none => exact ⟨_,rfl⟩
  | some candidate => exact ⟨next,by simp [h candidate hv]⟩

/-- Carrying entries over succeeds exactly without conflicts, and the target's own come first. -/
theorem carryEntries_eq_ok {entries : List (κ × β)} (hke : entries.Pairwise (·.1 ≠ ·.1)) :
    entries.foldlM (carryEntry conflict) next = .ok m ↔
      (∀ e ∈ entries, ∀ v, next[e.1]? = some v → v = e.2) ∧
        ∀ k, m[k]? = next[k]?.or ((entries.find? (·.1 = k)).map (·.2)) := by
  induction entries generalizing next with
  | nil =>
    simp only [List.foldlM_nil,pure,Except.pure,Except.ok.injEq,List.not_mem_nil,List.find?_nil,
      Option.map_none,Option.or_none,false_implies,implies_true,true_and]
    exact ⟨fun h k => h ▸ rfl,fun h => (ExtTreeMap.ext_getElem? h).symm⟩
  | cons e rest ih =>
    obtain ⟨hne,hr⟩ := List.pairwise_cons.mp hke
    have hf : (e :: rest).foldlM (carryEntry conflict) next =
        (carryEntry conflict next e).bind (rest.foldlM (carryEntry conflict)) := rfl
    have hl : ∀ q ∈ rest, (if e.1 = q.1 then some e.2 else none) = none := by
      intro q hq
      exact if_neg (hne q hq)
    have ho : ∀ k, (next[k]?.or (if e.1 = k then some e.2 else none)).or
          ((rest.find? (·.1 = k)).map (·.2)) =
        next[k]?.or (((e :: rest).find? (·.1 = k)).map (·.2)) := by
      intro k
      by_cases hk : e.1 = k <;> simp [hk]
    rw [hf,Except.bind_eq_ok]
    constructor
    · rintro ⟨n,hn,hm⟩
      obtain ⟨hfi,hg⟩ := carryEntry_eq_ok.mp hn
      obtain ⟨hot,hm⟩ := (ih hr).mp hm
      refine ⟨List.forall_mem_cons.mpr ⟨hfi,?_⟩,?_⟩
      · intro q hq v hv
        apply hot q hq v
        simp [hg,hl q hq,hv]
      · intro k
        rw [hm k,hg k,ho k]
    · rintro ⟨ha,hm⟩
      obtain ⟨hfi,hot⟩ := List.forall_mem_cons.mp ha
      obtain ⟨n,hn⟩ := carryEntry_total conflict hfi
      have hg := (carryEntry_eq_ok.mp hn).2
      refine ⟨n,hn,(ih hr).mpr ⟨?_,?_⟩⟩
      · intro q hq v hv
        apply hot q hq v
        simpa [hg,hl q hq] using hv
      · intro k
        rw [hm k,hg k,ho k]

theorem carryForward_eq_ok {current : BTreeMap κ β} :
    carryForward conflict current next = .ok m ↔
      (∀ (k : κ) v w, current[k]? = some v → next[k]? = some w → w = v) ∧
        ∀ k : κ, m[k]? = next[k]?.or current[k]? := by
  have hk : current.toList.Pairwise (·.1 ≠ ·.1) := by
    apply ExtTreeMap.distinct_keys_toList.imp
    intro a b ha
    simpa using ha
  rw [carryForward,carryEntries_eq_ok hk]
  simp only [find?_toList,Prod.forall,ExtTreeMap.mem_toList_iff_getElem?_eq_some]
  apply and_congr_left'
  exact ⟨fun h k v w hv hw => h k v hv w hw,fun h k v hv w hw => h k v w hv hw⟩

end Walleye.Base
