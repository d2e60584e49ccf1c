import Mathlib.Data.List.Basic

namespace Walleye.Base

variable {α : Type}

/-- What a reader of an object sees after its first `n` writes. -/
def valueAt (values : List α) : Nat → Option α
  | 0 => none
  | n + 1 => values[n]?

/-- A write conditional on the version read: the object took `seen` writes then, and
takes this one only if it has taken no other since. -/
def putIf (values : List α) (seen : Nat) (x : α) : Option (List α) :=
  if values.length = seen then some (values ++ [x]) else none

def History (R : Option α → α → Prop) (values : List α) : Prop :=
  ∀ n x, values[n]? = some x → R (valueAt values n) x

/-- A conditional write that may still arrive, after the version it was computed from. -/
structure Pending (R : Option α → α → Prop) (values : List α) (seen : Nat) (x : α) : Prop where
  known : seen ≤ values.length
  follows : R (valueAt values seen) x

@[simp]
theorem valueAt_length (values : List α) : valueAt values values.length = values.getLast? := by
  cases values with
  | nil => rfl
  | cons x rest => simp [valueAt,List.getLast?_eq_getElem?]

theorem le_of_valueAt (h : valueAt values n = some x) : n ≤ values.length := by
  cases n with
  | zero => exact Nat.zero_le _
  | succ n => exact (List.getElem?_eq_some_iff.mp h).1

theorem valueAt_append (hn : n ≤ values.length) (more : List α) :
    valueAt (values ++ more) n = valueAt values n := by
  cases n with
  | zero => rfl
  | succ n => exact List.getElem?_append_left hn

theorem putIf_eq_some :
    putIf values seen x = some values' ↔ values.length = seen ∧ values' = values ++ [x] := by
  unfold putIf
  split
  · rename_i h
    simp [h,eq_comm]
  · rename_i h
    simp [h]

variable {values : List α}

theorem History.nil : History R ([] : List α) := by
  intro n x hx
  simp at hx

theorem Pending.append (h : Pending R values seen x) (more : List α) :
    Pending R (values ++ more) seen x where
  known := by
    rw [List.length_append]
    exact Nat.le_add_right_of_le h.known
  follows := by
    rw [valueAt_append h.known]
    exact h.follows

/-- A conditional put extends the history by a related value. -/
theorem History.putIf (h : History R values)
    (hx : Pending R values seen x) (hp : putIf values seen x = some values') :
    History R values' := by
  obtain ⟨rfl,rfl⟩ := putIf_eq_some.mp hp
  intro n y hy
  rcases Nat.lt_trichotomy n values.length with hl | rfl | hg
  · rw [List.getElem?_append_left hl] at hy
    rw [valueAt_append (Nat.le_of_lt hl)]
    exact h n y hy
  · rw [List.getElem?_concat_length] at hy
    cases hy
    rw [valueAt_append (Nat.le_refl _)]
    exact hx.follows
  · have hn : (values ++ [x])[n]? = none := by
      apply List.getElem?_eq_none
      simp only [List.length_append,List.length_singleton]
      omega
    rw [hn] at hy
    cases hy

theorem persists {P : α → Prop}
    (hs : ∀ n y x, values[n]? = some y → values[n + 1]? = some x → P y → P x) {i j : Nat}
    (hi : i ≤ j) (hy : values[i]? = some y) (hx : values[j]? = some x) (hP : P y) :
    P x := by
  induction hi generalizing x with
  | refl =>
    cases hy.symm.trans hx
    exact hP
  | @step j hi ih =>
    have hl : j < values.length := by
      have := (List.getElem?_eq_some_iff.mp hx).1
      omega
    have hz := List.getElem?_eq_getElem hl
    exact hs j _ x hz hx (ih hz)

end Walleye.Base
