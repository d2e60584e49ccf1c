import Mathlib.Data.List.Basic
import Mathlib.Order.Basic

namespace Walleye.Base

/-- How the ranges of a list are read: where one starts, and its last number unless it is open. -/
structure Ranged (α : Type) where
  first : α → Nat
  last : α → Option Nat

namespace Ranged

variable {α : Type} (r : Ranged α)

def Covers (x : α) (k : Nat) : Prop :=
  r.first x ≤ k ∧ ∀ e ∈ r.last x, k ≤ e

instance (x : α) (k : Nat) : Decidable (r.Covers x k) :=
  inferInstanceAs (Decidable (_ ∧ _))

/-- The next range starts right after the end of a sealed one. -/
def Adjacent (x y : α) : Prop :=
  ∀ e ∈ r.last x, r.first y = e + 1

/-- Ranges that follow one another from `n` on, all but the open last one sealed. -/
def Tiles : Nat → List α → Prop
  | _, [] => False
  | n, x :: rest =>
    r.first x = n ∧
      match r.last x with
      | none => rest = []
      | some e => n ≤ e ∧ Tiles (e + 1) rest

variable {r}

theorem Tiles.cons_open (h : r.Tiles n (x :: rest)) (hx : r.last x = none) : rest = [] := by
  obtain ⟨-,h⟩ := h
  rw [hx] at h
  exact h

theorem Tiles.cons_sealed (h : r.Tiles n (x :: rest))
    (hx : r.last x = some e) : n ≤ e ∧ r.Tiles (e + 1) rest := by
  obtain ⟨-,h⟩ := h
  rw [hx] at h
  exact h

theorem Tiles.le_first (h : r.Tiles n xs) : ∀ x ∈ xs, n ≤ r.first x := by
  induction xs generalizing n with
  | nil => simp
  | cons y rest ih =>
    intro x hx
    cases List.mem_cons.mp hx with
    | inl he =>
      subst he
      exact Nat.le_of_eq h.1.symm
    | inr hm =>
      cases hy : r.last y with
      | none =>
        rw [h.cons_open hy] at hm
        cases hm
      | some e =>
        obtain ⟨hl,hr⟩ := h.cons_sealed hy
        have := ih hr x hm
        omega

theorem Tiles.sealed (h : r.Tiles n xs) : ∀ x ∈ xs.dropLast, r.last x ≠ none := by
  induction xs generalizing n with
  | nil => simp
  | cons y rest ih =>
    cases rest with
    | nil => simp
    | cons z rest =>
      cases hy : r.last y with
      | none => cases h.cons_open hy
      | some e =>
        intro x hx
        rw [List.dropLast_cons_of_ne_nil (by simp)] at hx
        cases List.mem_cons.mp hx with
        | inl he => simp [he,hy]
        | inr hm => exact ih (h.cons_sealed hy).2 x hm

/-- A number past the start lies in exactly one range, and the search finds it. -/
theorem Tiles.covered (h : r.Tiles n xs) (hk : n ≤ k) :
    ∃ (i : Nat) (x : α), xs[i]? = some x ∧ xs.find? (r.Covers · k) = some x ∧
      ∀ (j : Nat) (y : α), xs[j]? = some y → r.Covers y k → j = i := by
  induction xs generalizing n with
  | nil => cases h
  | cons x rest ih =>
    have hfir : r.first x ≤ k := by
      have := h.1
      omega
    by_cases hx : r.Covers x k
    · refine ⟨0,x,rfl,by simp [hx],?_⟩
      intro j y hj hy
      cases j with
      | zero => rfl
      | succ j =>
        have hm : y ∈ rest := List.mem_of_getElem? hj
        cases hl : r.last x with
        | none =>
          rw [h.cons_open hl] at hm
          cases hm
        | some e =>
          have ha := (h.cons_sealed hl).2.le_first y hm
          have hle : k ≤ e := hx.2 e hl
          have := hy.1
          omega
    · cases hl : r.last x with
      | none =>
        refine absurd ⟨hfir,?_⟩ hx
        simp [hl]
      | some e =>
        have ha : e + 1 ≤ k := by
          by_contra hlt
          refine hx ⟨hfir,?_⟩
          simp only [hl,Option.mem_some_iff,forall_eq']
          omega
        obtain ⟨i,y,hi,hf,ho⟩ := ih (h.cons_sealed hl).2 ha
        refine ⟨i + 1,y,hi,by simp [hx,hf],?_⟩
        intro j z hj hz
        cases j with
        | zero =>
          cases hj
          exact absurd hz hx
        | succ j => rw [ho j z hj hz]

/-- A range starts right after the end of the one before it. -/
theorem Tiles.adjacent (h : r.Tiles n xs) (hx : xs[i]? = some x) (hy : xs[i + 1]? = some y) :
    ∃ e, r.last x = some e ∧ r.first y = e + 1 := by
  induction xs generalizing n i with
  | nil => cases h
  | cons z rest ih =>
    cases hl : r.last z with
    | none =>
      rw [h.cons_open hl] at hy
      simp at hy
    | some e =>
      have hr := (h.cons_sealed hl).2
      cases i with
      | zero =>
        cases hx
        refine ⟨e,hl,?_⟩
        cases rest with
        | nil => cases hr
        | cons w rest =>
          cases hy
          exact hr.1
      | succ i => exact ih hr hx hy

end Ranged

end Walleye.Base
