import Mathlib.Data.List.Basic

namespace Walleye.Base

variable {α : Type}

def total (f : α → Nat) : List α → Nat
  | [] => 0
  | a :: l => f a + total f l

@[simp] theorem total_nil (f : α → Nat) : total f [] = 0 := rfl

@[simp] theorem total_cons (f : α → Nat) (a : α) (l : List α) :
    total f (a :: l) = f a + total f l := rfl

@[simp] theorem total_append (f : α → Nat) (l l' : List α) :
    total f (l ++ l') = total f l + total f l' := by
  induction l with
  | nil => simp
  | cons a l ih =>
    simp only [List.cons_append,total_cons,ih]
    omega

theorem total_eq_zero : total f l = 0 ↔ ∀ a ∈ l, f a = 0 := by
  induction l with
  | nil => simp
  | cons a l ih => simp [ih]

theorem total_set (f : α → Nat) (h : l[i]? = some a) (b : α) :
    total f (l.set i b) + f a = total f l + f b := by
  induction l generalizing i with
  | nil => simp at h
  | cons x l ih =>
    cases i with
    | zero =>
      obtain rfl : x = a := by simpa using h
      simp only [List.set_cons_zero,total_cons]
      omega
    | succ i =>
      have hr := ih (by simpa using h)
      simp only [List.set_cons_succ,total_cons]
      omega

theorem total_le (f g : α → Nat) (h : ∀ a, f a ≤ g a) : total f l ≤ total g l := by
  induction l with
  | nil => simp
  | cons x l ih =>
    have hx := h x
    simp only [total_cons]
    omega

end Walleye.Base
