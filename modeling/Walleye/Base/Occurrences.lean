import Mathlib.Data.Option.Basic
import Mathlib.Order.Basic

namespace Walleye.Base

def later (next : Nat → Option Nat) : Nat → Nat → Option Nat
  | 0, instant => some instant
  | steps + 1, instant => (later next steps instant).bind next

variable {next : Nat → Option Nat}

theorem later_add (next : Nat → Option Nat) (instant j k : Nat) :
    later next (j + k) instant = (later next j instant).bind (later next k) := by
  induction k with
  | zero => simp [later]
  | succ k ih =>
    rw [← Nat.add_assoc,later,ih,Option.bind_assoc]
    rfl

theorem later_succ_left (k : Nat) :
    later next (k + 1) instant = (next instant).bind (later next k) := by
  rw [Nat.add_comm,later_add,later,later,Option.bind_some]

def Increasing (next : Nat → Option Nat) : Prop := ∀ t t', next t = some t' → t < t'

theorem later_le (hn : Increasing next) (h : later next k instant = some other) :
    instant + k ≤ other := by
  induction k generalizing other with
  | zero =>
    cases h
    exact Nat.le_refl _
  | succ k ih =>
    obtain ⟨mid,hm,hl⟩ := Option.bind_eq_some_iff.mp h
    have := ih hm
    have := hn _ _ hl
    omega

theorem later_lt (hn : Increasing next) (hj : later next j instant = some a)
    (hk : later next k instant = some b) (hl : j < k) : a < b := by
  have hs := later_add next instant j (k - j)
  rw [show j + (k - j) = k by omega,hj,hk,Option.bind_some] at hs
  have := later_le hn hs.symm
  omega

theorem later_inj (hn : Increasing next) (hj : later next j instant = some a)
    (hk : later next k instant = some a) : j = k := by
  rcases Nat.lt_trichotomy j k with h | h | h
  · exact absurd (later_lt hn hj hk h) (Nat.lt_irrefl _)
  · exact h
  · exact absurd (later_lt hn hk hj h) (Nat.lt_irrefl _)

theorem later_mono (hn : Increasing next) (hj : later next j instant = some a)
    (hk : later next k instant = some b) (hl : a ≤ b) : j ≤ k := by
  by_contra hlt
  have := later_lt hn hk hj (by omega)
  omega

end Walleye.Base
