import Mathlib.Logic.Basic

namespace Walleye.Base

variable {ε α : Type}

variable {a : Except ε α}

@[simp]
theorem guard_ok {p : Prop} [Decidable p] {e : ε} :
    (if p then .error e else a) = .ok b ↔ ¬p ∧ a = .ok b := by
  by_cases hp : p <;> simp [hp]

theorem Except.bind_eq_ok {β : Type} {f : α → Except ε β} {b : β} :
    a.bind f = .ok b ↔ ∃ x, a = .ok x ∧ f x = .ok b := by
  cases a with
  | error e => simp [Except.bind]
  | ok x => simp [Except.bind]

theorem Except.map_eq_ok {β : Type} {f : α → β} {b : β} :
    a.map f = .ok b ↔ ∃ x, a = .ok x ∧ f x = b := by
  cases a with
  | error e => simp [Except.map]
  | ok x => simp [Except.map]

theorem Except.mapError_eq_ok {ε' : Type} {f : ε → ε'} : a.mapError f = .ok b ↔ a = .ok b := by
  cases a with
  | error e =>
    constructor
    · intro h
      cases h
    · intro h
      cases h
  | ok x =>
    constructor
    · intro h
      cases h
      rfl
    · intro h
      cases h
      rfl

theorem Except.toOption_eq_some : a.toOption = some b ↔ a = .ok b := by
  cases a <;> simp [Except.toOption]

end Walleye.Base
