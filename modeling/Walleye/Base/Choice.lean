import Mathlib.Data.List.MinMax

namespace Walleye.Base

variable {α β γ : Type} [LinearOrder β] {f : α → β} {xs ys : List α}

/-- What is chosen depends on the values only, where elements of one value look the same. -/
theorem argmax_map_congr (hv : ∀ v, v ∈ xs.map f ↔ v ∈ ys.map f)
    (hl : ∀ x ∈ xs, ∀ y ∈ ys, f x = f y → g x = g y) :
    (xs.argmax f).map g = (ys.argmax f).map g := by
  cases hx : xs.argmax f with
  | none =>
    rw [List.argmax_eq_none] at hx
    subst hx
    have hn : ys.map f = [] := List.eq_nil_iff_forall_not_mem.mpr fun v => by simp [← hv]
    rw [List.map_eq_nil_iff.mp hn]
    rfl
  | some x =>
    cases hy : ys.argmax f with
    | none =>
      rw [List.argmax_eq_none] at hy
      subst hy
      have hm := (hv _).mp (List.mem_map_of_mem (List.argmax_mem hx))
      cases hm
    | some y =>
      have hxm := List.argmax_mem hx
      have hym := List.argmax_mem hy
      obtain ⟨y',hy',hf⟩ := List.mem_map.mp ((hv _).mp (List.mem_map_of_mem hxm))
      obtain ⟨x',hx',hfx⟩ := List.mem_map.mp ((hv _).mpr (List.mem_map_of_mem hym))
      have hle : f x ≤ f y := hf ▸ List.le_of_mem_argmax hy' hy
      have hg : f y ≤ f x := hfx ▸ List.le_of_mem_argmax hx' hx
      exact congrArg some (hl x hxm y hym (le_antisymm hle hg))

theorem argmax_cons_cases (f : α → β) (x : α) (xs : List α) :
    (x :: xs).argmax f = some x ∨ (x :: xs).argmax f = xs.argmax f := by
  rw [List.argmax_cons]
  cases xs.argmax f with
  | none => exact .inl rfl
  | some y =>
    dsimp only
    split
    · exact .inr rfl
    · exact .inl rfl

end Walleye.Base
