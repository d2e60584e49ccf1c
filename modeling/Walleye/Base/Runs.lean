import Mathlib.Logic.Basic

namespace Walleye.Base

/-- How replacing a file ends. A failure comes before the new file has its name or, when the
directory cannot be synced, after it. -/
inductive Persisted where
  | done
  | failed (renamed : Bool) (error : String)
deriving DecidableEq, Repr

variable {σ α : Type} {init : σ → Prop} {step : σ → α → Option σ} {ok : σ → α → Prop}

/-- The states a schedule reaches when every step meets `ok` where it is taken. A step that answers
`none` is not enabled. -/
inductive Reachable (init : σ → Prop) (step : σ → α → Option σ) (ok : σ → α → Prop) : σ → Prop
  | start {s : σ} : init s → Reachable init step ok s
  | next {s s' : σ} {a : α} :
      Reachable init step ok s → ok s a → step s a = some s' → Reachable init step ok s'

def anyStep : σ → α → Prop := fun _ _ => True

instance : DecidablePred (anyStep (α := α) s) := fun _ => instDecidableTrue

theorem Reachable.invariant {P : σ → Prop} (hi : ∀ s, init s → P s)
    (hs : ∀ s a s', P s → ok s a → step s a = some s' → P s') (h : Reachable init step ok s) : P s := by
  induction h with
  | start hi' => exact hi _ hi'
  | next _ ho hst ih => exact hs _ _ _ ih ho hst

theorem Reachable.mono (ho : ∀ s a, ok s a → ok' s a)
    (h : Reachable init step ok s) : Reachable init step ok' s := by
  induction h with
  | start hi => exact .start hi
  | next _ ha hs ih => exact .next ih (ho _ _ ha) hs

/-- Run a schedule, refusing at the first step that breaks the condition or is
not enabled. -/
def runs (step : σ → α → Option σ) (ok : σ → α → Prop) [∀ s, DecidablePred (ok s)] :
    σ → List α → Option σ
  | s, [] => some s
  | s, a :: as => if ok s a then (step s a).bind fun s' => runs step ok s' as else none

theorem Reachable.of_runs [∀ s, DecidablePred (ok s)] (h : Reachable init step ok s)
    (as : List α) (hr : runs step ok s as = some s') :
    Reachable init step ok s' := by
  induction as generalizing s with
  | nil =>
    cases hr
    exact h
  | cons a as ih =>
    unfold runs at hr
    split at hr
    · rename_i ho
      obtain ⟨t,ht,hre⟩ := Option.bind_eq_some_iff.mp hr
      exact ih (h.next ho ht) hre
    · cases hr

theorem Reachable.of_start [∀ s, DecidablePred (ok s)] (hi : init s) (as : List α)
    (hr : runs step ok s as = some s') : Reachable init step ok s' :=
  Reachable.of_runs (.start hi) as hr

/-- A run that ends in a state with a property. -/
theorem Reachable.exists_of_runs [∀ s, DecidablePred (ok s)] {P : σ → Prop} (hi : init s)
    (as : List α) (hr : runs step ok s as = some s') (hp : Reachable init step ok s' → P s') :
    ∃ s, Reachable init step ok s ∧ P s :=
  ⟨s',.of_start hi as hr,hp (.of_start hi as hr)⟩

end Walleye.Base
