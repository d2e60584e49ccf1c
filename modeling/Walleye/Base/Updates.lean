import Mathlib.Algebra.Order.Group.Multiset
import Mathlib.Data.List.Perm.Basic

namespace Walleye.Base

open scoped List

/-- The entries of a map after one was written. -/
theorem update_eq_some [DecidableEq ι] {f : ι → Option α} :
    Function.update f i (some a) j = some b ↔ j = i ∧ a = b ∨ j ≠ i ∧ f j = some b := by
  by_cases h : j = i
  · subst h
    simp
  · simp [h]

/-- An element of a list is replaced. -/
theorem coe_set_add {l : List α} (h : l[i]? = some a) (b : α) :
    (l.set i b : Multiset α) + {a} = l + {b} := by
  obtain ⟨hl,rfl⟩ := List.getElem?_eq_some_iff.mp h
  rw [add_comm,add_comm (l : Multiset α),Multiset.singleton_add,Multiset.singleton_add,
    Multiset.cons_coe,Multiset.cons_coe,Multiset.coe_eq_coe]
  calc l[i] :: l.set i b
      _ ~ l[i] :: b :: l.eraseIdx i := (List.set_perm_cons_eraseIdx hl b).cons _
      _ ~ b :: l[i] :: l.eraseIdx i := .swap ..
      _ ~ b :: l := (List.getElem_cons_eraseIdx_perm hl).cons _

end Walleye.Base
