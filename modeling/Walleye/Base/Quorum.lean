import Mathlib.Data.Fintype.Basic

namespace Walleye.Base

instance threeMembers : @NeZero Nat Zero.ofOfNat0 3 := ⟨by decide⟩

theorem exists_third (a b : Fin 3) : ∃ c, c ≠ a ∧ c ≠ b := by
  revert a b
  decide

variable {P Q : Fin 3 → Prop}

def TwoOf (P : Fin 3 → Prop) : Prop :=
  ∃ m m', m ≠ m' ∧ P m ∧ P m'

instance [DecidablePred P] : Decidable (TwoOf P) :=
  inferInstanceAs (Decidable (∃ _, _))

theorem TwoOf.mono (h : TwoOf P) (hp : ∀ m, P m → Q m) : TwoOf Q := by
  obtain ⟨m,m',hn,hm,hm'⟩ := h
  exact ⟨m,m',hn,hp m hm,hp m' hm'⟩

theorem TwoOf.meet (hp : TwoOf P) (hq : TwoOf Q) : ∃ m, P m ∧ Q m := by
  obtain ⟨a,b,hab,ha,hb⟩ := hp
  obtain ⟨c,d,hcd,hc,hd⟩ := hq
  have hs : a = c ∨ a = d ∨ b = c ∨ b = d := by omega
  rcases hs with rfl | rfl | rfl | rfl
  · exact ⟨a,ha,hc⟩
  · exact ⟨a,ha,hd⟩
  · exact ⟨b,hb,hc⟩
  · exact ⟨b,hb,hd⟩

theorem TwoOf.others (h : TwoOf P) (hm : ¬P m) (m' : Fin 3) (hn : m' ≠ m) : P m' := by
  obtain ⟨a,b,hab,ha,hb⟩ := h
  have hc : a = m ∨ b = m ∨ a = m' ∨ b = m' := by omega
  rcases hc with rfl | rfl | rfl | rfl
  · exact absurd ha hm
  · exact absurd hb hm
  · exact ha
  · exact hb

theorem TwoOf.other (h : TwoOf P) (m : Fin 3) : ∃ m', m' ≠ m ∧ P m' := by
  obtain ⟨a,b,hab,ha,hb⟩ := h
  by_cases he : a = m
  · exact ⟨b,fun hbm => hab (he.trans hbm.symm),hb⟩
  · exact ⟨a,he,ha⟩

def countOf (P : Fin 3 → Prop) [DecidablePred P] : Nat :=
  ([0, 1, 2] : List (Fin 3)).countP P

variable [DecidablePred P] [DecidablePred Q]

theorem two_le_countOf : 2 ≤ countOf P ↔ TwoOf P := by
  by_cases h0 : P 0 <;> by_cases h1 : P 1 <;> by_cases h2 : P 2 <;>
    simp [countOf,TwoOf,Fin.exists_fin_succ,h0,h1,h2]

theorem countOf_pos : 0 < countOf P ↔ ∃ m, P m := by
  by_cases h0 : P 0 <;> by_cases h1 : P 1 <;> by_cases h2 : P 2 <;>
    simp [countOf,Fin.exists_fin_succ,h0,h1,h2]

theorem countOf_all (h : ∀ m, P m) : countOf P = 3 := by
  simp [countOf,h]

theorem countOf_le_two (h : ¬P m) : countOf P ≤ 2 := by
  by_contra hl
  have ha : ∀ x, P x := by
    by_cases h0 : P 0 <;> by_cases h1 : P 1 <;> by_cases h2 : P 2 <;>
      simp [countOf,Fin.forall_fin_succ,h0,h1,h2] at hl ⊢
  exact h (ha m)

end Walleye.Base
