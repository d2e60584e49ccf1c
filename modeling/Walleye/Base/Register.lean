import Walleye.Base.Quorum

namespace Walleye.Base

/-- One of three members that hold a value with a revision. The histories say which values it has
held and which it took as its next revision; it is settled when it took its value that way. -/
structure Replica (V : Type) where
  current : V
  held : List V
  own : List V
  settled : Bool

abbrev Register (V : Type) := Fin 3 → Replica V

namespace Register

variable {V : Type}

def Seen (g : Register V) (v : V) : Prop :=
  TwoOf fun m => v ∈ (g m).held

def Chosen (g : Register V) (v : V) : Prop :=
  TwoOf fun m => v ∈ (g m).own

def update (g : Register V) (m : Fin 3) (replica : Replica V) : Register V :=
  fun i => if i = m then replica else g i

def advance (g : Register V) (m : Fin 3) (v : V) : Register V :=
  g.update m ⟨v, v :: (g m).held, v :: (g m).own, true⟩

def repair (g : Register V) (m : Fin 3) (v : V) : Register V :=
  g.update m ⟨v, v :: (g m).held, (g m).own, false⟩

def initial (start : Fin 3 → V) : Register V :=
  fun m => ⟨start m, [start m], [start m], true⟩

@[simp] theorem update_self (g : Register V) (m : Fin 3) (replica : Replica V) :
    g.update m replica m = replica :=
  if_pos rfl

theorem update_of_ne (g : Register V) (replica : Replica V) (h : i ≠ m) :
    g.update m replica i = g i :=
  if_neg h

variable (rev : V → Nat) (Follows : V → V → Prop)

structure Sound (g : Register V) : Prop where
  current : ∀ m, (g m).current ∈ (g m).held
  own_held : ∀ m, ∀ v ∈ (g m).own, v ∈ (g m).held
  settled : ∀ m, (g m).settled = true → (g m).current ∈ (g m).own
  /-- A member that is not settled is at a revision that two members chose. -/
  repaired : ∀ m, (g m).settled = false → ∃ v, g.Chosen v ∧ rev v = rev (g m).current
  below : ∀ m, ∀ v ∈ (g m).held, rev v ≤ rev (g m).current
  once : ∀ m, ∀ v ∈ (g m).own, ∀ u ∈ (g m).own, rev v = rev u → v = u
  origin : ∀ m, ∀ v ∈ (g m).held, v ∈ (g m).own ∨ ∃ u, g.Chosen u ∧ rev u = rev v
  /-- A member that took what two members chose never has another value of that revision. -/
  loyal : ∀ v, g.Chosen v → ∀ m, v ∈ (g m).own →
    (∀ u ∈ (g m).held, rev u = rev v → u = v) ∧
      (rev (g m).current = rev v → (g m).settled = true)
  /-- From one value of its own to another a member followed the rule, or went over a value
  that two members chose. -/
  path : ∀ m, ∀ v ∈ (g m).own, ∀ u ∈ (g m).own, rev v < rev u →
    Follows v u ∨ ∃ w, g.Chosen w ∧ w ≠ v ∧ rev v ≤ rev w ∧ rev w < rev u

variable {rev} {Follows} {g : Register V}

theorem sound_initial (start : Fin 3 → V) : Sound rev Follows (initial start) where
  current m := by simp [initial]
  own_held m := by simp [initial]
  settled m _ := by simp [initial]
  repaired m h := by simp [initial] at h
  below m := by simp [initial]
  once m := by simp [initial]
  origin m := by simp [initial]
  loyal v _ m hv := by
    have hv : v = start m := by simpa [initial] using hv
    subst hv
    simp [initial]
  path m := by simp [initial]

theorem Sound.chosen_of_seen (h : Sound rev Follows g) (hv : g.Seen v) : g.Chosen v := by
  by_cases ho : ∃ u, g.Chosen u ∧ rev u = rev v
  · obtain ⟨u,hu,hrev⟩ := ho
    obtain ⟨m,hh,how⟩ := TwoOf.meet hv hu
    have he : v = u := (h.loyal u hu m how).1 v hh hrev.symm
    exact he ▸ hu
  · apply TwoOf.mono hv
    intro m hm
    cases h.origin m v hm with
    | inl how => exact how
    | inr hc => exact absurd hc ho

theorem Sound.chosen_unique (h : Sound rev Follows g) (hv : g.Chosen v)
    (hu : g.Chosen u) (hrev : rev v = rev u) : v = u := by
  obtain ⟨m,hm,hmu⟩ := TwoOf.meet hv hu
  exact h.once m v hm u hmu hrev

theorem Sound.seen_unique (h : Sound rev Follows g) (hv : g.Seen v) (hu : g.Seen u)
    (hrev : rev v = rev u) : v = u :=
  h.chosen_unique (h.chosen_of_seen hv) (h.chosen_of_seen hu) hrev

theorem Sound.seen_follows (h : Sound rev Follows g) (hv : g.Seen v) (hu : g.Seen u)
    (hl : rev v < rev u) (hn : ∀ w, g.Seen w → ¬(rev v < rev w ∧ rev w < rev u)) :
    Follows v u := by
  have hv := h.chosen_of_seen hv
  have hu := h.chosen_of_seen hu
  obtain ⟨m,hmv,hmu⟩ := TwoOf.meet hv hu
  cases h.path m v hmv u hmu hl with
  | inl hf => exact hf
  | inr ho =>
    obtain ⟨w,hw,hne,hle,hb⟩ := ho
    have hs : g.Seen w := TwoOf.mono hw fun m hm => h.own_held m w hm
    have hbet : rev v < rev w := by
      by_contra hg
      exact hne (h.chosen_unique hw hv (by omega))
    exact absurd ⟨hbet,hb⟩ (hn w hs)

section Advance

variable {m : Fin 3} {v : V}

theorem advance_of_ne (h : i ≠ m) : g.advance m v i = g i :=
  update_of_ne g _ h

theorem chosen_advance (h : g.Chosen u) : (g.advance m v).Chosen u := by
  apply TwoOf.mono h
  intro i hi
  by_cases him : i = m
  · subst him
    simp only [advance,update_self]
    exact List.mem_cons_of_mem v hi
  · rw [advance_of_ne him]
    exact hi

theorem chosen_advance_cases (h : (g.advance m v).Chosen u) :
    g.Chosen u ∨ (u = v ∧ ∃ i, i ≠ m ∧ v ∈ (g i).own) := by
  by_cases he : u = v
  · subst he
    obtain ⟨i,hn,hi⟩ := TwoOf.other h m
    rw [advance_of_ne hn] at hi
    exact .inr ⟨rfl,i,hn,hi⟩
  · left
    apply TwoOf.mono h
    intro i hi
    by_cases him : i = m
    · subst him
      have hi : u ∈ v :: (g i).own := by simpa [advance] using hi
      exact (List.mem_cons.mp hi).resolve_left he
    · rwa [advance_of_ne him] at hi

variable (h : Sound rev Follows g) (hrev : rev v = rev (g m).current + 1)

include h hrev

theorem Sound.advance_fresh (hu : u ∈ (g m).held) : rev u < rev v := by
  have := h.below m u hu
  omega

theorem Sound.advance_chosen_eq (hu : g.Chosen u) (he : rev u = rev v)
    (hn : i ≠ m) (hi : v ∈ (g i).own) : u = v := by
  have hm : u ∉ (g m).own := by
    intro hme
    have := h.advance_fresh hrev (h.own_held m u hme)
    omega
  exact h.once i u (hu.others hm i hn) v hi he

/-- A member that took a chosen value holds no other one of its revision. -/
theorem Sound.advance_loyal (hu : (g.advance m v).Chosen u) (hi : u ∈ ((g.advance m v) i).own) :
    (∀ x ∈ ((g.advance m v) i).held, rev x = rev u → x = u) ∧
      (rev ((g.advance m v) i).current = rev u → ((g.advance m v) i).settled = true) := by
  by_cases him : i = m
  · subst him
    simp only [advance,update_self,List.mem_cons] at hi ⊢
    refine ⟨?_,fun _ => trivial⟩
    intro x hx he
    rcases hi with rfl | ho
    · rcases hx with rfl | hh
      · rfl
      · have := h.advance_fresh hrev hh
        omega
    · have hl := h.advance_fresh hrev (h.own_held i u ho)
      rcases hx with rfl | hh
      · omega
      · rcases chosen_advance_cases hu with hol | ⟨rfl,-⟩
        · exact (h.loyal u hol i ho).1 x hh he
        · omega
  · rw [advance_of_ne him] at hi ⊢
    rcases chosen_advance_cases hu with hol | ⟨rfl,-⟩
    · exact h.loyal u hol i hi
    · constructor
      · intro x hx he
        rcases h.origin i x hx with ho | ⟨w,hw,hwx⟩
        · exact h.once i x ho u hi he
        · have hwu : w = u := h.advance_chosen_eq hrev hw (hwx.trans he) him hi
          exact (h.loyal u (hwu ▸ hw) i hi).1 x hx he
      · intro he
        by_contra hun
        obtain ⟨w,hw,hwi⟩ := h.repaired i (by simpa using hun)
        have hwu : w = u := h.advance_chosen_eq hrev hw (hwi.trans he) him hi
        exact hun ((h.loyal u (hwu ▸ hw) i hi).2 he)

theorem Sound.advance_path (ht : ∀ a b c, Follows a b → Follows b c → Follows a c)
    (hf : Follows (g m).current v) (hu : u ∈ (g m).own) :
    Follows u v ∨ ∃ w, g.Chosen w ∧ w ≠ u ∧ rev u ≤ rev w ∧ rev w < rev v := by
  have hle := h.below m u (h.own_held m u hu)
  by_cases hs : (g m).settled = true
  · have ho := h.settled m hs
    by_cases he : rev u = rev (g m).current
    · exact .inl (h.once m u hu _ ho he ▸ hf)
    · rcases h.path m u hu _ ho (by omega) with hp | ⟨w,hw,hn,huw,hwc⟩
      · exact .inl (ht _ _ _ hp hf)
      · exact .inr ⟨w,hw,hn,huw,by omega⟩
  · obtain ⟨w,hw,hwc⟩ := h.repaired m (by simpa using hs)
    refine .inr ⟨w,hw,?_,by omega,by omega⟩
    intro hwu
    subst hwu
    exact hs ((h.loyal w hw m hu).2 hwc.symm)

/-- A member may take any next value that follows its current one. -/
theorem Sound.advance (ht : ∀ a b c, Follows a b → Follows b c → Follows a c)
    (hf : Follows (g m).current v) : Sound rev Follows (g.advance m v) where
  current i := by
    by_cases him : i = m
    · simp [Register.advance,him]
    · rw [advance_of_ne him]
      exact h.current i
  own_held i u hu := by
    by_cases him : i = m
    · subst him
      simp only [Register.advance,update_self,List.mem_cons] at hu ⊢
      exact hu.imp_right (h.own_held i u)
    · rw [advance_of_ne him] at hu ⊢
      exact h.own_held i u hu
  settled i hi := by
    by_cases him : i = m
    · simp [Register.advance,him]
    · rw [advance_of_ne him] at hi ⊢
      exact h.settled i hi
  repaired i hi := by
    by_cases him : i = m
    · simp [Register.advance,him] at hi
    · rw [advance_of_ne him] at hi ⊢
      obtain ⟨u,hu,he⟩ := h.repaired i hi
      exact ⟨u,chosen_advance hu,he⟩
  below i u hu := by
    by_cases him : i = m
    · subst him
      simp only [Register.advance,update_self,List.mem_cons] at hu ⊢
      rcases hu with rfl | hu
      · exact Nat.le_refl _
      · exact Nat.le_of_lt (h.advance_fresh hrev hu)
    · rw [advance_of_ne him] at hu ⊢
      exact h.below i u hu
  once i u hu x hx he := by
    by_cases him : i = m
    · subst him
      simp only [Register.advance,update_self,List.mem_cons] at hu hx
      rcases hu with rfl | hu <;> rcases hx with rfl | hx
      · rfl
      · have := h.advance_fresh hrev (h.own_held i x hx)
        omega
      · have := h.advance_fresh hrev (h.own_held i u hu)
        omega
      · exact h.once i u hu x hx he
    · rw [advance_of_ne him] at hu hx
      exact h.once i u hu x hx he
  origin i u hu := by
    by_cases him : i = m
    · subst him
      simp only [Register.advance,update_self,List.mem_cons] at hu ⊢
      rcases hu with rfl | hu
      · exact .inl (.inl rfl)
      · rcases h.origin i u hu with ho | ⟨w,hw,he⟩
        · exact .inl (.inr ho)
        · exact .inr ⟨w,chosen_advance hw,he⟩
    · rw [advance_of_ne him] at hu ⊢
      rcases h.origin i u hu with ho | ⟨w,hw,he⟩
      · exact .inl ho
      · exact .inr ⟨w,chosen_advance hw,he⟩
  loyal u hu i hi := h.advance_loyal hrev hu hi
  path i u hu x hx hl := by
    by_cases him : i = m
    · subst him
      simp only [Register.advance,update_self,List.mem_cons] at hu hx
      rcases hu with rfl | hu
      · rcases hx with rfl | hx
        · omega
        · have := h.advance_fresh hrev (h.own_held i x hx)
          omega
      · have hp : Follows u x ∨ ∃ w, g.Chosen w ∧ w ≠ u ∧ rev u ≤ rev w ∧ rev w < rev x := by
          rcases hx with rfl | hx
          · exact h.advance_path hrev ht hf hu
          · exact h.path i u hu x hx hl
        exact hp.imp_right fun ⟨w,hw,hr⟩ => ⟨w,chosen_advance hw,hr⟩
    · rw [advance_of_ne him] at hu hx
      exact (h.path i u hu x hx hl).imp_right fun ⟨w,hw,hr⟩ => ⟨w,chosen_advance hw,hr⟩

end Advance

section Repair

variable {m : Fin 3} {v pushed : V}

theorem repair_of_ne (h : i ≠ m) : g.repair m v i = g i :=
  update_of_ne g _ h

@[simp] theorem repair_own (g : Register V) (m i : Fin 3) (v : V) :
    (g.repair m v i).own = (g i).own := by
  by_cases hi : i = m
  · simp [repair,hi]
  · rw [repair_of_ne hi]

theorem chosen_repair : (g.repair m v).Chosen u ↔ g.Chosen u := by
  simp [Chosen]

variable (h : Sound rev Follows g) (hpushed : g.Seen pushed)
  (hle : rev (g m).current ≤ rev pushed)
  (hnew : ¬((g m).settled = true ∧ (g m).current = pushed))

include h hpushed hle hnew

theorem Sound.repair_new (hu : g.Chosen u) (ho : u ∈ (g m).own) : rev u ≠ rev pushed := by
  intro he
  have hs : pushed = u := h.chosen_unique (h.chosen_of_seen hpushed) hu he.symm
  subst hs
  have hg := h.below m pushed (h.own_held m pushed ho)
  have hc := (h.loyal pushed hu m ho).1 _ (h.current m) (by omega)
  exact hnew ⟨(h.loyal pushed hu m ho).2 (by omega),hc⟩

/-- A repair sets a member to a value of a revision that two members chose. -/
theorem Sound.repair (hrev : rev v = rev pushed) : Sound rev Follows (g.repair m v) where
  current i := by
    by_cases him : i = m
    · simp [Register.repair,him]
    · rw [repair_of_ne him]
      exact h.current i
  own_held i u hu := by
    rw [repair_own] at hu
    by_cases him : i = m
    · subst him
      simp only [Register.repair,update_self,List.mem_cons]
      exact .inr (h.own_held i u hu)
    · rw [repair_of_ne him]
      exact h.own_held i u hu
  settled i hi := by
    by_cases him : i = m
    · simp [Register.repair,him] at hi
    · rw [repair_of_ne him] at hi ⊢
      exact h.settled i hi
  repaired i hi := by
    simp only [chosen_repair]
    by_cases him : i = m
    · subst him
      simp only [Register.repair,update_self]
      exact ⟨pushed,h.chosen_of_seen hpushed,hrev.symm⟩
    · rw [repair_of_ne him] at hi ⊢
      exact h.repaired i hi
  below i u hu := by
    by_cases him : i = m
    · subst him
      simp only [Register.repair,update_self,List.mem_cons] at hu ⊢
      rcases hu with rfl | hu
      · exact Nat.le_refl _
      · have := h.below i u hu
        omega
    · rw [repair_of_ne him] at hu ⊢
      exact h.below i u hu
  once i u hu x hx he := by
    rw [repair_own] at hu hx
    exact h.once i u hu x hx he
  origin i u hu := by
    simp only [chosen_repair,repair_own]
    by_cases him : i = m
    · subst him
      simp only [Register.repair,update_self,List.mem_cons] at hu
      rcases hu with rfl | hu
      · exact .inr ⟨pushed,h.chosen_of_seen hpushed,hrev.symm⟩
      · exact h.origin i u hu
    · rw [repair_of_ne him] at hu
      exact h.origin i u hu
  loyal u hu i hi := by
    rw [chosen_repair] at hu
    rw [repair_own] at hi
    by_cases him : i = m
    · subst him
      have hn := h.repair_new hpushed hle hnew hu hi
      simp only [Register.repair,update_self,List.mem_cons]
      constructor
      · intro x hx he
        rcases hx with rfl | hx
        · omega
        · exact (h.loyal u hu i hi).1 x hx he
      · intro he
        omega
    · rw [repair_of_ne him]
      exact h.loyal u hu i hi
  path i u hu x hx hl := by
    simp only [chosen_repair,repair_own] at hu hx ⊢
    exact h.path i u hu x hx hl

end Repair

end Register

end Walleye.Base
