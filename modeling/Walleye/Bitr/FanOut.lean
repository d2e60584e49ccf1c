import Walleye.Base.Quorum
import Walleye.Bitr.Record

namespace Walleye.Bitr

open Walleye.Base

def ackQuorum : Nat := 2

structure FanOut where
  acknowledgements : Nat
  sawFence : Bool
  sawConflict : Bool
  behind : List (Fin 3)
deriving DecidableEq, Repr

def FanOut.start : FanOut := ⟨0, false, false, []⟩

def FanOut.hear (f : FanOut) : Fin 3 × Except ReplicaError Unit → FanOut
  | (_, .ok ()) => { f with acknowledgements := f.acknowledgements + 1 }
  | (_, .error .writerFenced) => { f with sawFence := true }
  | (m, .error .lsnConflict) => { f with sawConflict := true, behind := f.behind ++ [m] }
  | (_, .error _) => f

def FanOut.collect (f : FanOut) : List (Fin 3 × Except ReplicaError Unit) → FanOut
  | [] => f
  | answer :: rest =>
    if ackQuorum ≤ (f.hear answer).acknowledgements then f.hear answer
    else (f.hear answer).collect rest

/-- The batch once more to the members that a catch-up brought forward. `retried` is what such a
member answered. -/
def FanOut.retry (retried : Fin 3 → Option (Except ReplicaError Unit)) :
    List (Fin 3) → Nat → Nat
  | [], acknowledgements => acknowledgements
  | m :: rest, acknowledgements =>
    match retried m with
    | some (.ok ()) =>
      if ackQuorum ≤ acknowledgements + 1 then acknowledgements + 1
      else FanOut.retry retried rest (acknowledgements + 1)
    | _ => FanOut.retry retried rest acknowledgements

def appendNodesMany (answers : List (Fin 3 × Except ReplicaError Unit))
    (retried : Fin 3 → Option (Except ReplicaError Unit)) : Except ReplicaError Nat :=
  let f := FanOut.start.collect answers
  if ackQuorum ≤ f.acknowledgements then .ok f.acknowledgements
  else if f.sawFence then .error .writerFenced
  else if ackQuorum ≤ FanOut.retry retried f.behind f.acknowledgements then
    .ok (FanOut.retry retried f.behind f.acknowledgements)
  else if f.sawConflict then .error .lsnConflict
  else .error .quorumUnavailable

variable {P : Fin 3 → Prop}

/-- The members an account counted: distinct, each with the property, none of them behind. -/
structure FanOut.Counts (P : Fin 3 → Prop) (f : FanOut) (counted : List (Fin 3)) : Prop where
  count : f.acknowledgements = counted.length
  nodup : (counted ++ f.behind).Nodup
  holds : ∀ m ∈ counted, P m

variable {counted : List (Fin 3)}

theorem FanOut.Counts.hear {f : FanOut} (h : f.Counts P counted)
    (hn : (counted ++ f.behind ++ answer.1 :: others).Nodup) (ho : answer.2 = .ok () → P answer.1) :
    ∃ counted', (f.hear answer).Counts P counted' ∧
      (counted' ++ (f.hear answer).behind ++ others).Nodup := by
  obtain ⟨m,result⟩ := answer
  have hm := List.perm_middle.nodup_iff.mp hn
  rcases result with e | _
  · cases e
    case lsnConflict =>
      have hb : (counted ++ (f.behind ++ [m]) ++ others).Nodup := by simpa using hn
      exact ⟨counted,⟨h.count,hb.of_append_left,h.holds⟩,hb⟩
    all_goals exact ⟨counted,⟨h.count,h.nodup,h.holds⟩,hm.of_cons⟩
  · have hh := List.forall_mem_cons.mpr ⟨ho rfl,h.holds⟩
    exact ⟨m :: counted,⟨by simp [FanOut.hear,h.count],hm.of_append_left,hh⟩,hm⟩

theorem FanOut.Counts.collect {f : FanOut} (h : f.Counts P counted)
    (hn : (counted ++ f.behind ++ answers.map (·.1)).Nodup)
    (ho : ∀ a ∈ answers, a.2 = .ok () → P a.1) :
    ∃ counted', (f.collect answers).Counts P counted' := by
  induction answers generalizing f counted with
  | nil => exact ⟨counted,h⟩
  | cons a rest ih =>
    obtain ⟨ha,hr⟩ := List.forall_mem_cons.mp ho
    obtain ⟨counted',hc,hnc⟩ := h.hear hn ha
    unfold FanOut.collect
    split
    · exact ⟨counted',hc⟩
    · exact ih hc hnc hr

theorem twoOf_of_nodup (hn : counted.Nodup)
    (holds : ∀ m ∈ counted, P m) (hl : ackQuorum ≤ counted.length) : TwoOf P := by
  match counted, hl with
  | a :: b :: _, _ =>
    simp only [List.nodup_cons,List.mem_cons,not_or] at hn
    exact ⟨a,b,hn.1.1,holds a (by simp),holds b (by simp)⟩

theorem FanOut.retry_counts (ho : ∀ m, retried m = some (.ok ()) → P m) {behind : List (Fin 3)}
    (hn : (counted ++ behind).Nodup) (holds : ∀ m ∈ counted, P m) :
    ∃ counted' : List (Fin 3), FanOut.retry retried behind counted.length = counted'.length ∧
      counted'.Nodup ∧ ∀ m ∈ counted', P m := by
  induction behind generalizing counted with
  | nil => exact ⟨counted,rfl,by simpa using hn,holds⟩
  | cons m rest ih =>
    have hme : (m :: counted ++ rest).Nodup := (List.perm_middle.nodup_iff).mp hn
    unfold FanOut.retry
    split
    · rename_i hr
      have hm : ∀ x ∈ m :: counted, P x := List.forall_mem_cons.mpr ⟨ho m hr,holds⟩
      split
      · exact ⟨m :: counted,rfl,hme.of_append_left,hm⟩
      · exact ih hme hm
    · exact ih (List.nodup_cons.mp hme).2 holds

theorem appendNodesMany_quorum {answers : List (Fin 3 × Except ReplicaError Unit)}
    (hno : (answers.map (·.1)).Nodup) (ho : ∀ a ∈ answers, a.2 = .ok () → P a.1)
    (hr : ∀ m, retried m = some (.ok ()) → P m)
    (h : appendNodesMany answers retried = .ok n) : TwoOf P := by
  have hs : FanOut.start.Counts P [] := ⟨rfl,.nil,by simp⟩
  obtain ⟨counted,hc⟩ := hs.collect (by simpa [FanOut.start] using hno) ho
  simp only [appendNodesMany] at h
  split at h
  · rename_i hq
    exact twoOf_of_nodup hc.nodup.of_append_left hc.holds (hc.count ▸ hq)
  · simp only [guard_ok] at h
    obtain ⟨_,h⟩ := h
    split at h
    · rename_i hq
      obtain ⟨counted',hl,hn,ha⟩ := FanOut.retry_counts hr hc.nodup hc.holds
      rw [hc.count,hl] at hq
      exact twoOf_of_nodup hn ha hq
    · simp at h

end Walleye.Bitr
