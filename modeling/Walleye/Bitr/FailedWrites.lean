import Walleye.Bitr.LogFile

namespace Walleye.Bitr

open Walleye.Base

variable {σ β : Type}

inductive WriteStep (σ β : Type)
  | call (c : NodeCall σ β)
  | fence (marker : Option MaintenanceFence)
  /-- The first `kept` bytes are in the file; a batch append then cuts the file back, which succeeds
  when `cut` says so. -/
  | fail (c : NodeCall σ β) (kept : Nat) (cut : Bool)
  | restart

def NodeCall.cutsBack : NodeCall σ β → Bool
  | .appendMany _ _ _ _ => true
  | _ => false

def NodeFile.leftover (s : NodeFile σ β) : Bool :=
  decide (s.file ≠ [] ∧ s.file.getLast? ≠ some 10)

theorem holdsEntries_closed {codec : LineCodec (LogEntry σ β)}
    (h : HoldsEntries codec.encode 10 lines file)
    (hc : ¬(file ≠ [] ∧ file.getLast? ≠ some 10)) : file = frames codec.encode 10 lines := by
  cases h with
  | whole => rfl
  | part _ ht =>
    obtain ⟨e,hp,hn,_⟩ := ht
    refine absurd ⟨by simp [hn],?_⟩ hc
    rw [List.getLast?_append_of_ne_nil _ hn]
    exact fun h => codec.newline e (hp.subset (List.mem_of_getLast? h))
  | unclosed init last => exact OnDisk.whole (.inr ⟨init,last,rfl,rfl⟩) hc

variable [DecidableEq σ] [DecidableEq β]

namespace NodeFile

variable (codec : LineCodec (LogEntry σ β)) (cap : Option Nat)

def writeStep (s : NodeFile σ β) : WriteStep σ β → Option (NodeFile σ β)
  | .call c => step codec cap s (.call c)
  | .fence marker => step codec cap s (.fence marker)
  | .fail c kept cut => match attempt codec cap s c with
    | .ok (_, .extend entries) =>
      if c.cutsBack && cut then some s
      else some { s with
        file := s.file ++ (frames codec.encode 10 entries).take kept
        lines := s.lines ++ completeWithin codec.encode entries kept }
    | _ => none
  | .restart => some (reopen codec s)

/-- A call does not write behind bytes that an earlier one left, and a call that fails leaves
none or less than its first line. -/
def cleanWrite (s : NodeFile σ β) : WriteStep σ β → Bool
  | .call c => !(addsLines codec cap s c && s.leftover)
  | .fail c kept cut => (c.cutsBack && cut) || kept == 0 ||
    (!s.leftover && match attempt codec cap s c with
      | .ok (_, .extend (e :: _)) => decide (kept < (codec.encode e).length)
      | _ => true)
  | _ => true

def Recoverable (s : NodeFile σ β) : Prop :=
  ∃ m again file, s.node = .ok m ∧ openInternal codec s.file = .ok (again, file) ∧ again.Agrees m

def Holds (s : NodeFile σ β) : Prop :=
  HoldsEntries codec.encode 10 s.lines s.file ∧ ReadsBack s

variable {codec cap}

theorem Holds.recoverable (h : Holds codec s) : Recoverable codec s := by
  obtain ⟨hf,m,n,hm,_,hn,ha⟩ := h
  obtain ⟨file,_,ho⟩ := openInternal_of_holds hf
  rw [hn] at ho
  exact ⟨m,n,file,hm,ho,ha⟩

theorem Holds.closed (h : Holds codec s) (hc : s.leftover = false) :
    s.file = frames codec.encode 10 s.lines := by
  simp only [leftover,decide_eq_false_iff_not] at hc
  exact holdsEntries_closed h.1 hc

theorem Holds.restart (h : Holds codec s) : Holds codec (reopen codec s) := by
  obtain ⟨hf,m,n,_,hw,hn,ha⟩ := h
  obtain ⟨hd,hr⟩ := tracked_reopen hf hn (hw.of_agrees ha.symm)
  exact ⟨hd.holds,hr⟩

theorem Holds.call (h : Holds codec s) (hc : cleanWrite codec cap s (.call c) = true)
    (hs : step codec cap s (.call c) = some s') : Holds codec s' := by
  refine ⟨?_,h.2.call hs⟩
  obtain ⟨hf,hl⟩ | ⟨ha,entries,hf,hl⟩ | hf := call_file hs
  · rw [hf,hl]
    exact h.1
  · simp only [cleanWrite,ha,Bool.true_and,Bool.not_eq_true'] at hc
    rw [hf,hl,h.closed hc,← frames_append]
    exact .whole _
  · rw [hf]
    exact .whole _

theorem cleanWrite_fail (ha : attempt codec cap s c = .ok (m',.extend entries))
    (hc : ¬(c.cutsBack && cut) = true) (hcl : cleanWrite codec cap s (.fail c kept cut) = true) :
    completeWithin codec.encode entries kept = [] ∧
      ((frames codec.encode 10 entries).take kept = [] ∨ s.leftover = false) := by
  cases entries with
  | nil => exact ⟨rfl,.inl (by simp)⟩
  | cons e rest =>
    simp only [cleanWrite,ha,hc,Bool.false_or,Bool.or_eq_true,beq_iff_eq,
      Bool.and_eq_true,Bool.not_eq_true',decide_eq_true_eq] at hcl
    have hp := List.length_pos_iff.mpr (codec.encode_ne_nil e)
    have hs : kept < (codec.encode e).length := by omega
    refine ⟨?_,?_⟩
    · rw [completeWithin,if_neg (Nat.not_le_of_lt hs)]
    · refine hcl.imp ?_ And.left
      intro hz
      rw [hz,List.take_zero]

/-- A failed write that leaves no complete line of its own keeps the log readable. -/
theorem Holds.fail (h : Holds codec s) (hc : cleanWrite codec cap s (.fail c kept cut) = true)
    (hs : writeStep codec cap s (.fail c kept cut) = some s') : Holds codec s' := by
  simp only [writeStep] at hs
  split at hs
  · rename_i m' entries ha
    split at hs
    · cases hs
      exact h
    · rename_i hcu
      cases hs
      obtain ⟨hn,hl⟩ := cleanWrite_fail ha hcu hc
      have hf : HoldsEntries codec.encode 10 s.lines
          (s.file ++ (frames codec.encode 10 entries).take kept) := by
        obtain he | hclo := hl
        · rw [he,List.append_nil]
          exact h.1
        · have ht : HoldsEntries codec.encode 10 (completeWithin codec.encode entries kept) _ :=
            holdsEntries_take codec.encode_ne_nil entries kept
          have hp := ht.after s.lines
          rw [hn,List.append_nil] at hp
          rw [h.closed hclo]
          exact hp
      rw [hn,List.append_nil]
      exact ⟨hf,h.2⟩
  · cases hs

theorem Holds.step (h : Holds codec s)
    (hc : cleanWrite codec cap s a = true) (hs : writeStep codec cap s a = some s') :
    Holds codec s' := by
  cases a with
  | call c => exact h.call hc hs
  | fence marker =>
    cases hs
    exact h
  | fail c kept cut => exact h.fail hc hs
  | restart =>
    cases hs
    exact h.restart

theorem node_fail (hs : writeStep codec cap s (.fail c kept cut) = some s') : s'.node = s.node := by
  simp only [writeStep] at hs
  split at hs
  · split at hs <;> cases hs <;> rfl
  · cases hs

/-- When failed calls leave less than a line and no call writes behind what is left, a failed call
leaves the maps and the file always opens to them. -/
theorem failed_writes_are_atomic (h : Reachable (· = NodeFile.new) (writeStep codec cap)
      (fun s a => cleanWrite codec cap s a = true) s) :
    Recoverable codec s ∧ ∀ c kept cut s', writeStep codec cap s (.fail c kept cut) = some s' →
      s'.node = s.node := by
  have hi : Holds codec s := by
    apply h.invariant
    · rintro _ rfl
      exact ⟨.whole [],.empty,.empty,rfl,NodeMaps.Wf.empty,rfl,NodeMaps.Agrees.refl _⟩
    · intro t a t' ht hc hs
      exact ht.step hc hs
  exact ⟨hi.recoverable,fun _ _ _ _ hs => node_fail hs⟩

/-- A batch fails and is cut back, an append leaves five bytes, and a start removes them before
the next call. -/
theorem failed_writes_are_atomic_over_a_restart : ∃ s : NodeFile Nat Nat,
    Reachable (· = NodeFile.new) (writeStep entryCodec none)
      (fun s a => cleanWrite entryCodec none s a = true) s ∧
    s.lines = [.record ⟨0, 1, 1, 0, 7⟩, .record ⟨0, 1, 2, 1, 8⟩] ∧
    Recoverable entryCodec s ∧ ∀ c kept cut s',
      writeStep entryCodec none s (.fail c kept cut) = some s' → s'.node = s.node := by
  exact Reachable.exists_of_runs rfl
    [.fail (.appendMany (fun _ => false) none true [⟨0,1,1,0,7⟩]) 20 true,
      .call (.append (fun _ => false) none ⟨0,1,1,0,7⟩),
      .fail (.append (fun _ => false) none ⟨0,1,2,1,8⟩) 5 false,.restart,
      .call (.append (fun _ => false) none ⟨0,1,2,1,8⟩)] rfl
    fun hr => ⟨by decide,failed_writes_are_atomic hr⟩

/-- The first append fails after one byte. The second is accepted, and its line does not parse
behind that byte. -/
theorem append_behind_a_failed_write : ¬ ∀ s : NodeFile Nat Nat,
    Reachable (· = NodeFile.new) (writeStep entryCodec none) anyStep s →
      Recoverable entryCodec s ∧ ∀ c kept cut s',
        writeStep entryCodec none s (.fail c kept cut) = some s' → s'.node = s.node := by
  intro ha
  have hr := ha _ (.of_start rfl
    [.fail (.append (fun _ => false) none ⟨0,1,1,0,0⟩) 1 false,
      .call (.append (fun _ => false) none ⟨0,1,1,0,0⟩)] rfl)
  obtain ⟨⟨m,again,file,_,ho,_⟩,_⟩ := hr
  cases ho

end NodeFile

end Walleye.Bitr
