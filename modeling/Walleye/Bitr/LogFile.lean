import Walleye.Base.Lines
import Walleye.Base.Runs
import Walleye.Bitr.NodeCalls

namespace Walleye.Bitr

open Walleye.Base

def stripCarriage (raw : List UInt8) : List UInt8 :=
  if raw.getLast? = some 13 then raw.dropLast else raw

variable {σ β : Type}

/-- The file of an open node: whole lines, or whole lines and an entry without newline. -/
def OnDisk (codec : LineCodec (LogEntry σ β)) (lines : List (LogEntry σ β)) (file : List UInt8) :
    Prop :=
  file = frames codec.encode 10 lines ∨
    ∃ init last, lines = init ++ [last] ∧ file = frames codec.encode 10 init ++ codec.encode last

theorem OnDisk.holds (h : OnDisk codec lines file) : HoldsEntries codec.encode 10 lines file := by
  rcases h with rfl | ⟨init,last,rfl,rfl⟩
  · exact .whole lines
  · exact .unclosed init last

theorem OnDisk.whole (h : OnDisk codec lines file) (hl : ¬(file ≠ [] ∧ file.getLast? ≠ some 10)) :
    file = frames codec.encode 10 lines := by
  rcases h with h | ⟨init,last,_,rfl⟩
  · exact h
  · have hn := codec.encode_ne_nil last
    refine absurd ⟨by simp [hn],?_⟩ hl
    rw [List.getLast?_append_of_ne_nil _ hn]
    exact fun h => codec.newline last (List.mem_of_getLast? h)

variable [DecidableEq σ] [DecidableEq β]

/-- The replay loop over the lines of a log. It answers the maps, and where to cut the file
when its last line ends in the middle of an entry. -/
def openLines (codec : LineCodec (LogEntry σ β)) (trailingNewline : Bool) :
    Nat → NodeMaps σ β → List (List UInt8) → Except ReplicaError (NodeMaps σ β × Option Nat)
  | _, m, [] => .ok (m, none)
  | lineStart, m, raw :: rest =>
    let line := stripCarriage raw
    if line = [] then openLines codec trailingNewline (lineStart + raw.length + 1) m rest
    else match codec.parse line with
      | .syntaxError eof error =>
        if rest = [] ∧ trailingNewline = false ∧ eof = true then .ok (m, some lineStart)
        else .error (.nodeStorage ("invalid node log entry: " ++ error))
      | .refused error => .error (.nodeStorage error)
      | .entry e => (m.replay e).bind fun m =>
        openLines codec trailingNewline (lineStart + raw.length + 1) m rest

/-- Opening a node: the maps its log rebuilds, and the file with a torn tail cut off. -/
def openInternal (codec : LineCodec (LogEntry σ β)) (bytes : List UInt8) :
    Except ReplicaError (NodeMaps σ β × List UInt8) :=
  (openLines codec (decide (bytes.getLast? = some 10)) 0 .empty (splitAtSep 10 bytes)).map
    fun (m, cut) => (m, cut.elim bytes bytes.take)

/-- A node and its log file. `lines` are the entries that are complete in the file; the node
itself does not keep them. -/
structure NodeFile (σ β : Type) where
  file : List UInt8
  fence : Option MaintenanceFence
  node : Except ReplicaError (NodeMaps σ β)
  lines : List (LogEntry σ β)

inductive FileStep (σ β : Type)
  | call (c : NodeCall σ β)
  | fence (marker : Option MaintenanceFence)
  /-- The process stops while a call writes and starts again: `kept` bytes of appended lines are on
  the disk, of a rewritten log all or nothing. -/
  | crash (c : NodeCall σ β) (kept : Nat)

def FileStep.isCrash : FileStep σ β → Bool
  | .crash _ _ => true
  | _ => false

def NodeFile.new : NodeFile σ β := ⟨[], none, .ok .empty, []⟩

namespace NodeFile

variable (codec : LineCodec (LogEntry σ β)) (cap : Option Nat)

def overBudget (s : NodeFile σ β) : NodeCall σ β → LogWrite σ β → Option ReplicaError
  | .append _ _ _, .extend (e :: rest) => cap.bind fun cap =>
    let current := s.file.length
    if cap < current + (frames codec.encode 10 (e :: rest)).length then
      some (.nodeStorage s!"node log budget exhausted: {current} bytes used of {cap}; waiting for the archive to drain")
    else none
  | _, _ => none

def attempt (s : NodeFile σ β) (c : NodeCall σ β) :
    Except ReplicaError (NodeMaps σ β × LogWrite σ β) :=
  s.node.bind fun m => (m.call s.fence c).bind fun (m', w) =>
    match overBudget codec cap s c w with
    | some why => .error why
    | none => .ok (m', w)

def reopen (s : NodeFile σ β) : NodeFile σ β :=
  match openInternal codec s.file with
  | .error why => { s with node := .error why }
  | .ok (m, file) => { s with node := .ok m, file := file }

def step (s : NodeFile σ β) : FileStep σ β → Option (NodeFile σ β)
  | .call c => match attempt codec cap s c with
    | .error _ => some s
    | .ok (m, .extend entries) => some { s with
        node := .ok m
        file := s.file ++ frames codec.encode 10 entries
        lines := s.lines ++ entries }
    | .ok (m, .rewrite entries) => some { s with
        node := .ok m
        file := frames codec.encode 10 entries
        lines := entries }
  | .fence marker => some { s with fence := marker }
  | .crash c kept => match attempt codec cap s c with
    | .error _ => some (reopen codec s)
    | .ok (_, .extend entries) => some (reopen codec { s with
        file := s.file ++ (frames codec.encode 10 entries).take kept
        lines := s.lines ++ completeWithin codec.encode entries kept })
    | .ok (_, .rewrite entries) => some (if kept = 0 then reopen codec s else reopen codec { s with
        file := frames codec.encode 10 entries
        lines := entries })

def addsLines (s : NodeFile σ β) (c : NodeCall σ β) : Bool :=
  match attempt codec cap s c with
  | .ok (_, .extend (_ :: _)) => true
  | _ => false

def extendsOpenLine (s : NodeFile σ β) : FileStep σ β → Bool
  | .call c | .crash c _ =>
    addsLines codec cap s c && decide (s.file ≠ [] ∧ s.file.getLast? ≠ some 10)
  | .fence _ => false

def CrashConsistent (s : NodeFile σ β) : Prop :=
  ∃ m, s.node = .ok m ∧
    (∃ complete, NodeMaps.empty.replayAll s.lines = .ok complete ∧ complete.Agrees m) ∧
    ∃ again file, openInternal codec s.file = .ok (again, file) ∧ again.Agrees m

end NodeFile

/-! ### Opening a file -/

theorem stripCarriage_of_not_mem (h : 13 ∉ raw) : stripCarriage raw = raw := by
  unfold stripCarriage
  rw [if_neg]
  intro hl
  exact h (List.mem_of_getLast? hl)

theorem openLines_entry (codec : LineCodec (LogEntry σ β)) (trailing : Bool) (lineStart : Nat)
    (m : NodeMaps σ β) (e : LogEntry σ β) (rest : List (List UInt8)) :
    openLines codec trailing lineStart m (codec.encode e :: rest) = (m.replay e).bind fun m =>
      openLines codec trailing (lineStart + (codec.encode e).length + 1) m rest := by
  rw [openLines]
  simp only [stripCarriage_of_not_mem (codec.carriage e),codec.encode_ne_nil e,if_false,
    codec.whole e]

theorem openLines_entries (codec : LineCodec (LogEntry σ β)) (trailing : Bool)
    (entries : List (LogEntry σ β)) (lineStart : Nat) (m : NodeMaps σ β) (tail : List UInt8) :
    openLines codec trailing lineStart m (entries.map codec.encode ++ [tail]) =
      (m.replayAll entries).bind fun m =>
        openLines codec trailing (lineStart + (frames codec.encode 10 entries).length) m [tail] := by
  induction entries generalizing lineStart m with
  | nil => rfl
  | cons e rest ih =>
    have hl : lineStart + (codec.encode e).length + 1 + (frames codec.encode 10 rest).length =
        lineStart + (frames codec.encode 10 (e :: rest)).length := by
      simp
      omega
    rw [List.map_cons,List.cons_append,openLines_entry,NodeMaps.replayAll]
    cases m.replay e with
    | error why => rfl
    | ok m' =>
      simp only [Except.bind]
      rw [ih,hl]
      rfl

theorem openInternal_frames (codec : LineCodec (LogEntry σ β)) (entries : List (LogEntry σ β)) :
    openInternal codec (frames codec.encode 10 entries) =
      (NodeMaps.empty.replayAll entries).map fun m => (m,frames codec.encode 10 entries) := by
  have hs := splitAtSep_frames codec.encode 10 codec.newline entries
    (List.not_mem_nil (a := (10 : UInt8)))
  rw [List.append_nil] at hs
  rw [openInternal,hs,openLines_entries]
  cases NodeMaps.empty.replayAll entries with
  | error why => rfl
  | ok m => simp [openLines,stripCarriage,Except.bind,Except.map]

/-- Opening a file that holds entries replays exactly them. -/
theorem openInternal_of_holds {entries : List (LogEntry σ β)}
    (h : HoldsEntries codec.encode 10 entries bytes) :
    ∃ file, OnDisk codec entries file ∧
      openInternal codec bytes = (NodeMaps.empty.replayAll entries).map fun m => (m,file) := by
  cases h with
  | whole => exact ⟨_,.inl rfl,openInternal_frames codec entries⟩
  | part _ ht =>
    rename_i tail
    refine ⟨_,.inl rfl,?_⟩
    obtain ⟨error,hpa⟩ := codec.torn tail ht
    obtain ⟨e,hp,hn,_⟩ := ht
    have hs : (10 : UInt8) ∉ tail := fun hm => codec.newline e (hp.subset hm)
    have hc : (13 : UInt8) ∉ tail := fun hm => codec.carriage e (hp.subset hm)
    have hl : tail.getLast? ≠ some 10 := fun h => hs (List.mem_of_getLast? h)
    rw [openInternal,splitAtSep_frames codec.encode 10 codec.newline entries hs,
      openLines_entries]
    cases NodeMaps.empty.replayAll entries with
    | error why => rfl
    | ok m =>
      simp [openLines,stripCarriage_of_not_mem hc,hn,hpa,hl,Except.bind,Except.map]
  | unclosed init last =>
    refine ⟨_,.inr ⟨init,last,rfl,rfl⟩,?_⟩
    rw [openInternal,splitAtSep_frames codec.encode 10 codec.newline init (codec.newline last),
      openLines_entries,NodeMaps.replayAll_append]
    cases NodeMaps.empty.replayAll init with
    | error why => rfl
    | ok m =>
      simp only [Except.bind,openLines_entry,NodeMaps.replayAll]
      cases m.replay last with
      | error why => rfl
      | ok m' => simp [openLines,Except.map]

/-! ### Runs of a node -/

namespace NodeFile

variable {codec : LineCodec (LogEntry σ β)} {s s' : NodeFile σ β}

theorem attempt_eq_ok (h : attempt codec cap s c = .ok (m',w)) :
    ∃ m, s.node = .ok m ∧ m.call s.fence c = .ok (m',w) := by
  obtain ⟨m,hm,h⟩ := Except.bind_eq_ok.mp h
  obtain ⟨⟨m1,w1⟩,hc,h⟩ := Except.bind_eq_ok.mp h
  refine ⟨m,hm,?_⟩
  simp only at h
  split at h
  · cases h
  · cases h
    exact hc

def Tracked (codec : LineCodec (LogEntry σ β)) (s : NodeFile σ β) : Prop :=
  OnDisk codec s.lines s.file ∧ ∃ m n, s.node = .ok m ∧ m.Wf ∧
    NodeMaps.empty.replayAll s.lines = .ok n ∧ n.Agrees m

theorem Tracked.new : Tracked codec (NodeFile.new : NodeFile σ β) :=
  ⟨.inl rfl,.empty,.empty,rfl,NodeMaps.Wf.empty,rfl,NodeMaps.Agrees.refl _⟩

theorem Tracked.consistent (h : Tracked codec s) : CrashConsistent codec s := by
  obtain ⟨hd,m,n,hm,_,hn,ha⟩ := h
  obtain ⟨file,_,ho⟩ := openInternal_of_holds hd.holds
  rw [hn] at ho
  exact ⟨m,hm,⟨n,hn,ha⟩,n,file,ho,ha⟩

theorem tracked_reopen {n : NodeMaps σ β} (hf : HoldsEntries codec.encode 10 s.lines s.file)
    (hn : NodeMaps.empty.replayAll s.lines = .ok n) (hw : n.Wf) :
    Tracked codec (reopen codec s) := by
  obtain ⟨file,hd,ho⟩ := openInternal_of_holds hf
  rw [hn] at ho
  unfold reopen
  rw [ho]
  exact ⟨hd,n,n,rfl,hw,hn,NodeMaps.Agrees.refl n⟩

theorem Tracked.reopen (h : Tracked codec s) : Tracked codec (reopen codec s) := by
  obtain ⟨hd,m,n,_,hw,hn,ha⟩ := h
  exact tracked_reopen hd.holds hn (hw.of_agrees ha.symm)

theorem replay_extend {lines entries : List (LogEntry σ β)}
    (hn : NodeMaps.empty.replayAll lines = .ok n) (ha : n.Agrees m)
    (hr : m.replayAll entries = .ok m') :
    ∃ n', NodeMaps.empty.replayAll (lines ++ entries) = .ok n' ∧ n'.Agrees m' := by
  obtain ⟨n',hn',ha'⟩ := ha.symm.replayAll hr
  refine ⟨n',?_,ha'.symm⟩
  rw [NodeMaps.replayAll_append,hn]
  exact hn'

def ReadsBack (s : NodeFile σ β) : Prop :=
  ∃ m n, s.node = .ok m ∧ m.Wf ∧ NodeMaps.empty.replayAll s.lines = .ok n ∧ n.Agrees m

/-- After a call the file still reads back as the maps. -/
theorem ReadsBack.call (h : ReadsBack s) (hs : step codec cap s (.call c) = some s') : ReadsBack s' := by
  obtain ⟨m,n,hm,hw,hn,ha⟩ := id h
  simp only [step] at hs
  split at hs
  · cases hs
    exact h
  · rename_i m' entries hat
    obtain ⟨m1,hm1,hc⟩ := attempt_eq_ok hat
    cases hm.symm.trans hm1
    obtain ⟨hr,ht⟩ := hw.call_extend hc
    obtain ⟨n',hn',ha'⟩ := replay_extend hn ha hr
    cases hs
    exact ⟨m',n',rfl,hw.replayAll ht hr,hn',ha'⟩
  · rename_i m' entries hat
    obtain ⟨m1,hm1,hc⟩ := attempt_eq_ok hat
    cases hm.symm.trans hm1
    obtain ⟨hw',n',hn',ha'⟩ := hw.call_rewrite hc
    cases hs
    exact ⟨m',n',rfl,hw',hn',ha'⟩

theorem call_file (hs : step codec cap s (.call c) = some s') :
    (s'.file = s.file ∧ s'.lines = s.lines) ∨
      (addsLines codec cap s c = true ∧ ∃ entries,
        s'.file = s.file ++ frames codec.encode 10 entries ∧ s'.lines = s.lines ++ entries) ∨
      s'.file = frames codec.encode 10 s'.lines := by
  simp only [step] at hs
  split at hs
  · cases hs
    exact .inl ⟨rfl,rfl⟩
  · rename_i m' entries ha
    cases hs
    cases entries with
    | nil => exact .inl ⟨by simp,by simp⟩
    | cons e rest =>
      refine .inr (.inl ⟨?_,_,rfl,rfl⟩)
      rw [addsLines,ha]
  · cases hs
    exact .inr (.inr rfl)

theorem Tracked.call (h : Tracked codec s) (ho : extendsOpenLine codec cap s (.call c) = false)
    (hs : step codec cap s (.call c) = some s') : Tracked codec s' := by
  refine ⟨?_,ReadsBack.call h.2 hs⟩
  obtain ⟨hf,hl⟩ | ⟨ha,entries,hf,hl⟩ | hf := call_file hs
  · rw [hf,hl]
    exact h.1
  · simp only [extendsOpenLine,ha,Bool.true_and,decide_eq_false_iff_not] at ho
    refine .inl ?_
    rw [hf,hl,h.1.whole ho,frames_append]
  · exact .inl hf

/-- After a crash the file reads back as the complete lines that were written. -/
theorem Tracked.crash (h : Tracked codec s) {kept : Nat}
    (ho : extendsOpenLine codec cap s (.crash c kept) = false)
    (hs : step codec cap s (.crash c kept) = some s') : Tracked codec s' := by
  obtain ⟨hd,m,n,hm,hw,hn,ha⟩ := id h
  simp only [step] at hs
  split at hs
  · cases hs
    exact h.reopen
  · rename_i m' entries hat
    obtain ⟨m1,hm1,hc⟩ := attempt_eq_ok hat
    cases hm.symm.trans hm1
    obtain ⟨hr,ht⟩ := hw.call_extend hc
    have hk : completeWithin codec.encode entries kept <+: entries :=
      completeWithin_prefix entries kept
    obtain ⟨m2,hm2⟩ := NodeMaps.replayAll_prefix hk hr
    have hwf2 : m2.Wf := hw.replayAll (fun e he => ht e (hk.subset he)) hm2
    obtain ⟨n2,hn2,hagr⟩ := replay_extend hn ha hm2
    cases hs
    apply tracked_reopen _ hn2 (hwf2.of_agrees hagr.symm)
    cases entries with
    | nil => simpa [completeWithin] using hd.holds
    | cons e rest =>
      simp only [extendsOpenLine,addsLines,hat,Bool.true_and,decide_eq_false_iff_not] at ho
      rw [hd.whole ho]
      exact (holdsEntries_take codec.encode_ne_nil _ kept).after s.lines
  · rename_i m' entries hat
    obtain ⟨m1,hm1,hc⟩ := attempt_eq_ok hat
    cases hm.symm.trans hm1
    obtain ⟨hw',n',hn',ha'⟩ := hw.call_rewrite hc
    cases hs
    split
    · exact h.reopen
    · exact tracked_reopen (.whole entries) hn' (hw'.of_agrees ha'.symm)

theorem Tracked.step (h : Tracked codec s)
    (ho : extendsOpenLine codec cap s a = false) (hs : step codec cap s a = some s') :
    Tracked codec s' := by
  cases a with
  | call c => exact h.call ho hs
  | fence marker =>
    cases hs
    exact h
  | crash c kept => exact h.crash ho hs

theorem whole_step (hw : s.file = frames codec.encode 10 s.lines)
    (ha : a.isCrash = false) (hs : step codec cap s a = some s') :
    s'.file = frames codec.encode 10 s'.lines := by
  cases a with
  | call c =>
    simp only [step] at hs
    split at hs
    · cases hs
      exact hw
    · cases hs
      simp [hw]
    · cases hs
      rfl
  | fence marker =>
    cases hs
    exact hw
  | crash c kept => cases ha

theorem extendsOpenLine_of_whole (hw : s.file = frames codec.encode 10 s.lines)
    (a : FileStep σ β) : extendsOpenLine codec cap s a = false := by
  have hc : ¬(s.file ≠ [] ∧ s.file.getLast? ≠ some 10) := by
    intro h
    rw [hw] at h
    exact h.2 (getLast?_frames codec.encode 10 s.lines h.1)
  cases a <;> simp only [extendsOpenLine,decide_eq_false hc,Bool.and_false]

/-- Without a crash, opening the file of a node rebuilds the maps it has in memory. -/
theorem restart_rebuilds_the_maps
    (h : Reachable (· = NodeFile.new) (step codec cap) (fun _ a => a.isCrash = false) s) :
    ∃ m again, s.node = .ok m ∧ openInternal codec s.file = .ok (again, s.file) ∧
      again.Agrees m := by
  have hi : Tracked codec s ∧ s.file = frames codec.encode 10 s.lines := by
    apply h.invariant
    · rintro _ rfl
      exact ⟨Tracked.new,rfl⟩
    · rintro t a t' ⟨ht,hw⟩ ha hs
      exact ⟨ht.step (extendsOpenLine_of_whole hw a) hs,whole_step hw ha hs⟩
  obtain ⟨⟨_,m,n,hm,_,hn,hag⟩,hw⟩ := hi
  refine ⟨m,n,hm,?_,hag⟩
  rw [hw,openInternal_frames,hn]
  rfl

/-- In a run in which no call adds lines behind one that lost its newline, every start succeeds with
the maps of the complete entries. -/
theorem crashes_are_consistent (h : Reachable (· = NodeFile.new) (step codec cap)
      (fun s a => extendsOpenLine codec cap s a = false) s) : CrashConsistent codec s := by
  apply Tracked.consistent
  apply h.invariant
  · rintro _ rfl
    exact Tracked.new
  · intro t a t' ht ho hs
    exact ht.step ho hs

end NodeFile

/-! ### A text format for the runs below -/

def entryFields : LogEntry Nat Nat → List Nat
  | .record r => [0, r.stream, r.writerEpoch, r.lsn, r.committedLsn, r.body]
  | .commit r => [1, r.stream, r.writerEpoch, r.lsn, r.committedLsn, r.body]
  | .supersede stream fromLsn writerEpoch => [2, stream, fromLsn, writerEpoch]
  | .trim p => [3, p.stream, p.archivedLsn, p.writerEpoch]

def ofEntryFields : List Nat → Option (LogEntry Nat Nat)
  | [0, stream, epoch, lsn, committed, body] => some (.record ⟨stream, epoch, lsn, committed, body⟩)
  | [1, stream, epoch, lsn, committed, body] => some (.commit ⟨stream, epoch, lsn, committed, body⟩)
  | [2, stream, fromLsn, epoch] => some (.supersede stream fromLsn epoch)
  | [3, stream, archived, epoch] => some (.trim ⟨stream, archived, epoch⟩)
  | _ => none

theorem ofEntryFields_fields (e : LogEntry Nat Nat) : ofEntryFields (entryFields e) = some e := by
  cases e <;> rfl

def entryCodec : LineCodec (LogEntry Nat Nat) :=
  fieldCodec entryFields ofEntryFields ofEntryFields_fields

namespace NodeFile

/-- Two records are appended with their markers, the second is withdrawn, another takes its
place, and the first is compacted. -/
theorem restart_rebuilds_a_compacted_log : ∃ s : NodeFile Nat Nat,
    Reachable (· = NodeFile.new) (step entryCodec none) (fun _ a => a.isCrash = false) s ∧
    s.lines = [.trim ⟨0, 1, 2⟩, .record ⟨0, 2, 2, 1, 9⟩] ∧
    ∃ m again, s.node = .ok m ∧ openInternal entryCodec s.file = .ok (again, s.file) ∧
      again.Agrees m := by
  exact Reachable.exists_of_runs rfl
    [.call (.appendMany (fun _ => false) none true [⟨0,1,1,0,7⟩,⟨0,1,2,1,8⟩]),
      .call (.supersede 0 2 2),.call (.append (fun _ => false) none ⟨0,2,2,1,9⟩),
      .call (.compactArchivedBatch [⟨0,1,1⟩])] rfl
    fun hr => ⟨by decide,restart_rebuilds_the_maps hr⟩

/-- A crash cuts a batch inside its second record. -/
theorem crashes_are_consistent_with_a_torn_line : ∃ s : NodeFile Nat Nat,
    Reachable (· = NodeFile.new) (step entryCodec none)
      (fun s a => extendsOpenLine entryCodec none s a = false) s ∧
    s.lines = [.record ⟨0, 1, 1, 0, 7⟩, .record ⟨0, 2, 2, 1, 9⟩] ∧ CrashConsistent entryCodec s := by
  exact Reachable.exists_of_runs rfl
    [.crash (.appendMany (fun _ => false) none true [⟨0,1,1,0,7⟩,⟨0,1,2,1,8⟩]) 30,
      .call (.append (fun _ => false) none ⟨0,2,2,1,9⟩)] rfl
    fun hr => ⟨by decide,crashes_are_consistent hr⟩

/-- A crash keeps the first record and loses its newline. The node starts, appends the next record
to the same line, and does not start again. -/
theorem lost_newline_stops_the_node : ¬ ∀ s : NodeFile Nat Nat,
    Reachable (· = NodeFile.new) (step entryCodec none) anyStep s → CrashConsistent entryCodec s := by
  intro ha
  have hr := ha _ (.of_start rfl
    [.crash (.append (fun _ => false) none ⟨0,1,1,0,0⟩) 10,
      .call (.append (fun _ => false) none ⟨0,1,2,1,0⟩)] rfl)
  obtain ⟨m,_,_,again,file,ho,_⟩ := hr
  cases ho

end NodeFile

end Walleye.Bitr
