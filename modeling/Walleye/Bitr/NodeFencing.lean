import Walleye.Bitr.NodeOrder

namespace Walleye.Bitr

open Walleye.Base

variable {σ β : Type}

/-- A node, and the new records it has accepted since its first start, oldest first. -/
structure WatchedNode (σ β : Type) where
  file : NodeFile σ β
  accepted : List (EncryptedRecord σ β)

def Fenced (accepted : List (EncryptedRecord σ β)) : Prop :=
  accepted.Pairwise fun earlier later =>
    earlier.stream = later.stream → earlier.writerEpoch ≤ later.writerEpoch

variable [DecidableEq σ]

/-- A withdrawal leaves a record below it, or a trim fence, with an epoch not older than that of
each record it takes. -/
def NodeMaps.keepsEpochs (m : NodeMaps σ β) : NodeCall σ β → Bool
  | .supersede stream fromLsn _ => m.records.all fun r =>
      decide (r.stream = stream → fromLsn ≤ r.lsn →
        (∃ q ∈ m.records, q.stream = stream ∧ q.lsn < fromLsn ∧ r.writerEpoch ≤ q.writerEpoch) ∨
          ∃ p ∈ prefixOf m.trimmed stream, r.writerEpoch ≤ p.writerEpoch)
  | _ => true

def Covered (m m' : NodeMaps σ β) : Prop :=
  ∀ stream, ∀ epoch ∈ seenEpochs m.records m.trimmed stream,
    ∃ seen ∈ seenEpochs m'.records m'.trimmed stream, epoch ≤ seen

variable {m m' : NodeMaps σ β}

theorem Covered.highest (h : Covered m m') (hw : m.Wf) (hw' : m'.Wf)
     (he : m.highestEpoch stream = some epoch) :
    ∃ highest, m'.highestEpoch stream = some highest ∧ epoch ≤ highest := by
  rw [hw.epochs stream] at he
  obtain ⟨seen,hs,hl⟩ := h stream epoch (List.max?_mem he)
  obtain ⟨highest,heq,hl'⟩ := hw'.covers hs
  exact ⟨highest,heq,Nat.le_trans hl hl'⟩

theorem covered_of_subset (hre : ∀ r ∈ m.records, r ∈ m'.records)
    (ht : m'.trimmed = m.trimmed) : Covered m m' := by
  intro stream epoch he
  refine ⟨epoch,?_,Nat.le_refl _⟩
  rw [ht]
  obtain ⟨r,hr,hk⟩ | hf := mem_seenEpochs.mp he
  · exact mem_seenEpochs.mpr (.inl ⟨r,hre r hr,hk⟩)
  · exact mem_seenEpochs.mpr (.inr hf)

theorem covered_withdrawSuffix
    (hkee : m.keepsEpochs (.supersede stream fromLsn writerEpoch) = true) :
    Covered m (m.withdrawSuffix stream fromLsn) := by
  simp only [NodeMaps.keepsEpochs,List.all_eq_true,decide_eq_true_eq] at hkee
  have hm : ∀ r, r ∈ (m.withdrawSuffix stream fromLsn).records ↔
      r ∈ m.records ∧ (r.stream ≠ stream ∨ r.lsn < fromLsn) := by
    intro r
    simp [NodeMaps.withdrawSuffix]
  intro other epoch he
  obtain ⟨r,hr,hs,rfl⟩ | hf := mem_seenEpochs.mp he
  · by_cases hk : r.stream ≠ stream ∨ r.lsn < fromLsn
    · exact ⟨_,mem_seenEpochs.mpr (.inl ⟨r,(hm r).mpr ⟨hr,hk⟩,hs,rfl⟩),Nat.le_refl _⟩
    · simp only [not_or,not_not,Nat.not_lt] at hk
      obtain ⟨hst,hl⟩ := hk
      have ho : other = stream := hs.symm.trans hst
      subst ho
      obtain ⟨q,hq,hqs,hlt,hle⟩ | ⟨p,hp,hle⟩ := hkee r hr hst hl
      · exact ⟨_,mem_seenEpochs.mpr (.inl ⟨q,(hm q).mpr ⟨hq,.inr hlt⟩,hqs,rfl⟩),hle⟩
      · exact ⟨_,mem_seenEpochs.mpr (.inr ⟨p,hp,rfl⟩),hle⟩
  · exact ⟨epoch,mem_seenEpochs.mpr (.inr hf),Nat.le_refl _⟩

theorem covered_compacted (hw : m.Wf)
    (hn : (m.disk fence).nextTrimmed prefixes m.trimmed = .ok next) :
    Covered m (m.compacted next) := by
  intro stream epoch he
  obtain hs | ⟨_,_,_,_,q,hq,_,hc⟩ := (nextTrimmed_spec hn).at_stream stream
  · refine ⟨epoch,?_,Nat.le_refl _⟩
    obtain ⟨r,hr,rfl,rfl⟩ | ⟨p,hp,rfl⟩ := mem_seenEpochs.mp he
    · refine mem_seenEpochs.mpr (.inl ⟨r,?_,rfl,rfl⟩)
      apply List.mem_filter.mpr
      refine ⟨hr,?_⟩
      rw [Option.all_eq_true]
      intro p hp
      rw [hs] at hp
      simpa using hw.above r hr p hp
    · exact mem_seenEpochs.mpr (.inr ⟨p,hs.trans hp,rfl⟩)
  · obtain ⟨highest,heq,hl⟩ := hw.covers he
    have hc' : highest ≤ q.writerEpoch := by simpa [NodeMaps.disk,heq] using hc
    exact ⟨_,mem_seenEpochs.mpr (.inr ⟨q,hq,rfl⟩),Nat.le_trans hl hc'⟩

theorem Covered.change (hw : m.Wf)
    (hk : m.keepsEpochs c = true) (hc : NodeMaps.Change c m m') : Covered m m' := by
  cases hc with
  | keeps records highestEpoch trimmed =>
    exact covered_of_subset (fun r hr => records ▸ hr) trimmed
  | adds fresh new records highestEpoch trimmed =>
    exact covered_of_subset (fun r hr => records ▸ List.mem_append_left _ hr) trimmed
  | withdraws stream fromLsn writerEpoch call positive above maps =>
    subst call maps
    exact covered_withdrawSuffix hk
  | compacts fence prefixes next trims maps =>
    subst maps
    exact covered_compacted hw trims

variable [DecidableEq β]

def NodeMaps.newRecords (m m' : NodeMaps σ β) : List (EncryptedRecord σ β) :=
  m'.records.filter fun r => decide (r ∉ m.records)

theorem NodeMaps.mem_newRecords : r ∈ m.newRecords m' ↔ r ∈ m'.records ∧ r ∉ m.records := by
  simp [NodeMaps.newRecords]

/-- The new records of a call have one epoch, not below the highest of their stream. -/
theorem NodeMaps.Change.newRecords (hc : NodeMaps.Change c m m') :
    (∀ r ∈ m.newRecords m', ∀ q ∈ m.newRecords m', r.writerEpoch = q.writerEpoch) ∧
      ∀ r ∈ m.newRecords m', (m.highestEpoch r.stream).getD 0 ≤ r.writerEpoch := by
  have hn (hs : ∀ r ∈ m'.records, r ∈ m.records) : ∀ r, r ∉ m.newRecords m' := by
    intro r hr
    obtain ⟨hr',hne⟩ := NodeMaps.mem_newRecords.mp hr
    exact hne (hs r hr')
  cases hc with
  | keeps records highestEpoch trimmed =>
    have h := hn fun r hr => records ▸ hr
    exact ⟨fun r hr => absurd hr (h r),fun r hr => absurd hr (h r)⟩
  | adds fresh new records highestEpoch trimmed =>
    have hf : ∀ r ∈ m.newRecords m', r ∈ fresh := by
      intro r hr
      obtain ⟨hr',hne⟩ := NodeMaps.mem_newRecords.mp hr
      rw [records] at hr'
      exact (List.mem_append.mp hr').resolve_left hne
    exact ⟨fun r hr q hq => (new.alike r (hf r hr) q (hf q hq)).2,
      fun r hr => new.fenced r (hf r hr)⟩
  | withdraws stream fromLsn writerEpoch call positive above maps =>
    subst maps
    have h := hn fun r hr => (List.mem_filter.mp hr).1
    exact ⟨fun r hr => absurd hr (h r),fun r hr => absurd hr (h r)⟩
  | compacts fence prefixes next trims maps =>
    subst maps
    have h := hn fun r hr => (List.mem_filter.mp hr).1
    exact ⟨fun r hr => absurd hr (h r),fun r hr => absurd hr (h r)⟩

namespace WatchedNode

variable (codec : LineCodec (LogEntry σ β)) (cap : Option Nat)

def new : WatchedNode σ β := ⟨.new, []⟩

def accepts (before after : NodeFile σ β) : List (EncryptedRecord σ β) :=
  match before.node, after.node with
  | .ok m, .ok m' => m.newRecords m'
  | _, _ => []

def step (s : WatchedNode σ β) (a : FileStep σ β) : Option (WatchedNode σ β) :=
  (s.file.step codec cap a).map fun file =>
    ⟨file, if a.isCrash then s.accepted else s.accepted ++ accepts s.file file⟩

def keepsLog : FileStep σ β → Bool
  | .crash _ kept => kept == 0
  | _ => true

def keepsEpochs (s : WatchedNode σ β) : FileStep σ β → Bool
  | .call c => !(s.file.attempt codec cap c).isOk ||
      s.file.node.toOption.all fun m => m.keepsEpochs c
  | _ => true

structure Covers (s : WatchedNode σ β) : Prop where
  tracked : s.file.Tracked codec
  whole : s.file.file = frames codec.encode 10 s.file.lines
  fenced : Fenced s.accepted
  covered : ∀ m, s.file.node = .ok m → ∀ r ∈ s.accepted,
    ∃ highest, m.highestEpoch r.stream = some highest ∧ r.writerEpoch ≤ highest

variable {codec cap}

theorem Covers.new : Covers codec (new : WatchedNode σ β) :=
  ⟨NodeFile.Tracked.new,rfl,List.Pairwise.nil,fun _ _ _ hr => absurd hr List.not_mem_nil⟩

theorem restart_agrees {f f' : NodeFile σ β} (ht : f.Tracked codec)
    (hw : f.file = frames codec.encode 10 f.lines) (hs : f.step codec cap (.crash c 0) = some f') :
    f'.file = f.file ∧ f'.lines = f.lines ∧ ∃ m n, f.node = .ok m ∧ f'.node = .ok n ∧ n.Agrees m := by
  obtain ⟨_,m,n,hm,_,hn,ha⟩ := ht
  have hno (entries : List (LogEntry σ β)) : completeWithin codec.encode entries 0 = [] := by
    cases entries with
    | nil => rfl
    | cons e rest =>
      have hp := List.length_pos_iff.mpr (codec.encode_ne_nil e)
      rw [completeWithin,if_neg (by omega)]
  have hr : f' = f.reopen codec := by
    simp only [NodeFile.step,List.take_zero,List.append_nil,hno,if_true] at hs
    split at hs <;> cases hs <;> rfl
  have ho : openInternal codec f.file = .ok (n,f.file) := by
    rw [hw,openInternal_frames,hn]
    rfl
  subst hr
  unfold NodeFile.reopen
  rw [ho]
  exact ⟨rfl,rfl,m,n,hm,rfl,ha⟩

/-- A call that keeps the epochs keeps them covered. -/
theorem Covers.change (h : Covers codec s) {file : NodeFile σ β} (ht : file.Tracked codec)
    (hw : file.file = frames codec.encode 10 file.lines)
    (hm : s.file.node = .ok m) (hm' : file.node = .ok m')
    (hk : m.keepsEpochs c = true) (hc : NodeMaps.Change c m m') :
    Covers codec ⟨file,s.accepted ++ accepts s.file file⟩ := by
  obtain ⟨_,m₁,_,hm₁,hwf,_⟩ := id h.tracked
  obtain ⟨_,m₂,_,hm₂,hw',_⟩ := id ht
  cases hm.symm.trans hm₁
  cases hm'.symm.trans hm₂
  have ha : accepts s.file file = m.newRecords m' := by
    rw [accepts,hm,hm']
  obtain ⟨hal,hf⟩ := hc.newRecords
  rw [ha]
  refine ⟨ht,hw,?_,?_⟩
  · apply List.pairwise_append.mpr
    refine ⟨h.fenced,?_,?_⟩
    · apply List.pairwise_of_forall_mem_list
      intro r hr q hq _
      exact Nat.le_of_eq (hal r hr q hq)
    · intro r hr q hq hs
      obtain ⟨highest,he,hl⟩ := h.covered m hm r hr
      have hq' := hf q hq
      rw [← hs,he] at hq'
      exact Nat.le_trans hl hq'
  · intro n hn r hr
    cases hm'.symm.trans hn
    obtain hr | hr := List.mem_append.mp hr
    · obtain ⟨highest,he,hl⟩ := h.covered m hm r hr
      obtain ⟨highest',he',hl'⟩ := (Covered.change hwf hk hc).highest hwf hw' he
      exact ⟨highest',he',Nat.le_trans hl hl'⟩
    · have hr' := (NodeMaps.mem_newRecords.mp hr).1
      exact hw'.covers (mem_seenEpochs.mpr (.inl ⟨r,hr',rfl,rfl⟩))

/-- Every step, starts among them, keeps the accepted epochs covered. -/
theorem Covers.step (h : Covers codec s) {a : FileStep σ β} (hlo : keepsLog a = true)
    (hkee : s.keepsEpochs codec cap a = true) (hs : step codec cap s a = some s') : Covers codec s' := by
  obtain ⟨file,hfi,rfl⟩ := Option.map_eq_some_iff.mp hs
  have ht := h.tracked.step (NodeFile.extendsOpenLine_of_whole h.whole a) hfi
  obtain ⟨_,m,_,hm,hw,_⟩ := id h.tracked
  cases a with
  | call c =>
    have hwh := NodeFile.whole_step h.whole (a := .call c) rfl hfi
    obtain hsa | ⟨m',w,ha,hc,hm'⟩ := NodeFile.call_maps hm hfi
    · exact h.change (c := .compactArchivedBatch []) ht hwh hm hsa rfl (.keeps rfl rfl rfl)
    · have hk : m.keepsEpochs c = true := by
        simpa [keepsEpochs,hm,ha,Except.isOk,Except.toBool,Except.toOption] using hkee
      exact h.change ht hwh hm hm' hk (NodeMaps.call_change hc)
  | fence marker =>
    have hwh := NodeFile.whole_step h.whole (a := .fence marker) rfl hfi
    cases hfi
    exact h.change (c := .compactArchivedBatch []) ht hwh hm hm rfl (.keeps rfl rfl rfl)
  | crash c kept =>
    have hk : kept = 0 := by simpa [keepsLog] using hlo
    subst hk
    obtain ⟨hf,hl,m₁,n,hm₁,hn,ha⟩ := restart_agrees h.tracked h.whole hfi
    refine ⟨ht,by rw [hf,hl]; exact h.whole,h.fenced,?_⟩
    intro n' hn' r hr
    cases hn.symm.trans hn'
    rw [ha.highestEpoch]
    exact h.covered m₁ hm₁ r hr

/-- In a run whose withdrawals all keep the epochs, no record is accepted below an earlier one
of its stream. -/
theorem fencing_is_permanent (h : Reachable (· = new) (step codec cap)
      (fun s a => keepsLog a = true ∧ s.keepsEpochs codec cap a = true) s) : Fenced s.accepted := by
  have hi : Covers codec s := by
    apply h.invariant
    · rintro _ rfl
      exact Covers.new
    · intro t a t' ht ha hs
      exact ht.step ha.1 ha.2 hs
  exact hi.fenced

/-- The second record is withdrawn, a newer writer takes its place, and the node starts again. -/
theorem fencing_is_permanent_over_a_restart : ∃ s : WatchedNode Nat Nat,
    Reachable (· = new) (step entryCodec none)
      (fun s a => keepsLog a = true ∧ s.keepsEpochs entryCodec none a = true) s ∧
    s.accepted.map (·.writerEpoch) = [1, 1, 2] ∧ Fenced s.accepted := by
  exact Reachable.exists_of_runs rfl
    [.call (.appendMany (fun _ => false) none true [⟨0,1,1,0,7⟩,⟨0,1,2,1,8⟩]),
      .call (.supersede 0 2 2),.crash (.supersede 0 2 2) 0,
      .call (.append (fun _ => false) none ⟨0,2,2,1,9⟩)] rfl
    fun hr => ⟨by decide,fencing_is_permanent hr⟩

/-- The only record of a stream, of epoch 5, is withdrawn by a writer of epoch 6. The node then
accepts a record of epoch 1. -/
theorem withdrawal_forgets_an_epoch : ¬ ∀ s : WatchedNode Nat Nat,
    Reachable (· = new) (step entryCodec none) (fun _ a => keepsLog a = true) s →
      Fenced s.accepted := by
  intro ha
  have hr := ha _ (.of_start rfl
    [.call (.append (fun _ => false) none ⟨0,5,1,0,7⟩),.call (.supersede 0 1 6),
      .call (.append (fun _ => false) none ⟨0,1,1,0,8⟩)] rfl)
  have hf := hr
  have hl := (List.pairwise_cons.mp hf).1 ⟨0,1,1,0,8⟩ (by decide) rfl
  exact absurd hl (by decide)

end WatchedNode

end Walleye.Bitr
