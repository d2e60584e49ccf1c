import Walleye.Archive.Publish
import Walleye.Bitr.Archive

namespace Walleye.Archive

open Walleye.Base Walleye.Bitr
open Walleye.Engine (u64Max saturatingAdd)

variable {σ β κ δ ω : Type}

/-- The head a reader of the version after `seen` writes finds. -/
def headAt (heads : List (ArchiveHead σ κ δ)) (stream : σ) (seen : Nat) : ArchiveHead σ κ δ :=
  (valueAt heads seen).getD (.empty stream)

theorem headAt_append (h : seen ≤ heads.length) (more : List (ArchiveHead σ κ δ)) :
    headAt (heads ++ more) stream seen = headAt heads stream seen := by
  rw [headAt,headAt,valueAt_append h]

theorem headAt_concat (heads : List (ArchiveHead σ κ δ)) (next : ArchiveHead σ κ δ) (stream : σ) :
    headAt (heads ++ [next]) stream (heads ++ [next]).length = next := by
  rw [headAt,valueAt_length]
  simp

def Keeps (object object' : κ → Option ω) : Prop :=
  ∀ key bytes, object key = some bytes → object' key = some bytes

theorem Keeps.rfl : Keeps object object := fun _ _ h => h

section Layout

variable {stream : σ}
  {head : ArchiveHead σ κ δ} {records batch : List (EncryptedRecord σ β)}
  {batches : List (List (EncryptedRecord σ β))}

theorem Holds.keeps (h : Holds codec object stream head records batches)
    (hk : Keeps object object') : Holds codec object' stream head records batches :=
  { h with stored := fun b hb => ⟨(h.stored b hb).1,hk _ _ (h.stored b hb).2⟩ }

/-- The head after a batch holds the records and the batch. -/
theorem Holds.extend (h : Holds config.codec object stream head records batches) (hn : batch ≠ [])
    (hr : Run stream (head.archivedLsn + 1) head.writerEpoch batch)
    (hs : Stored config.codec object stream batch) :
    Holds config.codec object stream (ArchiveStore.extend config head stream batch)
      (records ++ batch) (batches ++ [batch]) := by
  have hl := (hr.last hn).1
  constructor
  case named => exact h.named
  case archived =>
    simp only [ArchiveStore.extend,segmentRef,List.length_append]
    have := h.archived
    omega
  case epoch =>
    simp only [ArchiveStore.extend,lastEpoch_append]
    rw [h.epoch]
  case listed => simp [ArchiveStore.extend,h.listed]
  case flat => simp [h.flat]
  case stored =>
    intro b hb
    obtain hb | hb := List.mem_append.mp hb
    · exact h.stored b hb
    · rw [List.mem_singleton.mp hb]
      exact ⟨hn,hs⟩
  case run =>
    apply Run.append.mpr
    refine ⟨h.run,?_⟩
    rw [← h.epoch,Nat.add_comm 1,← h.archived]
    exact hr

theorem Holds.archived_lt (h : Holds codec object stream head records batches) :
    head.archivedLsn < u64Max := by
  rw [h.archived]
  cases hn : records with
  | nil => exact (by decide : 0 < u64Max)
  | cons r rest =>
    have hn' : records ≠ [] := by simp [hn]
    obtain ⟨hl,hm⟩ := h.run.last hn'
    rw [← hn]
    omega

end Layout

theorem run_of_chain (hc : (r :: rest).IsChain Succeeds)
    (hs : ∀ q ∈ r :: rest, q.stream = stream) (hb : ∀ q ∈ r :: rest, q.lsn < u64Max)
    (hl : r.lsn = expected) (hco : r.committedLsn = expected - 1)
    (he : epoch ≤ r.writerEpoch) : Run stream expected epoch (r :: rest) := by
  induction rest generalizing r expected epoch with
  | nil =>
    exact ⟨⟨hs r List.mem_cons_self,hl,hco,he,hb r List.mem_cons_self⟩,
      trivial⟩
  | cons q rest ih =>
    obtain ⟨⟨hn,hli,hla⟩,hr⟩ := List.isChain_cons_cons.mp hc
    refine ⟨⟨hs r List.mem_cons_self,hl,hco,he,hb r List.mem_cons_self⟩,
      ?_⟩
    exact ih hr (fun x hx => hs x (List.mem_cons_of_mem _ hx))
      (fun x hx => hb x (List.mem_cons_of_mem _ hx)) (by omega) (by omega) hla

structure CallSound (call : Call σ β) : Prop where
  stream : ∀ r ∈ call.records, r.stream = call.stream
  chain : call.records.IsChain Succeeds
  below : ∀ r ∈ call.records, r.lsn < u64Max

theorem chain_of_checkWindows {records : List (EncryptedRecord σ β)}
    (hb : ∀ r ∈ records, r.lsn < u64Max) (h : checkWindows (κ := κ) records = .ok ()) :
    records.IsChain Succeeds := by
  induction records with
  | nil => exact .nil
  | cons r rest ih =>
    cases rest with
    | nil => exact .singleton r
    | cons q rest =>
      simp only [checkWindows,guard_ok,not_or,not_not,Nat.not_lt,ne_eq] at h
      obtain ⟨⟨hl,hc,he⟩,hre⟩ := h
      have hr := hb r List.mem_cons_self
      apply List.isChain_cons_cons.mpr
      refine ⟨⟨?_,hc,he⟩,ih (fun x hx => hb x (List.mem_cons_of_mem _ hx)) hre⟩
      unfold saturatingAdd at hl
      omega

structure Prepared (heads : List (ArchiveHead σ κ δ)) (stream : σ) (head : ArchiveHead σ κ δ)
    (seen : Nat) (batch : List (EncryptedRecord σ β)) : Prop where
  known : seen ≤ heads.length
  read : head = headAt heads stream seen
  ne_nil : batch ≠ []
  run : Run stream (head.archivedLsn + 1) head.writerEpoch batch

theorem Prepared.append
    (h : Prepared heads stream head seen batch) (more : List (ArchiveHead σ κ δ)) :
    Prepared (heads ++ more) stream head seen batch where
  known := by
    rw [List.length_append]
    exact Nat.le_add_right_of_le h.known
  read := by
    rw [headAt_append h.known]
    exact h.read
  ne_nil := h.ne_nil
  run := h.run

namespace ArchiveStore

variable (config : ArchiveConfig σ β κ δ ω)

def PointSound (s : ArchiveStore σ β κ δ ω) (call : Call σ β) : Point σ β κ δ → Prop
  | .loading => True
  | .putting head seen batch => Prepared (s.heads call.stream) call.stream head seen batch
  | .publishing next seen batch =>
    ∃ head, Prepared (s.heads call.stream) call.stream head seen batch ∧
      next = extend config head call.stream batch ∧
      Stored config.codec s.object call.stream batch

def TaskSound (s : ArchiveStore σ β κ δ ω) : Task σ β κ δ → Prop
  | .returned _ => True
  | .running call point => CallSound call ∧ PointSound config s call point

/-- What holds in every state: each stream's head holds exactly what was published, and every call
is prepared from a head that was stored. -/
structure Sound (s : ArchiveStore σ β κ δ ω) : Prop where
  current : ∀ stream, ∃ batches, Holds config.codec s.object stream
    (headAt (s.heads stream) stream (s.heads stream).length) (s.published stream) batches
  grows : ∀ stream, (s.heads stream).IsChain (·.segments <+: ·.segments)
  tasks : ∀ task ∈ s.tasks, TaskSound config s task
  addressed : ∀ key bytes, s.object key = some bytes →
    ∃ stream first last, key = config.codec.segmentKey stream first last (config.codec.digest bytes)

variable {config} {s s' : ArchiveStore σ β κ δ ω}

/-- A call under way stays sound while objects are added and heads appended. -/
theorem TaskSound.later (h : TaskSound config s task) (ho : Keeps s.object s'.object)
    (hh : ∀ stream, ∃ more, s'.heads stream = s.heads stream ++ more) :
    TaskSound config s' task := by
  cases task with
  | returned result => trivial
  | running call point =>
    refine ⟨h.1,?_⟩
    obtain ⟨more,hm⟩ := hh call.stream
    cases point with
    | loading => trivial
    | putting head seen batch =>
      have hp : Prepared (s.heads call.stream) call.stream head seen batch := h.2
      change Prepared (s'.heads call.stream) call.stream head seen batch
      rw [hm]
      exact hp.append more
    | publishing next seen batch =>
      obtain ⟨head,hp,hn,hs⟩ := h.2
      refine ⟨head,?_,hn,ho _ _ hs⟩
      rw [hm]
      exact hp.append more

theorem TaskSound.orLost (h : TaskSound config s task) (reply : Reply) :
    TaskSound config s (orLost reply task) := by
  unfold ArchiveStore.orLost
  split
  · exact h
  · trivial

theorem TaskSound.afterUpdate (h : CallSound call) (updated : Option Nat) :
    TaskSound config s (afterUpdate call updated) := by
  unfold ArchiveStore.afterUpdate
  split <;> split <;> first | trivial | exact ⟨⟨h.stream,h.chain,h.below⟩,trivial⟩

theorem Sound.tasks_set (hs : Sound config s) (s' : ArchiveStore σ β κ δ ω)
    (ho : Keeps s.object s'.object)
    (hh : ∀ stream, ∃ more, s'.heads stream = s.heads stream ++ more)
    (hse : s'.tasks = s.tasks.set i task) (hta : TaskSound config s' task) :
    ∀ t ∈ s'.tasks, TaskSound config s' t := by
  intro t ht
  rw [hse] at ht
  obtain ht | rfl := List.mem_or_eq_of_mem_set ht
  · exact (hs.tasks t ht).later ho hh
  · exact hta

theorem sound_new : Sound config (new : ArchiveStore σ β κ δ ω) where
  current stream := ⟨[],Holds.empty config.codec _⟩
  grows _ := .nil
  tasks := by simp [new]
  addressed := by simp [new]

/-- What a call chooses to archive follows the head that it read. -/
theorem choose_sound (hc : CallSound call)
    (hr : head = headAt (s.heads call.stream) call.stream (s.heads call.stream).length)
    (hro : head.archivedLsn < u64Max) :
    TaskSound config s (choose config call head (s.heads call.stream).length) := by
  have he : saturatingAdd head.archivedLsn 1 = head.archivedLsn + 1 := by
    unfold saturatingAdd
    omega
  unfold choose
  simp only [he]
  split
  · trivial
  · rename_i first rest hrem
    split
    · trivial
    · rename_i hf
      simp only [not_or,not_not,Nat.not_lt] at hf
      obtain ⟨hl,hco,hep⟩ := hf
      have hs := filter_suffix_of_chain hc.chain head.archivedLsn
      have heq : (call.records.filter fun r => decide (head.archivedLsn < r.lsn)) =
        first :: rest := hrem
      rw [heq] at hs
      have hru : Run call.stream (head.archivedLsn + 1) head.writerEpoch (first :: rest) :=
        run_of_chain (hc.chain.suffix hs) (fun q hq => hc.stream q (hs.subset hq))
          (fun q hq => hc.below q (hs.subset hq)) hl hco hep
      have hp := config.maxRecordsPerSegment_pos
      refine ⟨hc,Nat.le_refl _,hr,?_,?_⟩
      · rw [Ne,List.take_eq_nil_iff]
        simp
        omega
      · rw [← List.take_append_drop config.maxRecordsPerSegment (first :: rest)] at hru
        exact (Run.append.mp hru).1

section Objects

variable [DecidableEq κ] [DecidableEq ω]

/-- Storing a segment adds its object and changes no other. -/
theorem putSegment_spec {object : κ → Option ω}
    (h : s.putSegment config stream batch = .ok object) :
    Keeps s.object object ∧ Stored config.codec object stream batch ∧
      ∀ key bytes, object key = some bytes → s.object key = some bytes ∨
        (key = (segmentRef config.codec stream batch).key ∧
          bytes = config.codec.encode (.ofBatch stream batch)) := by
  unfold putSegment at h
  simp only at h
  split at h
  · rename_i hn
    cases h
    refine ⟨?_,by simp [Stored],?_⟩
    · intro key bytes hk
      rw [Function.update_of_ne]
      · exact hk
      · rintro rfl
        rw [hn] at hk
        cases hk
    · intro key bytes hk
      by_cases he : key = (segmentRef config.codec stream batch).key
      · subst he
        rw [Function.update_self] at hk
        exact .inr ⟨rfl,(Option.some.inj hk).symm⟩
      · rw [Function.update_of_ne he] at hk
        exact .inl hk
  · rename_i existing hs
    simp only [guard_ok,not_not,ne_eq] at h
    obtain ⟨hb,h⟩ := h
    cases h
    exact ⟨.rfl,by rw [Stored,hs,hb],fun _ _ hk => .inl hk⟩

/-- A stored segment keeps the archive sound; no head names it yet. -/
theorem Sound.put {object : κ → Option ω}
    (hs : Sound config s) (hp : s.putSegment config stream batch = .ok object)
    (ht : TaskSound config { s with object := object, tasks := s.tasks.set i task } task) :
    Sound config { s with object := object, tasks := s.tasks.set i task } := by
  obtain ⟨hkee,-,ho⟩ := putSegment_spec hp
  constructor
  case current =>
    intro stream'
    obtain ⟨batches,hh⟩ := hs.current stream'
    exact ⟨batches,hh.keeps hkee⟩
  case grows => exact hs.grows
  case tasks =>
    exact hs.tasks_set { s with object := object, tasks := s.tasks.set i task } hkee
      (fun _ => ⟨[],(List.append_nil _).symm⟩) rfl ht
  case addressed =>
    intro key bytes hk
    obtain hol | ⟨rfl,rfl⟩ := ho key bytes hk
    · exact hs.addressed key bytes hol
    · exact ⟨stream,_,_,rfl⟩

end Objects

variable [DecidableEq σ]

theorem loadHead_eq (hs : Sound config s) (stream : σ) :
    loadHead config.codec s.contents stream =
      .ok (headAt (s.heads stream) stream (s.heads stream).length) := by
  obtain ⟨batches,hh⟩ := hs.current stream
  have hn := hh.named
  rw [headAt,valueAt_length] at hn ⊢
  unfold loadHead contents
  cases hl : (s.heads stream).getLast? with
  | none => simp [hl]
  | some head =>
    rw [hl] at hn
    simp only [Option.getD_some] at hn
    simp [hl,hn]

theorem start_sound {records : List (EncryptedRecord σ β)} (hb : ∀ r ∈ records, r.lsn < u64Max) :
    TaskSound config s (start config records) := by
  unfold start
  split
  · trivial
  · rename_i first rest
    split
    · trivial
    · rename_i hs
      simp only [not_or,not_exists,not_and,not_not] at hs
      split
      · trivial
      · rename_i hw
        exact ⟨⟨hs.2,chain_of_checkWindows hb hw,hb⟩,trivial⟩

/-- A head that wins its compare-and-swap appends exactly its batch. -/
theorem Sound.update {call : Call σ β}
    {heads : List (ArchiveHead σ κ δ)} (hs : Sound config s)
    (hp : Prepared (s.heads call.stream) call.stream head seen batch)
    (hn : next = extend config head call.stream batch)
    (hst : Stored config.codec s.object call.stream batch)
    (hpu : putIf (s.heads call.stream) seen next = some heads)
    (ht : ∀ s', TaskSound config s' task) :
    Sound config { s with
      heads := Function.update s.heads call.stream heads,
      published := Function.update s.published call.stream (s.published call.stream ++ batch),
      tasks := s.tasks.set i task } := by
  obtain ⟨hse,rfl⟩ := putIf_eq_some.mp hpu
  have hr := hp.read
  rw [← hse] at hr
  constructor
  case current =>
    intro stream
    by_cases he : stream = call.stream
    · subst he
      obtain ⟨batches,hh⟩ := hs.current call.stream
      rw [← hr] at hh
      refine ⟨batches ++ [batch],?_⟩
      simp only [Function.update_self]
      rw [headAt_concat,hn]
      exact hh.extend hp.ne_nil hp.run hst
    · simpa only [Function.update_of_ne he] using hs.current stream
  case grows =>
    intro stream
    by_cases he : stream = call.stream
    · subst he
      simp only [Function.update_self]
      apply List.isChain_append.mpr
      refine ⟨hs.grows call.stream,.singleton next,?_⟩
      intro last hl y hy
      rw [headAt,valueAt_length,hl] at hr
      cases hy
      rw [hn,hr]
      exact List.prefix_append _ _
    · simpa only [Function.update_of_ne he] using hs.grows stream
  case tasks =>
    refine hs.tasks_set _ .rfl ?_ rfl (ht _)
    intro stream
    by_cases he : stream = call.stream
    · subst he
      exact ⟨[next],by simp⟩
    · exact ⟨[],by simp [Function.update_of_ne he]⟩
  case addressed => exact hs.addressed

variable [DecidableEq κ] [DecidableEq ω]

/-- Every point of a call keeps the archive sound. -/
theorem Sound.stepPoint (hs : Sound config s) (ht : TaskSound config s (.running call point)) :
    Sound config (s.stepPoint config i reply call point) := by
  have hse : ∀ task, TaskSound config s task →
      Sound config { s with tasks := s.tasks.set i task } := by
    intro task ht
    refine ⟨hs.current,hs.grows,?_,hs.addressed⟩
    exact hs.tasks_set { s with tasks := s.tasks.set i task } .rfl
      (fun _ => ⟨[],(List.append_nil _).symm⟩) rfl
      (ht.later .rfl fun _ => ⟨[],(List.append_nil _).symm⟩)
  obtain ⟨hc,hp⟩ := ht
  cases point with
  | loading =>
    obtain ⟨batches,hh⟩ := hs.current call.stream
    simp only [ArchiveStore.stepPoint,loadHead_eq hs]
    exact hse _ ((choose_sound hc rfl hh.archived_lt).orLost reply)
  | putting head seen batch =>
    simp only [ArchiveStore.stepPoint]
    split
    · exact hse _ trivial
    · split
      · rename_i e _
        have hf : TaskSound config s (.returned (.error e)) := trivial
        exact hse _ (hf.orLost reply)
      · rename_i object hpu
        apply hs.put hpu
        apply TaskSound.orLost
        exact ⟨hc,head,hp,rfl,(putSegment_spec hpu).2.1⟩
  | publishing next seen batch =>
    obtain ⟨head,hpr,hn,hst⟩ := hp
    simp only [ArchiveStore.stepPoint]
    split
    · exact hse _ trivial
    · split
      · exact hse _ ((TaskSound.afterUpdate hc none).orLost reply)
      · rename_i heads hpu
        apply hs.update hpr hn hst hpu
        intro s'
        exact (TaskSound.afterUpdate hc _).orLost reply

def BelowLastLsn (_ : ArchiveStore σ β κ δ ω) : Step σ β → Prop
  | .call records => ∀ r ∈ records, r.lsn < u64Max
  | .resume _ _ => True

instance (s : ArchiveStore σ β κ δ ω) : DecidablePred (BelowLastLsn s)
  | .call records => inferInstanceAs (Decidable (∀ r ∈ records, r.lsn < u64Max))
  | .resume _ _ => instDecidableTrue

/-- Every step keeps the archive sound, below the last LSN. -/
theorem Sound.step (hs : Sound config s) (ho : BelowLastLsn s a)
    (h : ArchiveStore.step config s a = some s') : Sound config s' := by
  cases a with
  | call records =>
    cases h
    refine ⟨hs.current,hs.grows,?_,hs.addressed⟩
    intro task ht
    obtain ht | ht := List.mem_append.mp ht
    · exact (hs.tasks task ht).later .rfl fun _ => ⟨[],(List.append_nil _).symm⟩
    · rw [List.mem_singleton.mp ht]
      exact start_sound ho
  | resume i reply =>
    obtain ⟨task,ht,hst⟩ := Option.bind_eq_some_iff.mp h
    cases task with
    | returned result => cases hst
    | running call point =>
      cases hst
      exact hs.stepPoint (hs.tasks _ (List.mem_of_getElem? ht))

theorem Sound.reachable
    (h : Reachable (· = new) (ArchiveStore.step config) BelowLastLsn s) : Sound config s := by
  apply h.invariant
  · rintro s rfl
    exact sound_new
  · intro s a s' hs ho hst
    exact hs.step ho hst

variable [DecidableEq δ]

/-- The stored head validates, its segment list only ever grew, and the readers give back the
published records, which run from LSN 1 without a gap. -/
structure Refines (config : ArchiveConfig σ β κ δ ω) (s : ArchiveStore σ β κ δ ω) (stream : σ) :
    Prop where
  valid : ∀ head, (s.heads stream).getLast? = some head →
    validateHeadChain config.codec stream head = .ok ()
  grows : (s.heads stream).IsChain (·.segments <+: ·.segments)
  ordered : ∀ (i : Nat) (r : EncryptedRecord σ β), (s.published stream)[i]? = some r →
    r.stream = stream ∧ r.lsn = i + 1
  recovers : ∀ after, recover config.codec s.contents stream after =
    .ok ((s.published stream).filter fun r => decide (after < r.lsn))
  tails : ∀ after,
    ((s.published stream).length < after →
      ∃ e, archivedTail config.codec s.contents stream after = .error e) ∧
    (after ≤ (s.published stream).length →
      archivedTail config.codec s.contents stream after =
        .ok (((s.published stream).filter fun r => decide (after < r.lsn)).getLast?.map
          fun r => (r.lsn, r.writerEpoch)))

/-- In every run whose calls carry no record at the last LSN, the archive of every stream is the
log of what was published. -/
theorem archive_refines_log
    (h : Reachable (· = new) (ArchiveStore.step config) BelowLastLsn s) (stream : σ) :
    Refines config s stream := by
  have hs := Sound.reachable h
  obtain ⟨batches,hh⟩ := hs.current stream
  have hl := loadHead_eq hs stream
  constructor
  case valid =>
    intro head hhe
    rw [headAt,valueAt_length,hhe] at hh
    exact hh.validateHeadChain
  case grows => exact hs.grows stream
  case ordered =>
    intro i r hr
    obtain ⟨hst,hls,-,-⟩ := hh.run.place hr
    exact ⟨hst,by omega⟩
  case recovers => exact hh.recover s.contents hl
  case tails => exact hh.archivedTail s.contents hl

end ArchiveStore

namespace ArchiveStore

/-! The requests of a call that are answered, one after the other. -/

section Answered

variable [DecidableEq σ] [DecidableEq κ] [DecidableEq ω]
  {s : ArchiveStore σ β κ δ ω} {tasks : List (Task σ β κ δ)}

theorem reachable_resume (ho : ∀ s i reply, ok s (.resume i reply))
    (h : Reachable init (step config) ok s) (ht : s.tasks = tasks ++ [.running call point]) :
    Reachable init (step config) ok
      (s.stepPoint config tasks.length ⟨true,true⟩ call point) := by
  apply h.next (ho _ tasks.length ⟨true,true⟩)
  simp [step,ht]

theorem reachable_load (ho : ∀ s i reply, ok s (.resume i reply))
    (h : Reachable init (step config) ok s) (ht : s.tasks = tasks ++ [.running call .loading])
    (hl : loadHead config.codec s.contents call.stream = .ok head) :
    Reachable init (step config) ok
      { s with tasks := tasks ++ [choose config call head (s.heads call.stream).length] } := by
  have hn := reachable_resume ho h ht
  simpa [stepPoint,orLost,hl,ht] using hn

theorem reachable_put
    {object : κ → Option ω} (ho : ∀ s i reply, ok s (.resume i reply))
    (h : Reachable init (step config) ok s)
    (ht : s.tasks = tasks ++ [.running call (.putting head seen batch)])
    (hp : s.putSegment config call.stream batch = .ok object) :
    Reachable init (step config) ok
      { s with
        object := object,
        tasks := tasks ++
          [.running call (.publishing (extend config head call.stream batch) seen batch)] } := by
  have hn := reachable_resume ho h ht
  simpa [stepPoint,orLost,hp,ht] using hn

theorem reachable_publish
    (ho : ∀ s i reply, ok s (.resume i reply)) (h : Reachable init (step config) ok s)
    (ht : s.tasks = tasks ++
      [.running call (.publishing next (s.heads call.stream).length batch)]) :
    Reachable init (step config) ok
      { s with
        heads := Function.update s.heads call.stream (s.heads call.stream ++ [next]),
        published := Function.update s.published call.stream (s.published call.stream ++ batch),
        tasks := tasks ++ [afterUpdate call (some next.archivedLsn)] } := by
  have hn := reachable_resume ho h ht
  simpa [stepPoint,orLost,putIf,ht] using hn

end Answered

end ArchiveStore

section Exhaustion

def plainCodec : ArchiveCodec Nat Unit (Option (Nat × Nat × Nat × Segment Nat Unit))
    (Segment Nat Unit) (Segment Nat Unit) where
  encode := id
  decode := some
  digest := id
  hexDigest := fun _ => true
  headPath := fun _ => none
  segmentKey := fun stream first last digest => some (stream, first, last, digest)
  underStream := fun stream key => key.all fun parts => parts.1 == stream
  keyText := fun _ => "segment"
  decode_encode := fun _ => rfl
  digest_hex := fun _ => rfl
  segmentKey_under := by simp

def plainConfig (limit : Nat) (h : 0 < limit) : ArchiveConfig Nat Unit
    (Option (Nat × Nat × Nat × Segment Nat Unit)) (Segment Nat Unit) (Segment Nat Unit) :=
  ⟨plainCodec, fun _ => false, limit, h⟩

def recordAt (lsn : Nat) : EncryptedRecord Nat Unit := ⟨0, 1, lsn, lsn - 1, ()⟩

def delivered : Reply := ⟨true, true⟩

namespace ArchiveStore

/-- Two calls race: the second loses its head update, finds the first segment archived and adds
the rest. -/
theorem racing_calls_refine_log :
    ∃ s, Reachable (· = new) (ArchiveStore.step (plainConfig 2 (by decide))) BelowLastLsn s ∧
      s.published 0 = [recordAt 1, recordAt 2, recordAt 3] ∧
      Refines (plainConfig 2 (by decide)) s 0 := by
  exact Reachable.exists_of_runs rfl
    [.call [recordAt 1,recordAt 2],.call [recordAt 1,recordAt 2,recordAt 3],
      .resume 0 delivered,.resume 1 delivered,.resume 0 delivered,.resume 1 delivered,
      .resume 0 delivered,.resume 1 delivered,.resume 1 delivered,.resume 1 delivered,
      .resume 1 delivered] rfl fun hr => ⟨by decide,archive_refines_log hr 0⟩

theorem putSegment_plain (hs : Sound (plainConfig 1 (by decide)) s)
    (batch : List (EncryptedRecord Nat Unit)) :
    ∃ object, s.putSegment (plainConfig 1 (by decide)) 0 batch = .ok object := by
  unfold putSegment
  simp only
  split
  · exact ⟨_,rfl⟩
  · rename_i existing hso
    obtain ⟨stream,first,last,hk⟩ := hs.addressed _ _ hso
    have hsa : (Segment.ofBatch 0 batch : Segment Nat Unit) = existing := by
      simpa [segmentRef,plainConfig,plainCodec] using congrArg (·.map (·.2.2.2)) hk
    rw [if_neg]
    · exact ⟨_,rfl⟩
    · exact not_not.mpr hsa.symm

/-- The next record can always be published by one more call. -/
theorem publish_next (hs : Sound (plainConfig 1 (by decide)) s)
    (hl : (s.published 0).length = n) (he : lastEpoch 0 (s.published 0) ≤ 1)
    (hr : n < u64Max) (hc : ∀ s, ok s (.call [recordAt (n + 1)]))
    (hre : ∀ s i reply, ok s (.resume i reply))
    (h : Reachable (· = new) (ArchiveStore.step (plainConfig 1 (by decide))) ok s) :
    ∃ s', Reachable (· = new) (ArchiveStore.step (plainConfig 1 (by decide))) ok s' ∧
      s'.published 0 = s.published 0 ++ [recordAt (n + 1)] ∧
      ∃ head, (s'.heads 0).getLast? =
        some (extend (plainConfig 1 (by decide)) head 0 [recordAt (n + 1)]) := by
  obtain ⟨batches,hh⟩ := hs.current 0
  have hlo := loadHead_eq hs 0
  generalize headAt (s.heads 0) 0 (s.heads 0).length = head at hh hlo
  have ha : head.archivedLsn = n := hh.archived.trans hl
  have hw : head.writerEpoch ≤ 1 := hh.epoch ▸ he
  obtain ⟨object,hp⟩ := putSegment_plain hs [recordAt (n + 1)]
  have hst : start (plainConfig 1 (by decide)) [recordAt (n + 1)] =
      .running ⟨0,[recordAt (n + 1)],0⟩ .loading := by
    simp [start,plainConfig,checkWindows,recordAt]
  have hch : ∀ seen, choose (plainConfig 1 (by decide)) ⟨0,[recordAt (n + 1)],0⟩ head seen =
      .running ⟨0,[recordAt (n + 1)],0⟩ (.putting head seen [recordAt (n + 1)]) := by
    intro seen
    have hex : saturatingAdd n 1 = n + 1 := by
      unfold saturatingAdd
      omega
    simp [choose,ha,hex,recordAt,hw,plainConfig]
  have h1 := h.next (hc s) rfl
  rw [hst] at h1
  have h2 := reachable_load hre h1 rfl hlo
  rw [hch] at h2
  have h3 := reachable_put hre h2 rfl hp
  have h4 := reachable_publish hre h3 rfl
  exact ⟨_,h4,by simp,head,by simp⟩

theorem exists_published (n : Nat) (hn : n < u64Max) :
    ∃ s, Reachable (· = new) (ArchiveStore.step (plainConfig 1 (by decide))) BelowLastLsn s ∧
      (s.published 0).length = n ∧ lastEpoch 0 (s.published 0) ≤ 1 := by
  induction n with
  | zero => exact ⟨new,.start rfl,rfl,Nat.zero_le _⟩
  | succ n ih =>
    obtain ⟨s,hr,hl,he⟩ := ih (by omega)
    obtain ⟨s',hr',hp,-⟩ := publish_next (Sound.reachable hr) hl he
      (by omega) (by simp [BelowLastLsn,recordAt]; omega) (fun _ _ _ => trivial) hr
    exact ⟨s',hr',by simp [hp,hl],by simp [hp,lastEpoch,recordAt]⟩

/-- The last LSN can be published too, and then the head no longer validates. -/
theorem last_lsn_breaks_the_head :
    ¬ ∀ s, Reachable (· = new) (ArchiveStore.step (plainConfig 1 (by decide))) anyStep s →
      Refines (plainConfig 1 (by decide)) s 0 := by
  intro ha
  have hm : 0 < u64Max := by decide
  obtain ⟨s,hr,hl,he⟩ := exists_published (u64Max - 1) (by omega)
  have han : Reachable (· = new) (ArchiveStore.step (plainConfig 1 (by decide))) anyStep s :=
    hr.mono fun _ _ _ => trivial
  obtain ⟨s',hr',-,head,hh⟩ := publish_next (Sound.reachable hr) hl he
    (by omega) (fun _ => trivial) (fun _ _ _ => trivial) han
  have hv := (ha s' hr').valid _ hh
  have hla := validateHeadChain_lt hv
    (segmentRef (plainConfig 1 (by decide)).codec 0 [recordAt (u64Max - 1 + 1)])
    (by simp [extend])
  simp only [segmentRef,batchLast,recordAt,List.getLast?_singleton,Option.elim_some] at hla
  omega

end ArchiveStore

end Exhaustion

end Walleye.Archive
