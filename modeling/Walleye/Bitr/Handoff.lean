import Walleye.Bitr.Sealing
import Walleye.Bitr.StreamCutover

namespace Walleye.Bitr

open Walleye.Base

/-- A stream's gate on a member, with the batches that entered and did not land yet. -/
structure Admission (σ β : Type) where
  gate : Gate
  leases : List (List (EncryptedRecord σ β))

/-- A stream cutover in flight: the answers to its fence and to its snapshot request, the archive
head it read, and the archive records past it. -/
structure StreamCutover (σ β : Type) where
  stream : σ
  transition : PlacementEpoch
  fenced : Fin 3 → Option Bool
  heard : Fin 3 → Option (Option (NodeSnapshot σ β))
  before : Option Nat
  archived : Option (List (EncryptedRecord σ β))

structure CutoverTail (σ β : Type) where
  stream : σ
  snapshots : Fin 3 → Option (NodeSnapshot σ β)
  before : Nat
  archived : List (EncryptedRecord σ β)
  records : List (EncryptedRecord σ β)
  next : Nat

structure Successor (σ : Type) where
  stream : σ
  startLsn : Nat
deriving DecidableEq, Repr

structure Handoff (σ β : Type) where
  cohort : Cohort σ β
  admissions : Fin 3 → σ → Admission σ β
  installed : List (Fin 3 × σ × PlacementEpoch)
  cutovers : List (StreamCutover σ β)
  tails : List (CutoverTail σ β)
  successors : List (Successor σ)

/-- Every append carries the source route's placement: a part of a fan-out, a retry, or the copy of
a catch-up. A fence request reaches a member at any time, also after its coordinator gave it up. -/
inductive HandoffStep (σ β : Type) where
  | cohort (a : CohortStep σ β)
  | admitBatch (m : Fin 3) (batch : List (EncryptedRecord σ β))
  | land (m : Fin 3) (stream : σ) (i : Nat)
  | install (m : Fin 3) (stream : σ) (p : PlacementEpoch)
  | drain (m : Fin 3) (stream : σ)
  | publish (limit : Nat) (stream : σ) (records : List (EncryptedRecord σ β))
  | compact (m : Fin 3) (heads : List (σ × Nat))
  | cutover (stream : σ) (seen : List Nat) (digest : String)
  | fenced (i : Nat) (m : Fin 3)
  | unfenced (i : Nat) (m : Fin 3)
  | hear (i : Nat) (m : Fin 3)
  | miss (i : Nat) (m : Fin 3)
  | readHead (i : Nat)
  | readArchive (i : Nat)
  | certify (i : Nat)
  | archive (i limit : Nat)
  | finish (i : Nat)
  | resume (i : Nat)

variable {σ β : Type}

def Handoff.empty : Handoff σ β := ⟨.empty, fun _ _ => ⟨.new, []⟩, [], [], [], []⟩

def Handoff.setMembers (s : Handoff σ β) (members : Members σ β) : Handoff σ β :=
  { s with cohort := { s.cohort with members } }

def Handoff.setCutover (s : Handoff σ β) (i : Nat) (t : StreamCutover σ β) : Handoff σ β :=
  { s with cutovers := s.cutovers.set i t }

def CohortStep.Appendless : CohortStep σ β → Bool
  | .append .. | .copy .. => false
  | .begin .. | .read .. | .miss .. | .decide .. | .withdraw .. | .report .. => true

/-- The fence of a cutover is answered by a quorum, and nobody's answer is awaited. -/
def StreamCutover.Fenced (t : StreamCutover σ β) : Prop :=
  (∀ m, (t.fenced m).isSome = true) ∧ ackQuorum ≤ countOf fun m => t.fenced m = some true

instance (t : StreamCutover σ β) : Decidable t.Fenced :=
  inferInstanceAs (Decidable (_ ∧ _))

/-- A cutover taken up again from its claim: the fence stands, the rest starts over. -/
def StreamCutover.again (t : StreamCutover σ β) : StreamCutover σ β :=
  { t with heard := fun _ => none, before := none, archived := none }

variable [DecidableEq σ]

def Handoff.setAdmission (s : Handoff σ β) (m : Fin 3) (stream : σ) (a : Admission σ β) :
    Handoff σ β :=
  { s with
    admissions := Function.update s.admissions m (Function.update (s.admissions m) stream a) }

theorem Handoff.setAdmission_at (s : Handoff σ β) (m m' : Fin 3) (stream stream' : σ)
    (a : Admission σ β) : (s.setAdmission m stream a).admissions m' stream' =
      if m' = m ∧ stream' = stream then a else s.admissions m' stream' := by
  by_cases hm : m' = m
  · subst hm
    by_cases hs : stream' = stream
    · subst hs
      simp [Handoff.setAdmission]
    · simp [Handoff.setAdmission,hs]
  · simp [Handoff.setAdmission,hm]

variable [DecidableEq β] (route : σ → SourceRoute)

def starts (stream : σ) : Nat := (route stream).startLsn

def Handoff.step (s : Handoff σ β) : HandoffStep σ β → Option (Handoff σ β)
  | .cohort a =>
    if a.Appendless then (s.cohort.step (starts route) a).map fun cohort => { s with cohort }
    else none
  | .admitBatch m batch => (validateAppendBatch batch).toOption.bind fun _ =>
    batch.head?.bind fun r =>
      let a := s.admissions m r.stream
      (a.gate.admitLease (route r.stream).placement).toOption.map fun gate =>
        s.setAdmission m r.stream ⟨gate, a.leases ++ [batch]⟩
  | .land m stream i =>
    let a := s.admissions m stream
    a.leases[i]?.map fun batch =>
      let members := (s.cohort.members.append (starts route) m batch).toOption.getD s.cohort.members
      (s.setMembers members).setAdmission m stream ⟨a.gate.release, a.leases.eraseIdx i⟩
  | .install m stream p =>
    let a := s.admissions m stream
    if a.gate.next.isSome then none
    else (a.gate.installFence p).toOption.map fun gate =>
      let s := s.setAdmission m stream { a with gate }
      if gate.placement = p then { s with installed := (m, stream, p) :: s.installed } else s
  | .drain m stream =>
    let a := s.admissions m stream
    a.gate.drain.map fun gate =>
      { s.setAdmission m stream { a with gate } with
        installed := (m, stream, gate.placement) :: s.installed }
  | .publish limit stream records =>
    (s.cohort.members.publish limit stream records).toOption.map s.setMembers
  | .compact m heads => (s.cohort.members.compact m heads).toOption.map s.setMembers
  | .cutover stream seen digest =>
    let epoch := seen.foldl max (route stream).placement.epoch + 1
    some { s with cutovers := s.cutovers ++
      [⟨stream, ⟨epoch, digest⟩, fun _ => none, fun _ => none, none, none⟩] }
  | .fenced i m => s.cutovers[i]?.bind fun t =>
    if (t.fenced m).isNone ∧ (m, t.stream, t.transition) ∈ s.installed then
      some (s.setCutover i { t with fenced := Function.update t.fenced m (some true) })
    else none
  | .unfenced i m => s.cutovers[i]?.bind fun t =>
    if (t.fenced m).isNone then
      some (s.setCutover i { t with fenced := Function.update t.fenced m (some false) })
    else none
  | .hear i m => s.cutovers[i]?.bind fun t =>
    if t.Fenced ∧ t.before.isNone ∧ (t.heard m).isNone then
      some (s.setCutover i
        { t with heard := Function.update t.heard m (some (some (s.cohort.members.nodes m).snapshot)) })
    else none
  | .miss i m => s.cutovers[i]?.bind fun t =>
    if t.Fenced ∧ t.before.isNone ∧ (t.heard m).isNone then
      some (s.setCutover i { t with heard := Function.update t.heard m (some none) })
    else none
  | .readHead i => s.cutovers[i]?.bind fun t => (allHeard t.heard).bind fun _ =>
    if t.before.isNone then
      some (s.setCutover i { t with before := some (headLsn (s.cohort.members.archive t.stream)) })
    else none
  | .readArchive i => s.cutovers[i]?.bind fun t => t.before.bind fun before =>
    if t.archived.isNone then
      some (s.setCutover i
        { t with archived := some (archiveRecover (s.cohort.members.archive t.stream) before) })
    else none
  | .certify i => s.cutovers[i]?.bind fun t => (allHeard t.heard).bind fun snapshots =>
    t.before.bind fun before => t.archived.bind fun archived =>
      (certifyCutover (ownsRange (starts route)) snapshots t.stream (route t.stream) before
        archived).toOption.map fun (records, next) =>
          { s with tails := s.tails ++ [⟨t.stream, snapshots, before, archived, records, next⟩] }
  | .archive i limit => s.tails[i]?.bind fun v =>
    (s.cohort.members.publish limit v.stream
      (v.records.filter fun r => decide (v.before < r.lsn))).toOption.map s.setMembers
  | .finish i => s.tails[i]?.bind fun v =>
    if headLsn (s.cohort.members.archive v.stream) < v.next - 1 then none
    else some { s with
      successors := ⟨v.stream, max (v.next - 1 + 1) (route v.stream).startLsn⟩ :: s.successors }
  | .resume i => s.cutovers[i]?.map fun t => { s with cutovers := s.cutovers ++ [t.again] }

instance (s : Members σ β) (r : EncryptedRecord σ β) : Decidable (s.Acked r) :=
  have : DecidablePred fun m => AcceptedIn s.answered m r := fun m =>
    decidable_of_iff (∃ x ∈ s.answered, x.1 = m ∧ r ∈ x.2) (by
      constructor
      · rintro ⟨⟨a, batch⟩, hx, rfl, hr⟩
        exact ⟨batch, hx, hr⟩
      · rintro ⟨batch, hb, hr⟩
        exact ⟨(m, batch), hb, rfl, hr⟩)
  inferInstanceAs (Decidable (TwoOf _))

def Cohort.WithdrawsAcknowledged (c : Cohort σ β) : CohortStep σ β → Prop
  | .withdraw i => ∀ t ∈ c.catchUps[i]?, ∀ plan ∈ t.plan, ∀ p ∈ plan.supersede,
    c.members.Holds t.member t.stream p.1 →
      ∀ r ∈ c.members.archive t.stream, r.lsn = p.1 → c.members.Acked r
  | _ => True

instance (c : Cohort σ β) : DecidablePred c.WithdrawsAcknowledged := fun a =>
  match a with
  | .withdraw _ => inferInstanceAs (Decidable (∀ t ∈ _, _))
  | .append .. | .begin .. | .read .. | .miss .. | .decide .. | .copy .. | .report .. =>
    instDecidableTrue

def Handoff.Certain (s : Handoff σ β) : HandoffStep σ β → Prop
  | .cohort a => s.cohort.WithdrawsOutranked (starts route) a ∧ s.cohort.WithdrawsAcknowledged a
  | .publish limit stream records =>
    ∀ r ∈ nextSegment limit (s.cohort.members.archive stream) records, starts route stream ≤ r.lsn →
      TwoOf fun m => r ∈ (s.cohort.members.nodes m).records
  | .hear i m => ∀ t ∈ s.cutovers[i]?,
    (s.admissions m t.stream).gate.Past (route t.stream).placement
  | _ => True

instance (s : Handoff σ β) : DecidablePred (s.Certain route) := fun a =>
  match a with
  | .cohort a => inferInstanceAs (Decidable
      (s.cohort.WithdrawsOutranked (starts route) a ∧ s.cohort.WithdrawsAcknowledged a))
  | .publish _ _ _ => inferInstanceAs (Decidable (∀ r ∈ _, _))
  | .hear i _ => inferInstanceAs (Decidable (∀ t ∈ s.cutovers[i]?, _))
  | .admitBatch .. | .land .. | .install .. | .drain .. | .compact .. | .cutover .. | .fenced ..
  | .unfenced .. | .miss .. | .readHead .. | .readArchive .. | .certify .. | .archive ..
  | .finish .. | .resume .. => instDecidableTrue

def Handoff.Safe (s : Handoff σ β) : Prop :=
  ∀ x ∈ s.successors, ∀ r, s.cohort.members.Acked r → r.stream = x.stream →
    r.lsn < x.startLsn ∧ r ∈ s.cohort.members.archive r.stream

end Walleye.Bitr
